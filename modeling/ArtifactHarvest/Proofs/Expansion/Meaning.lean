import ArtifactHarvest.Proofs.Expansion.Outset
import ArtifactHarvest.Proofs.Pattern.Splitting
import Mathlib

/-!
What a pattern without `..` matches. The walk finds only names that its segments take and that lead
to a file by way of directories it may enter (`finds_of_mem_matchesBelow`), and all of them where
every directory can be listed (`mem_matchesBelow_of_finds`). Which directories may be entered is
said for each policy on links (`reaches_iff_of_not_follows`, `reaches_iff_of_follows`). Main
statement: `mem_expand_iff`.
-/

namespace ArtifactHarvest

namespace View

variable {v : View}

/-- From a directory the names lead to a file, each but the last by way of a directory that the
branch may enter. -/
def Reaches (v : View) : Path → List Location → List Name → Prop
  | _, _, [] => False
  | dir, _, [n] => v.workspace.LeadsToFile (dir.child n)
  | dir, branch, n :: next :: more =>
      ∃ loc inner, v.classify (dir.child n) = .directory loc ∧
        v.enter? branch (dir.child n) loc = some inner ∧
        v.Reaches (dir.child n) inner (next :: more)

theorem reaches_cons_iff {dir : Path} {branch : List Location} {n : Name} {more : List Name}
    (hmore : more ≠ []) :
    v.Reaches dir branch (n :: more) ↔
      ∃ loc inner, v.classify (dir.child n) = .directory loc ∧
        v.enter? branch (dir.child n) loc = some inner ∧ v.Reaches (dir.child n) inner more := by
  cases more with
  | nil => exact absurd rfl hmore
  | cons next more => exact Iff.rfl

theorem Reaches.leadsToFile {dir : Path} {branch : List Location} {names : List Name}
    (h : v.Reaches dir branch names) :
    names ≠ [] ∧ v.workspace.LeadsToFile (dir.descend names) := by
  induction names generalizing dir branch with
  | nil => exact h.elim
  | cons n more ih =>
      refine ⟨List.cons_ne_nil n more, ?_⟩
      by_cases hmore : more = []
      · subst hmore
        exact h
      · obtain ⟨_, _, _, _, hrest⟩ := (reaches_cons_iff hmore).mp h
        exact (ih hrest).2

theorem lookup_of_classify {p : Path} {loc : Location} (h : v.classify p = .directory loc) :
    v.workspace.lookup false p = .ok (loc, .directory) := by
  cases hv : v.followsLinks with
  | true => exact (classify_eq_directory_iff_of_follows hv).mp h
  | false =>
      have htrue := (classify_eq_directory_iff hv).mp h
      rcases v.workspace.lookup_true_cases p with hsame | ⟨outer, target, hlink⟩
      · rw [← hsame, htrue]
      · rw [hlink] at htrue
        cases htrue

/-! ### What the segments find

The same rules as for the walk, with the names that a segment stands for in place of those that are
listed. -/

section

variable {segments rest : List Segment} {segment : Segment} {dir q : Path} {branch : List Location}

/-- The path is where names lead that the segments take. -/
def Finds (v : View) (segments : List Segment) (dir : Path) (branch : List Location) (q : Path) :
    Prop :=
  ∃ names, q = dir.descend names ∧ Segment.Takes segments names ∧ v.Reaches dir branch names

/-- The same inside an entry, when it is a directory that may be entered. -/
def FindsInside (v : View) (segments : List Segment) (p : Path) (branch : List Location)
    (q : Path) : Prop :=
  ∃ loc inner, v.classify p = .directory loc ∧ v.enter? branch p loc = some inner ∧
    v.Finds segments p inner q

/-- What is found inside an entry is led to by the entry's name and more. -/
theorem findsInside_iff (hsegments : segments ≠ []) {n : Name} :
    v.FindsInside segments (dir.child n) branch q ↔
      ∃ more, q = dir.descend (n :: more) ∧ Segment.Takes segments more ∧
        v.Reaches dir branch (n :: more) := by
  constructor
  · rintro ⟨loc, inner, hkind, henter, more, rfl, htakes, hreach⟩
    have hmore := Segment.ne_nil_of_takes htakes hsegments
    exact ⟨more, rfl, htakes, (reaches_cons_iff hmore).mpr ⟨loc, inner, hkind, henter, hreach⟩⟩
  · rintro ⟨more, rfl, htakes, hreach⟩
    have hmore := Segment.ne_nil_of_takes htakes hsegments
    obtain ⟨loc, inner, hkind, henter, hrest⟩ := (reaches_cons_iff hmore).mp hreach
    exact ⟨loc, inner, hkind, henter, more, rfl, htakes, hrest⟩

theorem not_finds_nil : ¬ v.Finds [] dir branch q := by
  rintro ⟨names, _, htakes, hreach⟩
  rw [Segment.takes_nil_iff] at htakes
  exact hreach.leadsToFile.1 htakes

theorem finds_single_last_iff (hone : segment.takesOne = true) :
    v.Finds [segment] dir branch q ↔
      ∃ n, segment.Accepts n ∧ q = dir.child n ∧ v.workspace.LeadsToFile q := by
  constructor
  · rintro ⟨names, rfl, htakes, hreach⟩
    obtain ⟨n, more, rfl, haccepts, hmore⟩ := (Segment.takes_single_iff hone).mp htakes
    obtain rfl := Segment.takes_nil_iff.mp hmore
    exact ⟨n, haccepts, rfl, hreach⟩
  · rintro ⟨n, haccepts, rfl, hfile⟩
    exact ⟨[n], rfl, .one haccepts .done, hfile⟩

theorem finds_single_iff (hone : segment.takesOne = true) (hrest : rest ≠ []) :
    v.Finds (segment :: rest) dir branch q ↔
      ∃ n, segment.Accepts n ∧ v.FindsInside rest (dir.child n) branch q := by
  constructor
  · rintro ⟨names, rfl, htakes, hreach⟩
    obtain ⟨n, more, rfl, haccepts, hmore⟩ := (Segment.takes_single_iff hone).mp htakes
    exact ⟨n, haccepts, (findsInside_iff hrest).mpr ⟨more, rfl, hmore, hreach⟩⟩
  · rintro ⟨n, haccepts, hinside⟩
    obtain ⟨more, rfl, hmore, hreach⟩ := (findsInside_iff hrest).mp hinside
    exact ⟨n :: more, rfl, .one haccepts hmore, hreach⟩

/-- In last position `**` finds the files here and those inside the entries. -/
theorem finds_anyDepth_last_iff :
    v.Finds [.anyDepth] dir branch q ↔
      ∃ n, q = dir.child n ∧ v.workspace.LeadsToFile q ∨
        v.FindsInside [.anyDepth] (dir.child n) branch q := by
  have hsome : [Segment.anyDepth] ≠ [] := List.cons_ne_nil _ _
  constructor
  · rintro ⟨names, rfl, _, hreach⟩
    obtain ⟨n, more, rfl⟩ := List.exists_cons_of_ne_nil hreach.leadsToFile.1
    refine ⟨n, ?_⟩
    by_cases hmore : more = []
    · subst hmore
      exact .inl ⟨rfl, hreach⟩
    · have htakes := Segment.takes_anyDepth_last_iff.mpr hmore
      exact .inr ((findsInside_iff hsome).mpr ⟨more, rfl, htakes, hreach⟩)
  · rintro ⟨n, ⟨rfl, hfile⟩ | hinside⟩
    · exact ⟨[n], rfl, Segment.takes_anyDepth_last_iff.mpr (List.cons_ne_nil _ _), hfile⟩
    · obtain ⟨more, rfl, _, hreach⟩ := (findsInside_iff hsome).mp hinside
      exact ⟨n :: more, rfl, Segment.takes_anyDepth_last_iff.mpr (List.cons_ne_nil _ _), hreach⟩

/-- Before the last segment `**` lets the rest find here, or all segments inside the entries. -/
theorem finds_anyDepth_iff (hrest : rest ≠ []) :
    v.Finds (.anyDepth :: rest) dir branch q ↔
      v.Finds rest dir branch q ∨
        ∃ n, v.FindsInside (.anyDepth :: rest) (dir.child n) branch q := by
  have hsome : Segment.anyDepth :: rest ≠ [] := List.cons_ne_nil _ _
  constructor
  · rintro ⟨names, rfl, htakes, hreach⟩
    rcases (Segment.takes_anyDepth_iff hrest).mp htakes with hhere | ⟨n, more, rfl, hmore⟩
    · exact .inl ⟨names, rfl, hhere, hreach⟩
    · exact .inr ⟨n, (findsInside_iff hsome).mpr ⟨more, rfl, hmore, hreach⟩⟩
  · rintro (⟨names, rfl, htakes, hreach⟩ | ⟨n, hinside⟩)
    · exact ⟨names, rfl, (Segment.takes_anyDepth_iff hrest).mpr (.inl htakes), hreach⟩
    · obtain ⟨more, rfl, hmore, hreach⟩ := (findsInside_iff hsome).mp hinside
      have htakes := (Segment.takes_anyDepth_iff hrest).mpr (.inr ⟨n, more, rfl, hmore⟩)
      exact ⟨n :: more, rfl, htakes, hreach⟩

/-- Inside an entry the walk finds only what the segments find, if that is so below it. -/
theorem findsInside_of_mem_inside {p : Path}
    (h : ∀ loc inner, v.classify p = .directory loc → v.enter? branch p loc = some inner →
      q ∈ v.matchesBelow segments p inner → v.Finds segments p inner q)
    (hq : q ∈ v.inside segments p branch) : v.FindsInside segments p branch q := by
  obtain ⟨loc, inner, hkind, henter, hq⟩ := mem_inside.mp hq
  exact ⟨loc, inner, hkind, henter, h loc inner hkind henter hq⟩

/-- The walk finds nothing but what the names lead to that the segments take. -/
theorem finds_of_mem_matchesBelow (hparent : Segment.parent ∉ segments)
    (hq : q ∈ v.matchesBelow segments dir branch) : v.Finds segments dir branch q := by
  induction segments, dir, branch using walk_induction (v := v) with
  | nil dir branch =>
      rw [matchesBelow_nil] at hq
      cases hq
  | parent rest dir branch ih => exact absurd List.mem_cons_self hparent
  | anyDepth rest dir branch ihHere ihBelow =>
      -- an entry is entered with all segments still to be matched
      have hinside := fun n hn => findsInside_of_mem_inside (q := q) fun loc inner hkind henter =>
        ihBelow n hn loc inner hkind henter hparent
      by_cases hrest : rest = []
      · subst hrest
        simp only [matchesBelow_anyDepth_last, List.mem_append, List.mem_filter, List.mem_map,
          List.mem_flatMap, decide_eq_true_eq, classify_eq_file_iff] at hq
        rw [finds_anyDepth_last_iff]
        rcases hq with ⟨⟨n, _, rfl⟩, hfile⟩ | ⟨n, hn, hq⟩
        · exact ⟨n, .inl ⟨rfl, hfile⟩⟩
        · exact ⟨n, .inr (hinside n hn hq)⟩
      · rw [matchesBelow_anyDepth hrest, List.mem_append, List.mem_flatMap] at hq
        rw [finds_anyDepth_iff hrest]
        rcases hq with hhere | ⟨n, hn, hq⟩
        · exact .inl (ihHere (fun hmem => hparent (List.mem_cons_of_mem _ hmem)) hhere)
        · exact .inr ⟨n, hinside n hn hq⟩
  | single segment rest dir branch hone ih =>
      by_cases hrest : rest = []
      · subst hrest
        simp only [matchesBelow_single_last hone, List.mem_filter, List.mem_map,
          decide_eq_true_eq, classify_eq_file_iff] at hq
        obtain ⟨⟨n, hn, rfl⟩, hfile⟩ := hq
        exact (finds_single_last_iff hone).mpr ⟨n, accepts_of_mem_candidates hn, rfl, hfile⟩
      · rw [matchesBelow_single hone hrest, List.mem_flatMap] at hq
        obtain ⟨n, hn, hq⟩ := hq
        refine (finds_single_iff hone hrest).mpr ⟨n, accepts_of_mem_candidates hn, ?_⟩
        refine findsInside_of_mem_inside (fun loc inner hkind henter => ?_) hq
        exact ih n hn loc inner hkind henter fun hmem => hparent (List.mem_cons_of_mem _ hmem)

theorem mem_entries_of_findsInside (hlist : v.workspace.files.Listable)
    (habs : dir.isAbsolute = true) {n : Name}
    (h : v.FindsInside segments (dir.child n) branch q) : n ∈ v.workspace.entries dir := by
  obtain ⟨loc, inner, hkind, _⟩ := h
  exact Workspace.mem_entries_of_lookup hlist habs (lookup_of_classify hkind)

theorem mem_entries_of_leadsToFile (hlist : v.workspace.files.Listable)
    (habs : dir.isAbsolute = true) {n : Name} (h : v.workspace.LeadsToFile (dir.child n)) :
    n ∈ v.workspace.entries dir := by
  obtain ⟨loc, o, hlook, _⟩ := h
  exact Workspace.mem_entries_of_lookup hlist habs hlook

/-- Inside an entry the walk finds all that the segments find, if that is so below it. -/
theorem mem_inside_of_findsInside {p : Path}
    (h : ∀ loc inner, v.classify p = .directory loc → v.enter? branch p loc = some inner →
      v.Finds segments p inner q → q ∈ v.matchesBelow segments p inner)
    (hq : v.FindsInside segments p branch q) : q ∈ v.inside segments p branch := by
  obtain ⟨loc, inner, hkind, henter, hq⟩ := hq
  exact mem_inside.mpr ⟨loc, inner, hkind, henter, h loc inner hkind henter hq⟩

/-- Where all directories can be listed, the walk finds all that the names lead to. -/
theorem mem_matchesBelow_of_finds (hlist : v.workspace.files.Listable)
    (habs : dir.isAbsolute = true) (hparent : Segment.parent ∉ segments)
    (hq : v.Finds segments dir branch q) : q ∈ v.matchesBelow segments dir branch := by
  induction segments, dir, branch using walk_induction (v := v) with
  | nil dir branch => exact absurd hq not_finds_nil
  | parent rest dir branch ih => exact absurd List.mem_cons_self hparent
  | anyDepth rest dir branch ihHere ihBelow =>
      have hinside : ∀ n, v.FindsInside (.anyDepth :: rest) (dir.child n) branch q →
          ∃ n ∈ v.workspace.entries dir, q ∈ v.inside (.anyDepth :: rest) (dir.child n) branch := by
        intro n hfinds
        have hn := mem_entries_of_findsInside hlist habs hfinds
        refine ⟨n, hn, mem_inside_of_findsInside (fun loc inner hkind henter => ?_) hfinds⟩
        exact ihBelow n hn loc inner hkind henter (Path.isAbsolute_child n habs) hparent
      by_cases hrest : rest = []
      · subst hrest
        simp only [matchesBelow_anyDepth_last, List.mem_append, List.mem_filter, List.mem_map,
          List.mem_flatMap, decide_eq_true_eq, classify_eq_file_iff]
        obtain ⟨n, ⟨rfl, hfile⟩ | hfinds⟩ := finds_anyDepth_last_iff.mp hq
        · exact .inl ⟨⟨n, mem_entries_of_leadsToFile hlist habs hfile, rfl⟩, hfile⟩
        · exact .inr (hinside n hfinds)
      · rw [matchesBelow_anyDepth hrest, List.mem_append, List.mem_flatMap]
        rcases (finds_anyDepth_iff hrest).mp hq with hhere | ⟨n, hfinds⟩
        · exact .inl (ihHere habs (fun hmem => hparent (List.mem_cons_of_mem _ hmem)) hhere)
        · exact .inr (hinside n hfinds)
  | single segment rest dir branch hone ih =>
      by_cases hrest : rest = []
      · subst hrest
        simp only [matchesBelow_single_last hone, List.mem_filter, List.mem_map,
          decide_eq_true_eq, classify_eq_file_iff]
        obtain ⟨n, haccepts, rfl, hfile⟩ := (finds_single_last_iff hone).mp hq
        have hn := mem_entries_of_leadsToFile hlist habs hfile
        exact ⟨⟨n, (mem_candidates_iff hn).mpr haccepts, rfl⟩, hfile⟩
      · rw [matchesBelow_single hone hrest, List.mem_flatMap]
        obtain ⟨n, haccepts, hfinds⟩ := (finds_single_iff hone hrest).mp hq
        have hn := (mem_candidates_iff (mem_entries_of_findsInside hlist habs hfinds)).mpr haccepts
        refine ⟨n, hn, mem_inside_of_findsInside (fun loc inner hkind henter => ?_) hfinds⟩
        exact ih n hn loc inner hkind henter (Path.isAbsolute_child n habs)
          fun hmem => hparent (List.mem_cons_of_mem _ hmem)

end

/-! ### Which directories may be entered -/

/-- A sequence is parted behind its first entry or further back. -/
theorem forall_parts_cons_iff {α : Type} {x : α} {xs : List α} {p : List α → List α → Prop}
    (hxs : xs ≠ []) :
    (∀ front back, x :: xs = front ++ back → front ≠ [] → back ≠ [] → p front back) ↔
      p [x] xs ∧
        ∀ front back, xs = front ++ back → front ≠ [] → back ≠ [] → p (x :: front) back := by
  constructor
  · intro h
    refine ⟨h [x] xs rfl (List.cons_ne_nil _ _) hxs, ?_⟩
    intro front back hsplit _ hback
    exact h (x :: front) back (congrArg (x :: ·) hsplit) (List.cons_ne_nil _ _) hback
  · rintro ⟨hfirst, hlater⟩ front back hsplit hfront hback
    rcases List.cons_eq_append_iff.mp hsplit with ⟨hnil, _⟩ | ⟨more, rfl, hmore⟩
    · exact absurd hnil hfront
    · by_cases hnone : more = []
      · subst hnone
        rw [List.nil_append] at hmore
        exact hmore ▸ hfirst
      · exact hlater more back hmore hnone hback

theorem forall_parts_singleton {α : Type} {x : α} {p : List α → List α → Prop} :
    ∀ front back, [x] = front ++ back → front ≠ [] → back ≠ [] → p front back := by
  intro front back hsplit hfront hback
  simp [List.singleton_eq_append_iff, hfront, hback] at hsplit

/-- Where links are not followed, the directories on the way are none. -/
theorem reaches_iff_of_not_follows (hv : v.followsLinks = false) {dir : Path}
    {branch : List Location} {names : List Name} :
    v.Reaches dir branch names ↔
      names ≠ [] ∧ v.workspace.LeadsToFile (dir.descend names) ∧
        ∀ front back, names = front ++ back → front ≠ [] → back ≠ [] →
          v.workspace.NamesDirectory (dir.descend front) := by
  induction names generalizing dir branch with
  | nil => simp [Reaches]
  | cons n more ih =>
      by_cases hmore : more = []
      · subst hmore
        exact ⟨fun hfile => ⟨List.cons_ne_nil _ _, hfile, forall_parts_singleton⟩, fun h => h.2.1⟩
      · rw [reaches_cons_iff hmore, forall_parts_cons_iff hmore]
        constructor
        · rintro ⟨loc, inner, hdir, _, hreach⟩
          obtain ⟨_, hfile, hway⟩ := ih.mp hreach
          exact ⟨List.cons_ne_nil _ _, hfile, ⟨loc, (classify_eq_directory_iff hv).mp hdir⟩, hway⟩
        · rintro ⟨_, hfile, ⟨loc, hloc⟩, hway⟩
          exact ⟨loc, branch, (classify_eq_directory_iff hv).mpr hloc,
            enter?_of_not_follows hv branch _ loc, ih.mpr ⟨hmore, hfile, hway⟩⟩

/-- Where links are followed, no directory on the way is one that was entered before. -/
theorem reaches_iff_of_follows (hv : v.followsLinks = true) (hshort : v.workspace.files.Short)
    {dir : Path} {branch : List Location} {names : List Name} :
    v.Reaches dir branch names ↔
      names ≠ [] ∧ v.workspace.LeadsToFile (dir.descend names) ∧
        ∀ front back, names = front ++ back → front ≠ [] → back ≠ [] →
          ∃ loc, v.workspace.lookup false (dir.descend front) = .ok (loc, .directory) ∧
            loc ∉ branch ∧ ∀ shorter longer, front = shorter ++ longer → shorter ≠ [] →
              longer ≠ [] → v.workspace.locate false (dir.descend shorter) ≠ .ok loc := by
  induction names generalizing dir branch with
  | nil => simp [Reaches]
  | cons n more ih =>
      by_cases hmore : more = []
      · subst hmore
        exact ⟨fun hfile => ⟨List.cons_ne_nil _ _, hfile, forall_parts_singleton⟩, fun h => h.2.1⟩
      · rw [reaches_cons_iff hmore, forall_parts_cons_iff hmore]
        constructor
        · rintro ⟨loc, inner, hdir, henter, hreach⟩
          rw [classify_eq_directory_iff_of_follows hv] at hdir
          obtain ⟨_, hfresh, rfl⟩ := (enter?_eq_some_iff hv).mp henter
          obtain ⟨_, hfile, hway⟩ := ih.mp hreach
          refine ⟨List.cons_ne_nil _ _, hfile, ⟨loc, hdir, hfresh, forall_parts_singleton⟩, ?_⟩
          intro front back hsplit hfront hback
          obtain ⟨loc', hlook, hfresh', hbefore⟩ := hway front back hsplit hfront hback
          rw [List.mem_cons, not_or] at hfresh'
          refine ⟨loc', hlook, hfresh'.2, (forall_parts_cons_iff hfront).mpr ⟨?_, hbefore⟩⟩
          intro hsame
          rw [Path.descend_cons, Path.descend_nil, (Workspace.lookup_eq hdir).1] at hsame
          exact hfresh'.1 (Except.ok.inj hsame).symm
        · rintro ⟨_, hfile, ⟨loc, hloc, hfresh, _⟩, hway⟩
          have henter : v.enter? branch (dir.child n) loc = some (loc :: branch) :=
            (enter?_eq_some_iff hv).mpr ⟨Workspace.resolves_of_lookup hshort hloc, hfresh, rfl⟩
          refine ⟨loc, loc :: branch, (classify_eq_directory_iff_of_follows hv).mpr hloc, henter,
            ih.mpr ⟨hmore, hfile, ?_⟩⟩
          intro front back hsplit hfront hback
          obtain ⟨loc', hlook, hfresh', hbefore⟩ := hway front back hsplit hfront hback
          obtain ⟨hfirst, hlater⟩ := (forall_parts_cons_iff hfront).mp hbefore
          refine ⟨loc', hlook, ?_, hlater⟩
          rw [List.mem_cons, not_or]
          refine ⟨?_, hfresh'⟩
          rintro rfl
          exact hfirst (Workspace.lookup_eq hloc).1

/-- Whether a plan may lead down the names as far as directories and links go. -/
structure Permits (v : View) (plan : Plan) (names : List Name) : Prop where
  /-- Each path on the way down from the base leads to a directory. -/
  directories : ∀ front back, names = front ++ back → back ≠ [] →
    v.workspace.LeadsToDirectory (plan.base.descend front)
  /-- Without following links, those below the base are directories themselves. -/
  real : v.followsLinks = false → ∀ front back, names = front ++ back → front ≠ [] → back ≠ [] →
    v.workspace.NamesDirectory (plan.base.descend front)
  /-- Without following links, no path between the anchor and the match is a link on the way to the
  base. -/
  literal : v.followsLinks = false → ∀ front back, plan.base = plan.anchor.descend (front ++ back) →
    front ≠ [] → back ≠ [] ∨ names ≠ [] → ¬ v.workspace.NamesLink (plan.anchor.descend front)
  /-- Following links, no directory is entered twice. -/
  acyclic : v.followsLinks = true → ∀ front middle back, names = front ++ middle ++ back →
    middle ≠ [] → back ≠ [] →
      v.workspace.locate false (plan.base.descend (front ++ middle)) ≠
        v.workspace.locate false (plan.base.descend front)

/-- What is reached from a base where links are followed: files, with no directory entered twice on
the way from the base. -/
theorem reaches_firstBranch_iff_of_follows (hv : v.followsLinks = true)
    (hshort : v.workspace.files.Short) {base : Path} (habs : base.isAbsolute = true)
    {names : List Name} (hnames : names ≠ []) :
    (∃ loc, v.workspace.lookup false base = .ok (loc, .directory) ∧
        v.Reaches base (v.firstBranch base loc) names) ↔
      v.workspace.LeadsToFile (base.descend names) ∧
        ∀ front middle back, names = front ++ middle ++ back → middle ≠ [] → back ≠ [] →
          v.workspace.locate false (base.descend (front ++ middle)) ≠
            v.workspace.locate false (base.descend front) := by
  have hbranch : ∀ start, v.workspace.lookup false base = .ok (start, .directory) →
      v.firstBranch base start = [start] := fun start hstart =>
    firstBranch_of_resolves hv (Workspace.resolves_of_lookup hshort hstart) start
  simp only [reaches_iff_of_follows hv hshort, ne_eq, hnames, not_false_eq_true, true_and]
  constructor
  · rintro ⟨start, hstart, hfile, hfresh⟩
    simp only [hbranch start hstart, List.mem_singleton] at hfresh
    refine ⟨hfile, ?_⟩
    intro front middle back hsplit hmiddle hback hsame
    obtain ⟨loc, hloc, hne, hbefore⟩ := hfresh (front ++ middle) back hsplit
      (fun hnil => hmiddle (List.append_eq_nil_iff.mp hnil).2) hback
    rw [(Workspace.lookup_eq hloc).1] at hsame
    by_cases hfront : front = []
    · subst hfront
      rw [Path.descend_nil, (Workspace.lookup_eq hstart).1] at hsame
      exact hne (Except.ok.inj hsame)
    · exact hbefore front middle rfl hfront hmiddle hsame.symm
  · rintro ⟨hfile, hfresh⟩
    have hway : ∀ front back, names = front ++ back → back ≠ [] →
        v.workspace.LeadsToDirectory (base.descend front) := fun front back hsplit hback =>
      (hsplit ▸ hfile.names).leadsToDirectory habs hback
    obtain ⟨start, hstart⟩ := hway [] names rfl hnames
    refine ⟨start, hstart, hfile, ?_⟩
    simp only [hbranch start hstart, List.mem_singleton]
    intro front back hsplit hfront hback
    obtain ⟨loc, hloc⟩ := hway front back hsplit hback
    have hhere := (Workspace.lookup_eq hloc).1
    refine ⟨loc, hloc, ?_, ?_⟩
    · rintro rfl
      exact hfresh [] front back hsplit hfront hback
        (hhere.trans (Workspace.lookup_eq hstart).1.symm)
    · intro shorter longer hparts _ hlonger hsame
      exact hfresh shorter longer back (hparts ▸ hsplit) hlonger hback
        (hparts ▸ hhere.trans hsame.symm)

/-- What the walk reaches from the base is a file that the plan may lead down to. -/
theorem reaches_firstBranch_iff {plan : Plan} {names : List Name}
    (hshort : v.followsLinks = true → v.workspace.files.Short)
    (habs : plan.base.isAbsolute = true) (hnames : names ≠ []) :
    (∃ loc, v.workspace.lookup false plan.base = .ok (loc, .directory) ∧
        v.Reaches plan.base (v.firstBranch plan.base loc) names) ↔
      v.workspace.LeadsToFile (plan.base.descend names) ∧
        (v.followsLinks = false → ∀ front back, names = front ++ back → front ≠ [] → back ≠ [] →
          v.workspace.NamesDirectory (plan.base.descend front)) ∧
        (v.followsLinks = true → ∀ front middle back, names = front ++ middle ++ back →
          middle ≠ [] → back ≠ [] →
            v.workspace.locate false (plan.base.descend (front ++ middle)) ≠
              v.workspace.locate false (plan.base.descend front)) := by
  cases hv : v.followsLinks with
  | false =>
      simp only [reaches_iff_of_not_follows hv, exists_and_right, hnames, ne_eq, not_false_eq_true,
        true_and, forall_const, Bool.false_eq_true, false_implies, and_true]
      refine ⟨fun h => h.2, fun h => ⟨?_, h⟩⟩
      have hbase : v.workspace.LeadsToDirectory (plan.base.descend []) :=
        h.1.names.leadsToDirectory habs hnames
      exact hbase
  | true =>
      simpa using reaches_firstBranch_iff_of_follows hv (hshort hv) habs hnames

section

variable {plan : Plan} {literal : List Name} {p : Path} (pattern : String)

/-- What a plan below its anchor leads to are files down the names that its segments take, as far
as links allow. -/
theorem takes_of_mem_carryOut (hshort : v.followsLinks = true → v.workspace.files.Short)
    (habs : plan.anchor.isAbsolute = true) (hbase : plan.base = plan.anchor.descend literal)
    (hparent : Segment.parent ∉ plan.segments)
    (h : ∃ found, v.carryOut false pattern plan = .ok found ∧ p ∈ found) :
    ∃ names, p = plan.base.descend names ∧ Segment.Takes plan.segments names ∧
      v.workspace.LeadsToFile p ∧ v.Permits plan names := by
  have hbaseAbs : plan.base.isAbsolute = true := hbase ▸ Path.isAbsolute_descend literal habs
  rw [mem_carryOut_iff, refusesBase_eq_false_iff habs hbase] at h
  obtain ⟨hliteral, ⟨hsegments, rfl, hfile⟩ | ⟨hsegments, loc, hloc, _, hmem⟩⟩ := h
  · refine ⟨[], rfl, hsegments ▸ .done, hfile, ?_, ?_, ?_, ?_⟩
    · intro front back hsplit hback
      exact absurd (List.append_eq_nil_iff.mp hsplit.symm).2 hback
    · intro _ front back hsplit hfront
      exact absurd (List.append_eq_nil_iff.mp hsplit.symm).1 hfront
    · intro hv front back hsplit hfront hback
      exact hliteral hv front back hsplit hfront (.inl (hback.resolve_right fun hne => hne rfl))
    · intro _ front middle back hsplit _ hback
      exact absurd (List.append_eq_nil_iff.mp hsplit.symm).2 hback
  · obtain ⟨names, rfl, htakes, hreach⟩ := finds_of_mem_matchesBelow hparent hmem
    have hnames := Segment.ne_nil_of_takes htakes hsegments
    obtain ⟨hfile, hreal, hacyclic⟩ :=
      (reaches_firstBranch_iff hshort hbaseAbs hnames).mp ⟨loc, hloc, hreach⟩
    refine ⟨names, rfl, htakes, hfile, ?_, hreal, ?_, hacyclic⟩
    · intro front back hsplit hback
      exact (hsplit ▸ hfile.names).leadsToDirectory hbaseAbs hback
    · exact fun hv front back hsplit hfront _ =>
        hliteral hv front back hsplit hfront (.inr hsegments)

/-- Where all directories can be listed, a plan below its anchor leads to all these files. -/
theorem mem_carryOut_iff_takes (hlist : v.workspace.files.Listable)
    (hshort : v.followsLinks = true → v.workspace.files.Short)
    (habs : plan.anchor.isAbsolute = true) (hbase : plan.base = plan.anchor.descend literal)
    (hparent : Segment.parent ∉ plan.segments) :
    (∃ found, v.carryOut false pattern plan = .ok found ∧ p ∈ found) ↔
      ∃ names, p = plan.base.descend names ∧ Segment.Takes plan.segments names ∧
        v.workspace.LeadsToFile p ∧ v.Permits plan names := by
  refine ⟨takes_of_mem_carryOut pattern hshort habs hbase hparent, ?_⟩
  have hbaseAbs : plan.base.isAbsolute = true := hbase ▸ Path.isAbsolute_descend literal habs
  rintro ⟨names, rfl, htakes, hfile, hpermits⟩
  rw [mem_carryOut_iff, refusesBase_eq_false_iff habs hbase]
  by_cases hsegments : plan.segments = []
  · obtain rfl := Segment.takes_nil_iff.mp (hsegments ▸ htakes)
    refine ⟨fun hv front back hsplit hfront hback => ?_, .inl ⟨hsegments, rfl, hfile⟩⟩
    have hbehind := hback.resolve_right fun hsome => hsome hsegments
    exact hpermits.literal hv front back hsplit hfront (.inl hbehind)
  · have hnames := Segment.ne_nil_of_takes htakes hsegments
    obtain ⟨loc, hloc, hreach⟩ := (reaches_firstBranch_iff hshort hbaseAbs hnames).mpr
      ⟨hfile, hpermits.real, hpermits.acyclic⟩
    have hmem := mem_matchesBelow_of_finds hlist hbaseAbs hparent ⟨names, rfl, htakes, hreach⟩
    have hlisted := hlist loc (Workspace.lookup_eq hloc).2
    refine ⟨fun hv front back hsplit hfront _ => ?_, .inr ⟨hsegments, loc, hloc, hlisted, hmem⟩⟩
    exact hpermits.literal hv front back hsplit hfront (.inr hnames)

end

/-- **What a pattern means.** Where all directories can be listed, and no path is too long if links
are followed, a pattern without `..` matches the paths down from the base of its plan that its
segments take, that lead to a file, and whose directories the policy on links permits. -/
theorem mem_expand_iff {w : Workspace} {followsLinks : Bool} {root : Path} {pattern : String}
    {plan : Plan} (hlist : w.files.Listable) (hshort : followsLinks = true → w.files.Short)
    (habs : root.isAbsolute = true) (hplan : Pattern.plan pattern root = .ok plan)
    (hup : Component.up ∉ (Path.ofText pattern).components) (p : Path) :
    (∃ e, (View.mk w followsLinks).expand (some root) false pattern = .ok e ∧ p ∈ e.found) ↔
      ∃ names, p = plan.base.descend names ∧ Segment.Takes plan.segments names ∧
        w.LeadsToFile p ∧ (View.mk w followsLinks).Permits plan names := by
  obtain ⟨literal, hbase, hanchor, hparent⟩ := Pattern.plan_of_up_notMem hplan hup
  have hbaseAbs : plan.base.isAbsolute = true :=
    hbase ▸ Path.isAbsolute_descend literal (Pattern.isAbsolute_origin pattern habs)
  obtain ⟨below, hbelow, hanchorAbs⟩ : ∃ below, plan.base = plan.anchor.descend below ∧
      plan.anchor.isAbsolute = true := by
    cases hrel : plan.isAbsolute with
    | true =>
        rw [hrel, if_pos rfl] at hanchor
        exact ⟨[], by rw [hanchor, Path.descend_nil], hanchor ▸ hbaseAbs⟩
    | false =>
        obtain ⟨all, _, hisAbsolute, _⟩ := Pattern.plan_spec hplan
        rw [hrel, if_neg Bool.false_ne_true] at hanchor
        refine ⟨literal, ?_, hanchor ▸ habs⟩
        rw [hbase, hanchor, Pattern.origin, ← hisAbsolute, hrel, if_neg Bool.false_ne_true]
  have hcarry := fun q =>
    mem_carryOut_iff_takes (v := ⟨w, followsLinks⟩) (p := q) pattern hlist hshort hanchorAbs
      hbelow hparent
  simp only [← hcarry p, expand_eq_ok_iff hplan]
  constructor
  · rintro ⟨_, ⟨found, hfound, rfl⟩, hp⟩
    exact ⟨found, hfound, Path.mem_of_mem_distinct hp⟩
  · rintro ⟨found, hfound, hp⟩
    -- every match is the base with names below it, so its components tell it apart
    have hshape : ∀ q ∈ found, ∃ names, q = plan.base.descend names := by
      intro q hq
      obtain ⟨names, hnames, _⟩ := (hcarry q).mp ⟨found, hfound, hq⟩
      exact ⟨names, hnames⟩
    refine ⟨_, ⟨found, hfound, rfl⟩, (Path.mem_distinct_iff fun _ q hq hcs => ?_).mpr hp⟩
    obtain ⟨names, rfl⟩ := hshape p hp
    obtain ⟨front, rfl⟩ := hshape q hq
    exact congrArg plan.base.descend (Path.names_eq_of_components_eq hbaseAbs hcs)

theorem star_matches_file :
    Workspace.small.files.Listable ∧ Workspace.small.files.Short ∧
      (Path.ofText "/r").isAbsolute = true ∧
      Pattern.plan "*" (Path.ofText "/r") =
        .ok ⟨⟨Path.ofText "/r", Path.ofText "/r"⟩, false, [.matching [.anyRun]]⟩ ∧
      Component.up ∉ (Path.ofText "*").components ∧
      ∃ e, (View.mk .small false).expand (some (Path.ofText "/r")) false "*" = .ok e ∧
        Path.ofText "/r/x" ∈ e.found := by
  have habs : (Path.ofText "/r").isAbsolute = true := by decide
  have hplan : Pattern.plan "*" (Path.ofText "/r") =
      .ok ⟨⟨Path.ofText "/r", Path.ofText "/r"⟩, false, [.matching [.anyRun]]⟩ := by cbv
  have hup : Component.up ∉ (Path.ofText "*").components := by decide
  have hlist := Workspace.small_listable
  have hshort := Workspace.small_short
  refine ⟨hlist, hshort, habs, hplan, hup,
    (mem_expand_iff hlist (fun _ => hshort) habs hplan hup _).mpr ?_⟩
  refine ⟨[⟨[120], by decide⟩], by decide, .one ?_ .done, ?_, ?_, ?_, ?_, ?_⟩
  · exact (Glob.accepts_iff _ _).mp (by decide)
  · exact ⟨[⟨[120], by decide⟩, ⟨[114], by decide⟩], .file [], by cbv, rfl⟩
  · intro front back hsplit hback
    obtain rfl : front = [] := by
      by_contra hfront
      exact forall_parts_singleton (p := fun _ _ => False) front back hsplit hfront hback
    exact ⟨[⟨[114], by decide⟩], by cbv⟩
  · exact fun _ => forall_parts_singleton
  · intro _ front back hsplit hfront
    have hnil : [] = front ++ back :=
      Path.names_eq_of_components_eq habs (congrArg Path.components hsplit)
    exact absurd (List.append_eq_nil_iff.mp hnil.symm).1 hfront
  · intro hfollows
    cases hfollows

end View

end ArtifactHarvest
