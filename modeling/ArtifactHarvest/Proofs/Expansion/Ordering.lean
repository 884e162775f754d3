import ArtifactHarvest.Proofs.Expansion.Preserving
import Mathlib

/-!
The order in which a pattern finds its matches. A match is written as a way in two parts: the names
down to the directory where the segments behind `**` begin, and the names that these segments take
(`Segment.Parts`). Directories list their names in order, and what is found right here comes before
what is found further down, so the ways come in order (`View.matchesBelow_arranged`). Main
statement: `View.matches_in_order`.
-/

namespace ArtifactHarvest

/-- Names are ordered by their bytes. -/
def Name.Precedes (a b : Name) : Prop := a.bytes < b.bytes

/-- A listing is in order, whatever order the objects are kept in. -/
theorem Workspace.entries_pairwise (w : Workspace) (dir : Path) :
    (w.entries dir).Pairwise Name.Precedes := by
  by_cases hlists : w.Lists dir
  · obtain ⟨loc, hlook, hlisted⟩ := hlists
    rw [entries_of_directory hlook hlisted]
    refine ((w.files.sorted_entries loc).and (w.files.nodup_entries loc)).imp ?_
    rintro a b ⟨hle, hne⟩
    have hle' : a.bytes ≤ b.bytes := of_decide_eq_true hle
    apply Std.lt_of_le_of_ne hle'
    exact fun hsame => hne (Name.bytes_inj.mp hsame)
  · rw [entries_of_not_lists hlists]
    exact List.Pairwise.nil

/-- A way down from a directory, in two parts. -/
abbrev Way := List Name × List Name

namespace Way

/-- Ways are ordered by their first parts, and where these are the same by their second ones. A
beginning comes before what goes on from it. -/
def Precedes : Way → Way → Prop :=
  Prod.Lex (List.Lex Name.Precedes) (List.Lex Name.Precedes)

/-- Where a way leads. -/
def path (dir : Path) (way : Way) : Path := dir.descend (way.1 ++ way.2)

/-- The way that begins one name further up. -/
def behind (n : Name) (way : Way) : Way := (n :: way.1, way.2)

theorem behind_precedes {n : Name} {a b : Way} (h : a.Precedes b) :
    (a.behind n).Precedes (b.behind n) := by
  cases h with
  | left _ _ hfront => exact .left _ _ (.cons hfront)
  | right _ hback => exact .right _ hback

theorem precedes_of_names {n m : Name} (h : n.Precedes m) (a b : Way) :
    (a.behind n).Precedes (b.behind m) :=
  .left _ _ (.rel h)

/-- No way comes before itself. -/
theorem not_precedes_self (a : Way) : ¬ a.Precedes a := by
  have hnames : ∀ names : List Name, ¬ List.Lex Name.Precedes names names :=
    List.lex_irrefl fun n => List.lt_irrefl n.bytes
  intro h
  cases h with
  | left _ _ hfront => exact hnames _ hfront
  | right _ hback => exact hnames _ hback

theorem swap_precedes {a b : Way} (ha : a.2 = []) (hb : b.2 = []) (h : a.Precedes b) :
    Precedes a.swap b.swap := by
  obtain ⟨front, back⟩ := a
  obtain ⟨front', back'⟩ := b
  obtain rfl : back = [] := ha
  obtain rfl : back' = [] := hb
  cases h with
  | left _ _ hfront => exact .right _ hfront
  | right _ hback => cases hback

end Way

/-- Paths below a directory that ways of a kind lead to, in the order of the ways. -/
def Arranged (kind : Way → Prop) (dir : Path) (found : List Path) : Prop :=
  ∃ ways : List Way, found = ways.map (Way.path dir) ∧ (∀ way ∈ ways, kind way) ∧
    ways.Pairwise Way.Precedes

namespace Arranged

variable {kind kind' : Way → Prop} {dir : Path} {found near below : List Path}

theorem nil (kind : Way → Prop) (dir : Path) : Arranged kind dir [] :=
  ⟨[], rfl, by simp, .nil⟩

theorem imp (h : Arranged kind dir found) (hkind : ∀ way, kind way → kind' way) :
    Arranged kind' dir found := by
  obtain ⟨ways, hfound, hways, hordered⟩ := h
  exact ⟨ways, hfound, fun way hway => hkind way (hways way hway), hordered⟩

/-- What is found right here comes before what is found further down. -/
theorem append (hnear : Arranged (fun way => way.1 = [] ∧ kind way) dir near)
    (hbelow : Arranged (fun way => way.1 ≠ [] ∧ kind way) dir below) :
    Arranged kind dir (near ++ below) := by
  obtain ⟨here, rfl, hhere, hordered⟩ := hnear
  obtain ⟨further, rfl, hfurther, hordered'⟩ := hbelow
  refine ⟨here ++ further, List.map_append.symm, ?_, ?_⟩
  · intro way hway
    rcases List.mem_append.mp hway with hway | hway
    · exact (hhere way hway).2
    · exact (hfurther way hway).2
  · refine List.pairwise_append.mpr ⟨hordered, hordered', fun a ha b hb => ?_⟩
    obtain ⟨front, back⟩ := a
    obtain ⟨front', back'⟩ := b
    obtain rfl : front = [] := (hhere _ ha).1
    obtain ⟨n, more, rfl⟩ := List.exists_cons_of_ne_nil (hfurther _ hb).1
    exact .left _ _ .nil

/-- What is found below names that are in order is in order. -/
theorem flatMap {names : List Name} {f : Name → List Path} (hnames : names.Pairwise Name.Precedes)
    (h : ∀ n ∈ names, Arranged kind (dir.child n) (f n)) :
    Arranged (fun way => ∃ n ∈ names, ∃ rest, kind rest ∧ way = rest.behind n) dir
      (names.flatMap f) := by
  induction names with
  | nil => exact nil _ dir
  | cons n names ih =>
      obtain ⟨hfirst, hnames⟩ := List.pairwise_cons.mp hnames
      obtain ⟨ways, hways, hkind, hordered⟩ := h n List.mem_cons_self
      obtain ⟨later, hlater, hkind', hordered'⟩ :=
        ih hnames fun m hm => h m (List.mem_cons_of_mem n hm)
      refine ⟨ways.map (Way.behind n) ++ later, ?_, ?_, ?_⟩
      · rw [List.flatMap_cons, hways, hlater, List.map_append, List.map_map]
        rfl
      · intro way hway
        rcases List.mem_append.mp hway with hway | hway
        · obtain ⟨rest, hrest, rfl⟩ := List.mem_map.mp hway
          exact ⟨n, List.mem_cons_self, rest, hkind rest hrest, rfl⟩
        · obtain ⟨m, hm, rest, hrest, rfl⟩ := hkind' way hway
          exact ⟨m, List.mem_cons_of_mem n hm, rest, hrest, rfl⟩
      · refine List.pairwise_append.mpr ⟨?_, hordered', fun a ha b hb => ?_⟩
        · exact List.pairwise_map.mpr (hordered.imp Way.behind_precedes)
        · obtain ⟨rest, _, rfl⟩ := List.mem_map.mp ha
          obtain ⟨m, hm, rest', _, rfl⟩ := hkind' b hb
          exact Way.precedes_of_names (hfirst m hm) rest rest'

/-- Some of the entries of a directory, in the order of their names. -/
theorem filter {names : List Name} (hnames : names.Pairwise Name.Precedes) (keep : Path → Bool) :
    Arranged (fun way => ∃ n ∈ names, way = ([n], [])) dir
      ((names.map dir.child).filter keep) := by
  refine ⟨(names.filter (keep ∘ dir.child)).map fun n => ([n], []), ?_, ?_, ?_⟩
  · rw [List.filter_map, List.map_map]
    rfl
  · intro way hway
    obtain ⟨n, hn, rfl⟩ := List.mem_map.mp hway
    exact ⟨n, (List.mem_filter.mp hn).1, rfl⟩
  · refine List.pairwise_map.mpr ((hnames.filter _).imp fun h => ?_)
    exact .left _ _ (.rel h)

/-- Where nothing stands in the second parts, the first ones may take their place. -/
theorem swap (h : Arranged (fun way => way.2 = [] ∧ kind way) dir found) :
    Arranged (fun way => way.1 = [] ∧ kind way.swap) dir found := by
  obtain ⟨ways, rfl, hways, hordered⟩ := h
  refine ⟨ways.map Prod.swap, ?_, ?_, ?_⟩
  · rw [List.map_map]
    apply List.map_congr_left
    rintro ⟨front, back⟩ hway
    obtain rfl : back = [] := (hways _ hway).1
    simp [Way.path]
  · intro way hway
    obtain ⟨first, hfirst, rfl⟩ := List.mem_map.mp hway
    exact hways first hfirst
  · refine List.pairwise_map.mpr (hordered.imp_of_mem fun ha hb hab => ?_)
    exact Way.swap_precedes (hways _ ha).1 (hways _ hb).1 hab

end Arranged

namespace Segment

/-- How segments take the names of a way. The second part is what the segments behind `**` take; in
last position `**` leaves it the name of the file alone. Without `**` the first part is all. -/
inductive Parts : List Segment → Way → Prop where
  | done : Parts [] ([], [])
  | one {segment : Segment} {n : Name} {rest : List Segment} {way : Way} :
      segment.Accepts n → Parts rest way → Parts (segment :: rest) (way.behind n)
  | anyDepth {front back : List Name} {rest : List Segment} :
      rest ≠ [] → Takes rest back → Parts (.anyDepth :: rest) (front, back)
  | last {front : List Name} {n : Name} : Parts [.anyDepth] (front, [n])

/-- Without `**` there is no second part. -/
theorem Parts.takes_of_anyDepth_notMem {segments : List Segment} {way : Way}
    (hsegments : Segment.anyDepth ∉ segments) (h : Parts segments way) :
    way.2 = [] ∧ Takes segments way.1 := by
  induction h with
  | done => exact ⟨rfl, .done⟩
  | one haccepts _ ih =>
      obtain ⟨hnone, htakes⟩ := ih fun hmem => hsegments (List.mem_cons_of_mem _ hmem)
      exact ⟨hnone, .one haccepts htakes⟩
  | anyDepth | last => exact absurd List.mem_cons_self hsegments

/-- Behind `**` a way may begin further up. -/
theorem Parts.behind_anyDepth {rest : List Segment} {way : Way} (n : Name)
    (h : Parts (.anyDepth :: rest) way) : Parts (.anyDepth :: rest) (way.behind n) := by
  cases h with
  | one haccepts => cases haccepts
  | anyDepth hrest hback => exact .anyDepth hrest hback
  | last => exact .last

theorem length_of_takes {segments : List Segment} {names : List Name}
    (hsegments : Segment.anyDepth ∉ segments) (h : Takes segments names) :
    names.length = segments.length := by
  induction h with
  | done => rfl
  | one _ _ ih =>
      rw [List.length_cons, List.length_cons, ih fun hmem => hsegments (.tail _ hmem)]
  | anyDepth => exact absurd List.mem_cons_self hsegments

/-- With one `**` at most, all ways have second parts of the same length. -/
theorem Parts.length_eq {segments : List Segment} {way way' : Way}
    (hone : segments.count .anyDepth ≤ 1) (h : Parts segments way) (h' : Parts segments way') :
    way.2.length = way'.2.length := by
  induction h generalizing way' with
  | done =>
      cases h'
      rfl
  | @one segment n rest way haccepts _ ih =>
      have hsegment : segment ≠ .anyDepth := by
        rintro rfl
        cases haccepts
      rw [List.count_cons_of_ne hsegment] at hone
      cases h' with
      | one _ hway' =>
          have hlength := ih hone hway'
          exact hlength
      | anyDepth | last => exact absurd rfl hsegment
  | @anyDepth front back rest hrest hback =>
      rw [List.count_cons_self] at hone
      have hnone : Segment.anyDepth ∉ rest := List.count_eq_zero.mp (by omega)
      cases h' with
      | one haccepts => cases haccepts
      | anyDepth _ hback' =>
          exact (length_of_takes hnone hback).trans (length_of_takes hnone hback').symm
      | last => exact absurd rfl hrest
  | last =>
      cases h' with
      | one haccepts => cases haccepts
      | anyDepth hrest => exact absurd rfl hrest
      | last => rfl

end Segment

namespace View

variable {v : View}

theorem candidates_pairwise (v : View) (dir : Path) (segment : Segment) :
    (v.candidates dir segment).Pairwise Name.Precedes := by
  cases segment with
  | named n => exact List.pairwise_singleton _ n
  | matching g => exact (v.workspace.entries_pairwise dir).filter _
  | anyDepth | parent => exact .nil

theorem inside_of_directory {segments : List Segment} {p : Path} {branch inner : List Location}
    {loc : Location} (hkind : v.classify p = .directory loc)
    (henter : v.enter? branch p loc = some inner) :
    v.inside segments p branch = v.matchesBelow segments p inner := by
  simp [inside, hkind, henter]

theorem inside_arranged {kind : Way → Prop} {segments : List Segment} {p : Path}
    {branch : List Location}
    (h : ∀ loc inner, v.classify p = .directory loc → v.enter? branch p loc = some inner →
      Arranged kind p (v.matchesBelow segments p inner)) :
    Arranged kind p (v.inside segments p branch) := by
  unfold inside
  split
  · rename_i loc hkind
    split
    · rename_i inner henter
      exact h loc inner hkind henter
    · exact .nil kind p
  · exact .nil kind p

/-- **The walk goes in order.** -/
theorem matchesBelow_arranged {segments : List Segment} (hparent : Segment.parent ∉ segments)
    (hone : segments.count .anyDepth ≤ 1) (dir : Path) (branch : List Location) :
    Arranged (Segment.Parts segments) dir (v.matchesBelow segments dir branch) := by
  induction segments, dir, branch using walk_induction (v := v) with
  | nil dir branch =>
      rw [matchesBelow_nil]
      exact .nil _ dir
  | parent rest dir branch => exact absurd List.mem_cons_self hparent
  | anyDepth rest dir branch ihHere ihBelow =>
      have hrestParent : Segment.parent ∉ rest := fun hmem => hparent (List.mem_cons_of_mem _ hmem)
      have hnone : Segment.anyDepth ∉ rest := by
        rw [List.count_cons_self] at hone
        exact List.count_eq_zero.mp (by omega)
      have hnever : rest.count .anyDepth ≤ 1 := by
        rw [List.count_eq_zero.mpr hnone]
        omega
      have hbelow : Arranged (fun way => way.1 ≠ [] ∧ Segment.Parts (.anyDepth :: rest) way) dir
          ((v.workspace.entries dir).flatMap fun n =>
            v.inside (.anyDepth :: rest) (dir.child n) branch) := by
        refine (Arranged.flatMap (v.workspace.entries_pairwise dir) fun n hn =>
          inside_arranged fun loc inner hkind henter =>
            ihBelow n hn loc inner hkind henter hparent hone).imp ?_
        rintro _ ⟨n, _, way, hway, rfl⟩
        exact ⟨List.cons_ne_nil _ _, hway.behind_anyDepth n⟩
      by_cases hrest : rest = []
      · subst hrest
        rw [matchesBelow_anyDepth_last]
        have hfiles : Arranged (fun way => way.2 = [] ∧ ∃ n, way.1 = [n]) dir
            (((v.workspace.entries dir).map dir.child).filter fun p => v.classify p = .file) := by
          refine (Arranged.filter (v.workspace.entries_pairwise dir) _).imp ?_
          rintro _ ⟨n, _, rfl⟩
          exact ⟨rfl, n, rfl⟩
        refine Arranged.append (hfiles.swap.imp ?_) hbelow
        rintro ⟨front, back⟩ ⟨rfl, n, rfl⟩
        exact ⟨rfl, .last⟩
      · rw [matchesBelow_anyDepth hrest]
        have hhere : Arranged (fun way => way.2 = [] ∧ Segment.Takes rest way.1) dir
            (v.matchesBelow rest dir branch) :=
          (ihHere hrestParent hnever).imp fun way hway => hway.takes_of_anyDepth_notMem hnone
        refine Arranged.append (hhere.swap.imp ?_) hbelow
        rintro ⟨front, back⟩ ⟨rfl, htakes⟩
        exact ⟨rfl, .anyDepth hrest htakes⟩
  | single segment rest dir branch hsingle ih =>
      have hordered := v.candidates_pairwise dir segment
      by_cases hrest : rest = []
      · subst hrest
        rw [matchesBelow_single_last hsingle]
        refine (Arranged.filter hordered _).imp ?_
        rintro _ ⟨n, hn, rfl⟩
        exact .one (accepts_of_mem_candidates hn) .done
      · rw [matchesBelow_single hsingle hrest]
        have hrestParent : Segment.parent ∉ rest := fun hmem =>
          hparent (List.mem_cons_of_mem _ hmem)
        have hrestOne : rest.count .anyDepth ≤ 1 :=
          Nat.le_trans ((List.sublist_cons_self segment rest).count_le _) hone
        refine (Arranged.flatMap hordered fun n hn => inside_arranged fun loc inner hkind henter =>
          ih n hn loc inner hkind henter hrestParent hrestOne).imp ?_
        rintro _ ⟨n, hn, way, hway, rfl⟩
        exact .one (accepts_of_mem_candidates hn) hway

end View

/-! ### No path twice -/

theorem Path.distinct_of_nodup {paths : List Path} (h : (paths.map components).Nodup) :
    distinct paths = paths := by
  have hkept : ∀ xs : List (List Component × Path), (xs.map Prod.fst).Nodup →
      distinct.keepFirst xs = xs := by
    intro xs hxs
    induction xs with
    | nil => rfl
    | cons first rest ih =>
        obtain ⟨hfirst, hrest⟩ := List.nodup_cons.mp hxs
        rw [distinct.keepFirst, ih hrest, List.filter_eq_self.mpr]
        intro later hlater
        have hne : later.1 ≠ first.1 := fun hsame => hfirst (hsame ▸ List.mem_map_of_mem hlater)
        simpa using hne
  rw [distinct, hkept, List.map_map]
  · exact List.map_id paths
  · rwa [List.map_map]

/-- Ways in order lead to different paths, since their second parts are of one length. -/
theorem Arranged.nodup_components {segments : List Segment} {dir : Path} {found : List Path}
    (habs : dir.isAbsolute = true) (hone : segments.count .anyDepth ≤ 1)
    (h : Arranged (Segment.Parts segments) dir found) : (found.map Path.components).Nodup := by
  obtain ⟨ways, rfl, hways, hordered⟩ := h
  rw [List.map_map]
  refine List.pairwise_map.mpr (hordered.imp_of_mem fun {a b} ha hb hab hsame => ?_)
  have hnames : a.1 ++ a.2 = b.1 ++ b.2 := Path.names_eq_of_components_eq habs hsame
  obtain ⟨hfront, hback⟩ :=
    List.append_inj' hnames (Segment.Parts.length_eq hone (hways a ha) (hways b hb))
  exact Way.not_precedes_self a (Prod.ext hfront hback ▸ hab)

namespace Component

/-- Whether a component of a pattern is `**`. -/
def isAnyDepth : Component → Bool
  | .name n => n.text = "**"
  | .root | .here | .up => false

end Component

theorem Segment.eq_anyDepth_iff {c : Component} {s : Option Segment}
    (h : ofComponent c = .ok s) : s = some .anyDepth ↔ c.isAnyDepth = true := by
  cases c with
  | root | here | up =>
      cases h
      simp [Component.isAnyDepth]
  | name n =>
      simp only [ofComponent] at h
      split at h
      · cases h
        simpa [Component.isAnyDepth]
      · rename_i hstars
        split at h
        · cases hg : Glob.read n.text with
          | error fault => simp [hg, Except.map] at h
          | ok g =>
              simp only [hg, Except.map, Except.ok.injEq] at h
              simp [← h, Component.isAnyDepth, hstars]
        · cases h
          simp [Component.isAnyDepth, hstars]

/-- Each `**` of a pattern stands for one segment, and nothing else does. -/
theorem Pattern.count_anyDepth {cs : List Component} {all : List Segment}
    (h : segmentsOf cs = .ok all) : all.count .anyDepth = cs.countP Component.isAnyDepth := by
  induction cs generalizing all with
  | nil =>
      cases h
      rfl
  | cons c cs ih =>
      obtain ⟨s, rest, hs, hrest, rfl⟩ := segmentsOf_cons h
      have hc := Segment.eq_anyDepth_iff hs
      rw [List.count_append, ih hrest, List.countP_cons, Nat.add_comm]
      congr 1
      cases s with
      | none => simp [← hc]
      | some segment => simp [← hc, List.count_singleton]

theorem Pattern.count_anyDepth_segments_le {text : String} {root : Path} {plan : Plan}
    (h : Pattern.plan text root = .ok plan) :
    plan.segments.count .anyDepth ≤ (Path.ofText text).components.countP Component.isAnyDepth := by
  obtain ⟨all, hall, _, hsegments, _⟩ := plan_spec h
  rw [hsegments, ← count_anyDepth hall]
  exact (List.dropWhile_sublist _).count_le _

namespace View

variable {v : View} {plan : Plan} {pattern : String} {cancelled : Bool}

/-- What a plan leads to is in order below its base. -/
theorem carryOut_arranged {found : List Path} (hparent : Segment.parent ∉ plan.segments)
    (hone : plan.segments.count .anyDepth ≤ 1)
    (h : v.carryOut cancelled pattern plan = .ok found) :
    Arranged (Segment.Parts plan.segments) plan.base found := by
  unfold carryOut at h
  split at h
  · cases h
    exact .nil _ _
  · split at h
    · rename_i hsegments
      cases h
      split
      · refine ⟨[([], [])], rfl, ?_, List.pairwise_singleton _ _⟩
        intro way hway
        rw [List.mem_singleton.mp hway, hsegments]
        exact .done
      · exact .nil _ _
    · split at h
      · split at h
        · cases h
        · split at h
          · cases h
          · cases h
            exact matchesBelow_arranged hparent hone _ _
      · cases h
        exact .nil _ _
      · cases h
        exact .nil _ _
      · cases h

/-- **Matches come in order.** A pattern with no `..` behind its plain beginning and with one `**`
at most finds its matches in the order of their ways: by the names down to where the segments behind
`**` begin, and among the same ones by the names that these segments take. The walk comes upon no
path twice, so there are no repeats to drop. -/
theorem matches_in_order {root : Path} {e : Expansion} (habs : root.isAbsolute = true)
    (hplan : Pattern.plan pattern root = .ok plan)
    (hup : Component.up ∉ (Path.ofText pattern).components.dropWhile Component.isPlain)
    (hone : (Path.ofText pattern).components.countP Component.isAnyDepth ≤ 1)
    (h : v.expand (some root) cancelled pattern = .ok e) :
    (∃ ways : List Way, e.found = ways.map (Way.path plan.base) ∧
      (∀ way ∈ ways, Segment.Parts plan.segments way) ∧ ways.Pairwise Way.Precedes) ∧
    v.carryOut cancelled pattern plan = .ok e.found ∧ (e.found.map Path.components).Nodup := by
  have hbase : plan.base.isAbsolute = true :=
    Pattern.base_of_plan (fun p n (hp : p.isAbsolute = true) => Path.isAbsolute_child n hp)
      (fun _ => Path.isAbsolute_up) (Pattern.isAbsolute_origin pattern habs) hplan
  have hsegments := Nat.le_trans (Pattern.count_anyDepth_segments_le hplan) hone
  obtain ⟨found, hfound, rfl⟩ := (expand_eq_ok_iff hplan).mp h
  have harranged :=
    carryOut_arranged (Pattern.parent_notMem_segments hplan hup) hsegments hfound
  have hnodup := harranged.nodup_components hbase hsegments
  rw [Path.distinct_of_nodup hnodup]
  exact ⟨harranged, hfound, hnodup⟩

theorem nearer_matches_first :
    (Path.ofText "/").isAbsolute = true ∧
      Pattern.plan "**/x" (Path.ofText "/") =
        .ok ⟨⟨Path.ofText "/", Path.ofText "/"⟩, false, [.anyDepth, .named ⟨[120], by decide⟩]⟩ ∧
      Component.up ∉ (Path.ofText "**/x").components.dropWhile Component.isPlain ∧
      (Path.ofText "**/x").components.countP Component.isAnyDepth ≤ 1 ∧
      ∃ e, (View.mk .scattered true).expand (some (Path.ofText "/")) false "**/x" = .ok e ∧
        e.found = [Path.ofText "/x", Path.ofText "/a/x"] ∧
        (e.found.map Path.components).Nodup := by
  have habs : (Path.ofText "/").isAbsolute = true := by decide
  have hplan : Pattern.plan "**/x" (Path.ofText "/") =
      .ok ⟨⟨Path.ofText "/", Path.ofText "/"⟩, false, [.anyDepth, .named ⟨[120], by decide⟩]⟩ := by
    cbv
  have hup : Component.up ∉ (Path.ofText "**/x").components.dropWhile Component.isPlain := by decide
  have hone : (Path.ofText "**/x").components.countP Component.isAnyDepth ≤ 1 := by decide
  have hbelow : (View.mk .scattered true).inside [.anyDepth, .named ⟨[120], by decide⟩]
      (Path.child (Path.ofText "/") ⟨[97], by decide⟩) [[]] = [Path.ofText "/a/x"] := by
    have hkind : (View.mk .scattered true).classify (Path.child (Path.ofText "/")
        ⟨[97], by decide⟩) = .directory [⟨[97], by decide⟩] := by cbv
    rw [inside_of_directory hkind (by cbv), matchesBelow_anyDepth (List.cons_ne_nil _ _)]
    cbv
  have hentries : Workspace.scattered.entries (Path.ofText "/") =
      [⟨[97], by decide⟩, ⟨[120], by decide⟩] := by cbv
  have hwalk : (View.mk .scattered true).matchesBelow [.anyDepth, .named ⟨[120], by decide⟩]
      (Path.ofText "/") [[]] = [Path.ofText "/x", Path.ofText "/a/x"] := by
    rw [matchesBelow_anyDepth (List.cons_ne_nil _ _), hentries, List.flatMap_cons, hbelow]
    cbv
  have hexpand : (View.mk .scattered true).expand (some (Path.ofText "/")) false "**/x" =
      .ok ⟨"**/x", false, [Path.ofText "/x", Path.ofText "/a/x"]⟩ := by
    refine (expand_eq_ok_iff hplan).mpr ⟨[Path.ofText "/x", Path.ofText "/a/x"], ?_, by cbv⟩
    have hlook : Workspace.scattered.lookup false (Path.ofText "/") = .ok ([], .directory) := by cbv
    have hbranch : (View.mk .scattered true).firstBranch (Path.ofText "/") [] = [[]] := by cbv
    rw [carryOut_of_directory rfl (List.cons_ne_nil _ _) hlook List.not_mem_nil, hbranch, hwalk]
  exact ⟨habs, hplan, hup, hone, _, hexpand, rfl,
    (matches_in_order habs hplan hup hone hexpand).2.2⟩

end View

end ArtifactHarvest
