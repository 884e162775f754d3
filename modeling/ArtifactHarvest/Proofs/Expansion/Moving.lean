import ArtifactHarvest.Proofs.Expansion.Narrowing
import ArtifactHarvest.Proofs.FileSystem.Moving
import ArtifactHarvest.Proofs.Pattern.Downward

/-!
A pattern at two directories that hold the same tree. A path below one of them is moved to the other
(`Site.moved`), and each step of the walk commutes with that: what an entry is, whether it may be
entered, what it is asked for. So does the whole walk (`Twins.matchesBelow`) and, for a relative
pattern without `..`, the expansion. Main statement: `Twins.found`.
-/

namespace ArtifactHarvest

namespace Path

theorem keepFirst_map {g : List Component × Path → List Component × Path}
    {xs : List (List Component × Path)}
    (h : ∀ x ∈ xs, ∀ y ∈ xs, (g x).1 = (g y).1 ↔ x.1 = y.1) :
    distinct.keepFirst (xs.map g) = (distinct.keepFirst xs).map g := by
  induction xs with
  | nil => rfl
  | cons first rest ih =>
      have hrest := ih fun x hx y hy =>
        h x (List.mem_cons_of_mem first hx) y (List.mem_cons_of_mem first hy)
      rw [List.map_cons, distinct.keepFirst, distinct.keepFirst, hrest, List.map_cons,
        List.filter_map]
      congr 2
      apply List.filter_congr
      intro x hx
      have hmem := List.mem_cons_of_mem first (mem_of_mem_keepFirst hx)
      simp [h x hmem first List.mem_cons_self]

/-- Repeats are dropped alike where the same paths are told apart. -/
theorem distinct_map {f : Path → Path} {paths : List Path}
    (h : ∀ p ∈ paths, ∀ q ∈ paths,
      (f p).components = (f q).components ↔ p.components = q.components) :
    distinct (paths.map f) = (distinct paths).map f := by
  let g : List Component × Path → List Component × Path := fun x => ((f x.2).components, f x.2)
  have hpairs : ∀ x ∈ paths.map fun p => (p.components, p),
      ∀ y ∈ paths.map fun p => (p.components, p), (g x).1 = (g y).1 ↔ x.1 = y.1 := by
    intro x hx y hy
    obtain ⟨p, hp, rfl⟩ := List.mem_map.mp hx
    obtain ⟨q, hq, rfl⟩ := List.mem_map.mp hy
    exact h p hp q hq
  have hkept := keepFirst_map hpairs
  rw [List.map_map] at hkept
  rw [distinct, distinct, List.map_map, List.map_map]
  refine (congrArg (List.map Prod.snd) hkept).trans ?_
  rw [List.map_map]
  rfl

end Path

namespace Site

variable {s t : Site} {followsLinks : Bool} {names : List Name}

def view (s : Site) (followsLinks : Bool) : View := ⟨s.workspace, followsLinks⟩

/-- A branch that was entered below the root. -/
def branch (s : Site) (inner : List Location) : List Location := inner.map (· ++ s.top)

/-- The path that goes down from another root as this one does from its own. -/
def moved (s t : Site) (p : Path) : Path :=
  (p.components.drop s.root.components.length).foldl Path.push t.root

@[simp] theorem moved_path (s t : Site) (names : List Name) :
    s.moved t (s.path names) = t.path names := by
  rw [moved, path, Path.components_descend, List.drop_left, Path.foldl_push_names,
    path]

theorem child_path (s : Site) (names : List Name) (n : Name) :
    (s.path names).child n = s.path (names ++ [n]) := by
  rw [path, path, Path.descend_append, Path.descend_cons, Path.descend_nil]

theorem components_moved {names' : List Name} :
    (s.moved t (s.path names)).components = (s.moved t (s.path names')).components ↔
      (s.path names).components = (s.path names').components := by
  rw [moved_path, moved_path]
  constructor
  · intro hsame
    rw [Path.names_eq_of_components_eq t.absolute hsame]
  · intro hsame
    rw [Path.names_eq_of_components_eq s.absolute hsame]

/-- Whether a directory may be entered does not depend on where the root is. -/
theorem enter?_branch (s : Site) (inners : List Location) (p : Path) (inner : Location) :
    (s.view followsLinks).enter? (s.branch inners) p (inner ++ s.top) =
      ((s.view followsLinks).enter? inners p inner).map s.branch := by
  have hmem : inner ++ s.top ∈ s.branch inners ↔ inner ∈ inners := by
    simp [branch]
  cases followsLinks with
  | false => simp [View.enter?, view]
  | true =>
      by_cases h : inner ∈ inners
      · simp [View.enter?, view, hmem, h]
      · simp only [View.enter?, view, hmem, h, if_true]
        split <;> simp [branch]

theorem firstBranch_branch (s : Site) (base : Path) (inner : Location) :
    (s.view followsLinks).firstBranch base (inner ++ s.top) =
      s.branch ((s.view followsLinks).firstBranch base inner) := by
  unfold View.firstBranch
  split <;> simp [branch]

end Site

namespace Twins

variable {s t : Site} {followsLinks : Bool} {names : List Name}

/-! ### The steps of the walk -/

theorem classify_file_iff (h : Twins s t) (names : List Name) :
    (t.view followsLinks).classify (t.path names) = .file ↔
      (s.view followsLinks).classify (s.path names) = .file := by
  rw [View.classify_eq_file_iff, View.classify_eq_file_iff]
  exact h.leadsToFile_iff names

theorem classify_directory (h : Twins s t) (hnames : names ≠ []) {loc : Location}
    (hkind : (s.view followsLinks).classify (s.path names) = .directory loc) :
    ∃ inner, loc = inner ++ s.top ∧
      (t.view followsLinks).classify (t.path names) = .directory (inner ++ t.top) := by
  cases followsLinks with
  | false =>
      rw [View.classify_eq_directory_iff rfl] at hkind
      obtain ⟨inner, rfl, hlook⟩ := h.lookup (.inr hnames) hkind
      exact ⟨inner, rfl, (View.classify_eq_directory_iff rfl).mpr hlook⟩
  | true =>
      rw [View.classify_eq_directory_iff_of_follows rfl] at hkind
      obtain ⟨inner, rfl, hlook⟩ := h.lookup (.inl rfl) hkind
      exact ⟨inner, rfl, (View.classify_eq_directory_iff_of_follows rfl).mpr hlook⟩

theorem candidates (h : Twins s t) (names : List Name) (segment : Segment) :
    (t.view followsLinks).candidates (t.path names) segment =
      (s.view followsLinks).candidates (s.path names) segment := by
  cases segment with
  | named | anyDepth | parent => rfl
  | matching g => exact congrArg (List.filter _) (h.entries names)

theorem files (h : Twins s t) (entries names : List Name) :
    ((entries.map (t.path names).child).filter fun p =>
        (t.view followsLinks).classify p = .file) =
      ((entries.map (s.path names).child).filter fun p =>
        (s.view followsLinks).classify p = .file).map (s.moved t) := by
  have hmoved : entries.map (t.path names).child =
      (entries.map (s.path names).child).map (s.moved t) := by
    simp [Site.child_path]
  rw [hmoved, List.filter_map]
  congr 1
  apply List.filter_congr
  intro p hp
  obtain ⟨n, _, rfl⟩ := List.mem_map.mp hp
  simp [Site.child_path, h.classify_file_iff]

/-- An entry is entered at both sites, with branches that go down alike, or at none. -/
theorem exists_entry (h : Twins s t) (hnames : names ≠ []) (inners : List Location) :
    ∃ entry : Option (List Location),
      (s.view followsLinks).branchIn? (s.branch inners) (s.path names) = entry.map s.branch ∧
      (t.view followsLinks).branchIn? (t.branch inners) (t.path names) = entry.map t.branch := by
  by_cases hdir : ∃ loc, (s.view followsLinks).classify (s.path names) = .directory loc
  · obtain ⟨_, hkind⟩ := hdir
    obtain ⟨inner, rfl, hkind'⟩ := h.classify_directory hnames hkind
    have hresolves := h.resolves (View.lookup_of_classify hkind)
    refine ⟨(s.view followsLinks).enter? inners (s.path names) inner, ?_, ?_⟩
    · simp only [View.branchIn?, hkind]
      exact s.enter?_branch inners _ inner
    · have hsame : (t.view followsLinks).enter? inners (t.path names) inner =
          (s.view followsLinks).enter? inners (s.path names) inner := by
        simp only [View.enter?, Site.view, hresolves]
        rfl
      simp only [View.branchIn?, hkind', ← hsame]
      exact t.enter?_branch inners _ inner
  · refine ⟨none, ?_, ?_⟩
    · apply Option.eq_none_iff_forall_ne_some.mpr
      intro inner hentry
      obtain ⟨loc, hkind, _⟩ := View.branchIn?_eq_some_iff.mp hentry
      exact hdir ⟨loc, hkind⟩
    · apply Option.eq_none_iff_forall_ne_some.mpr
      intro inner hentry
      obtain ⟨_, hkind, _⟩ := View.branchIn?_eq_some_iff.mp hentry
      obtain ⟨_, _, hkind'⟩ := h.symm.classify_directory hnames hkind
      exact hdir ⟨_, hkind'⟩

theorem inside (h : Twins s t) {segments : List Segment} {inners : List Location} {n : Name}
    (hbelow : ∀ loc inners', (s.view followsLinks).classify ((s.path names).child n) =
        .directory loc →
      (s.view followsLinks).enter? (s.branch inners) ((s.path names).child n) loc =
        some (s.branch inners') →
      (t.view followsLinks).matchesBelow segments (t.path (names ++ [n])) (t.branch inners') =
        ((s.view followsLinks).matchesBelow segments ((s.path names).child n)
          (s.branch inners')).map (s.moved t)) :
    (t.view followsLinks).inside segments ((t.path names).child n) (t.branch inners) =
      ((s.view followsLinks).inside segments ((s.path names).child n) (s.branch inners)).map
        (s.moved t) := by
  have hchild : names ++ [n] ≠ [] :=
    List.append_ne_nil_of_right_ne_nil names (List.cons_ne_nil n [])
  obtain ⟨entry, hentry, hentry'⟩ : ∃ entry : Option (List Location),
      (s.view followsLinks).branchIn? (s.branch inners) (s.path (names ++ [n])) =
        entry.map s.branch ∧
      (t.view followsLinks).branchIn? (t.branch inners) (t.path (names ++ [n])) =
        entry.map t.branch := h.exists_entry hchild inners
  rw [← s.child_path] at hentry
  rw [t.child_path]
  cases entry with
  | none => rw [View.inside_of_no_entry hentry, View.inside_of_no_entry hentry', List.map_nil]
  | some inners' =>
      obtain ⟨loc, hkind, henter⟩ := View.branchIn?_eq_some_iff.mp hentry
      rw [View.inside_of_entry hentry, View.inside_of_entry hentry']
      exact hbelow loc inners' hkind henter

/-- The walk at one site is that at the other, moved. -/
theorem matchesBelow (h : Twins s t) {segments : List Segment}
    (hparent : Segment.parent ∉ segments) (names : List Name) (inners : List Location) :
    (t.view followsLinks).matchesBelow segments (t.path names) (t.branch inners) =
      ((s.view followsLinks).matchesBelow segments (s.path names) (s.branch inners)).map
        (s.moved t) := by
  generalize hdir : s.path names = dir
  generalize hbranch : s.branch inners = branch
  induction segments, dir, branch using View.walk_induction (v := s.view followsLinks)
    generalizing names inners with
  | nil dir branch => rw [View.matchesBelow_nil, View.matchesBelow_nil, List.map_nil]
  | parent rest dir branch ih => exact absurd List.mem_cons_self hparent
  | anyDepth rest dir branch ihHere ihBelow =>
      subst hdir hbranch
      have hentries : (t.view followsLinks).workspace.entries (t.path names) =
          (s.view followsLinks).workspace.entries (s.path names) := h.entries names
      -- an entry is entered with all segments still to be matched
      have hinside : ((t.view followsLinks).workspace.entries (t.path names)).flatMap (fun n =>
            (t.view followsLinks).inside (.anyDepth :: rest) ((t.path names).child n)
              (t.branch inners)) =
          (((s.view followsLinks).workspace.entries (s.path names)).flatMap fun n =>
            (s.view followsLinks).inside (.anyDepth :: rest) ((s.path names).child n)
              (s.branch inners)).map (s.moved t) := by
        rw [hentries, List.map_flatMap]
        apply List.flatMap_congr
        intro n hn
        apply h.inside
        intro loc inners' hkind henter
        exact ihBelow n hn loc _ hkind henter hparent _ _ (s.child_path names n).symm rfl
      by_cases hrest : rest = []
      · subst hrest
        rw [View.matchesBelow_anyDepth_last, View.matchesBelow_anyDepth_last, List.map_append,
          hinside, hentries, h.files]
      · have hrestParent : Segment.parent ∉ rest := fun hmem =>
          hparent (List.mem_cons_of_mem _ hmem)
        rw [View.matchesBelow_anyDepth hrest, View.matchesBelow_anyDepth hrest, List.map_append,
          hinside, ihHere hrestParent names inners rfl rfl]
  | single segment rest dir branch hone ih =>
      subst hdir hbranch
      by_cases hrest : rest = []
      · subst hrest
        rw [View.matchesBelow_single_last hone, View.matchesBelow_single_last hone, h.candidates,
          h.files]
      · have hrestParent : Segment.parent ∉ rest := fun hmem =>
          hparent (List.mem_cons_of_mem _ hmem)
        rw [View.matchesBelow_single hone hrest, View.matchesBelow_single hone hrest, h.candidates,
          List.map_flatMap]
        apply List.flatMap_congr
        intro n hn
        apply h.inside
        intro loc inners' hkind henter
        exact ih n hn loc _ hkind henter hrestParent _ _ (s.child_path names n).symm rfl

/-! ### The expansion -/

theorem refusesBase (h : Twins s t) (names : List Name) (segments : List Segment) :
    (t.view followsLinks).refusesBase (.under t.root names segments) =
      (s.view followsLinks).refusesBase (.under s.root names segments) := by
  rw [Bool.eq_iff_iff, View.refusesBase_iff_of_descend t.absolute rfl,
    View.refusesBase_iff_of_descend s.absolute rfl]
  apply and_congr_right
  intro _
  apply exists_congr
  intro front
  apply and_congr_right
  intro _
  apply and_congr_right
  intro hfront
  exact h.namesLink_iff hfront

/-- What a plan leads to at one site it leads to at the other. -/
theorem leads (h : Twins s t) (names : List Name) {segments : List Segment}
    (hparent : Segment.parent ∉ segments) :
    (t.view followsLinks).leads (.under t.root names segments) =
      ((s.view followsLinks).leads (.under s.root names segments)).map (s.moved t) := by
  have hbase : ∀ s : Site, (Plan.under s.root names segments).base = s.path names := fun _ => rfl
  have hsame : (t.view followsLinks).refusesBase (.under t.root names segments) =
      (s.view followsLinks).refusesBase (.under s.root names segments) :=
    h.refusesBase names segments
  cases hrefuse : (s.view followsLinks).refusesBase (.under s.root names segments) with
  | true =>
      rw [hrefuse] at hsame
      rw [View.leads_of_refused hrefuse, View.leads_of_refused hsame, List.map_nil]
  | false =>
      rw [hrefuse] at hsame
      by_cases hsegments : segments = []
      · rw [View.leads_of_fixed hrefuse hsegments, View.leads_of_fixed hsame hsegments]
        simp only [hbase, h.classify_file_iff names]
        split
        · rw [List.map_singleton, Site.moved_path]
        · rfl
      · by_cases hlists : s.workspace.Lists (s.path names)
        · obtain ⟨_, hlook, hlisted⟩ := hlists
          obtain ⟨inner, rfl, hlook'⟩ := h.lookup (.inl rfl) hlook
          have hbranch : (t.view followsLinks).firstBranch (t.path names) inner =
              (s.view followsLinks).firstBranch (s.path names) inner := by
            simp only [View.firstBranch, Site.view, h.resolves hlook]
            rfl
          rw [View.leads_of_directory hrefuse hsegments hlook hlisted,
            View.leads_of_directory hsame hsegments hlook' (mt (h.listed inner).mpr hlisted), hbase,
            hbase, s.firstBranch_branch, t.firstBranch_branch, hbranch]
          exact h.matchesBelow hparent names _
        · rw [View.leads_of_not_lists hsegments (mt h.symm.lists hlists),
            View.leads_of_not_lists hsegments hlists, List.map_nil]

end Twins

/-- A plan without `..` leads to files down from the root. -/
theorem Site.exists_names_of_mem_leads {s : Site} {followsLinks : Bool} {names : List Name}
    {segments : List Segment} (hparent : Segment.parent ∉ segments) {p : Path}
    (hp : p ∈ (s.view followsLinks).leads (.under s.root names segments)) :
    ∃ below, p = s.path below ∧ s.workspace.LeadsToFile p := by
  obtain ⟨_, hfile, _⟩ := View.below_base_of_mem_leads (s.isAbsolute_path names) hparent hp
  obtain ⟨_, ⟨_, rfl, _⟩ | ⟨_, _, _, _, hwalk⟩⟩ :=
    View.mem_carryOut_iff.mp (View.mem_leads_iff.mp hp)
  · exact ⟨names, rfl, hfile⟩
  · obtain ⟨more, rfl, _⟩ := View.finds_of_mem_matchesBelow hparent hwalk
    exact ⟨names ++ more, (Path.descend_append _ _ _).symm, hfile⟩

section

variable {s t : Site} {followsLinks : Bool} {pattern : String}

/-- The plan of a relative pattern without `..` at every site. -/
theorem Pattern.plan_at_sites (hrelative : (Path.ofText pattern).isAbsolute = false)
    (hup : Component.up ∉ (Path.ofText pattern).components) :
    (∃ fault, ∀ s : Site, plan pattern s.root = .error fault) ∨
      ∃ names segments, Segment.parent ∉ segments ∧
        ∀ s : Site, plan pattern s.root = .ok (.under s.root names segments) := by
  cases hall : segmentsOf (Path.ofText pattern).components with
  | error fault =>
      refine .inl ⟨fault, fun s => ?_⟩
      rw [plan_of_relative s.root hrelative, hall]
      rfl
  | ok all =>
      have hparent := parent_notMem hall hup
      obtain ⟨names, hnames⟩ := takeWhile_isFixed_names hparent
      refine .inr ⟨names, all.dropWhile Segment.isFixed, ?_, fun s => ?_⟩
      · exact fun hmem => hparent ((List.dropWhile_sublist _).mem hmem)
      · exact plan_under hrelative hall hnames

theorem Site.exists_names_of_mem_found (hrelative : (Path.ofText pattern).isAbsolute = false)
    (hup : Component.up ∉ (Path.ofText pattern).components) {p : Path}
    (hp : p ∈ (s.view followsLinks).found s.root pattern) :
    ∃ below, p = s.path below ∧ s.workspace.LeadsToFile p := by
  rcases Pattern.plan_at_sites hrelative hup with
    ⟨fault, hfault⟩ | ⟨names, segments, hparent, hplan⟩
  · rw [View.found_of_fault (hfault s)] at hp
    cases hp
  · rw [View.found_of_plan (hplan s)] at hp
    exact exists_names_of_mem_leads hparent (Path.mem_of_mem_distinct hp)

/-- **A relative pattern finds the same wherever the tree stands.** For a pattern without `..`, the
paths that are found below one of two directories with the same tree are those that are found below
the other, moved, in the same order. -/
theorem Twins.found (h : Twins s t) (hrelative : (Path.ofText pattern).isAbsolute = false)
    (hup : Component.up ∉ (Path.ofText pattern).components) :
    (t.view followsLinks).found t.root pattern =
      ((s.view followsLinks).found s.root pattern).map (s.moved t) := by
  rcases Pattern.plan_at_sites hrelative hup with
    ⟨fault, hfault⟩ | ⟨names, segments, hparent, hplan⟩
  · rw [View.found_of_fault (hfault s), View.found_of_fault (hfault t), List.map_nil]
  · rw [View.found_of_plan (hplan s), View.found_of_plan (hplan t), h.leads names hparent]
    apply Path.distinct_map
    intro p hp q hq
    obtain ⟨below, rfl, _⟩ := Site.exists_names_of_mem_leads hparent hp
    obtain ⟨below', rfl, _⟩ := Site.exists_names_of_mem_leads hparent hq
    exact Site.components_moved

end

end ArtifactHarvest
