import ArtifactHarvest.Proofs.Expansion.Walking
import ArtifactHarvest.Proofs.FileSystem.Spelling
import ArtifactHarvest.Proofs.Path.Ancestors
import ArtifactHarvest.Proofs.Path.Returning

/-!
A root is written in two ways: as it is given, and as a step back to it from one of its entries
writes it, without what stands for nothing at its end. The walk finds the same files from either
(`matchesBelow_respelled`), provided that the longer of the two texts keeps nothing out of reach
(`Workspace.InReach`).
-/

namespace ArtifactHarvest

/-- Nothing is out of reach for the length of its path: whatever is named below the root, as a step
back to the root writes it, has a path that is short enough below the root as it is written. -/
def Workspace.InReach (w : Workspace) (root : Path) : Prop :=
  ∀ n names, w.Names ((root.child n).up.descend names) →
    (root.descend names).bytes.length < pathLengthLimit

/-- None of the directories on the way down the names is a link. -/
def Workspace.Clear (w : Workspace) (dir : Path) (names : List Name) : Prop :=
  ∀ front, front <+: names → front ≠ [] → ¬ w.NamesLink (dir.descend front)

theorem Workspace.Clear.nil {w : Workspace} {dir : Path} : w.Clear dir [] :=
  fun _ hfront hne => absurd (List.prefix_nil.mp hfront) hne

theorem Workspace.Clear.of_prefix {w : Workspace} {dir : Path} {front names : List Name}
    (h : w.Clear dir names) (hfront : front <+: names) : w.Clear dir front :=
  fun shorter hshorter => h shorter (hshorter.trans hfront)

theorem Workspace.clear_cons_iff {w : Workspace} {dir : Path} {n : Name} {names : List Name} :
    w.Clear dir (n :: names) ↔ ¬ w.NamesLink (dir.child n) ∧ w.Clear (dir.child n) names := by
  constructor
  · intro h
    refine ⟨h [n] (by simp) (by simp), fun front hfront _ => ?_⟩
    exact h (n :: front) (List.cons_prefix_cons.mpr ⟨rfl, hfront⟩) (List.cons_ne_nil n front)
  · rintro ⟨hfirst, hlater⟩ front hfront hne
    obtain ⟨_, later, rfl⟩ := List.exists_cons_of_ne_nil hne
    obtain ⟨rfl, hbegins⟩ := List.cons_prefix_cons.mp hfront
    by_cases hnil : later = []
    · rwa [hnil]
    · exact hlater later hbegins hnil

theorem Workspace.clear_append_iff {w : Workspace} {dir : Path} {names more : List Name} :
    w.Clear dir (names ++ more) ↔ w.Clear dir names ∧ w.Clear (dir.descend names) more := by
  induction names generalizing dir with
  | nil => exact (and_iff_right .nil).symm
  | cons n names ih =>
      rw [List.cons_append, clear_cons_iff, clear_cons_iff, ih, and_assoc]
      rfl

/-- Two spellings of one directory: the same text, or the same names below the root, written as it
is and as a step back to it writes it. -/
inductive Path.Respelled (root : Path) : Path → Path → Prop where
  | same {dir : Path} : dir.isAbsolute = true → Respelled root dir dir
  | below (names : List Name) : Respelled root (root.trimmed.descend names) (root.descend names)

namespace Path.Respelled

variable {root dir dir' : Path}

theorem isAbsolute (habs : root.isAbsolute = true) (h : Respelled root dir dir') :
    dir.isAbsolute = true ∧ dir'.isAbsolute = true := by
  cases h with
  | same hdir => exact ⟨hdir, hdir⟩
  | below names => exact ⟨isAbsolute_descend names rfl, isAbsolute_descend names habs⟩

theorem steps_eq (habs : root.isAbsolute = true) (h : Respelled root dir dir') :
    dir.steps = dir'.steps := by
  cases h with
  | same => rfl
  | below names => rw [steps_descend, steps_descend, steps_trimmed habs]

theorem components_eq (habs : root.isAbsolute = true) (h : Respelled root dir dir') :
    dir.components = dir'.components := by
  obtain ⟨hdir, hdir'⟩ := h.isAbsolute habs
  exact (components_eq_iff hdir hdir').mpr (h.steps_eq habs)

theorem child (h : Respelled root dir dir') (n : Name) :
    Respelled root (dir.child n) (dir'.child n) := by
  cases h with
  | same hdir => exact .same (isAbsolute_child n hdir)
  | below names =>
      have hlonger : Respelled root _ _ := .below (names ++ [n])
      rwa [descend_append, descend_append] at hlonger

/-- What a step back comes to from below is another spelling. -/
theorem trimmed (habs : root.isAbsolute = true) (names : List Name) :
    Respelled root (root.descend names).trimmed (root.descend names) := by
  by_cases hnames : names = []
  · rw [hnames]
    exact .below []
  · rw [trimmed_descend habs hnames]
    exact .same (isAbsolute_descend names habs)

/-- A step back from a name comes to the names before it, or to the root without what stands for
nothing at its end. -/
theorem up_descend {p : Path} (hp : p.isAbsolute = true) (names : List Name) (n : Name) :
    (p.descend (names ++ [n])).up = if names = [] then p.trimmed else p.descend names := by
  rw [descend_append]
  refine (up_child (isAbsolute_descend names hp) n).trans ?_
  split
  · rename_i hnil
    rw [hnil]
    rfl
  · rename_i hsome
    exact trimmed_descend hp hsome

theorem up (habs : root.isAbsolute = true) (h : Respelled root dir dir') :
    Respelled root dir.up dir'.up := by
  cases h with
  | same hdir => exact .same (isAbsolute_up hdir)
  | below names =>
      by_cases hnames : names = []
      · subst hnames
        by_cases hsteps : root.steps = []
        · have htrimmed : root.trimmed.up = root.trimmed :=
            up_of_steps_nil rfl ((steps_trimmed habs).trans hsteps)
          rw [descend_nil, descend_nil, htrimmed, up_of_steps_nil habs hsteps]
          exact .below []
        · rw [descend_nil, descend_nil, up_trimmed habs hsteps]
          exact .same (isAbsolute_up habs)
      · rw [← List.dropLast_concat_getLast hnames, up_descend rfl, up_descend habs]
        split
        · rw [trimmed_trimmed]
          exact .same rfl
        · exact .below _

theorem descend (h : Respelled root dir dir') (names : List Name) :
    Respelled root (dir.descend names) (dir'.descend names) := by
  induction names generalizing dir dir' with
  | nil => exact h
  | cons n names ih => exact ih (h.child n)

end Path.Respelled

/-! ### What the two spellings lead to -/

namespace Workspace

variable {w : Workspace} {root dir dir' : Path}

/-- Where a step back comes to the root as it is written, nothing is out of reach. -/
theorem inReach_of_up (habs : root.isAbsolute = true) (h : ∀ n, (root.child n).up = root) :
    w.InReach root := by
  rintro n names ⟨found, hlook⟩
  rw [h n] at hlook
  exact (admissible_of_lookup (Path.isAbsolute_descend names habs) hlook).short

/-- What can be looked up in one spelling can be looked up in the other. -/
theorem InReach.admissible (h : w.InReach root) (habs : root.isAbsolute = true) {keepLast : Bool}
    {names : List Name} {found : Location × Object}
    (hlook : w.lookup keepLast (root.trimmed.descend names) = .ok found ∨
      w.lookup keepLast (root.descend names) = .ok found) :
    (root.trimmed.descend names).Admissible ∧ (root.descend names).Admissible := by
  have hsteps : (root.trimmed.descend names).steps = (root.descend names).steps := by
    rw [Path.steps_descend, Path.steps_descend, Path.steps_trimmed habs]
  rcases hlook with hlook | hlook
  · have htrimmed := admissible_of_lookup (Path.isAbsolute_descend names rfl) hlook
    have hshort : (root.descend names).bytes.length < pathLengthLimit := by
      apply h ⟨[97], by decide⟩ names
      rw [Path.up_child habs]
      exact names_of_lookup hlook
    exact ⟨htrimmed, htrimmed.of_steps (hsteps ▸ List.Subset.refl _) hshort⟩
  · have hroot := admissible_of_lookup (Path.isAbsolute_descend names habs) hlook
    refine ⟨hroot.of_steps (hsteps ▸ List.Subset.refl _) ?_, hroot⟩
    exact Nat.lt_of_le_of_lt (Path.length_descend_trimmed_le habs names) hroot.short

/-- So the two lead to the same if they do where both can be looked up. -/
theorem InReach.iff_of_admissible (h : w.InReach root) (habs : root.isAbsolute = true)
    {keepLast : Bool} {names : List Name} {found : Location × Object}
    (hsame : (root.trimmed.descend names).Admissible → (root.descend names).Admissible →
      (w.lookup keepLast (root.trimmed.descend names) = .ok found ↔
        w.lookup keepLast (root.descend names) = .ok found)) :
    w.lookup keepLast (root.trimmed.descend names) = .ok found ↔
      w.lookup keepLast (root.descend names) = .ok found := by
  constructor
  · intro hlook
    obtain ⟨htrimmed, hroot⟩ := h.admissible habs (.inl hlook)
    exact (hsame htrimmed hroot).mp hlook
  · intro hlook
    obtain ⟨htrimmed, hroot⟩ := h.admissible habs (.inr hlook)
    exact (hsame htrimmed hroot).mpr hlook

theorem InReach.lookup_iff (h : w.InReach root) (habs : root.isAbsolute = true) {keepLast : Bool}
    (names : List Name) (n : Name) {loc : Location} {o : Object} :
    w.lookup keepLast (root.trimmed.descend (names ++ [n])) = .ok (loc, o) ↔
      w.lookup keepLast (root.descend (names ++ [n])) = .ok (loc, o) := by
  apply h.iff_of_admissible habs
  rw [Path.descend_append, Path.descend_append]
  intro htrimmed hroot
  have hsteps : ((root.trimmed.descend names).child n).steps =
      ((root.descend names).child n).steps := by
    simp [Path.steps_trimmed habs]
  refine (lookup_child_iff (Path.isAbsolute_descend names rfl) htrimmed).trans ?_
  rw [hsteps]
  exact (lookup_child_iff (Path.isAbsolute_descend names habs) hroot).symm

/-- A directory is found in either spelling, the root itself among them. -/
theorem InReach.directory_iff (h : w.InReach root) (habs : root.isAbsolute = true)
    (names : List Name) {loc : Location} :
    w.lookup false (root.trimmed.descend names) = .ok (loc, .directory) ↔
      w.lookup false (root.descend names) = .ok (loc, .directory) := by
  apply h.iff_of_admissible habs
  intro htrimmed hroot
  rw [lookup_directory_iff (Path.isAbsolute_descend names rfl) htrimmed,
    lookup_directory_iff (Path.isAbsolute_descend names habs) hroot, Path.steps_descend,
    Path.steps_descend, Path.steps_trimmed habs]

theorem InReach.child_iff (h : w.InReach root) (habs : root.isAbsolute = true)
    (hdirs : root.Respelled dir dir') {keepLast : Bool} (n : Name) {found : Location × Object} :
    w.lookup keepLast (dir.child n) = .ok found ↔ w.lookup keepLast (dir'.child n) = .ok found := by
  cases hdirs with
  | same => rfl
  | below names => simpa [Path.descend_append] using h.lookup_iff habs names n

theorem InReach.entries_eq (h : w.InReach root) (habs : root.isAbsolute = true)
    (hdirs : root.Respelled dir dir') : w.entries dir = w.entries dir' := by
  cases hdirs with
  | same => rfl
  | below names =>
      have hdirectory : ∀ loc,
          w.lookup false (root.trimmed.descend names) = .ok (loc, .directory) ↔
            w.lookup false (root.descend names) = .ok (loc, .directory) :=
        fun _ => h.directory_iff habs names
      by_cases hlists : w.Lists (root.trimmed.descend names)
      · obtain ⟨loc, hlook, hlisted⟩ := hlists
        rw [entries_of_directory hlook hlisted,
          entries_of_directory ((hdirectory loc).mp hlook) hlisted]
      · have hlists' : ¬ w.Lists (root.descend names) := by
          rintro ⟨loc, hlook, hlisted⟩
          exact hlists ⟨loc, (hdirectory loc).mpr hlook, hlisted⟩
        rw [entries_of_not_lists hlists, entries_of_not_lists hlists']

end Workspace

/-! ### What the walk finds in the two spellings -/

namespace View

variable {v : View} {root dir dir' : Path}

/-- Two paths that lead to the same are the same to the walk. -/
theorem classify_congr {p q : Path} (h : ∀ keepLast found,
    v.workspace.lookup keepLast p = .ok found ↔ v.workspace.lookup keepLast q = .ok found) :
    v.classify p = v.classify q := by
  have hboth : ∀ keepLast, (∃ found, v.workspace.lookup keepLast p = .ok found ∧
      v.workspace.lookup keepLast q = .ok found) ∨ ∃ fault fault',
        v.workspace.lookup keepLast p = .error fault ∧
        v.workspace.lookup keepLast q = .error fault' := by
    intro keepLast
    have hsame := h keepLast
    cases hp : v.workspace.lookup keepLast p with
    | ok found => exact .inl ⟨found, rfl, (hsame found).mp hp⟩
    | error fault =>
        cases hq : v.workspace.lookup keepLast q with
        | ok found => cases ((hsame found).mpr hq).symm.trans hp
        | error fault' => exact .inr ⟨fault, fault', rfl, rfl⟩
  unfold classify
  rcases hboth true with ⟨⟨loc, o⟩, hp, hq⟩ | ⟨_, _, hp, hq⟩ <;>
    rcases hboth false with ⟨⟨loc', o'⟩, hp', hq'⟩ | ⟨_, _, hp', hq'⟩ <;>
      simp only [hp, hq, hp', hq']

/-- The files among some names. -/
theorem files_respelled (hreach : v.workspace.InReach root) (habs : root.isAbsolute = true)
    (h : root.Respelled dir dir') (names : List Name) :
    ((names.map dir.child).filter fun p => v.classify p = .file).map Path.components =
      ((names.map dir'.child).filter fun p => v.classify p = .file).map Path.components := by
  have hkind : ∀ n, v.classify (dir.child n) = v.classify (dir'.child n) := fun n =>
    classify_congr fun _ _ => hreach.child_iff habs h n
  have hnames : ∀ n, (dir.child n).components = (dir'.child n).components := fun n =>
    (h.child n).components_eq habs
  simp only [List.filter_map, List.map_map, Function.comp_def, hkind, hnames]

/-- What an entry holds. -/
theorem inside_respelled (hv : v.followsLinks = false) (hreach : v.workspace.InReach root)
    (habs : root.isAbsolute = true) (h : root.Respelled dir dir') {segments : List Segment}
    {branch : List Location} {n : Name}
    (hbelow : ∀ loc inner, v.classify (dir.child n) = .directory loc →
      v.enter? branch (dir.child n) loc = some inner →
      (v.matchesBelow segments (dir.child n) inner).map Path.components =
        (v.matchesBelow segments (dir'.child n) inner).map Path.components) :
    (v.inside segments (dir.child n) branch).map Path.components =
      (v.inside segments (dir'.child n) branch).map Path.components :=
  inside_of_same (fun xs ys => xs.map Path.components = ys.map Path.components)
    (classify_congr fun _ _ => (hreach.child_iff habs h n).symm)
    (fun loc => by rw [enter?_of_not_follows hv, enter?_of_not_follows hv]) rfl hbelow

/-- **However the root is written**, a walk that does not follow links finds the same files in the
same order. -/
theorem matchesBelow_respelled (hv : v.followsLinks = false) (hreach : v.workspace.InReach root)
    (habs : root.isAbsolute = true) (h : root.Respelled dir dir') (segments : List Segment)
    (branch : List Location) :
    (v.matchesBelow segments dir branch).map Path.components =
      (v.matchesBelow segments dir' branch).map Path.components := by
  induction segments, dir, branch using walk_induction (v := v) generalizing dir' with
  | nil dir branch => rw [matchesBelow_nil, matchesBelow_nil]
  | parent rest dir branch ih =>
      rw [matchesBelow_parent, matchesBelow_parent]
      exact ih (h.up habs)
  | anyDepth rest dir branch ihHere ihBelow =>
      have hbelow : ∀ n ∈ v.workspace.entries dir,
          (v.inside (.anyDepth :: rest) (dir.child n) branch).map Path.components =
            (v.inside (.anyDepth :: rest) (dir'.child n) branch).map Path.components := by
        intro n hn
        apply inside_respelled hv hreach habs h
        intro loc inner hkind henter
        exact ihBelow n hn loc inner hkind henter (h.child n)
      by_cases hrest : rest = []
      · subst hrest
        rw [matchesBelow_anyDepth_last, matchesBelow_anyDepth_last, ← hreach.entries_eq habs h,
          List.map_append, List.map_append, List.map_flatMap, List.map_flatMap,
          files_respelled hreach habs h, List.flatMap_congr hbelow]
      · rw [matchesBelow_anyDepth hrest, matchesBelow_anyDepth hrest, ← hreach.entries_eq habs h,
          List.map_append, List.map_append, List.map_flatMap, List.map_flatMap, ihHere h,
          List.flatMap_congr hbelow]
  | single segment rest dir branch hone ih =>
      have hcandidates : v.candidates dir' segment = v.candidates dir segment := by
        cases segment with
        | matching g => simp only [candidates, hreach.entries_eq habs h]
        | named | anyDepth | parent => rfl
      by_cases hrest : rest = []
      · subst hrest
        rw [matchesBelow_single_last hone, matchesBelow_single_last hone, hcandidates,
          files_respelled hreach habs h]
      · rw [matchesBelow_single hone hrest, matchesBelow_single hone hrest, hcandidates,
          List.map_flatMap, List.map_flatMap]
        apply List.flatMap_congr
        intro n hn
        apply inside_respelled hv hreach habs h
        intro loc inner hkind henter
        exact ih n hn loc inner hkind henter (h.child n)

theorem namesLink_respelled (hreach : v.workspace.InReach root) (habs : root.isAbsolute = true)
    (h : root.Respelled dir dir') {names : List Name} (hnames : names ≠ []) :
    v.workspace.NamesLink (dir.descend names) ↔ v.workspace.NamesLink (dir'.descend names) := by
  obtain ⟨front, n, rfl⟩ := (List.eq_nil_or_concat' names).resolve_left hnames
  rw [Path.descend_append, Path.descend_append]
  exact exists_congr fun loc => exists_congr fun target => hreach.child_iff habs (h.descend front) n

theorem clear_respelled (hreach : v.workspace.InReach root) (habs : root.isAbsolute = true)
    (h : root.Respelled dir dir') {names : List Name} :
    v.workspace.Clear dir names ↔ v.workspace.Clear dir' names :=
  forall_congr' fun _ => forall_congr' fun _ => forall_congr' fun hne =>
    not_congr (namesLink_respelled hreach habs h hne)

end View

end ArtifactHarvest
