import ArtifactHarvest.Proofs.Expansion.Meaning
import ArtifactHarvest.Proofs.Path.Ancestors

/-!
Two walks of the same segments, one of which enters fewer directories. What it leaves out is told by
where it does not enter (`Narrows`), so it finds what the other one finds after the paths through
such places are sorted out, in the same order (`filter_matchesBelow`).
-/

namespace ArtifactHarvest

namespace View

variable {v : View}

/-- The branch inside an entry, when that is a directory that may be entered. -/
def branchIn? (v : View) (branch : List Location) (p : Path) : Option (List Location) :=
  match v.classify p with
  | .directory loc => v.enter? branch p loc
  | _ => none

theorem inside_of_entry {segments : List Segment} {p : Path} {branch inner : List Location}
    (h : v.branchIn? branch p = some inner) :
    v.inside segments p branch = v.matchesBelow segments p inner := by
  unfold branchIn? at h
  unfold inside
  cases hkind : v.classify p with
  | file | other => simp [hkind] at h
  | directory loc =>
      simp only [hkind] at h
      simp [h]

theorem inside_of_no_entry {segments : List Segment} {p : Path} {branch : List Location}
    (h : v.branchIn? branch p = none) : v.inside segments p branch = [] := by
  unfold branchIn? at h
  unfold inside
  cases hkind : v.classify p with
  | file | other => rfl
  | directory loc =>
      simp only [hkind] at h
      simp [h]

theorem branchIn?_eq_some_iff {p : Path} {branch inner : List Location} :
    v.branchIn? branch p = some inner ↔
      ∃ loc, v.classify p = .directory loc ∧ v.enter? branch p loc = some inner := by
  unfold branchIn?
  cases v.classify p <;> simp

/-- A match stands in a directory at or below the one where the walk began. -/
theorem exists_child_of_mem_matchesBelow {segments : List Segment} {dir q : Path}
    {branch : List Location} (habs : dir.isAbsolute = true) (hparent : Segment.parent ∉ segments)
    (hq : q ∈ v.matchesBelow segments dir branch) :
    ∃ (outer : Path) (n : Name), outer.isAbsolute = true ∧ dir.steps <+: outer.steps ∧
      q = outer.child n ∧ v.workspace.LeadsToFile q := by
  obtain ⟨names, rfl, _, hreach⟩ := finds_of_mem_matchesBelow hparent hq
  obtain ⟨hnames, hfile⟩ := hreach.leadsToFile
  obtain ⟨front, n, rfl⟩ : ∃ front n, names = front ++ [n] :=
    ⟨_, _, (List.dropLast_concat_getLast hnames).symm⟩
  refine ⟨dir.descend front, n, Path.isAbsolute_descend front habs, ?_, ?_, hfile⟩
  · rw [Path.steps_descend]
    exact List.prefix_append _ _
  · rw [Path.descend_append, Path.descend_cons, Path.descend_nil]

/-- What a plan leads to is its base, or lies below it. -/
theorem below_base_of_mem_leads {plan : Plan} {p : Path}
    (habs : plan.base.isAbsolute = true) (hparent : Segment.parent ∉ plan.segments)
    (hp : p ∈ v.leads plan) :
    p.isAbsolute = true ∧ v.workspace.LeadsToFile p ∧ plan.base.steps <+: p.steps ∧
      (plan.segments ≠ [] → plan.base.steps ≠ p.steps) := by
  obtain ⟨_, ⟨hnone, rfl, hfile⟩ | ⟨_, loc, _, _, hp⟩⟩ :=
    mem_carryOut_iff.mp (mem_leads_iff.mp hp)
  · exact ⟨habs, hfile, List.prefix_refl _, fun hsome => absurd hnone hsome⟩
  · obtain ⟨outer, n, houterAbs, hsteps, rfl, hfile⟩ :=
      exists_child_of_mem_matchesBelow habs hparent hp
    refine ⟨Path.isAbsolute_child n houterAbs, hfile, ?_, ?_⟩
    · exact hsteps.trans (Path.prefix_steps_child outer n)
    · intro _ hsame
      rw [hsame] at hsteps
      exact Path.not_steps_child_prefix outer n hsteps

/-- The narrow walk enters the directories that the wide one enters, but for the barred ones, and
what holds between the two branches is kept. -/
structure Narrows (wide narrow : View) (barred : List Component → Prop)
    (paired : Path → List Location → List Location → Prop) : Prop where
  workspace : narrow.workspace = wide.workspace
  staysOut : ∀ {dir : Path} {n : Name} {branch branch' : List Location}, dir.isAbsolute = true →
    paired dir branch branch' → barred (dir.child n).steps →
      narrow.branchIn? branch' (dir.child n) = none
  goesAlong : ∀ {dir : Path} {n : Name} {branch branch' : List Location}, dir.isAbsolute = true →
    paired dir branch branch' → ¬ barred (dir.child n).steps →
      wide.branchIn? branch (dir.child n) = none ∧ narrow.branchIn? branch' (dir.child n) = none ∨
      ∃ inner inner', wide.branchIn? branch (dir.child n) = some inner ∧
        narrow.branchIn? branch' (dir.child n) = some inner' ∧ paired (dir.child n) inner inner'

/-- No barred place lies on the way beyond `top`. -/
def Unbarred (barred : List Component → Prop) (top steps : List Component) : Prop :=
  ∀ cs, top <+: cs → cs ≠ top → cs <+: steps → ¬ barred cs

/-- What is kept are the files with no barred place on the way to their directory. -/
def Tells (w : Workspace) (keep : Path → Bool) (barred : List Component → Prop)
    (top : List Component) : Prop :=
  ∀ (dir : Path) (n : Name), dir.isAbsolute = true → w.LeadsToFile (dir.child n) →
    (keep (dir.child n) = true ↔ Unbarred barred top dir.steps)

theorem unbarred_concat_iff {barred : List Component → Prop} {top steps : List Component}
    {c : Component} (htop : top <+: steps) (h : Unbarred barred top steps) :
    Unbarred barred top (steps ++ [c]) ↔ ¬ barred (steps ++ [c]) := by
  constructor
  · intro hway
    apply hway
    · exact htop.trans (List.prefix_append _ _)
    · intro hsame
      have hlength := htop.length_le
      rw [← hsame, List.length_append, List.length_singleton] at hlength
      omega
    · exact List.prefix_refl _
  · intro hlast cs hbegins hne hcs
    rcases List.prefix_concat_iff.mp hcs with rfl | hcs
    · exact hlast
    · exact h cs hbegins hne hcs

theorem Unbarred.of_prefix {barred : List Component → Prop} {top steps longer : List Component}
    (h : Unbarred barred top longer) (hsteps : steps <+: longer) : Unbarred barred top steps :=
  fun cs hbegins hne hcs => h cs hbegins hne (hcs.trans hsteps)

section

variable {wide narrow : View} {barred : List Component → Prop}
  {paired : Path → List Location → List Location → Prop} {top : List Component}
  {keep : Path → Bool} {dir : Path} {branch branch' : List Location}

/-- What is found inside an entry, if that is so below the entry. -/
theorem filter_inside (h : Narrows wide narrow barred paired) {segments : List Segment}
    {n : Name} (habs : dir.isAbsolute = true) (hparent : Segment.parent ∉ segments)
    (hpaired : paired dir branch branch') (htop : top <+: dir.steps)
    (hway : Unbarred barred top dir.steps)
    (hkeep : Tells wide.workspace keep barred top)
    (hbelow : ∀ inner inner', wide.branchIn? branch (dir.child n) = some inner →
      paired (dir.child n) inner inner' → Unbarred barred top (dir.child n).steps →
      (wide.matchesBelow segments (dir.child n) inner).filter keep =
        narrow.matchesBelow segments (dir.child n) inner') :
    (wide.inside segments (dir.child n) branch).filter keep =
      narrow.inside segments (dir.child n) branch' := by
  have hchildAbs := Path.isAbsolute_child n habs
  have hlast := unbarred_concat_iff (c := .name n) htop hway
  rw [← Path.steps_child] at hlast
  by_cases hbarred : barred (dir.child n).steps
  · -- the narrow walk stays out, and all that the wide one finds inside is sorted out
    rw [inside_of_no_entry (h.staysOut habs hpaired hbarred), List.filter_eq_nil_iff]
    intro q hq hkept
    obtain ⟨loc, inner, _, _, hq⟩ := mem_inside.mp hq
    obtain ⟨outer, m, houterAbs, hsteps, rfl, hfile⟩ :=
      exists_child_of_mem_matchesBelow hchildAbs hparent hq
    have hclear := (hkeep outer m houterAbs hfile).mp hkept
    exact hlast.mp (hclear.of_prefix hsteps) hbarred
  · rcases h.goesAlong habs hpaired hbarred with
      ⟨hwide, hnarrow⟩ | ⟨inner, inner', hwide, hnarrow, hp⟩
    · rw [inside_of_no_entry hwide, inside_of_no_entry hnarrow, List.filter_nil]
    · rw [inside_of_entry hwide, inside_of_entry hnarrow]
      exact hbelow inner inner' hwide hp (hlast.mpr hbarred)

/-- The files of a directory that the narrow walk enters are all kept. -/
theorem filter_files (h : Narrows wide narrow barred paired) (habs : dir.isAbsolute = true)
    (hway : Unbarred barred top dir.steps)
    (hkeep : Tells wide.workspace keep barred top) (names : List Name) :
    ((names.map dir.child).filter fun p => wide.classify p = .file).filter keep =
      (names.map dir.child).filter fun p => narrow.classify p = .file := by
  rw [List.filter_filter]
  apply List.filter_congr
  intro p hp
  obtain ⟨n, _, rfl⟩ := List.mem_map.mp hp
  have hsame : narrow.classify (dir.child n) = .file ↔ wide.classify (dir.child n) = .file := by
    rw [classify_eq_file_iff, classify_eq_file_iff, h.workspace]
  by_cases hfile : wide.classify (dir.child n) = .file
  · have hkept := (hkeep dir n habs (classify_eq_file_iff.mp hfile)).mpr hway
    simp [hfile, hsame.mpr hfile, hkept]
  · simp [hfile, mt hsame.mp hfile]

/-- **What the narrow walk finds** is what the wide one finds, without the files behind a barred
place. -/
theorem filter_matchesBelow (h : Narrows wide narrow barred paired) {segments : List Segment}
    (habs : dir.isAbsolute = true) (hparent : Segment.parent ∉ segments)
    (hpaired : paired dir branch branch') (htop : top <+: dir.steps)
    (hway : Unbarred barred top dir.steps)
    (hkeep : Tells wide.workspace keep barred top) :
    (wide.matchesBelow segments dir branch).filter keep =
      narrow.matchesBelow segments dir branch' := by
  induction segments, dir, branch using walk_induction (v := wide) generalizing branch' with
  | nil dir branch => simp only [matchesBelow_nil, List.filter_nil]
  | parent rest dir branch ih => exact absurd List.mem_cons_self hparent
  | anyDepth rest dir branch ihHere ihBelow =>
      have hinside : ((wide.workspace.entries dir).flatMap fun n =>
          wide.inside (.anyDepth :: rest) (dir.child n) branch).filter keep =
          (narrow.workspace.entries dir).flatMap fun n =>
            narrow.inside (.anyDepth :: rest) (dir.child n) branch' := by
        rw [List.filter_flatMap, h.workspace]
        apply List.flatMap_congr
        intro n hn
        apply filter_inside h habs hparent hpaired htop hway hkeep
        intro inner inner' hentry hp hclear
        obtain ⟨loc, hkind, henter⟩ := branchIn?_eq_some_iff.mp hentry
        have hchildTop : top <+: (dir.child n).steps := htop.trans (Path.prefix_steps_child dir n)
        exact ihBelow n hn loc inner hkind henter (Path.isAbsolute_child n habs) hparent hp
          hchildTop hclear
      by_cases hrest : rest = []
      · subst hrest
        rw [matchesBelow_anyDepth_last, matchesBelow_anyDepth_last, List.filter_append, hinside,
          filter_files h habs hway hkeep, h.workspace]
      · have hrestParent : Segment.parent ∉ rest := fun hmem =>
          hparent (List.mem_cons_of_mem _ hmem)
        rw [matchesBelow_anyDepth hrest, matchesBelow_anyDepth hrest, List.filter_append, hinside,
          ihHere habs hrestParent hpaired htop hway]
  | single segment rest dir branch hone ih =>
      have hasked : narrow.candidates dir segment = wide.candidates dir segment := by
        cases segment <;> simp only [candidates, h.workspace]
      by_cases hrest : rest = []
      · subst hrest
        rw [matchesBelow_single_last hone, matchesBelow_single_last hone,
          filter_files h habs hway hkeep, hasked]
      · have hrestParent : Segment.parent ∉ rest := fun hmem =>
          hparent (List.mem_cons_of_mem _ hmem)
        rw [matchesBelow_single hone hrest, matchesBelow_single hone hrest, List.filter_flatMap,
          hasked]
        apply List.flatMap_congr
        intro n hn
        apply filter_inside h habs hrestParent hpaired htop hway hkeep
        intro inner inner' hentry hp hclear
        obtain ⟨loc, hkind, henter⟩ := branchIn?_eq_some_iff.mp hentry
        have hchildTop : top <+: (dir.child n).steps := htop.trans (Path.prefix_steps_child dir n)
        exact ih n hn loc inner hkind henter (Path.isAbsolute_child n habs) hrestParent hp
          hchildTop hclear

end

end View

end ArtifactHarvest
