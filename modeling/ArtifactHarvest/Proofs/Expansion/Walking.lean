import ArtifactHarvest.Expansion
import ArtifactHarvest.Proofs.FileSystem.Resolution
import ArtifactHarvest.Proofs.Pattern.Language

/-!
How the walk of a pattern goes on, one equation for each kind of segment, and the induction that
follows it (`walk_induction`): segments are used up, or a directory is entered, which takes room.
What an entry is to the walk is said by look-ups (`classify_eq_file_iff`,
`classify_eq_directory_iff`), and what each step preserves holds of all matches
(`mem_matchesBelow_of_invariant`).
-/

namespace ArtifactHarvest

namespace View

variable {v : View}

/-- The matches inside an entry, when it is a directory that may be entered. -/
def inside (v : View) (segments : List Segment) (p : Path) (branch : List Location) : List Path :=
  match v.classify p with
  | .directory loc =>
      match v.enter? branch p loc with
      | some inner => v.matchesBelow segments p inner
      | none => []
  | _ => []

theorem mem_inside {segments : List Segment} {p q : Path} {branch : List Location} :
    q ∈ v.inside segments p branch ↔ ∃ loc inner, v.classify p = .directory loc ∧
      v.enter? branch p loc = some inner ∧ q ∈ v.matchesBelow segments p inner := by
  unfold inside
  cases hkind : v.classify p with
  | file | other => simp
  | directory loc => cases henter : v.enter? branch p loc <;> simp [henter]

/-- What holds of nothing, and of what is matched below two entries that are the same to the walk,
holds of what is inside the two. -/
theorem inside_of_same (holds : List Path → List Path → Prop) {segments segments' : List Segment}
    {p q : Path} {branch : List Location} (hkind : v.classify q = v.classify p)
    (hentry : ∀ loc, v.enter? branch q loc = v.enter? branch p loc) (hnothing : holds [] [])
    (h : ∀ loc inner, v.classify p = .directory loc → v.enter? branch p loc = some inner →
      holds (v.matchesBelow segments p inner) (v.matchesBelow segments' q inner)) :
    holds (v.inside segments p branch) (v.inside segments' q branch) := by
  unfold inside
  rw [hkind]
  cases hdir : v.classify p with
  | file | other => exact hnothing
  | directory loc =>
      simp only [hentry loc]
      cases henter : v.enter? branch p loc with
      | none => exact hnothing
      | some inner => exact h loc inner hdir henter

/-! ### Entering a directory -/

theorem enter?_of_not_follows (hv : v.followsLinks = false) (branch : List Location) (p : Path)
    (loc : Location) : v.enter? branch p loc = some branch := by
  simp [enter?, hv]

/-- Where links are followed, a directory is entered that has a canonical path and is not on the
branch. -/
theorem enter?_eq_some_iff (hv : v.followsLinks = true) {branch inner : List Location} {p : Path}
    {loc : Location} : v.enter? branch p loc = some inner ↔
      v.workspace.resolves p = true ∧ loc ∉ branch ∧ inner = loc :: branch := by
  simp only [enter?, hv, if_true, Option.ite_none_right_eq_some, Option.some.injEq,
    Bool.and_eq_true, decide_eq_true_eq, and_assoc, @eq_comm _ inner]

/-! ### The walk, segment by segment -/

@[simp] theorem matchesBelow_nil (dir : Path) (branch : List Location) :
    v.matchesBelow [] dir branch = [] := by
  rw [matchesBelow]

theorem matchesBelow_parent (rest : List Segment) (dir : Path) (branch : List Location) :
    v.matchesBelow (.parent :: rest) dir branch = v.matchesBelow rest dir.up (v.leave branch) := by
  rw [matchesBelow]

/-- Behind `**` the rest is matched right here first, and then below each directory. -/
theorem matchesBelow_anyDepth {rest : List Segment} (hrest : rest ≠ []) (dir : Path)
    (branch : List Location) :
    v.matchesBelow (.anyDepth :: rest) dir branch =
      v.matchesBelow rest dir branch ++
        (v.workspace.entries dir).flatMap fun n =>
          v.inside (.anyDepth :: rest) (dir.child n) branch := by
  cases rest with
  | nil => exact absurd rfl hrest
  | cons next more =>
      rw [matchesBelow]
      congr 1
      rw [List.flatMap_subtype
          (g := fun n => v.inside (.anyDepth :: next :: more) (dir.child n) branch),
        List.unattach_attach]
      intro n hn
      dsimp only [inside]
      split
      · split <;> simp_all
      · simp_all

/-- In last position `**` stands for the files here and below. -/
theorem matchesBelow_anyDepth_last (dir : Path) (branch : List Location) :
    v.matchesBelow [.anyDepth] dir branch =
      (((v.workspace.entries dir).map dir.child).filter fun p => v.classify p = .file) ++
        (v.workspace.entries dir).flatMap fun n => v.inside [.anyDepth] (dir.child n) branch := by
  rw [matchesBelow]
  congr 1
  rw [List.flatMap_subtype (g := fun n => v.inside [.anyDepth] (dir.child n) branch),
    List.unattach_attach]
  intro n hn
  dsimp only [inside]
  split
  · split <;> simp_all
  · simp_all

theorem matchesBelow_single {segment : Segment} (hsegment : segment.takesOne = true)
    {rest : List Segment} (hrest : rest ≠ []) (dir : Path) (branch : List Location) :
    v.matchesBelow (segment :: rest) dir branch =
      (v.candidates dir segment).flatMap fun n => v.inside rest (dir.child n) branch := by
  cases rest with
  | nil => exact absurd rfl hrest
  | cons next more =>
      cases segment with
      | anyDepth | parent => cases hsegment
      | named _ | matching _ =>
          rw [matchesBelow]
          · congr 1
            funext n
            unfold inside
            cases v.classify (dir.child n) <;> rfl
          all_goals intros; contradiction

theorem matchesBelow_single_last {segment : Segment} (hsegment : segment.takesOne = true)
    (dir : Path) (branch : List Location) :
    v.matchesBelow [segment] dir branch =
      ((v.candidates dir segment).map dir.child).filter fun p => v.classify p = .file := by
  have hone : ∀ names : List Name, (names.map dir.child).filter (fun p => v.classify p = .file) =
      names.flatMap fun n => if v.classify (dir.child n) = .file then [dir.child n] else [] := by
    intro names
    induction names with
    | nil => rfl
    | cons n names ih =>
        rw [List.map_cons, List.filter_cons, List.flatMap_cons, ih]
        split <;> simp_all
  rw [hone]
  cases segment with
  | anyDepth | parent => cases hsegment
  | named _ | matching _ =>
      rw [matchesBelow]
      · congr 1
        funext n
        cases v.classify (dir.child n) <;> rfl
      all_goals intros; contradiction

/-- Induction along the walk. -/
theorem walk_induction {motive : List Segment → Path → List Location → Prop}
    (nil : ∀ dir branch, motive [] dir branch)
    (parent : ∀ rest dir branch, motive rest dir.up (v.leave branch) →
      motive (.parent :: rest) dir branch)
    (anyDepth : ∀ rest dir branch, motive rest dir branch →
      (∀ n ∈ v.workspace.entries dir, ∀ loc inner, v.classify (dir.child n) = .directory loc →
        v.enter? branch (dir.child n) loc = some inner →
        motive (.anyDepth :: rest) (dir.child n) inner) →
      motive (.anyDepth :: rest) dir branch)
    (single : ∀ segment rest dir branch, segment.takesOne = true →
      (∀ n ∈ v.candidates dir segment, ∀ loc inner, v.classify (dir.child n) = .directory loc →
        v.enter? branch (dir.child n) loc = some inner → motive rest (dir.child n) inner) →
      motive (segment :: rest) dir branch) :
    ∀ segments dir branch, motive segments dir branch
  | [], dir, branch => nil dir branch
  | .parent :: rest, dir, branch =>
      parent rest dir branch (walk_induction nil parent anyDepth single rest _ _)
  | .anyDepth :: rest, dir, branch =>
      anyDepth rest dir branch (walk_induction nil parent anyDepth single rest dir branch)
        fun n hn loc inner hkind henter =>
          have := room_child hn hkind henter
          walk_induction nil parent anyDepth single (.anyDepth :: rest) (dir.child n) inner
  | .named n :: rest, dir, branch =>
      single (.named n) rest dir branch rfl fun n _ _ inner _ _ =>
        walk_induction nil parent anyDepth single rest (dir.child n) inner
  | .matching g :: rest, dir, branch =>
      single (.matching g) rest dir branch rfl fun n _ _ inner _ _ =>
        walk_induction nil parent anyDepth single rest (dir.child n) inner
termination_by segments dir branch => (segments.length, v.room dir branch)

/-! ### What an entry is to the walk -/

/-- Under either policy an entry counts as a file when it leads to one. -/
theorem classify_eq_file_iff {p : Path} : v.classify p = .file ↔ v.workspace.LeadsToFile p := by
  unfold classify
  cases hlook : v.workspace.lookup false p with
  | error fault =>
      have hno := Workspace.not_leadsToFile hlook
      rcases v.workspace.lookup_true_cases p with hsame | ⟨outer, target, hlink⟩
      · simp [hsame, hlook, hno]
      · simp [hlink, hno]
  | ok found =>
      obtain ⟨loc, o⟩ := found
      rw [Workspace.leadsToFile_iff hlook]
      rcases v.workspace.lookup_true_cases p with hsame | ⟨outer, target, hlink⟩
      · rw [hsame, hlook]
        cases o <;> simp [Object.isRegular]
      · rw [hlink]
        cases o <;> simp [Object.isRegular]
        split <;> simp

/-- Without a link in last position, a directory counts as one under either policy. -/
theorem classify_eq_directory_iff_of_same {p : Path} {loc : Location}
    (hsame : v.workspace.lookup true p = v.workspace.lookup false p) :
    v.classify p = .directory loc ↔ v.workspace.lookup false p = .ok (loc, .directory) := by
  unfold classify
  rw [hsame]
  cases hlook : v.workspace.lookup false p with
  | error fault => simp
  | ok found =>
      obtain ⟨loc', o⟩ := found
      cases o <;> simp [Object.isRegular]

/-- A link counts as the directory it leads to only where links are followed. -/
theorem classify_eq_directory_iff_of_link {p : Path} {loc outer : Location} {target : Path}
    (hlink : v.workspace.lookup true p = .ok (outer, .link target)) :
    v.classify p = .directory loc ↔
      v.followsLinks = true ∧ v.workspace.lookup false p = .ok (loc, .directory) := by
  unfold classify
  simp only [hlink]
  cases hlook : v.workspace.lookup false p with
  | error fault => simp
  | ok found =>
      obtain ⟨loc', o⟩ := found
      cases v.followsLinks <;> cases o <;> simp [Object.isRegular]

/-- Where links are followed, whatever leads to a directory counts as one. -/
theorem classify_eq_directory_iff_of_follows {p : Path} {loc : Location}
    (hv : v.followsLinks = true) :
    v.classify p = .directory loc ↔ v.workspace.lookup false p = .ok (loc, .directory) := by
  rcases v.workspace.lookup_true_cases p with hsame | ⟨outer, target, hlink⟩
  · exact classify_eq_directory_iff_of_same hsame
  · rw [classify_eq_directory_iff_of_link hlink, and_iff_right hv]

/-- Where links are not followed, only a directory itself counts as one. -/
theorem classify_eq_directory_iff {p : Path} {loc : Location} (hv : v.followsLinks = false) :
    v.classify p = .directory loc ↔ v.workspace.lookup true p = .ok (loc, .directory) := by
  rcases v.workspace.lookup_true_cases p with hsame | ⟨outer, target, hlink⟩
  · rw [classify_eq_directory_iff_of_same hsame, hsame]
  · rw [classify_eq_directory_iff_of_link hlink, hlink]
    simp [hv]

/-! ### What the walk preserves -/

/-- What the steps into directories and back up preserve holds of the directory of each match. -/
theorem mem_matchesBelow_of_invariant {holds : Path → Prop}
    (child : ∀ dir n loc, holds dir → v.classify (dir.child n) = .directory loc →
      holds (dir.child n))
    (up : ∀ dir, holds dir → holds dir.up) {segments : List Segment} {dir : Path}
    {branch : List Location} {q : Path} (hdir : holds dir)
    (hq : q ∈ v.matchesBelow segments dir branch) :
    ∃ outer n, holds outer ∧ q = outer.child n ∧ v.workspace.LeadsToFile q := by
  induction segments, dir, branch using walk_induction (v := v) with
  | nil dir branch =>
      rw [matchesBelow_nil] at hq
      cases hq
  | parent rest dir branch ih =>
      rw [matchesBelow_parent] at hq
      exact ih (up dir hdir) hq
  | anyDepth rest dir branch ihHere ihBelow =>
      have hinside : ∀ n ∈ v.workspace.entries dir,
          q ∈ v.inside (.anyDepth :: rest) (dir.child n) branch →
          ∃ outer n, holds outer ∧ q = outer.child n ∧ v.workspace.LeadsToFile q := by
        intro n hn hmem
        obtain ⟨loc, inner, hkind, henter, hmem⟩ := mem_inside.mp hmem
        exact ihBelow n hn loc inner hkind henter (child dir n loc hdir hkind) hmem
      by_cases hrest : rest = []
      · subst hrest
        rw [matchesBelow_anyDepth_last, List.mem_append, List.mem_flatMap, List.mem_filter,
          List.mem_map] at hq
        rcases hq with ⟨⟨n, _, rfl⟩, hfile⟩ | ⟨n, hn, hmem⟩
        · exact ⟨dir, n, hdir, rfl, classify_eq_file_iff.mp (of_decide_eq_true hfile)⟩
        · exact hinside n hn hmem
      · rw [matchesBelow_anyDepth hrest, List.mem_append, List.mem_flatMap] at hq
        rcases hq with hhere | ⟨n, hn, hmem⟩
        · exact ihHere hdir hhere
        · exact hinside n hn hmem
  | single segment rest dir branch hone ih =>
      by_cases hrest : rest = []
      · subst hrest
        rw [matchesBelow_single_last hone, List.mem_filter, List.mem_map] at hq
        obtain ⟨⟨n, _, rfl⟩, hfile⟩ := hq
        exact ⟨dir, n, hdir, rfl, classify_eq_file_iff.mp (of_decide_eq_true hfile)⟩
      · rw [matchesBelow_single hone hrest, List.mem_flatMap] at hq
        obtain ⟨n, hn, hmem⟩ := hq
        obtain ⟨loc, inner, hkind, henter, hmem⟩ := mem_inside.mp hmem
        exact ih n hn loc inner hkind henter (child dir n loc hdir hkind) hmem

end View

end ArtifactHarvest
