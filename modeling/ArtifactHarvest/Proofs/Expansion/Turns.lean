import ArtifactHarvest.Proofs.Expansion.Walking
import Mathlib.Logic.Hydra

/-!
The walk turn by turn. Where the walk stands it finds files and goes on to further stands, in a
fixed order (`View.turns`); what it finds is what its turns come to
(`matchesBelow_eq_flatMap_turns`). Each stand has a rank above those it leads to
(`rank_lt_of_mem_turns`), under either policy on links and with no bound given beforehand, so the
walk comes to its end. Main statement: `walk_ends`.
-/

namespace ArtifactHarvest

/-- Where the walk stands: a directory, the segments still to be matched there, and the directories
entered on the way. -/
structure Stand where
  segments : List Segment
  dir : Path
  branch : List Location

/-- One thing that is done at a stand: a file is found, or the walk goes on to a further stand. -/
inductive Turn where
  | find (p : Path)
  | onward (s : Stand)

namespace View

variable {v : View}

/-- What an entry comes to that has been matched: a file is found where nothing is left to match,
and a directory is entered where something is. -/
def visit (v : View) (rest : List Segment) (branch : List Location) (p : Path) : List Turn :=
  match v.classify p, rest with
  | .file, [] => [.find p]
  | .directory loc, next :: more =>
      match v.enter? branch p loc with
      | some inner => [.onward ⟨next :: more, p, inner⟩]
      | none => []
  | _, _ => []

/-- What is done at a stand, in order. -/
def turns (v : View) : Stand → List Turn
  | ⟨[], _, _⟩ => []
  | ⟨.parent :: rest, dir, branch⟩ => [.onward ⟨rest, dir.up, v.leave branch⟩]
  | ⟨.anyDepth :: rest, dir, branch⟩ =>
      (if rest = [] then (v.workspace.entries dir).flatMap fun n => v.visit [] branch (dir.child n)
        else [.onward ⟨rest, dir, branch⟩]) ++
      (v.workspace.entries dir).flatMap fun n => v.visit (.anyDepth :: rest) branch (dir.child n)
  | ⟨segment :: rest, dir, branch⟩ =>
      (v.candidates dir segment).flatMap fun n => v.visit rest branch (dir.child n)

theorem turns_parent (rest : List Segment) (dir : Path) (branch : List Location) :
    v.turns ⟨.parent :: rest, dir, branch⟩ = [.onward ⟨rest, dir.up, v.leave branch⟩] := by
  rw [turns]

theorem turns_anyDepth (rest : List Segment) (dir : Path) (branch : List Location) :
    v.turns ⟨.anyDepth :: rest, dir, branch⟩ =
      (if rest = [] then (v.workspace.entries dir).flatMap fun n => v.visit [] branch (dir.child n)
        else [.onward ⟨rest, dir, branch⟩]) ++
      (v.workspace.entries dir).flatMap fun n =>
        v.visit (.anyDepth :: rest) branch (dir.child n) := by
  rw [turns]

theorem turns_single {segment : Segment} (hone : segment.takesOne = true) (rest : List Segment)
    (dir : Path) (branch : List Location) :
    v.turns ⟨segment :: rest, dir, branch⟩ =
      (v.candidates dir segment).flatMap fun n => v.visit rest branch (dir.child n) := by
  cases segment with
  | anyDepth | parent => cases hone
  | named _ | matching _ =>
      rw [turns]
      all_goals intros; contradiction

theorem find_mem_visit_iff {rest : List Segment} {branch : List Location} {p q : Path} :
    .find q ∈ v.visit rest branch p ↔ rest = [] ∧ q = p ∧ v.classify p = .file := by
  unfold visit
  cases hkind : v.classify p with
  | file => cases rest <;> simp
  | other => simp
  | directory loc =>
      cases rest with
      | nil => simp
      | cons next more => cases henter : v.enter? branch p loc <;> simp [henter]

theorem onward_mem_visit_iff {rest : List Segment} {branch : List Location} {p : Path} {t : Stand} :
    .onward t ∈ v.visit rest branch p ↔ rest ≠ [] ∧ ∃ loc inner, v.classify p = .directory loc ∧
      v.enter? branch p loc = some inner ∧ t = ⟨rest, p, inner⟩ := by
  unfold visit
  cases hkind : v.classify p with
  | file => cases rest <;> simp
  | other => simp
  | directory loc =>
      cases rest with
      | nil => simp
      | cons next more => cases henter : v.enter? branch p loc <;> simp [henter]

/-- The kinds of turns that lead from one stand to another: back up, on at the same place with `**`
left behind, down behind `**`, and down behind a segment for one name. -/
theorem onward_mem_turns_cases {s t : Stand} (h : .onward t ∈ v.turns s) :
    (∃ rest, s.segments = .parent :: rest ∧ t = ⟨rest, s.dir.up, v.leave s.branch⟩) ∨
    (∃ rest, s.segments = .anyDepth :: rest ∧ t = ⟨rest, s.dir, s.branch⟩) ∨
    ∃ n loc inner, v.classify (s.dir.child n) = .directory loc ∧
      v.enter? s.branch (s.dir.child n) loc = some inner ∧
      t.dir = s.dir.child n ∧ t.branch = inner ∧
      (t.segments = s.segments ∧ n ∈ v.workspace.entries s.dir ∨
        ∃ segment, s.segments = segment :: t.segments) := by
  obtain ⟨segments, dir, branch⟩ := s
  cases segments with
  | nil => cases h
  | cons segment rest =>
      cases segment with
      | parent =>
          rw [turns_parent, List.mem_singleton] at h
          exact .inl ⟨rest, rfl, Turn.onward.inj h⟩
      | anyDepth =>
          rw [turns_anyDepth, List.mem_append] at h
          rcases h with hnear | hbelow
          · by_cases hrest : rest = []
            · rw [if_pos hrest, List.mem_flatMap] at hnear
              obtain ⟨n, _, hvisit⟩ := hnear
              exact absurd rfl (onward_mem_visit_iff.mp hvisit).1
            · rw [if_neg hrest, List.mem_singleton] at hnear
              exact .inr (.inl ⟨rest, rfl, Turn.onward.inj hnear⟩)
          · obtain ⟨n, hn, hvisit⟩ := List.mem_flatMap.mp hbelow
            obtain ⟨_, loc, inner, hkind, henter, rfl⟩ := onward_mem_visit_iff.mp hvisit
            exact .inr (.inr ⟨n, loc, inner, hkind, henter, rfl, rfl, .inl ⟨rfl, hn⟩⟩)
      | named _ | matching _ =>
          rw [turns_single rfl] at h
          obtain ⟨n, _, hvisit⟩ := List.mem_flatMap.mp h
          obtain ⟨_, loc, inner, hkind, henter, rfl⟩ := onward_mem_visit_iff.mp hvisit
          exact .inr (.inr ⟨n, loc, inner, hkind, henter, rfl, rfl, .inr ⟨_, rfl⟩⟩)

/-- A file is found as an entry of the directory in which the walk stands. -/
theorem find_mem_turns {s : Stand} {p : Path} (h : .find p ∈ v.turns s) :
    ∃ n, p = s.dir.child n ∧ v.workspace.LeadsToFile p := by
  obtain ⟨segments, dir, branch⟩ := s
  have hvisit : ∀ {names : List Name} {rest : List Segment},
      .find p ∈ names.flatMap (fun n => v.visit rest branch (dir.child n)) →
      ∃ n, p = dir.child n ∧ v.workspace.LeadsToFile p := by
    intro names rest hmem
    obtain ⟨n, _, hn⟩ := List.mem_flatMap.mp hmem
    obtain ⟨_, rfl, hkind⟩ := find_mem_visit_iff.mp hn
    exact ⟨n, rfl, classify_eq_file_iff.mp hkind⟩
  cases segments with
  | nil => cases h
  | cons segment rest =>
      cases segment with
      | parent =>
          rw [turns_parent, List.mem_singleton] at h
          cases h
      | anyDepth =>
          rw [turns_anyDepth, List.mem_append] at h
          rcases h with hnear | hbelow
          · split at hnear
            · exact hvisit hnear
            · cases List.mem_singleton.mp hnear
          · exact hvisit hbelow
      | named _ | matching _ =>
          rw [turns_single rfl] at h
          exact hvisit h

/-! ### What the turns come to -/

/-- What a turn comes to: the file found, or all that is found from the next stand on. -/
def outcome (v : View) : Turn → List Path
  | .find p => [p]
  | .onward s => v.matchesBelow s.segments s.dir s.branch

theorem flatMap_outcome_visit_nil (branch : List Location) (p : Path) :
    (v.visit [] branch p).flatMap v.outcome = if v.classify p = .file then [p] else [] := by
  unfold visit
  cases v.classify p <;> simp [outcome]

theorem flatMap_outcome_visit {rest : List Segment} (hrest : rest ≠ []) (branch : List Location)
    (p : Path) : (v.visit rest branch p).flatMap v.outcome = v.inside rest p branch := by
  obtain ⟨next, more, rfl⟩ := List.exists_cons_of_ne_nil hrest
  unfold visit inside
  cases v.classify p with
  | file | other => rfl
  | directory loc => cases henter : v.enter? branch p loc <;> simp [henter, outcome]

theorem filter_map_eq_flatMap {α β : Type} (f : α → β) (p : β → Prop) [DecidablePred p]
    (xs : List α) :
    (xs.map f).filter (fun y => decide (p y)) =
      xs.flatMap fun x => if p (f x) then [f x] else [] := by
  induction xs with
  | nil => rfl
  | cons x xs ih =>
      rw [List.map_cons, List.filter_cons, List.flatMap_cons, ih]
      split <;> simp_all

/-- **What the walk finds** is what its turns come to, in their order. -/
theorem matchesBelow_eq_flatMap_turns (s : Stand) :
    v.matchesBelow s.segments s.dir s.branch = (v.turns s).flatMap v.outcome := by
  obtain ⟨segments, dir, branch⟩ := s
  have hfiles : ∀ names : List Name,
      (names.flatMap fun n => v.visit [] branch (dir.child n)).flatMap v.outcome =
        (names.map dir.child).filter fun p => v.classify p = .file := by
    intro names
    rw [filter_map_eq_flatMap, List.flatMap_assoc]
    simp only [flatMap_outcome_visit_nil]
  have hinside : ∀ (names : List Name) {rest : List Segment}, rest ≠ [] →
      (names.flatMap fun n => v.visit rest branch (dir.child n)).flatMap v.outcome =
        names.flatMap fun n => v.inside rest (dir.child n) branch := by
    intro names rest hrest
    rw [List.flatMap_assoc]
    simp only [flatMap_outcome_visit hrest]
  cases segments with
  | nil => simp [turns]
  | cons segment rest =>
      cases segment with
      | parent =>
          rw [matchesBelow_parent, turns_parent]
          simp [outcome]
      | anyDepth =>
          rw [turns_anyDepth, List.flatMap_append, hinside _ (List.cons_ne_nil _ _)]
          by_cases hrest : rest = []
          · subst hrest
            rw [matchesBelow_anyDepth_last, if_pos rfl, hfiles]
          · rw [matchesBelow_anyDepth hrest, if_neg hrest]
            simp [outcome]
      | named _ | matching _ =>
          rw [turns_single rfl]
          by_cases hrest : rest = []
          · subst hrest
            rw [matchesBelow_single_last rfl, hfiles]
          · rw [matchesBelow_single rfl hrest, hinside _ hrest]

/-! ### The rank of a stand -/

/-- The most room that any directory gives: all directories, or the levels of the tree. -/
def mostRoom (v : View) : Nat :=
  if v.followsLinks then v.workspace.files.directories.length else v.workspace.files.height

theorem room_le_mostRoom (dir : Path) (branch : List Location) :
    v.room dir branch ≤ v.mostRoom := by
  unfold room mostRoom
  split
  · exact List.length_filter_le _ _
  · exact Nat.sub_le _ _

/-- A segment weighs more than all the room there is. -/
def rank (v : View) (s : Stand) : Nat :=
  s.segments.length * (v.mostRoom + 1) + v.room s.dir s.branch

theorem rank_lt_of_tail {s t : Stand} {segment : Segment}
    (h : s.segments = segment :: t.segments) : v.rank t < v.rank s := by
  have hroom := room_le_mostRoom (v := v) t.dir t.branch
  simp only [rank, h, List.length_cons, Nat.succ_mul]
  omega

theorem rank_lt_of_mem_turns {s t : Stand} (h : .onward t ∈ v.turns s) : v.rank t < v.rank s := by
  rcases onward_mem_turns_cases h with ⟨rest, hs, rfl⟩ | ⟨rest, hs, rfl⟩ |
    ⟨n, loc, inner, hkind, henter, hdir, rfl, ⟨hsame, hn⟩ | ⟨segment, hs⟩⟩
  · exact rank_lt_of_tail hs
  · exact rank_lt_of_tail hs
  · have hroom := room_child hn hkind henter
    simp only [rank, hsame, hdir]
    omega
  · exact rank_lt_of_tail hs

/-! ### A run of the walk -/

end View

/-- The walk under way: what is still to be done, and the files found so far. -/
structure Tour where
  todo : List Turn
  found : List Path

/-- The walk about to begin at a stand. -/
def Tour.start (s : Stand) : Tour := ⟨[.onward s], []⟩

namespace View

variable {v : View}

/-- One step of the walk: the first turn is taken, and the turns of the stand it leads to come
before all others. -/
inductive Step (v : View) : Tour → Tour → Prop where
  | find (p : Path) (todo : List Turn) (found : List Path) :
      Step v ⟨.find p :: todo, found⟩ ⟨todo, found ++ [p]⟩
  | onward (s : Stand) (todo : List Turn) (found : List Path) :
      Step v ⟨.onward s :: todo, found⟩ ⟨v.turns s ++ todo, found⟩

/-- What the walk will have found in the end. -/
def total (v : View) (q : Tour) : List Path :=
  q.found ++ q.todo.flatMap v.outcome

theorem step_total {q next : Tour} (h : v.Step q next) : v.total next = v.total q := by
  cases h with
  | find p todo found => simp [total, outcome]
  | onward s todo found => simp [total, outcome, matchesBelow_eq_flatMap_turns s]

theorem run_total {q last : Tour} (h : Relation.ReflTransGen v.Step q last) :
    v.total last = v.total q := by
  induction h with
  | refl => rfl
  | tail _ step ih => exact (step_total step).trans ih

/-- The weight of a turn: a file weighs less than any stand. -/
def weight (v : View) : Turn → Nat
  | .find _ => 0
  | .onward s => v.rank s + 1

theorem weight_lt_of_mem_turns {s : Stand} {turn : Turn} (h : turn ∈ v.turns s) :
    v.weight turn < v.weight (.onward s) := by
  cases turn with
  | find p => exact Nat.succ_pos _
  | onward t => exact Nat.succ_lt_succ (rank_lt_of_mem_turns h)

/-- A step replaces one turn by lighter ones. -/
theorem step_cutExpand {q next : Tour} (h : v.Step q next) :
    Relation.CutExpand (· < ·) (next.todo.map v.weight : Multiset Nat) (q.todo.map v.weight) := by
  cases h with
  | find p todo found =>
      refine ⟨0, v.weight (.find p), by simp, ?_⟩
      rw [add_zero, List.map_cons, ← Multiset.cons_coe, ← Multiset.singleton_add, add_comm]
  | onward s todo found =>
      refine ⟨((v.turns s).map v.weight : List Nat), v.weight (.onward s), ?_, ?_⟩
      · intro k hk
        obtain ⟨turn, hturn, rfl⟩ := List.mem_map.mp (Multiset.mem_coe.mp hk)
        exact weight_lt_of_mem_turns hturn
      · rw [List.map_append, List.map_cons, ← Multiset.coe_add, ← Multiset.cons_coe,
          ← Multiset.singleton_add, add_assoc, add_comm]
        rw [add_comm (Multiset.ofList (todo.map v.weight))]

/-- There is no endless run. -/
theorem step_wellFounded (v : View) : WellFounded fun next q : Tour => v.Step q next :=
  (InvImage.wf (fun q : Tour => (q.todo.map v.weight : Multiset Nat))
    (WellFounded.cutExpand wellFounded_lt)).mono fun _ _ h => step_cutExpand h

theorem exists_step_iff {q : Tour} : (∃ next, v.Step q next) ↔ q.todo ≠ [] := by
  obtain ⟨todo, found⟩ := q
  constructor
  · rintro ⟨next, h⟩
    cases h <;> exact List.cons_ne_nil _ _
  · intro h
    obtain ⟨turn, rest, rfl⟩ := List.exists_cons_of_ne_nil h
    cases turn with
    | find p => exact ⟨_, .find p rest found⟩
    | onward s => exact ⟨_, .onward s rest found⟩

theorem exists_run (v : View) (q : Tour) :
    ∃ last, Relation.ReflTransGen v.Step q last ∧ last.todo = [] := by
  induction q using v.step_wellFounded.induction with
  | h q ih =>
      by_cases hdone : q.todo = []
      · exact ⟨q, .refl, hdone⟩
      · obtain ⟨next, hstep⟩ := exists_step_iff.mpr hdone
        obtain ⟨last, hrun, hlast⟩ := ih next hstep
        exact ⟨last, .head hstep hrun, hlast⟩

/-- **The walk always ends.** A turn leads to stands of lower rank only, there is no endless run,
and from any stand the runs that can go no further are those that have found the matches. -/
theorem walk_ends (v : View) :
    (∀ s t, .onward t ∈ v.turns s → v.rank t < v.rank s) ∧
    (WellFounded fun next q : Tour => v.Step q next) ∧
    ∀ s q, (Relation.ReflTransGen v.Step (.start s) q ∧ ∀ next, ¬ v.Step q next) ↔
      q = ⟨[], v.matchesBelow s.segments s.dir s.branch⟩ := by
  refine ⟨fun s t => rank_lt_of_mem_turns, v.step_wellFounded, ?_⟩
  intro s q
  have hfinal : ∀ last, Relation.ReflTransGen v.Step (.start s) last → last.todo = [] →
      last = ⟨[], v.matchesBelow s.segments s.dir s.branch⟩ := by
    rintro ⟨todo, found⟩ hrun hdone
    obtain rfl : todo = [] := hdone
    have htotal := run_total hrun
    simp only [total, Tour.start, List.flatMap_nil, List.append_nil, List.nil_append,
      List.flatMap_cons, outcome] at htotal
    rw [htotal]
  constructor
  · rintro ⟨hrun, hstuck⟩
    refine hfinal q hrun ?_
    by_contra htodo
    obtain ⟨next, hstep⟩ := exists_step_iff.mpr htodo
    exact hstuck next hstep
  · rintro rfl
    obtain ⟨last, hrun, hdone⟩ := exists_run v (.start s)
    have hlast := hfinal last hrun hdone
    subst hlast
    exact ⟨hrun, fun next hstep => exists_step_iff.mp ⟨next, hstep⟩ rfl⟩

end View

end ArtifactHarvest
