import ArtifactHarvest.Proofs.Artifact.Keeping
import Mathlib.Data.List.Induction

/-!
What a roster answers to each artifact that is pushed: whether its path comes for the first time.
The answers tell which artifacts are kept and how many (`answers_eq`, `toList_ofList_newcomers`,
`size_foldl_push`), and nothing is lost when two lists are pushed of which only the kept artifacts
are left (`firsts_of_survivors`). Main statement: `pushed_in_turn`.
-/

namespace ArtifactHarvest

/-- Whether the path of the artifact at a position has not come before. -/
def comesFirst (artifacts : List Pending) (placed : Pending × Nat) : Bool :=
  placed.1.path ∉ (artifacts.take placed.2).map Pending.path

/-- The artifacts whose paths come for the first time where they stand. -/
def newcomers (artifacts : List Pending) : List Pending :=
  (artifacts.zipIdx.filter (comesFirst artifacts)).map Prod.fst

/-- An artifact at the end changes nothing for those in front of it. -/
theorem comesFirst_concat {front : List Pending} {placed : Pending × Nat} (a : Pending)
    (h : placed ∈ front.zipIdx) : comesFirst (front ++ [a]) placed = comesFirst front placed := by
  have hplace : placed.2 < front.length := List.snd_lt_of_mem_zipIdx h
  rw [comesFirst, comesFirst, List.take_append_of_le_length (Nat.le_of_lt hplace)]

theorem zipIdx_concat (front : List Pending) (a : Pending) :
    (front ++ [a]).zipIdx = front.zipIdx ++ [(a, front.length)] := by
  rw [List.zipIdx_append, List.zipIdx_singleton, Nat.zero_add]

theorem comesFirst_last (front : List Pending) (a : Pending) :
    comesFirst (front ++ [a]) (a, front.length) = decide (a.path ∉ front.map Pending.path) := by
  rw [comesFirst, List.take_left]

theorem newcomers_concat (front : List Pending) (a : Pending) :
    newcomers (front ++ [a]) =
      newcomers front ++ if a.path ∈ front.map Pending.path then [] else [a] := by
  have hfront : front.zipIdx.filter (comesFirst (front ++ [a])) =
      front.zipIdx.filter (comesFirst front) :=
    List.filter_congr fun _ h => comesFirst_concat a h
  rw [newcomers, newcomers, zipIdx_concat, List.filter_append, List.map_append, hfront]
  by_cases h : a.path ∈ front.map Pending.path
  · rw [if_pos h, List.filter_cons_of_neg (by simp [comesFirst_last, -List.mem_map, h]),
      List.filter_nil, List.map_nil]
  · rw [if_neg h, List.filter_cons_of_pos (by simp [comesFirst_last, -List.mem_map, h]),
      List.filter_nil, List.map_singleton]

/-- Where no path comes twice, all artifacts are the first under theirs. -/
theorem firsts_of_nodup {artifacts : List Pending} (h : (artifacts.map Pending.path).Nodup) :
    firsts artifacts = artifacts := by
  induction artifacts with
  | nil => rfl
  | cons a rest ih =>
      obtain ⟨hnew, hrest⟩ := List.nodup_cons.mp h
      rw [firsts, ih hrest, List.filter_eq_self.mpr]
      intro b hb
      exact decide_eq_true fun hsame => hnew (hsame ▸ List.mem_map_of_mem hb)

/-- What is left of two lists one after the other is what is left of what is left of each. -/
theorem firsts_of_survivors (front back : List Pending) :
    firsts (firsts front ++ firsts back) = firsts (front ++ back) := by
  rw [firsts_append, firsts_append, firsts_of_nodup (nodup_paths_firsts front),
    firsts_of_nodup (nodup_paths_firsts back)]

namespace Roster

/-- What a roster answers to artifacts that are pushed one after the other: whether each is kept. -/
def answers (r : Roster) : List Pending → List Bool
  | [] => []
  | a :: rest => r.admits a :: (r.push a).answers rest

theorem answers_concat (r : Roster) (front : List Pending) (a : Pending) :
    r.answers (front ++ [a]) = r.answers front ++ [(front.foldl push r).admits a] := by
  induction front generalizing r with
  | nil => rfl
  | cons b front ih =>
      rw [List.cons_append, answers, answers, ih, List.foldl_cons, List.cons_append]

/-- The number of kept artifacts grows by one just where the answer is yes. -/
theorem size_push (r : Roster) (a : Pending) :
    (r.push a).size = r.size + if r.admits a = true then 1 else 0 := by
  unfold push admits size
  by_cases h : a.path ∈ r.taken <;> simp [h]

theorem size_foldl_push (r : Roster) (artifacts : List Pending) :
    (artifacts.foldl push r).size = r.size + (r.answers artifacts).count true := by
  induction artifacts generalizing r with
  | nil => rfl
  | cons a rest ih =>
      rw [List.foldl_cons, ih, size_push, answers, List.count_cons]
      simp only [beq_true]
      omega

/-- After some artifacts, another is kept where none of them has its path. -/
theorem admits_ofList (artifacts : List Pending) (a : Pending) :
    (ofList artifacts).admits a = decide (a.path ∉ artifacts.map Pending.path) := by
  have htaken : a.path ∈ (ofList artifacts).taken ↔ a.path ∈ artifacts.map Pending.path :=
    calc a.path ∈ (ofList artifacts).taken
        ↔ a.path ∈ (ofList artifacts).paths := foldl_push_agrees artifacts empty_agrees a.path
      _ ↔ a.path ∈ artifacts.map Pending.path := by
        rw [paths, toList_ofList, mem_paths_firsts_iff]
  exact decide_eq_decide.mpr (not_congr htaken)

theorem answers_eq (artifacts : List Pending) :
    empty.answers artifacts = artifacts.zipIdx.map (comesFirst artifacts) := by
  induction artifacts using List.reverseRecOn with
  | nil => rfl
  | append_singleton front a ih =>
      have hfront : front.zipIdx.map (comesFirst (front ++ [a])) =
          front.zipIdx.map (comesFirst front) :=
        List.map_congr_left fun _ h => comesFirst_concat a h
      rw [answers_concat, ih, zipIdx_concat, List.map_append, hfront, List.map_singleton,
        comesFirst_last]
      exact congrArg _ (congrArg (fun new => [new]) (admits_ofList front a))

theorem toList_ofList_newcomers (artifacts : List Pending) :
    (ofList artifacts).toList = newcomers artifacts := by
  induction artifacts using List.reverseRecOn with
  | nil => rfl
  | append_singleton front a ih =>
      rw [newcomers_concat, ← ih, toList_ofList, firsts_append, toList_ofList]
      congr 1
      by_cases h : a.path ∈ front.map Pending.path
      · rw [if_pos h]
        simpa [firsts, -List.mem_map, mem_paths_firsts_iff] using h
      · rw [if_neg h]
        simpa [firsts, -List.mem_map, mem_paths_firsts_iff] using h

/-- **Pushing one artifact after another.** The taken paths are those of the kept artifacts. These
are the pushed ones whose paths come for the first time where they stand, in order and unchanged.
Each push answers just whether that is so, and there are as many kept artifacts as answers that say
yes. Of two lists it is enough to push what is left of each alone. -/
theorem pushed_in_turn (artifacts : List Pending) :
    (∀ path, path ∈ (ofList artifacts).taken ↔
      path ∈ (ofList artifacts).toList.map Pending.path) ∧
    (ofList artifacts).toList = newcomers artifacts ∧
    empty.answers artifacts = artifacts.zipIdx.map (comesFirst artifacts) ∧
    (ofList artifacts).size = (empty.answers artifacts).count true ∧
    ∀ more, (ofList ((ofList artifacts).toList ++ (ofList more).toList)).toList =
      (ofList (artifacts ++ more)).toList := by
  refine ⟨foldl_push_agrees artifacts empty_agrees, toList_ofList_newcomers artifacts,
    answers_eq artifacts, ?_, fun more => ?_⟩
  · rw [ofList, size_foldl_push]
    exact Nat.zero_add _
  · simp only [toList_ofList, firsts_of_survivors]

/-- A path decides whatever else differs. -/
example : empty.answers [⟨"c", Path.ofText "/c", "*"⟩, ⟨"a", Path.ofText "/a", "*"⟩,
    ⟨"c", Path.ofText "/d/c", "**"⟩] = [true, true, false] := by
  rw [answers_eq]
  decide

end Roster

end ArtifactHarvest
