import ArtifactHarvest.Artifact.Roster
import Std.Data.HashSet.Lemmas

/-!
What a roster keeps: the first artifact under each path (`toList_ofList`). The set of taken paths
always agrees with the artifacts that were kept (`push_agrees`). Of two lists the first is kept as
it would be alone, and the second adds what is new (`firsts_append`). An artifact that is kept comes
from the first source that has one under its path (`source_of_mem_firsts`), and is the first that
this source has (`first_of_mem_firsts`).
-/

namespace ArtifactHarvest

/-- The first artifact under each path, in order. -/
def firsts : List Pending → List Pending
  | [] => []
  | a :: rest => a :: (firsts rest).filter fun b => b.path ≠ a.path

theorem mem_paths_firsts_iff {artifacts : List Pending} {path : String} :
    path ∈ (firsts artifacts).map Pending.path ↔ path ∈ artifacts.map Pending.path := by
  induction artifacts with
  | nil => rfl
  | cons a rest ih =>
      rw [firsts, List.map_cons, List.map_cons, List.mem_cons, List.mem_cons, ← ih]
      by_cases h : path = a.path
      · simp [h]
      · simp only [h, false_or, List.mem_map, List.mem_filter, decide_eq_true_eq]
        constructor
        · rintro ⟨b, ⟨hb, _⟩, hpath⟩
          exact ⟨b, hb, hpath⟩
        · rintro ⟨b, hb, rfl⟩
          exact ⟨b, ⟨hb, h⟩, rfl⟩

theorem nodup_paths_firsts (artifacts : List Pending) :
    ((firsts artifacts).map Pending.path).Nodup := by
  induction artifacts with
  | nil => exact .nil
  | cons a rest ih =>
      rw [firsts, List.map_cons, List.nodup_cons]
      refine ⟨?_, ih.sublist (List.filter_sublist.map _)⟩
      intro hmem
      obtain ⟨b, hb, hpath⟩ := List.mem_map.mp hmem
      have hne := (List.mem_filter.mp hb).2
      simp [hpath] at hne

theorem mem_of_mem_firsts {artifacts : List Pending} {a : Pending} (h : a ∈ firsts artifacts) :
    a ∈ artifacts := by
  induction artifacts with
  | nil => cases h
  | cons b rest ih =>
      rcases List.mem_cons.mp h with rfl | hmem
      · exact List.mem_cons_self
      · exact List.mem_cons_of_mem b (ih (List.mem_filter.mp hmem).1)

/-- An artifact that is kept stands behind none with its path. -/
theorem first_of_mem_firsts {artifacts : List Pending} {a : Pending} (h : a ∈ firsts artifacts) :
    ∃ front back, artifacts = front ++ a :: back ∧ ∀ b ∈ front, b.path ≠ a.path := by
  induction artifacts with
  | nil => cases h
  | cons b rest ih =>
      rcases List.mem_cons.mp h with rfl | hlater
      · exact ⟨[], rest, rfl, nofun⟩
      · obtain ⟨hkept, hnew⟩ := List.mem_filter.mp hlater
        obtain ⟨front, back, rfl, hfront⟩ := ih hkept
        have hb : b.path ≠ a.path := Ne.symm (of_decide_eq_true hnew)
        exact ⟨b :: front, back, rfl, List.forall_mem_cons.mpr ⟨hb, hfront⟩⟩

namespace Roster

/-- The paths of the kept artifacts. -/
def paths (r : Roster) : List String :=
  r.toList.map Pending.path

/-- The taken paths are those of the kept artifacts. -/
def Agrees (r : Roster) : Prop :=
  ∀ path, path ∈ r.taken ↔ path ∈ r.paths

theorem empty_agrees : empty.Agrees := by
  intro path
  simp [empty, paths, toList]

theorem push_of_mem {r : Roster} {a : Pending} (hr : r.Agrees) (h : a.path ∈ r.paths) :
    r.push a = r := by
  rw [push, if_pos ((hr _).mpr h)]

theorem toList_push_of_notMem {r : Roster} {a : Pending} (hr : r.Agrees) (h : a.path ∉ r.paths) :
    (r.push a).toList = r.toList ++ [a] := by
  rw [push, if_neg fun htaken => h ((hr _).mp htaken)]
  simp [toList]

theorem paths_push_of_notMem {r : Roster} {a : Pending} (hr : r.Agrees) (h : a.path ∉ r.paths) :
    (r.push a).paths = r.paths ++ [a.path] := by
  rw [paths, toList_push_of_notMem hr h, List.map_append, List.map_singleton, paths]

theorem push_agrees {r : Roster} (a : Pending) (hr : r.Agrees) : (r.push a).Agrees := by
  by_cases h : a.path ∈ r.paths
  · rwa [push_of_mem hr h]
  · intro path
    rw [paths_push_of_notMem hr h, push, if_neg fun htaken => h ((hr _).mp htaken)]
    simp only [Std.HashSet.mem_insert, beq_iff_eq, hr path, List.mem_append, List.mem_singleton]
    constructor
    · rintro (rfl | hpath)
      · exact .inr rfl
      · exact .inl hpath
    · rintro (hpath | rfl)
      · exact .inr hpath
      · exact .inl rfl

theorem foldl_push_agrees {r : Roster} (artifacts : List Pending) (hr : r.Agrees) :
    (artifacts.foldl push r).Agrees := by
  induction artifacts generalizing r with
  | nil => exact hr
  | cons a artifacts ih => exact ih (push_agrees a hr)

/-- A roster that goes on with more artifacts adds the first ones whose paths are not taken. -/
theorem toList_foldl_push {r : Roster} (artifacts : List Pending) (hr : r.Agrees) :
    (artifacts.foldl push r).toList =
      r.toList ++ (firsts artifacts).filter fun a => a.path ∉ r.paths := by
  induction artifacts generalizing r with
  | nil => simp [firsts]
  | cons a rest ih =>
      rw [List.foldl_cons, ih (push_agrees a hr), firsts]
      by_cases h : a.path ∈ r.paths
      · rw [push_of_mem hr h, List.filter_cons_of_neg (by simpa using h),
          List.filter_filter]
        congr 1
        refine List.filter_congr fun b _ => ?_
        by_cases hb : b.path ∈ r.paths
        · simp [hb]
        · have hne : b.path ≠ a.path := fun hsame => hb (hsame ▸ h)
          simp [hb, hne]
      · rw [toList_push_of_notMem hr h, paths_push_of_notMem hr h,
          List.filter_cons_of_pos (by simpa using h), List.filter_filter, List.append_assoc,
          List.singleton_append]
        simp only [List.mem_append, List.mem_singleton, not_or, Bool.decide_and]

/-- What a roster keeps of a list. -/
theorem toList_ofList (artifacts : List Pending) :
    (ofList artifacts).toList = firsts artifacts := by
  rw [ofList, toList_foldl_push artifacts empty_agrees]
  simp [empty, toList, paths]

end Roster

/-- Of two lists the first is kept as it would be alone, and the second as far as its paths are not
taken by then. -/
theorem firsts_append (front back : List Pending) :
    firsts (front ++ back) =
      firsts front ++ (firsts back).filter fun a => a.path ∉ (firsts front).map Pending.path := by
  have h := Roster.toList_foldl_push back (Roster.foldl_push_agrees front Roster.empty_agrees)
  rw [← List.foldl_append] at h
  change (Roster.ofList (front ++ back)).toList = (Roster.ofList front).toList ++
    (firsts back).filter (fun a => a.path ∉ (Roster.ofList front).paths) at h
  simpa only [Roster.paths, Roster.toList_ofList] using h

/-- Where several sources give artifacts one after the other, an artifact that is kept comes from
the first source that has one under its path, and is kept of what that source gives. -/
theorem source_of_mem_firsts {α : Type} {given : α → List Pending} {sources : List α} {a : Pending}
    (h : a ∈ firsts (sources.flatMap given)) :
    ∃ earlier source later, sources = earlier ++ source :: later ∧ a ∈ firsts (given source) ∧
      ∀ other ∈ earlier, a.path ∉ (given other).map Pending.path := by
  induction sources with
  | nil => cases h
  | cons source rest ih =>
      rw [List.flatMap_cons, firsts_append, List.mem_append, List.mem_filter] at h
      rcases h with hhere | ⟨hlater, hnew⟩
      · exact ⟨[], source, rest, rfl, hhere, by simp⟩
      · obtain ⟨earlier, owner, later, rfl, hgiven, hfirst⟩ := ih hlater
        refine ⟨source :: earlier, owner, later, rfl, hgiven, ?_⟩
        intro other hother
        rcases List.mem_cons.mp hother with rfl | hother
        · rw [← mem_paths_firsts_iff]
          exact of_decide_eq_true hnew
        · exact hfirst other hother

end ArtifactHarvest
