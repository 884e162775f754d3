import ArtifactHarvest.Pattern.Declared
import ArtifactHarvest.Proofs.Path.Steps
import ArtifactHarvest.Proofs.Text.Trimming

/-!
What a setting declares. Two settings in one declare what the one declares and then what the other
does (`declared_append`). Each declared pattern holds something, has no semicolon and no blank at
either end (`declarable_of_mem_declared`), and patterns like that are declared again as they stand
when they are written one after another (`declared_intercalate`). Main statement:
`declared_read_back`.
-/

namespace ArtifactHarvest

namespace Pattern

/-- A text that can be declared as a pattern: it holds something, has no blank character at either
end, and no semicolon. -/
structure Declarable (pattern : String) : Prop where
  neat : Text.Neat pattern
  undivided : delimiter ∉ pattern.toList

/-- Two settings with a semicolon between them declare the patterns of the one, then those of the
other. -/
theorem declared_append (a b : String) :
    declared (a ++ ";" ++ b) = declared a ++ declared b := by
  have htext : (a ++ ";" ++ b).toList = a.toList ++ delimiter :: b.toList := by
    simp [delimiter]
  simp only [declared, htext, List.splitOn_append_cons_self, List.map_append, List.filter_append]

theorem declarable_of_mem_declared {text pattern : String} (h : pattern ∈ declared text) :
    Declarable pattern := by
  obtain ⟨run, hrun, rfl⟩ := List.mem_map.mp h
  obtain ⟨htrimmed, hne⟩ := List.mem_filter.mp hrun
  obtain ⟨piece, hpiece, rfl⟩ := List.mem_map.mp htrimmed
  have hfilled : Text.trim piece ≠ [] := of_decide_eq_true hne
  refine ⟨⟨?_, ?_⟩, ?_⟩
  · simpa [← String.toList_inj] using hfilled
  · rw [String.toList_ofList]
    exact Text.trim_tight piece
  · rw [String.toList_ofList]
    exact fun hmem => Text.notMem_of_mem_splitOn hpiece (Text.mem_of_mem_trim hmem)

/-- Patterns that can be declared are declared by a text with a semicolon between each two. -/
theorem declared_intercalate {patterns : List String} (h : ∀ p ∈ patterns, Declarable p) :
    declared (";".intercalate patterns) = patterns := by
  cases patterns with
  | nil => rfl
  | cons first rest =>
      have hruns : List.splitOn delimiter (";".intercalate (first :: rest)).toList =
          (first :: rest).map String.toList := by
        have hdelimiter : ";".toList = [delimiter] := rfl
        rw [String.toList_intercalate, hdelimiter, List.splitOn_intercalate delimiter _ (by simp)]
        rw [List.forall_mem_map]
        exact fun p hp => (h p hp).undivided
      have htrim : ((first :: rest).map String.toList).map Text.trim =
          (first :: rest).map String.toList := by
        rw [List.map_map]
        exact List.map_congr_left fun p hp => Text.trim_of_tight (h p hp).neat.tight
      have hfilled : ((first :: rest).map String.toList).filter (· ≠ []) =
          (first :: rest).map String.toList := by
        rw [List.filter_eq_self, List.forall_mem_map]
        exact fun p hp => by simpa using (h p hp).neat.nonempty
      rw [declared, hruns, htrim, hfilled, List.map_map]
      simp

/-- **Declarations compose and are read back.** Two settings in one declare the patterns of both. A
text with a semicolon between each two of some patterns declares just these where each of them holds
something, has no semicolon and no blank at either end, and nowhere else. What a setting declares is
of this kind, so writing it anew declares the same. -/
theorem declared_read_back :
    (∀ a b, declared (a ++ ";" ++ b) = declared a ++ declared b) ∧
    (∀ patterns, declared (";".intercalate patterns) = patterns ↔
      ∀ p ∈ patterns, Declarable p) ∧
    ∀ text, (∀ p ∈ declared text, Declarable p) ∧
      declared (";".intercalate (declared text)) = declared text := by
  refine ⟨declared_append, fun patterns => ⟨fun h p hp => ?_, declared_intercalate⟩,
    fun text => ⟨fun p => declarable_of_mem_declared, ?_⟩⟩
  · rw [← h] at hp
    exact declarable_of_mem_declared hp
  · exact declared_intercalate fun p => declarable_of_mem_declared

/-- Blanks of any kind around a pattern are not part of it. -/
example : declared "; a b \u3000;\u00a0;;a/**" = ["a b", "a/**"] := by decide

end Pattern

end ArtifactHarvest
