import ArtifactHarvest.Text.Blank

/-!
Trimming takes off the blank characters at either end and nothing else. What is left has none there
(`trim_tight`), so a text is neat just where trimming leaves it as it is (`neat_iff`).
-/

namespace ArtifactHarvest.Text

/-- No blank character stands at either end. -/
structure Tight (text : List Char) : Prop where
  first : ∀ c ∈ text.head?, isBlank c = false
  last : ∀ c ∈ text.getLast?, isBlank c = false

theorem head_dropWhile_isBlank {text : List Char} {c : Char}
    (h : c ∈ (text.dropWhile isBlank).head?) : isBlank c = false := by
  have hhead := List.head?_dropWhile_not isBlank text
  rw [Option.mem_def.mp h] at hhead
  simpa using hhead

theorem mem_of_mem_trim {text : List Char} {c : Char} (h : c ∈ trim text) : c ∈ text := by
  rw [trim, List.mem_reverse] at h
  have hstart := List.mem_reverse.mp ((List.dropWhile_suffix isBlank).mem h)
  exact (List.dropWhile_suffix isBlank).mem hstart

theorem trim_tight (text : List Char) : Tight (trim text) := by
  constructor
  · intro c hc
    -- what is taken off the end leaves a beginning of what was there
    have hprefix : trim text <+: text.dropWhile isBlank := by
      rw [← List.reverse_suffix, trim, List.reverse_reverse]
      exact List.dropWhile_suffix isBlank
    obtain ⟨rest, hrest⟩ := hprefix
    have hstart : c ∈ (text.dropWhile isBlank).head? := by
      rw [← hrest, List.head?_append, Option.mem_def.mp hc, Option.some_or]
      rfl
    exact head_dropWhile_isBlank hstart
  · intro c hc
    rw [trim, List.getLast?_reverse] at hc
    exact head_dropWhile_isBlank hc

theorem dropWhile_of_head {text : List Char} (h : ∀ c ∈ text.head?, isBlank c = false) :
    text.dropWhile isBlank = text := by
  cases text with
  | nil => rfl
  | cons c rest => simp [h c rfl]

theorem trim_of_tight {text : List Char} (h : Tight text) : trim text = text := by
  have hlast : ∀ c ∈ text.reverse.head?, isBlank c = false := by
    rw [List.head?_reverse]
    exact h.last
  rw [trim, dropWhile_of_head h.first, dropWhile_of_head hlast, List.reverse_reverse]

/-- A text that holds something and has no blank character at either end. -/
structure Neat (text : String) : Prop where
  nonempty : text ≠ ""
  tight : Tight text.toList

theorem toList_trimmed (text : String) : (trimmed text).toList = trim text.toList := by
  rw [trimmed, String.toList_ofList]

theorem trimmed_tight (text : String) : Tight (trimmed text).toList := by
  rw [toList_trimmed]
  exact trim_tight text.toList

theorem trimmed_of_tight {text : String} (h : Tight text.toList) : trimmed text = text := by
  rw [trimmed, trim_of_tight h, String.ofList_toList]

/-- Trimming leaves neat texts as they are, and no other but the empty one. -/
theorem neat_iff {text : String} : Neat text ↔ text ≠ "" ∧ trimmed text = text := by
  constructor
  · exact fun h => ⟨h.nonempty, trimmed_of_tight h.tight⟩
  · rintro ⟨hne, hsame⟩
    exact ⟨hne, hsame ▸ trimmed_tight text⟩

theorem neat_trimmed {text : String} (h : trimmed text ≠ "") : Neat (trimmed text) :=
  ⟨h, trimmed_tight text⟩

end ArtifactHarvest.Text
