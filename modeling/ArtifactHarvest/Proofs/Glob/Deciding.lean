import ArtifactHarvest.Glob.Matching

/-!
The decision on a glob is right: `accepts_iff` says that a glob accepts exactly the names it stands
for. The answers are kept for every end of the name, so each row answers for the shorter ends too
(`tail_answers`).
-/

namespace ArtifactHarvest.Glob

theorem matches_nil_iff {cs : List Char} : Matches [] cs ↔ cs = [] := by
  constructor
  · rintro ⟨⟩
    rfl
  · rintro rfl
    exact .done

theorem matches_one_nil {t : GlobToken} {g : Glob} (ht : t ≠ .anyRun) : ¬ Matches (t :: g) [] := by
  intro h
  cases h with
  | runEmpty => exact ht rfl

theorem matches_one_cons {t : GlobToken} {g : Glob} {c : Char} {cs : List Char}
    (ht : t ≠ .anyRun) : Matches (t :: g) (c :: cs) ↔ t.takes c = true ∧ Matches g cs := by
  constructor
  · intro h
    cases h with
    | one htakes hrest => exact ⟨htakes, hrest⟩
    | runEmpty => exact absurd rfl ht
    | runLonger => exact absurd rfl ht
  · rintro ⟨htakes, hrest⟩
    exact .one htakes hrest

theorem matches_run_nil {g : Glob} : Matches (.anyRun :: g) [] ↔ Matches g [] := by
  constructor
  · rintro ⟨⟩
    assumption
  · exact .runEmpty

theorem matches_run_cons {g : Glob} {c : Char} {cs : List Char} :
    Matches (.anyRun :: g) (c :: cs) ↔
      Matches g (c :: cs) ∨ c ≠ '/' ∧ Matches (.anyRun :: g) cs := by
  constructor
  · intro h
    cases h with
    | one htakes => cases htakes
    | runEmpty hrest => exact .inl hrest
    | runLonger hc hrest => exact .inr ⟨hc, hrest⟩
  · rintro (hrest | ⟨hc, hrest⟩)
    · exact .runEmpty hrest
    · exact .runLonger hc hrest

/-- The answers for a name hold those for each of its ends. -/
theorem tail_answers (c : Char) (cs : List Char) (g : Glob) :
    (answers (c :: cs) g).tail = answers cs g := by
  induction g with
  | nil => rfl
  | cons t g ih => cases t <;> simp only [answers, oneRow, runRow, List.tail_cons, ih]

/-- The first answer is the one for the whole name. -/
theorem head_answers_iff (g : Glob) (cs : List Char) :
    (answers cs g).head?.getD false = true ↔ Matches g cs := by
  induction g generalizing cs with
  | nil => cases cs <;> simp [answers, emptyRow, matches_nil_iff]
  | cons t g ih =>
      by_cases ht : t = .anyRun
      · subst ht
        induction cs with
        | nil => simp [answers, runRow, ih, matches_run_nil]
        | cons c cs ihc =>
            rw [matches_run_cons, ← ih, ← ihc]
            simp [answers, runRow, tail_answers]
      · have hrow : ∀ cs, answers cs (t :: g) = oneRow t cs (answers cs g) := fun cs => by
          cases t <;> first | rfl | exact absurd rfl ht
        cases cs with
        | nil => simp [hrow, oneRow, matches_one_nil ht]
        | cons c cs => simp [hrow, oneRow, tail_answers, ih, matches_one_cons ht]

/-- A glob accepts exactly the names that it stands for. -/
theorem accepts_iff (g : Glob) (name : String) : g.accepts name = true ↔ Matches g name.toList :=
  head_answers_iff g name.toList

end ArtifactHarvest.Glob
