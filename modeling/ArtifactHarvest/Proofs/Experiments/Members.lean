import ArtifactHarvest.Experiments
import ArtifactHarvest.Proofs.Text.Trimming

/-!
Which names are enabled after each operation on a set of experiments. Enabling and disabling go by
the trimmed name, and a blank one is never enabled; names that are taken as they stand are not
looked at (`isEnabled_ofExact`). In which order names are enabled makes no difference
(`foldl_enable_perm`).
-/

namespace ArtifactHarvest.Experiments

variable (e : Experiments) (name x : String)

theorem mem_insertSorted {name x : String} {names : List String} :
    x ∈ insertSorted name names ↔ x = name ∨ x ∈ names := by
  induction names with
  | nil => simp [insertSorted]
  | cons other rest ih =>
      unfold insertSorted
      by_cases hsame : name = other
      · simp [hsame]
      · by_cases hless : name < other
        · simp [hsame, hless]
        · simp only [hsame, hless, if_false, List.mem_cons, ih]
          exact or_left_comm

theorem isEnabled_insert : (e.insert name).isEnabled x ↔ x = name ∨ e.isEnabled x := by
  simp [isEnabled, insert, mem_insertSorted]

theorem isEnabled_enable :
    (e.enable name).isEnabled x ↔ (x = Text.trimmed name ∧ x ≠ "") ∨ e.isEnabled x := by
  unfold enable
  by_cases hblank : Text.trimmed name = ""
  · simp only [hblank, if_true]
    exact ⟨.inr, fun h => h.resolve_left fun hx => hx.2 hx.1⟩
  · simp only [hblank, if_false, isEnabled_insert]
    exact or_congr_left ⟨fun hx => ⟨hx, hx ▸ hblank⟩, And.left⟩

theorem isEnabled_disable :
    (e.disable name).isEnabled x ↔ x ≠ Text.trimmed name ∧ e.isEnabled x := by
  simp [isEnabled, disable, and_comm]

theorem isEnabled_foldl_insert (names : List String) :
    (names.foldl insert e).isEnabled x ↔ x ∈ names ∨ e.isEnabled x := by
  induction names generalizing e with
  | nil => simp
  | cons name names ih =>
      rw [List.foldl_cons, ih, isEnabled_insert, List.mem_cons, or_assoc]
      exact or_left_comm

theorem isEnabled_ofExact (names : List String) : (ofExact names).isEnabled x ↔ x ∈ names := by
  rw [ofExact, isEnabled_foldl_insert]
  simp [none, isEnabled]

/-- What is left of names when they are trimmed and blank ones dropped. -/
def trimmedNames (names : List String) : List String :=
  (names.map Text.trimmed).filter (· ≠ "")

theorem neat_of_mem_trimmedNames {names : List String} {x : String} (h : x ∈ trimmedNames names) :
    Text.Neat x := by
  obtain ⟨hmem, hfilled⟩ := List.mem_filter.mp h
  obtain ⟨name, -, rfl⟩ := List.mem_map.mp hmem
  exact Text.neat_trimmed (of_decide_eq_true hfilled)

/-- Enabling names is taking up as they stand what is left of them. -/
theorem foldl_enable_eq (names : List String) :
    names.foldl enable e = (trimmedNames names).foldl insert e := by
  induction names generalizing e with
  | nil => rfl
  | cons name names ih =>
      rw [List.foldl_cons, ih]
      by_cases hblank : Text.trimmed name = "" <;> simp [trimmedNames, enable, hblank]

theorem ofNames_eq (names : List String) : ofNames names = ofExact (trimmedNames names) :=
  foldl_enable_eq none names

/-! ### The order of enabling -/

theorem insertSorted_comm_of_lt {a b : String} (hab : a < b) (names : List String) :
    insertSorted a (insertSorted b names) = insertSorted b (insertSorted a names) := by
  have hne : a ≠ b := fun h => String.lt_irrefl b (h ▸ hab)
  have hnot : ¬ b < a := String.lt_asymm hab
  induction names with
  | nil => simp [insertSorted, hab, hne, hne.symm, hnot]
  | cons other rest ih =>
      by_cases hb : b = other
      · subst hb
        simp [insertSorted, hne, hne.symm, hab, hnot]
      · by_cases hbless : b < other
        · have haless : a < other := String.lt_trans hab hbless
          have ha : a ≠ other := fun h => String.lt_irrefl other (h ▸ haless)
          simp [insertSorted, hne, hne.symm, ha, hb, hab, hnot, haless, hbless]
        · by_cases ha : a = other
          · subst ha
            simp [insertSorted, hb, hbless]
          · by_cases haless : a < other
            · simp [insertSorted, hne.symm, ha, hb, hnot, haless, hbless]
            · simp [insertSorted, ha, hb, haless, hbless, ih]

/-- Two names find their places whichever comes first. -/
theorem insertSorted_comm (a b : String) (names : List String) :
    insertSorted a (insertSorted b names) = insertSorted b (insertSorted a names) := by
  rcases Std.lt_trichotomy a b with hab | rfl | hba
  · exact insertSorted_comm_of_lt hab names
  · rfl
  · exact (insertSorted_comm_of_lt hba names).symm

theorem insert_comm (a b : String) : (e.insert a).insert b = (e.insert b).insert a := by
  simp only [insert, insertSorted_comm]

theorem foldl_enable_perm {names others : List String} (h : names.Perm others) :
    names.foldl enable e = others.foldl enable e := by
  have htrimmed : (trimmedNames names).Perm (trimmedNames others) := (h.map _).filter _
  rw [foldl_enable_eq, foldl_enable_eq]
  exact htrimmed.foldl_eq' (fun a _ b _ e => insert_comm e a b) e

end ArtifactHarvest.Experiments
