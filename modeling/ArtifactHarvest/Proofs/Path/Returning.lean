import ArtifactHarvest.Proofs.Path.Ancestors
import Mathlib.Data.List.DropRight
import Mathlib.Data.List.TakeWhile

/-!
Down to a child and back up again. What comes back is the path without the slashes and dots at its
end that stand for nothing (`trimmed`, `up_child`). A path that ends in a name comes back as it is
(`trimmed_child`), and a climb from either of the two comes to the same (`up_trimmed`).
-/

namespace ArtifactHarvest.Path

/-- An absolute path without the runs at its end that stand for nothing. -/
def trimmed (p : Path) : Path :=
  ⟨slash :: List.intercalate [slash]
    ((List.splitOn slash (p.bytes.drop 1)).reverse.dropWhile isIdle).reverse⟩

variable {p : Path}

theorem isIdle_name (n : Name) : isIdle n.bytes = false := by
  simp [isIdle, n.proper.1, n.proper.2.2.1]

theorem up_of_nil (habs : p.isAbsolute = true)
    (h : (List.splitOn slash (p.bytes.drop 1)).reverse.dropWhile isIdle = []) : p.up = p := by
  simp only [up, parent?, lead, habs, if_true, List.flatMap_singleton, Component.bytes,
    List.length_singleton, h, Option.getD_none]

theorem up_of_cons {run : Bytes} {outer : List Bytes} (habs : p.isAbsolute = true)
    (h : (List.splitOn slash (p.bytes.drop 1)).reverse.dropWhile isIdle = run :: outer) :
    p.up = ⟨slash :: List.intercalate [slash] (outer.dropWhile isIdle).reverse⟩ := by
  simp only [up, parent?, lead, habs, if_true, List.flatMap_singleton, Component.bytes,
    List.length_singleton, h, Option.getD_some, List.singleton_append]

/-- The parent of a path whose last run stands for something. -/
theorem up_of_splitOn {front : List Bytes} {run : Bytes} (habs : p.isAbsolute = true)
    (h : List.splitOn slash (p.bytes.drop 1) = front ++ [run]) (hrun : isIdle run = false) :
    p.up = ⟨slash :: List.intercalate [slash] (front.reverse.dropWhile isIdle).reverse⟩ := by
  apply up_of_cons habs
  rw [h, List.reverse_append, List.reverse_singleton, List.singleton_append,
    List.dropWhile_cons_of_neg (by simp [hrun])]

/-- A name is written behind a path, with a slash between them unless the path ends in one. -/
theorem bytes_child_cases (habs : p.isAbsolute = true) (n : Name) :
    p.bytes.getLast? = some slash ∧ (p.child n).bytes = p.bytes ++ n.bytes ∨
      p.bytes.getLast? ≠ some slash ∧ (p.child n).bytes = p.bytes ++ slash :: n.bytes := by
  have hrel : isAbsolute ⟨n.bytes⟩ = false := isAbsolute_of_isStep (c := .name n) rfl
  by_cases hlast : p.bytes.getLast? = some slash
  · exact .inl ⟨hlast, by simp [child, join, hrel, hlast]⟩
  · exact .inr ⟨hlast, by simp [child, join, hrel, hlast, ne_nil_of_isAbsolute habs]⟩

/-- A child ends in one run more. Where a slash stands at the end already, the empty run behind it
gives way. -/
theorem splitOn_child (habs : p.isAbsolute = true) (n : Name) :
    ∃ front, List.splitOn slash ((p.child n).bytes.drop 1) = front ++ [n.bytes] ∧
      (List.splitOn slash (p.bytes.drop 1) = front ∨
        List.splitOn slash (p.bytes.drop 1) = front ++ [[]]) := by
  obtain ⟨text, htext⟩ := isAbsolute_iff.mp habs
  have hname : List.splitOn slash n.bytes = [n.bytes] := List.splitOn_eq_singleton n.proper.2.1
  rcases bytes_child_cases habs n with ⟨hlast, hchild⟩ | ⟨_, hchild⟩
  · rw [hchild, htext]
    rw [htext] at hlast
    cases text with
    | nil => exact ⟨[], by simpa using hname, .inr rfl⟩
    | cons b more =>
        rw [List.getLast?_cons_cons] at hlast
        obtain ⟨front, hfront⟩ := List.getLast?_eq_some_iff.mp hlast
        refine ⟨List.splitOn slash front, ?_, .inr ?_⟩
        · simp [hfront, List.splitOn_append_cons_self, hname]
        · simp [hfront, List.splitOn_append_cons_self]
  · rw [hchild, htext]
    exact ⟨List.splitOn slash text, by simp [List.splitOn_append_cons_self, hname], .inl (by simp)⟩

/-- **What comes back from a child** is the path as it is written, without what stands for nothing
at its end. -/
theorem up_child (habs : p.isAbsolute = true) (n : Name) : (p.child n).up = p.trimmed := by
  obtain ⟨front, hchild, hp⟩ := splitOn_child habs n
  rw [up_of_splitOn (isAbsolute_child n habs) hchild (isIdle_name n), trimmed]
  rcases hp with hp | hp
  · rw [hp]
  · rw [hp, List.reverse_append, List.reverse_singleton, List.singleton_append,
      List.dropWhile_cons_of_pos (by simp [isIdle])]

theorem trimmed_child (habs : p.isAbsolute = true) (n : Name) :
    (p.child n).trimmed = p.child n := by
  obtain ⟨front, hchild, _⟩ := splitOn_child habs n
  obtain ⟨text, htext⟩ := isAbsolute_iff.mp (isAbsolute_child n habs)
  have hkept : ((front ++ [n.bytes]).reverse.dropWhile isIdle).reverse = front ++ [n.bytes] := by
    rw [List.reverse_append, List.reverse_singleton, List.singleton_append,
      List.dropWhile_cons_of_neg (by simp [isIdle_name]), List.reverse_cons, List.reverse_reverse]
  apply eq_of_bytes
  rw [trimmed, hchild, hkept, ← hchild, List.intercalate_splitOn, htext, List.drop_succ_cons,
    List.drop_zero]

theorem trimmed_descend (habs : p.isAbsolute = true) {names : List Name} (hnames : names ≠ []) :
    (p.descend names).trimmed = p.descend names := by
  rw [← List.dropLast_concat_getLast hnames, descend_append]
  exact trimmed_child (isAbsolute_descend _ habs) _

/-- Where a path is as a step back writes it, so are those below it. -/
theorem trimmed_descend_of_trimmed (habs : p.isAbsolute = true) (h : p.trimmed = p)
    (names : List Name) : (p.descend names).trimmed = p.descend names := by
  by_cases hnames : names = []
  · rwa [hnames]
  · exact trimmed_descend habs hnames

theorem isAbsolute_trimmed (p : Path) : p.trimmed.isAbsolute = true := rfl

theorem steps_trimmed (habs : p.isAbsolute = true) : p.trimmed.steps = p.steps := by
  have hfree : ∀ run ∈ List.splitOn slash (p.bytes.drop 1), slash ∉ run :=
    fun run hrun => Text.notMem_of_mem_splitOn hrun
  have hkept := List.dropWhile_suffix isIdle (l := (List.splitOn slash (p.bytes.drop 1)).reverse)
  rw [trimmed, steps_slash_intercalate, List.filterMap_reverse, filterMap_dropWhile_isIdle,
    List.filterMap_reverse, List.reverse_reverse, ← steps_of_isAbsolute habs]
  · exact fun run hrun => hfree run (List.mem_reverse.mp hrun)
  · exact fun run hrun => hfree run (List.mem_reverse.mp (hkept.mem (List.mem_reverse.mp hrun)))

/-- Where no step is left to take back, a climb stays. -/
theorem up_of_steps_nil (habs : p.isAbsolute = true) (h : p.steps = []) : p.up = p := by
  apply up_of_nil habs
  apply List.dropWhile_eq_nil_iff.mpr
  intro run hrun
  have hfree := Text.notMem_of_mem_splitOn (List.mem_reverse.mp hrun)
  rw [steps_of_isAbsolute habs, List.filterMap_eq_nil_iff] at h
  exact (Component.ofRun?_eq_none_iff hfree).mp (h run (List.mem_reverse.mp hrun))

/-- Where a run stands for something, a path without those at its end that do not is read back run
by run. -/
theorem splitOn_trimmed
    (h : (List.splitOn slash (p.bytes.drop 1)).reverse.dropWhile isIdle ≠ []) :
    List.splitOn slash (p.trimmed.bytes.drop 1) =
      ((List.splitOn slash (p.bytes.drop 1)).reverse.dropWhile isIdle).reverse := by
  have hsuffix := List.dropWhile_suffix isIdle (l := (List.splitOn slash (p.bytes.drop 1)).reverse)
  rw [trimmed, List.drop_succ_cons, List.drop_zero,
    List.splitOn_intercalate slash _ (by simpa using h)]
  intro run hrun
  exact Text.notMem_of_mem_splitOn
    (List.mem_reverse.mp (hsuffix.mem (List.mem_reverse.mp hrun)))

theorem trimmed_trimmed (p : Path) : p.trimmed.trimmed = p.trimmed := by
  cases hkept : (List.splitOn slash (p.bytes.drop 1)).reverse.dropWhile isIdle with
  | nil =>
      have hslash : p.trimmed = ⟨[slash]⟩ := by rw [trimmed, hkept]; rfl
      rw [hslash]
      rfl
  | cons run outer =>
      rw [trimmed, splitOn_trimmed (hkept ▸ List.cons_ne_nil run outer), List.reverse_reverse,
        List.dropWhile_idempotent isIdle _, trimmed]

/-- A climb comes to the same with what stands for nothing and without it. -/
theorem up_trimmed (habs : p.isAbsolute = true) (h : p.steps ≠ []) : p.trimmed.up = p.up := by
  have hbusy := List.head?_dropWhile_not isIdle (List.splitOn slash (p.bytes.drop 1)).reverse
  have hsteps : p.trimmed.steps ≠ [] := by rwa [steps_trimmed habs]
  cases hkept : (List.splitOn slash (p.bytes.drop 1)).reverse.dropWhile isIdle with
  | nil =>
      rw [trimmed, hkept] at hsteps
      exact absurd steps_slash hsteps
  | cons run outer =>
      rw [hkept] at hbusy
      have hrun : isIdle run = false := by simpa using hbusy
      have hruns : List.splitOn slash (p.trimmed.bytes.drop 1) = outer.reverse ++ [run] := by
        rw [splitOn_trimmed (hkept ▸ List.cons_ne_nil run outer), hkept, List.reverse_cons]
      rw [up_of_splitOn (isAbsolute_trimmed p) hruns hrun, List.reverse_reverse,
        up_of_cons habs hkept]

/-! ### How long the text is -/

theorem prefix_bytes_trimmed (habs : p.isAbsolute = true) : p.trimmed.bytes <+: p.bytes := by
  obtain ⟨text, htext⟩ := isAbsolute_iff.mp habs
  have hkept : ((List.splitOn slash (p.bytes.drop 1)).reverse.dropWhile isIdle).reverse <+:
      List.splitOn slash (p.bytes.drop 1) := by
    rw [← List.reverse_suffix, List.reverse_reverse]
    exact List.dropWhile_suffix isIdle
  have htexts : List.intercalate [slash] _ <+: List.intercalate [slash] _ :=
    Text.prefix_intercalate hkept
  rw [List.intercalate_splitOn] at htexts
  rw [htext, List.drop_succ_cons, List.drop_zero] at htexts
  rw [trimmed, htext]
  exact List.cons_prefix_cons.mpr ⟨rfl, htexts⟩

theorem length_child_cases (habs : p.isAbsolute = true) (n : Name) :
    (p.child n).bytes.length = p.bytes.length + n.bytes.length ∨
      (p.child n).bytes.length = p.bytes.length + 1 + n.bytes.length := by
  rcases bytes_child_cases habs n with ⟨_, h⟩ | ⟨_, h⟩
  · exact .inl (by rw [h, List.length_append])
  · exact .inr (by rw [h, List.length_append, List.length_cons]; omega)

/-- A name ends in no slash, so one is written behind it. -/
theorem length_child_child (habs : p.isAbsolute = true) (n m : Name) :
    ((p.child n).child m).bytes.length = (p.child n).bytes.length + 1 + m.bytes.length := by
  have hlast : (p.child n).bytes.getLast? ≠ some slash := by
    have hname : ∀ front, (front ++ n.bytes).getLast? ≠ some slash := by
      intro front hslash
      rw [← List.dropLast_concat_getLast n.proper.1, ← List.append_assoc,
        List.getLast?_concat] at hslash
      exact n.proper.2.1 (Option.some.inj hslash ▸ List.getLast_mem n.proper.1)
    rcases bytes_child_cases habs n with ⟨_, h⟩ | ⟨_, h⟩
    · exact h ▸ hname p.bytes
    · rw [h, List.append_cons]
      exact hname _
  have hbytes : ((p.child n).child m).bytes = (p.child n).bytes ++ slash :: m.bytes :=
    ((bytes_child_cases (isAbsolute_child n habs) m).resolve_left fun h => hlast h.1).2
  rw [hbytes, List.length_append, List.length_cons]
  omega

theorem length_descend_le {q : Path} {n : Name} (names : List Name) (hp : p.isAbsolute = true)
    (hq : q.isAbsolute = true) (h : (p.child n).bytes.length ≤ (q.child n).bytes.length) :
    ((p.child n).descend names).bytes.length ≤ ((q.child n).descend names).bytes.length := by
  induction names generalizing p q n with
  | nil => exact h
  | cons m names ih =>
      apply ih (isAbsolute_child n hp) (isAbsolute_child n hq)
      rw [length_child_child hp, length_child_child hq]
      omega

/-- Trimmed in front, a path is no longer than it was. -/
theorem length_descend_trimmed_le (habs : p.isAbsolute = true) (names : List Name) :
    (p.trimmed.descend names).bytes.length ≤ (p.descend names).bytes.length := by
  have hbegins := prefix_bytes_trimmed habs
  cases names with
  | nil => exact hbegins.length_le
  | cons n names =>
      apply length_descend_le names (isAbsolute_trimmed p) habs
      by_cases hsame : p.trimmed = p
      · rw [hsame]
      · have hshorter : p.trimmed.bytes.length < p.bytes.length :=
          Nat.lt_of_le_of_ne hbegins.length_le fun hlength =>
            hsame (eq_of_bytes (hbegins.eq_of_length hlength))
        rcases length_child_cases (isAbsolute_trimmed p) n with ht | ht <;>
          rcases length_child_cases habs n with hc | hc <;> omega

end ArtifactHarvest.Path
