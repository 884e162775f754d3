import ArtifactHarvest.Proofs.Path.Steps

/-!
The ancestors of an absolute path. Their steps are the beginnings of its steps
(`prefix_steps_of_ancestor`, `length_steps_ancestor`), so one of the two tells an ancestor from the
others, and those of a child are the directory and its ancestors (`steps_ancestor_child`).
-/

namespace ArtifactHarvest.Path

variable {p q : Path}

theorem components_prefix_iff (hp : p.isAbsolute = true) (hq : q.isAbsolute = true) :
    p.components <+: q.components ↔ p.steps <+: q.steps := by
  rw [components_of_isAbsolute hp, components_of_isAbsolute hq, List.cons_prefix_cons,
    and_iff_right rfl]

theorem components_eq_iff (hp : p.isAbsolute = true) (hq : q.isAbsolute = true) :
    p.components = q.components ↔ p.steps = q.steps := by
  rw [components_of_isAbsolute hp, components_of_isAbsolute hq, List.cons_inj_right]

theorem ancestor_up (p : Path) (d : Nat) : p.up.ancestor d = p.ancestor (d + 1) := by
  induction d with
  | zero => rfl
  | succ d ih => exact congrArg up ih

/-- The ancestors of a child are those of the directory, however they are spelled. -/
theorem steps_ancestor_child (n : Name) (h : p.isAbsolute = true) (d : Nat) :
    ((p.child n).ancestor (d + 1)).steps = (p.ancestor d).steps := by
  have hchild := (steps_ancestor (isAbsolute_child n h) (d + 1)).2
  rw [steps_child, List.reverse_append, List.reverse_singleton, List.singleton_append,
    List.drop_succ_cons, ← (steps_ancestor h d).2] at hchild
  exact List.reverse_inj.mp hchild

theorem length_steps_ancestor (h : p.isAbsolute = true) (d : Nat) :
    (p.ancestor d).steps.length = p.steps.length - d := by
  rw [← List.length_reverse, (steps_ancestor h d).2, List.length_drop, List.length_reverse]

theorem prefix_steps_of_ancestor (h : p.isAbsolute = true) (d : Nat) :
    (p.ancestor d).steps <+: p.steps := by
  rw [← List.reverse_suffix, (steps_ancestor h d).2]
  exact List.drop_suffix d p.steps.reverse

/-- The proper beginnings of the steps of a path are those of its proper ancestors. -/
theorem exists_ancestor_iff {cs : List Component} (h : p.isAbsolute = true) :
    (∃ k < p.steps.length, (p.ancestor (k + 1)).steps = cs) ↔ cs <+: p.steps ∧ cs ≠ p.steps := by
  constructor
  · rintro ⟨k, hk, rfl⟩
    refine ⟨prefix_steps_of_ancestor h (k + 1), ?_⟩
    intro hsame
    have hlength := length_steps_ancestor h (k + 1)
    rw [hsame] at hlength
    omega
  · rintro ⟨hcs, hne⟩
    have hshorter : cs.length < p.steps.length :=
      Nat.lt_of_le_of_ne hcs.length_le fun hlength => hne (hcs.eq_of_length hlength)
    refine ⟨p.steps.length - cs.length - 1, by omega, ?_⟩
    have hlength := length_steps_ancestor h (p.steps.length - cs.length - 1 + 1)
    apply List.IsPrefix.eq_of_length
    · exact List.prefix_of_prefix_length_le (prefix_steps_of_ancestor h _) hcs (by omega)
    · omega

/-- The proper ancestors of a path that lie below `top` or are `top` itself, the nearest first. -/
def ancestorsFrom (p top : Path) : List Path :=
  ((List.range p.steps.length).map fun k => p.ancestor (k + 1)).filter (·.startsWith top)

theorem mem_ancestorsFrom_iff {top : Path} :
    q ∈ p.ancestorsFrom top ↔
      (∃ k < p.steps.length, p.ancestor (k + 1) = q) ∧ top.components <+: q.components := by
  rw [ancestorsFrom, List.mem_filter, List.mem_map, startsWith, List.isPrefixOf_iff_prefix]
  simp only [List.mem_range]

/-- Counted from below, these are the first so many ancestors. -/
theorem ancestorsFrom_eq {top : Path} (hp : p.isAbsolute = true) (htop : top.isAbsolute = true)
    (h : top.steps <+: p.steps) :
    p.ancestorsFrom top =
      (List.range (p.steps.length - top.steps.length)).map fun k => p.ancestor (k + 1) := by
  have hlength := h.length_le
  have hstarts : ∀ k < p.steps.length, (p.ancestor (k + 1)).startsWith top =
      decide (k < p.steps.length - top.steps.length) := by
    intro k hk
    have hancestor := steps_ancestor hp (k + 1)
    have hshort := length_steps_ancestor hp (k + 1)
    rw [Bool.eq_iff_iff, startsWith, List.isPrefixOf_iff_prefix, decide_eq_true_iff,
      components_prefix_iff htop hancestor.1]
    constructor
    · intro hbegins
      have hle := hbegins.length_le
      omega
    · intro hle
      exact List.prefix_of_prefix_length_le h (prefix_steps_of_ancestor hp (k + 1)) (by omega)
  have hrange : List.range p.steps.length =
      List.range (p.steps.length - top.steps.length) ++
        (List.range top.steps.length).map (p.steps.length - top.steps.length + ·) := by
    rw [← List.range_add, Nat.sub_add_cancel hlength]
  rw [ancestorsFrom, List.filter_map]
  congr 1
  calc (List.range p.steps.length).filter ((·.startsWith top) ∘ fun k => p.ancestor (k + 1))
      = (List.range p.steps.length).filter
          fun k => decide (k < p.steps.length - top.steps.length) := by
        apply List.filter_congr
        intro k hk
        exact hstarts k (List.mem_range.mp hk)
    _ = List.range (p.steps.length - top.steps.length) := by
        rw [hrange, List.filter_append, List.filter_eq_self.mpr, List.filter_eq_nil_iff.mpr,
          List.append_nil]
        · intro k hk
          obtain ⟨i, _, rfl⟩ := List.mem_map.mp hk
          rw [decide_eq_true_iff]
          omega
        · intro k hk
          simpa using hk

end ArtifactHarvest.Path
