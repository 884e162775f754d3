import ArtifactHarvest.Proofs.Path.Steps

/-!
Paths with repeats among them. What is left of two parts is what is left of the first one, and of
the second one whatever the first one has not (`distinct_append`). So lists that come to the same
without repeats (`Alike`) may take each other's place, and later repeats are not seen
(`alike_append`). As far as components go, what is left depends on components only
(`map_components_distinct_congr`).
-/

namespace ArtifactHarvest.Path

theorem keepFirst_append (xs ys : List (List Component × Path)) :
    distinct.keepFirst (xs ++ ys) = distinct.keepFirst xs ++
      (distinct.keepFirst ys).filter fun y => y.1 ∉ xs.map Prod.fst := by
  induction xs with
  | nil =>
      have hall : ∀ y ∈ distinct.keepFirst ys,
          decide (y.1 ∉ ([] : List (List Component × Path)).map Prod.fst) = true := by simp
      rw [List.filter_eq_self.mpr hall]
      rfl
  | cons first rest ih =>
      rw [List.cons_append, distinct.keepFirst, distinct.keepFirst, ih, List.filter_append,
        List.filter_filter, List.cons_append]
      simp only [List.map_cons, List.mem_cons, not_or, ne_eq, Bool.decide_and]

theorem distinct_append (xs ys : List Path) :
    distinct (xs ++ ys) =
      distinct xs ++ (distinct ys).filter fun p => p.components ∉ xs.map components := by
  have hkeys : (xs.map fun p => (p.components, p)).map Prod.fst = xs.map components := by
    rw [List.map_map]
    rfl
  rw [distinct, List.map_append, keepFirst_append, List.map_append, hkeys, distinct, distinct,
    List.filter_map]
  congr 2
  apply List.filter_congr
  intro x hx
  obtain ⟨p, _, rfl⟩ := List.mem_map.mp (mem_of_mem_keepFirst hx)
  rfl

theorem mem_components_distinct_iff {cs : List Component} {paths : List Path} :
    cs ∈ (distinct paths).map components ↔ cs ∈ paths.map components := by
  constructor
  · intro h
    obtain ⟨p, hp, rfl⟩ := List.mem_map.mp h
    exact List.mem_map_of_mem (mem_of_mem_distinct hp)
  · intro h
    obtain ⟨p, hp, rfl⟩ := List.mem_map.mp h
    obtain ⟨q, hq, hsame⟩ := exists_mem_distinct hp
    exact hsame ▸ List.mem_map_of_mem hq

/-- Lists that come to the same when repeats are dropped. -/
def Alike (xs ys : List Path) : Prop :=
  distinct xs = distinct ys

namespace Alike

variable {xs xs' ys ys' : List Path}

theorem append (hfront : Alike xs xs') (hback : Alike ys ys') : Alike (xs ++ ys) (xs' ++ ys') := by
  rw [Alike, distinct_append, distinct_append, hfront, hback]
  congr 1
  apply List.filter_congr
  intro p _
  have hsame : p.components ∈ xs.map components ↔ p.components ∈ xs'.map components := by
    rw [← mem_components_distinct_iff, hfront, mem_components_distinct_iff]
  simp only [hsame]

theorem flatMap {α : Type} {f g : α → List Path} {as : List α} (h : ∀ a ∈ as, Alike (f a) (g a)) :
    Alike (as.flatMap f) (as.flatMap g) := by
  induction as with
  | nil => rfl
  | cons a as ih =>
      rw [List.flatMap_cons, List.flatMap_cons]
      exact (h a List.mem_cons_self).append (ih fun b hb => h b (List.mem_cons_of_mem a hb))

end Alike

/-- Nothing but repeats behind a list changes nothing. -/
theorem alike_append {xs ys : List Path} (h : ∀ p ∈ ys, p.components ∈ xs.map components) :
    Alike (xs ++ ys) xs := by
  rw [Alike, distinct_append, List.filter_eq_nil_iff.mpr, List.append_nil]
  intro p hp
  simpa using h p (mem_of_mem_distinct hp)

/-! ### Components alone -/

/-- What comes several times, with nothing else in between, is there once without repeats. -/
theorem alike_flatMap_of_mem {α : Type} {f : α → List Path} {ys : List Path} {as : List α} {a : α}
    (h : ∀ a ∈ as, f a = ys ∨ f a = []) (ha : a ∈ as) (hys : f a = ys) :
    Alike (as.flatMap f) ys := by
  induction as with
  | nil => cases ha
  | cons b as ih =>
      have htail : ∀ a ∈ as, f a = ys ∨ f a = [] := fun a ha => h a (List.mem_cons_of_mem b ha)
      rw [List.flatMap_cons]
      by_cases hb : f b = ys
      · rw [hb]
        apply alike_append
        intro p hp
        obtain ⟨c, hc, hpc⟩ := List.mem_flatMap.mp hp
        rcases htail c hc with hsame | hnil
        · exact List.mem_map_of_mem (hsame ▸ hpc)
        · rw [hnil] at hpc
          cases hpc
      · have hnil := (h b List.mem_cons_self).resolve_left hb
        have hmem : a ∈ as := by
          rcases List.mem_cons.mp ha with rfl | hmem
          · exact absurd hys hb
          · exact hmem
        rw [hnil, List.nil_append]
        exact ih htail hmem

theorem keepFirst_keys_congr {xs ys : List (List Component × Path)}
    (h : xs.map Prod.fst = ys.map Prod.fst) :
    (distinct.keepFirst xs).map Prod.fst = (distinct.keepFirst ys).map Prod.fst := by
  have hfilter : ∀ (first : List Component × Path) (kept : List (List Component × Path)),
      (kept.filter fun later => later.1 ≠ first.1).map Prod.fst =
        (kept.map Prod.fst).filter (· ≠ first.1) := by
    intro first kept
    rw [List.filter_map]
    rfl
  induction xs generalizing ys with
  | nil =>
      rw [List.map_eq_nil_iff.mp h.symm]
  | cons x xs ih =>
      cases ys with
      | nil => cases h
      | cons y ys =>
          obtain ⟨hfirst, hrest⟩ := List.cons.inj h
          rw [distinct.keepFirst, distinct.keepFirst, List.map_cons, List.map_cons, hfilter,
            hfilter, ih hrest, hfirst]

theorem map_components_distinct (paths : List Path) :
    (distinct paths).map components =
      (distinct.keepFirst (paths.map fun p => (p.components, p))).map Prod.fst := by
  rw [distinct, List.map_map]
  apply List.map_congr_left
  intro x hx
  obtain ⟨p, _, rfl⟩ := List.mem_map.mp (mem_of_mem_keepFirst hx)
  rfl

/-- Repeats are dropped alike where the components are the same. -/
theorem map_components_distinct_congr {xs ys : List Path}
    (h : xs.map components = ys.map components) :
    (distinct xs).map components = (distinct ys).map components := by
  rw [map_components_distinct, map_components_distinct]
  apply keepFirst_keys_congr
  rw [List.map_map, List.map_map]
  exact h

end ArtifactHarvest.Path
