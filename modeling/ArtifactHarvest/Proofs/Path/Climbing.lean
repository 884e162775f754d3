import ArtifactHarvest.Proofs.Path.Steps

/-!
Climbing where a path need not be absolute. What a climb keeps of the runs are the first ones
(`prefix_of_reverse_eq`), and a path written with these has the first components
(`prefix_components_intercalate`). Main statement: `prefix_components_up`.
-/

namespace ArtifactHarvest.Path

variable {p : Path}

/-- Written with the first runs of a text alone, a path has the first components. -/
theorem prefix_components_intercalate {kept : List Bytes}
    (h : kept <+: List.splitOn slash p.bytes) :
    components ⟨List.intercalate [slash] kept⟩ <+: p.components := by
  have hbegins : List.intercalate [slash] kept <+:
      List.intercalate [slash] (List.splitOn slash p.bytes) := Text.prefix_intercalate h
  rw [List.intercalate_splitOn] at hbegins
  cases htext : List.intercalate [slash] kept with
  | nil => exact List.nil_prefix
  | cons b text =>
      obtain ⟨rest, hrest⟩ := hbegins
      have hne : kept ≠ [] := by
        rintro rfl
        cases htext
      have hruns : List.splitOn slash (b :: text) = kept := by
        rw [← htext, List.splitOn_intercalate slash _ hne]
        exact fun run hrun => Text.notMem_of_mem_splitOn (h.mem hrun)
      have hlead : lead ⟨b :: text⟩ = p.lead := by
        refine lead_congr (by simp [isAbsolute, ← hrest, htext]) ?_
        obtain ⟨more, hmore⟩ := h
        obtain ⟨first, runs, rfl⟩ := List.exists_cons_of_ne_nil hne
        rw [hruns, ← hmore, List.cons_append, List.head?_cons, List.head?_cons]
      rw [components_eq, components_eq, hlead, List.prefix_append_right_inj, steps, steps, hruns]
      exact h.filterMap _

/-- The runs that a climb keeps are the first ones. -/
theorem prefix_of_reverse_eq {runs outer : List Bytes} {last : Bytes}
    (h : runs.reverse.dropWhile isIdle = last :: outer) :
    (outer.dropWhile isIdle).reverse <+: runs := by
  rw [← List.reverse_suffix, List.reverse_reverse]
  have hsuffix := List.dropWhile_suffix isIdle (l := runs.reverse)
  rw [h] at hsuffix
  exact (List.dropWhile_suffix isIdle).trans ((List.suffix_cons last outer).trans hsuffix)

/-- Behind a leading `.` the runs go on as behind a leading slash. -/
theorem splitOn_of_leading_dot {runs : List Bytes}
    (h : List.splitOn slash p.bytes = [dot] :: runs) :
    List.splitOn slash (p.bytes.drop 1) = [] :: runs := by
  have hbytes : List.intercalate [slash] (List.splitOn slash p.bytes) = p.bytes :=
    List.intercalate_splitOn slash
  have hfree : ∀ run ∈ runs, slash ∉ run := fun run hrun =>
    Text.notMem_of_mem_splitOn (h ▸ List.mem_cons_of_mem _ hrun)
  rw [h] at hbytes
  cases runs with
  | nil =>
      rw [← hbytes]
      rfl
  | cons next more =>
      have hrest : p.bytes.drop 1 = slash :: List.intercalate [slash] (next :: more) := by
        rw [← hbytes]
        rfl
      rw [hrest, Text.splitOn_cons_self,
        List.splitOn_intercalate slash hfree (List.cons_ne_nil _ _)]

/-- A climb keeps a beginning of the components. -/
theorem prefix_components_up (p : Path) : p.up.components <+: p.components := by
  cases habs : p.isAbsolute with
  | true =>
      rw [components_of_isAbsolute habs, components_of_isAbsolute (isAbsolute_up habs),
        steps_up habs, List.prefix_cons_inj]
      exact List.dropLast_prefix p.steps
  | false =>
      by_cases hdot : (List.splitOn slash p.bytes).head? = some [dot]
      · obtain ⟨runs, hsplit⟩ := List.head?_eq_some_iff.mp hdot
        have hlead : p.lead = [.here] := by simp [lead, habs, hdot]
        simp only [up, parent?, hlead, List.flatMap_singleton, Component.bytes,
          List.length_singleton, splitOn_of_leading_dot hsplit]
        split
        · rename_i last outer hruns
          rw [Option.getD_some, List.singleton_append]
          -- the leading `.` takes the place of the empty run in front
          cases hkept : (outer.dropWhile isIdle).reverse with
          | nil =>
              have hkeeps : [[dot]] <+: List.splitOn slash p.bytes := by simp [hsplit]
              exact prefix_components_intercalate hkeeps
          | cons first more =>
              have hbegins := prefix_of_reverse_eq hruns
              rw [hkept, List.cons_prefix_cons] at hbegins
              obtain ⟨rfl, hmore⟩ := hbegins
              have htext : dot :: List.intercalate [slash] ([] :: more) =
                  List.intercalate [slash] ([dot] :: more) := by cases more <;> simp
              rw [htext]
              apply prefix_components_intercalate
              rw [hsplit, List.cons_prefix_cons]
              exact ⟨rfl, hmore⟩
        · exact List.nil_prefix
        · rename_i hother
          exact absurd rfl hother
      · have hlead : p.lead = [] := by simp [lead, habs, hdot]
        simp only [up, parent?, hlead, List.flatMap_nil, List.length_nil, List.drop_zero]
        split
        · rename_i last outer hruns
          simp only [Option.getD_some, List.nil_append]
          exact prefix_components_intercalate (prefix_of_reverse_eq hruns)
        · exact List.nil_prefix
        · exact List.prefix_refl _

end ArtifactHarvest.Path
