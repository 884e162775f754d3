import ArtifactHarvest.Proofs.Path.Logical

/-!
Clean absolute paths are those that names lead to from `/` (`clean_eq_ofNames`). Going down and
climbing lead from one of them to another, whatever is written on the way (`clean_push_name`,
`clean_push_up`), and their texts are told by the names (`bytes_ofNames`).
-/

namespace ArtifactHarvest

theorem Text.intercalate_append {α : Type} (sep : α) {runs more : List (List α)} (hruns : runs ≠ [])
    (hmore : more ≠ []) :
    List.intercalate [sep] (runs ++ more) =
      List.intercalate [sep] runs ++ sep :: List.intercalate [sep] more := by
  obtain ⟨run, runs, rfl⟩ := List.exists_cons_of_ne_nil hruns
  obtain ⟨next, more, rfl⟩ := List.exists_cons_of_ne_nil hmore
  simp [intercalate_cons]

namespace Path

/-- The path that names lead to from `/`. -/
def ofNames (names : List Name) : Path := descend ⟨[slash]⟩ names

@[simp] theorem isAbsolute_ofNames (names : List Name) : (ofNames names).isAbsolute = true :=
  isAbsolute_descend names rfl

@[simp] theorem steps_ofNames (names : List Name) : (ofNames names).steps = names.map .name := by
  rw [ofNames, steps_descend, steps_slash, List.nil_append]

theorem components_ofNames (names : List Name) :
    (ofNames names).components = .root :: names.map .name := by
  rw [components_of_isAbsolute (isAbsolute_ofNames names), steps_ofNames]

theorem descend_ofNames (front back : List Name) :
    (ofNames front).descend back = ofNames (front ++ back) :=
  (descend_append _ front back).symm

theorem child_ofNames (names : List Name) (n : Name) :
    (ofNames names).child n = ofNames (names ++ [n]) :=
  descend_ofNames names [n]

theorem ofNames_eq_ofComponents (names : List Name) :
    ofNames names = ofComponents (.root :: names.map .name) := by
  rw [ofComponents_root, foldl_push_names, ofNames]

theorem bytes_ofNames (names : List Name) :
    (ofNames names).bytes = slash :: List.intercalate [slash] (names.map Name.bytes) := by
  rw [ofNames_eq_ofComponents, bytes_ofComponents_root (isStep_of_mem_names names),
    bytes_ofComponents (isStep_of_mem_names names), List.map_map]
  rfl

theorem ofNames_inj {front back : List Name} (h : ofNames front = ofNames back) : front = back :=
  names_eq_of_components_eq rfl (congrArg components h)

/-- A climb takes the last name back, and stays at `/`. -/
theorem up_ofNames (names : List Name) : (ofNames names).up = ofNames names.dropLast := by
  by_cases hnil : names = []
  · subst hnil
    rfl
  · rcases up_cases (isAbsolute_ofNames names) with ⟨_, hnone⟩ | ⟨runs, hup, hbegins, _, hsteps⟩
    · exact absurd (by simpa using hnone) hnil
    · have hruns : List.splitOn slash ((ofNames names).bytes.drop 1) = names.map Name.bytes := by
        rw [bytes_ofNames, List.drop_one, List.tail_cons, 
          List.splitOn_intercalate slash _ (by simpa using hnil)]
        intro run hrun
        obtain ⟨n, _, rfl⟩ := List.mem_map.mp hrun
        exact n.proper.2.1
      -- what is kept of the text are the first names
      rw [hruns] at hbegins
      obtain ⟨rest, hrest⟩ := hbegins
      obtain ⟨front, back, _, rfl, rfl⟩ := List.map_eq_append_iff.mp hrest.symm
      have hread : (front.map Name.bytes).filterMap Component.ofRun? = front.map .name := by
        rw [List.filterMap_map]
        exact List.filterMap_eq_map_iff_forall_eq_some.mpr fun n _ =>
          Component.ofRun?_bytes (c := .name n) rfl
      rw [hread, steps_ofNames, ← List.map_dropLast,
        List.map_inj_right fun a b hab => Component.name.inj hab] at hsteps
      apply eq_of_bytes
      rw [hup, ← hsteps, bytes_ofNames]

/-! ### The clean form -/

variable {p : Path}

theorem clean_eq_ofNames (h : p.isAbsolute = true) :
    p.clean = ofNames (Component.settle p.steps.reverse).reverse := by
  rw [clean_of_isAbsolute h, ofNames_eq_ofComponents]

theorem clean_ofNames (names : List Name) : (ofNames names).clean = ofNames names := by
  have hsettled := Component.settle_append_names names.reverse []
  rw [List.append_nil, Component.settle, List.append_nil, List.map_reverse] at hsettled
  rw [clean_eq_ofNames (isAbsolute_ofNames names), steps_ofNames, hsettled, List.reverse_reverse]

theorem exists_names_of_clean (habs : p.isAbsolute = true) (hclean : p.clean = p) :
    ∃ names, p = ofNames names :=
  ⟨_, hclean.symm.trans (clean_eq_ofNames habs)⟩

theorem clean_push_name (h : p.isAbsolute = true) (n : Name) :
    (p.push (.name n)).clean = p.clean.child n := by
  rw [clean_eq_ofNames (isAbsolute_push h), clean_eq_ofNames h, child_ofNames,
    settle_push (by simp), Component.onto, id, List.reverse_cons]

theorem clean_push_up (h : p.isAbsolute = true) : (p.push .up).clean = p.clean.up := by
  rw [clean_eq_ofNames (isAbsolute_push h), clean_eq_ofNames h, up_ofNames,
    settle_push (by simp), Component.onto, List.dropLast_reverse]

theorem clean_push_here (h : p.isAbsolute = true) : (p.push .here).clean = p.clean := by
  rw [clean_eq_ofNames (isAbsolute_push h), clean_eq_ofNames h, settle_push (by simp),
    Component.onto]

end Path

end ArtifactHarvest
