import ArtifactHarvest.Proofs.Path.Logical
import ArtifactHarvest.Proofs.Text.Lossy

/-!
The two forms in which a reported path is written. For a path rebuilt from steps they are one
(`forward_ofComponents`), and every reported path is such a path, unless a match of a relative
pattern is reported without a root (`normalized_logical`). The steps of a reported path tell how far
it climbs and by which names it goes down (`climbs_inj`), so from one root no two matches without
`..` are reported by the same bytes (`components_eq_of_logical`).
-/

namespace ArtifactHarvest.Path

/-- Steps written as a relative path have the same text in both forms. -/
theorem forward_ofComponents {cs : List Component} (h : ∀ c ∈ cs, c.isStep = true) :
    (ofComponents cs).forward = (ofComponents cs).native := by
  rw [forward, native, text, bytes_ofComponents h, components_ofComponents h,
    Text.Utf8.decodeLossy_intercalate, List.map_map]
  rfl

variable {found : Path} {root : Option Path} {isAbsolute : Bool}

/-- A path is reported as steps. -/
theorem exists_steps_of_logical (hfound : found.isAbsolute = true)
    (hroot : ∀ r ∈ root, r.isAbsolute = true)
    (hreported : isAbsolute = true ∨ root.isSome = true) :
    ∃ cs : List Component, (∀ c ∈ cs, c.isStep = true) ∧
      found.logical root isAbsolute = ofComponents cs := by
  cases isAbsolute with
  | true => exact ⟨_, isStep_of_mem_names _, stripRoot_clean hfound⟩
  | false =>
      obtain ⟨r, rfl⟩ := Option.isSome_iff_exists.mp (hreported.resolve_left Bool.false_ne_true)
      have hrootAbs := hroot r rfl
      obtain ⟨_, down, out, hrest, _⟩ := exists_names_of_dropCommon hfound hrootAbs
      refine ⟨_, isStep_of_mem_climbs out.length down, ?_⟩
      rw [logical_of_isAbsolute hfound hrootAbs, hrest, List.length_map]

/-- **Both forms of a reported path are its text.** -/
theorem normalized_logical (useForward : Bool) (hfound : found.isAbsolute = true)
    (hroot : ∀ r ∈ root, r.isAbsolute = true)
    (hreported : isAbsolute = true ∨ root.isSome = true) :
    (found.logical root isAbsolute).normalized useForward =
      (found.logical root isAbsolute).text := by
  obtain ⟨cs, hcs, hlogical⟩ := exists_steps_of_logical hfound hroot hreported
  rw [hlogical, normalized]
  split
  · exact forward_ofComponents hcs
  · rfl

/-! ### Different matches, different paths -/

/-- Climbs and the names behind them can be told apart. -/
theorem climbs_inj {k k' : Nat} {down down' : List Name}
    (h : List.replicate k Component.up ++ down.map .name =
      List.replicate k' .up ++ down'.map .name) : k = k' ∧ down = down' := by
  have hnone : ∀ names : List Name, (names.map Component.name).count .up = 0 := by
    intro names
    refine List.count_eq_zero.mpr fun hmem => ?_
    obtain ⟨n, _, hn⟩ := List.mem_map.mp hmem
    cases hn
  obtain rfl : k = k' := by
    have hcount := congrArg (List.count Component.up) h
    simpa [List.count_append, hnone] using hcount
  rw [List.append_cancel_left_eq] at h
  exact ⟨rfl, (List.map_inj_right fun a b hab => Component.name.inj hab).mp h⟩

variable {other base : Path}

/-- Matches that are reported by one path have the same names left. -/
theorem settle_eq_of_logical (hfound : found.isAbsolute = true) (hother : other.isAbsolute = true)
    (hbase : base.isAbsolute = true)
    (h : found.logical (some base) false = other.logical (some base) false) :
    Component.settle found.steps.reverse = Component.settle other.steps.reverse := by
  obtain ⟨shared, down, out, hrest, hnames, hbaseNames, _⟩ :=
    exists_names_of_dropCommon hfound hbase
  obtain ⟨shared', down', out', hrest', hnames', hbaseNames', _⟩ :=
    exists_names_of_dropCommon hother hbase
  have hsame := congrArg components h
  rw [logical_of_isAbsolute hfound hbase, logical_of_isAbsolute hother hbase, hrest, hrest',
    List.length_map, List.length_map,
    components_ofComponents (isStep_of_mem_climbs out.length down),
    components_ofComponents (isStep_of_mem_climbs out'.length down')] at hsame
  obtain ⟨hlength, rfl⟩ := climbs_inj hsame
  -- what is left of the root is the same for both, and so much of it is climbed out of
  have hshared : shared = shared' :=
    List.append_inj_left' (hbaseNames.symm.trans hbaseNames') hlength
  rw [← List.reverse_inj, hnames, hnames', hshared]

/-- Steps without a climb are all left. -/
theorem map_settle_of_up_notMem {steps : List Component} (h : ∀ c ∈ steps, c.isStep = true)
    (hup : Component.up ∉ steps) : (Component.settle steps).map .name = steps := by
  induction steps with
  | nil => rfl
  | cons c outer ih =>
      have houter := ih (fun d hd => h d (List.mem_cons_of_mem c hd))
        fun hmem => hup (List.mem_cons_of_mem c hmem)
      cases c with
      | root | here => exact absurd (h _ List.mem_cons_self) Bool.false_ne_true
      | up => exact absurd List.mem_cons_self hup
      | name n => simp [Component.settle, Component.onto, houter]

/-- **Different matches are reported by different bytes**, as long as no `..` is written in them. -/
theorem components_eq_of_logical (hfound : found.isAbsolute = true)
    (hother : other.isAbsolute = true) (hbase : base.isAbsolute = true)
    (hup : Component.up ∉ found.steps) (hup' : Component.up ∉ other.steps)
    (h : found.logical (some base) false = other.logical (some base) false) :
    found.components = other.components := by
  have hwritten : ∀ p : Path, Component.up ∉ p.steps →
      (Component.settle p.steps.reverse).map Component.name = p.steps.reverse := fun p hp =>
    map_settle_of_up_notMem (fun c hc => isStep_of_mem_steps (List.mem_reverse.mp hc))
      fun hmem => hp (List.mem_reverse.mp hmem)
  have hsteps : found.steps.reverse = other.steps.reverse := by
    rw [← hwritten found hup, ← hwritten other hup', settle_eq_of_logical hfound hother hbase h]
  rw [components_of_isAbsolute hfound, components_of_isAbsolute hother,
    List.reverse_inj.mp hsteps]

end ArtifactHarvest.Path
