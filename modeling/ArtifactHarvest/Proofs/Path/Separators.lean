import ArtifactHarvest.Proofs.Path.Normal
import ArtifactHarvest.Proofs.Path.Writing

/-!
Where the two forms of a reported path differ. A match that is reported by its whole path keeps its
leading slash, which is a component already: written with a slash between each two components it
begins with two (`forward_ofComponents_root`). Main statement: `normalized_agree_iff`.
-/

namespace ArtifactHarvest.Path

/-- Between the leading slash and the first step there is one slash more. -/
theorem forward_ofComponents_root {cs : List Component} (hcs : cs ≠ [])
    (h : ∀ c ∈ cs, c.isStep = true) :
    (ofComponents (.root :: cs)).forward = "/" ++ (ofComponents (.root :: cs)).native := by
  have hcomponents : (ofComponents (.root :: cs)).components = .root :: cs := by
    rw [components_of_isAbsolute (isAbsolute_ofComponents_root cs), steps_ofComponents h]
  have hroot : Text.Utf8.decodeLossy Component.root.bytes = "/" := by decide
  have hrest : "/".intercalate (cs.map fun c => Text.Utf8.decodeLossy c.bytes) =
      Text.Utf8.decodeLossy (ofComponents cs).bytes := by
    rw [bytes_ofComponents h, Text.Utf8.decodeLossy_intercalate, List.map_map]
    rfl
  have htext := Text.Utf8.decodeLossy_slash [] (ofComponents cs).bytes
  rw [List.nil_append] at htext
  rw [forward, hcomponents, List.map_cons, hroot,
    String.intercalate_cons_of_ne_nil (by simpa using hcs), hrest, native, text,
    bytes_ofComponents_root h, htext, ← String.append_assoc, ← String.append_assoc]
  rfl

variable {found : Path} {root : Option Path} {isAbsolute : Bool}

/-- Without an absolute root there is no way from one to the other, so the whole path is reported.
-/
theorem logical_of_no_root (hfound : found.isAbsolute = true)
    (hroot : ∀ r ∈ root, r.isAbsolute = false) : found.logical root false = found.clean := by
  cases root with
  | none => rfl
  | some r =>
      have hapart : found.route.rooted ≠ r.route.rooted := by
        rw [rooted_route, rooted_route, hfound, hroot r rfl]
        exact Bool.true_eq_false.mp
      simp [logical, relativeTo?, hapart]

/-- A path below `/` that is reported whole is written with one slash more. -/
theorem normalized_clean (hfound : found.isAbsolute = true) (hbelow : found.clean ≠ ⟨[slash]⟩) :
    found.clean.normalized true = "/" ++ found.clean.normalized false := by
  rw [ne_eq, clean_eq_slash_iff hfound] at hbelow
  simp only [normalized, if_true, Bool.false_eq_true, if_false]
  rw [clean_of_isAbsolute hfound]
  exact forward_ofComponents_root (by simpa using hbelow) (isStep_of_mem_names _)

/-- A path that is not reported whole is written alike in both forms. -/
theorem normalized_agree (hfound : found.isAbsolute = true)
    (h : isAbsolute = true ∨ ∃ r ∈ root, r.isAbsolute = true) :
    (found.logical root isAbsolute).normalized true =
      (found.logical root isAbsolute).normalized false := by
  cases isAbsolute with
  | true =>
      have hany : found.logical root true = found.logical none true := rfl
      rw [hany, normalized_logical true hfound (by simp) (.inl rfl),
        normalized_logical false hfound (by simp) (.inl rfl)]
  | false =>
      obtain ⟨r, hr, hrAbs⟩ := h.resolve_left Bool.false_ne_true
      obtain rfl : root = some r := hr
      have hroot : ∀ other ∈ some r, other.isAbsolute = true := by simpa using hrAbs
      rw [normalized_logical true hfound hroot (.inr rfl),
        normalized_logical false hfound hroot (.inr rfl)]

/-- **Where both forms of a reported path agree.** They do for a match of an absolute pattern, for
one that is reported from an absolute root, and for `/` itself. Any other match is reported by its
whole path, which then has a slash more in front when each separator is to be a slash. -/
theorem normalized_agree_iff (hfound : found.isAbsolute = true) :
    ((found.logical root isAbsolute).normalized true =
        (found.logical root isAbsolute).normalized false ↔
      isAbsolute = true ∨ (∃ r ∈ root, r.isAbsolute = true) ∨ found.clean = ⟨[slash]⟩) ∧
    (isAbsolute = false → (∀ r ∈ root, r.isAbsolute = false) → found.clean ≠ ⟨[slash]⟩ →
      (found.logical root isAbsolute).normalized true =
        "/" ++ (found.logical root isAbsolute).normalized false) := by
  have hwhole : isAbsolute = false → (∀ r ∈ root, r.isAbsolute = false) →
      found.clean ≠ ⟨[slash]⟩ → (found.logical root isAbsolute).normalized true =
        "/" ++ (found.logical root isAbsolute).normalized false := by
    intro hrelative hroot hbelow
    rw [hrelative, logical_of_no_root hfound hroot]
    exact normalized_clean hfound hbelow
  refine ⟨⟨fun hsame => ?_, fun h => ?_⟩, hwhole⟩
  · by_contra hother
    simp only [not_or, not_exists, not_and, Bool.not_eq_true] at hother
    obtain ⟨hrelative, hroot, hbelow⟩ := hother
    -- a text is shorter than the same with a slash in front
    have hlength := congrArg String.length (hwhole hrelative hroot hbelow)
    rw [hsame, String.length_append] at hlength
    have hslash : "/".length = 1 := by decide
    omega
  · by_cases hreported : isAbsolute = true ∨ ∃ r ∈ root, r.isAbsolute = true
    · exact normalized_agree hfound hreported
    · have hslash : found.clean = ⟨[slash]⟩ := by
        rw [← or_assoc] at h
        exact h.resolve_left hreported
      simp only [not_or, not_exists, not_and, Bool.not_eq_true] at hreported
      rw [hreported.1, logical_of_no_root hfound hreported.2, hslash]
      decide

theorem normalized_agree_below_root :
    (ofText "/a/b").isAbsolute = true ∧
      ((ofText "/a/b").logical (some (ofText "/a/c")) false).normalized true =
        ((ofText "/a/b").logical (some (ofText "/a/c")) false).normalized false := by
  have hfound : (ofText "/a/b").isAbsolute = true := by decide
  exact ⟨hfound, (normalized_agree_iff hfound).1.mpr (.inr (.inl ⟨_, rfl, by decide⟩))⟩

/-- Without a root the leading slash is written twice. -/
theorem normalized_differ_without_root :
    (ofText "/a/b").isAbsolute = true ∧
      ((ofText "/a/b").logical none false).normalized false = "/a/b" ∧
      ((ofText "/a/b").logical none false).normalized true = "//a/b" ∧
      ((ofText "/a/b").logical none false).normalized true ≠
        ((ofText "/a/b").logical none false).normalized false := by
  decide

end ArtifactHarvest.Path
