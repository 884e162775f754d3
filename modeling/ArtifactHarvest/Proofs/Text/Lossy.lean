import ArtifactHarvest.Path.Basic

/-!
Reading bytes that need not be well formed, part by part. A slash goes on with no sequence, broken
off or not, so what stands on its two sides is read as if it stood alone (`decodeLossy_slash`). A
text of runs is therefore read run by run (`decodeLossy_intercalate`). Nothing but a slash is read
as one (`slash_mem_of_scan`), so there is none in the text of a name (`Name.slash_notMem_text`).
-/

namespace ArtifactHarvest

namespace Text.Utf8

/-- Only bytes beyond ASCII go on with the sequence. -/
def Pending.Sound (pending : Pending) : Prop :=
  0x80 ≤ pending.low

theorem Lead.sound_of_opens {b : UInt8} {pending : Pending} (h : ofByte b = .opens pending) :
    pending.Sound := by
  simp only [ofByte] at h
  repeat' split at h
  all_goals simp only [reduceCtorEq, Lead.opens.injEq] at h
  all_goals simp [Pending.Sound, ← h]

theorem Pending.Sound.not_slash {pending : Pending} (h : pending.Sound) :
    ¬ pending.low ≤ slash := by
  intro hle
  have hslash : 0x80 ≤ slash := UInt8.le_trans h hle
  revert hslash
  decide

/-- A slash ends whatever has begun, and begins nothing. -/
theorem scan_slash {state : Option Pending} (h : ∀ pending ∈ state, pending.Sound)
    (xs ys : Bytes) :
    scan state (xs ++ slash :: ys) = scan state xs ++ some '/' :: scan none ys := by
  have hslash : Lead.ofByte slash = .char '/' := rfl
  -- behind a byte where a character may begin
  have hlead : ∀ (b : UInt8) (rest : Bytes),
      (∀ state : Option Pending, (∀ pending ∈ state, pending.Sound) →
        scan state (rest ++ slash :: ys) = scan state rest ++ some '/' :: scan none ys) →
      scan none (b :: (rest ++ slash :: ys)) =
        scan none (b :: rest) ++ some '/' :: scan none ys := by
    intro b rest ih
    rw [scan, scan]
    cases hb : Lead.ofByte b with
    | char c => exact congrArg (some c :: ·) (ih none (by simp))
    | opens pending => exact ih _ (by simpa using Lead.sound_of_opens hb)
    | fault => exact congrArg (none :: ·) (ih none (by simp))
  induction xs generalizing state with
  | nil =>
      cases state with
      | none => simp [scan, hslash]
      | some pending =>
          simp [scan, (h pending rfl).not_slash, hslash]
  | cons b rest ih =>
      cases state with
      | none => exact hlead b rest fun _ => ih
      | some pending =>
          rw [List.cons_append, scan, scan]
          split
          · cases pending.later with
            | zero =>
                have hrest : scan none (rest ++ slash :: ys) =
                    scan none rest ++ some '/' :: scan none ys := ih (by simp)
                simp only [hrest, List.cons_append]
            | succ later => exact ih (by simp [Pending.Sound])
          · exact congrArg (none :: ·) (hlead b rest fun _ => ih)

/-- **A slash parts the reading.** -/
theorem decodeLossy_slash (xs ys : Bytes) :
    decodeLossy (xs ++ slash :: ys) = decodeLossy xs ++ "/" ++ decodeLossy ys := by
  rw [decodeLossy, scan_slash (by simp), List.map_append, List.map_cons, String.ofList_append,
    ← List.singleton_append, String.ofList_append, ← String.append_assoc]
  rfl

/-- Runs with slashes between them are read one by one. -/
theorem decodeLossy_intercalate (runs : List Bytes) :
    decodeLossy (List.intercalate [slash] runs) = "/".intercalate (runs.map decodeLossy) := by
  induction runs with
  | nil => rfl
  | cons run runs ih =>
      cases runs with
      | nil => rw [List.intercalate_singleton, List.map_singleton, String.intercalate_singleton]
      | cons next more =>
          rw [List.intercalate_cons_cons, List.append_assoc, List.singleton_append,
            decodeLossy_slash, ih, List.map_cons, List.map_cons, List.map_cons,
            String.intercalate_cons_cons]

/-! ### Slashes in what was read -/

/-- Only the code point of a slash is read as a slash. -/
theorem eq_of_ofNat_eq_slash {n : Nat} (h : Char.ofNat n = '/') : n = 47 := by
  have hvalue := congrArg Char.toNat h
  by_cases hvalid : n.isValidChar
  · have hback : Char.ofNat n = Char.ofNatAux n hvalid := dif_pos hvalid
    rw [hback] at hvalue
    exact hvalue
  · have hzero : Char.ofNat n = '\x00' := dif_neg hvalid
    rw [hzero] at hvalue
    cases hvalue

theorem Lead.eq_slash {b : UInt8} (h : ofByte b = .char '/') : b = slash := by
  simp only [ofByte] at h
  repeat' split at h
  all_goals simp only [reduceCtorEq, Lead.char.injEq] at h
  exact UInt8.toNat_inj.mp (eq_of_ofNat_eq_slash h)

/-- Whatever completes the sequence, it comes to a code point beyond ASCII. -/
def Pending.Large (pending : Pending) : Prop :=
  0x80 ≤ pending.low.toNat ∧
    if pending.later = 0 then 2 ≤ pending.value
    else 2 ≤ pending.value * 64 + (pending.low.toNat - 0x80)

theorem Lead.large_of_opens {b : UInt8} {pending : Pending} (h : ofByte b = .opens pending) :
    pending.Large := by
  simp only [ofByte] at h
  repeat' split at h
  all_goals simp only [reduceCtorEq, Lead.opens.injEq] at h
  all_goals subst h
  all_goals simp only [Pending.Large, UInt8.reduceToNat, reduceIte, Nat.succ_ne_zero]
  all_goals omega

/-- Only a slash is read as a slash. -/
theorem slash_mem_of_scan {state : Option Pending} (h : ∀ pending ∈ state, pending.Large)
    {bytes : Bytes} (hmem : some '/' ∈ scan state bytes) : slash ∈ bytes := by
  have hlead : ∀ (b : UInt8) (rest : Bytes),
      (∀ state : Option Pending, (∀ pending ∈ state, pending.Large) →
        some '/' ∈ scan state rest → slash ∈ rest) →
      some '/' ∈ scan none (b :: rest) → slash ∈ b :: rest := by
    intro b rest ih hmem
    rw [scan] at hmem
    cases hb : Lead.ofByte b with
    | char c =>
        simp only [hb, List.mem_cons, Option.some.injEq] at hmem ⊢
        rcases hmem with rfl | hmem
        · left
          exact (Lead.eq_slash hb).symm
        · exact .inr (ih none (by simp) hmem)
    | opens pending =>
        rw [hb] at hmem
        exact List.mem_cons_of_mem b (ih _ (by simpa using Lead.large_of_opens hb) hmem)
    | fault =>
        simp only [hb, List.mem_cons, reduceCtorEq, false_or] at hmem
        exact List.mem_cons_of_mem b (ih none (by simp) hmem)
  induction bytes generalizing state with
  | nil => cases state <;> simp [scan] at hmem
  | cons b rest ih =>
      cases state with
      | none => exact hlead b rest (fun _ => ih) hmem
      | some pending =>
          obtain ⟨hlow, hlarge⟩ := h pending rfl
          rw [scan] at hmem
          split at hmem
          · rename_i hbounds
            have hb := UInt8.le_iff_toNat_le.mp hbounds.1
            cases hlater : pending.later with
            | zero =>
                simp only [hlater, List.mem_cons, Option.some.injEq] at hmem
                rcases hmem with hchar | hmem
                · rw [if_pos hlater] at hlarge
                  have hvalue := eq_of_ofNat_eq_slash hchar.symm
                  omega
                · exact List.mem_cons_of_mem b (ih (by simp) hmem)
            | succ later =>
                simp only [hlater] at hmem
                refine List.mem_cons_of_mem b (ih ?_ hmem)
                intro next hnext
                rw [← Option.mem_some.mp hnext]
                rw [if_neg (by simp [hlater])] at hlarge
                refine ⟨Nat.le_refl _, ?_⟩
                split <;> simp only [UInt8.reduceToNat] <;> omega
          · simp only [List.mem_cons, reduceCtorEq, false_or] at hmem
            exact hlead b rest (fun _ => ih) (by rwa [scan])

end Text.Utf8

/-- **A name's text holds no slash.** -/
theorem Name.slash_notMem_text (n : Name) : '/' ∉ n.text.toList := by
  intro hmem
  rw [text, Text.Utf8.decodeLossy, String.toList_ofList, List.mem_map] at hmem
  obtain ⟨read, hread, hslash⟩ := hmem
  cases read with
  | none => exact absurd hslash (by decide)
  | some c =>
      rw [Option.getD_some] at hslash
      exact n.proper.2.1 (Text.Utf8.slash_mem_of_scan (by simp) (hslash ▸ hread))

end ArtifactHarvest
