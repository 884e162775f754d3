import ArtifactHarvest.Digest.Sha1
import ArtifactHarvest.Digest.Sha256

/-!
The digests keep to what is laid down for them. The padding is the shortest that fills the last
block (`padding_shortest`), a digest takes in the whole padded message (`ofMessage_spec`), the words
that a block is mixed with obey a recurrence (`Sha1.schedule_spec`, `Sha256.schedule_spec`), and the
outcome is written in lower-case digits (`hex_isHex`).
-/

namespace ArtifactHarvest.Digest

/-! ### Blocks -/

/-- One bit, as few zeros as fill the last block, and the length in bits. -/
theorem padding_shortest (length : Nat) : ∃ zeros,
    padding length = 0x80 :: List.replicate zeros 0 ++ bigEndian 8 (8 * length) ∧
      (length + 1 + zeros + 8) % blockSize = 0 ∧
      ∀ fewer, (length + 1 + fewer + 8) % blockSize = 0 → zeros ≤ fewer := by
  refine ⟨(119 - length % 64) % 64, rfl, ?_, ?_⟩
  · rw [blockSize]
    omega
  · intro fewer hfewer
    rw [blockSize] at hfewer
    omega

theorem length_padded (message : Bytes) :
    (message ++ padding message.length).length % blockSize = 0 := by
  obtain ⟨zeros, hpadding, hfills, _⟩ := padding_shortest message.length
  have hlength : (message ++ padding message.length).length = message.length + 1 + zeros + 8 := by
    simp [hpadding, bigEndian]
    omega
  rw [hlength, hfills]

theorem length_of_mem_blocks {bytes block : Bytes} (h : block ∈ blocks bytes) :
    block.length = blockSize := by
  induction bytes using blocks.induct with
  | case1 bytes hfull ih =>
      rw [blocks, if_pos hfull] at h
      rcases List.mem_cons.mp h with rfl | h
      · exact List.length_take_of_le hfull
      · exact ih h
  | case2 bytes hshort =>
      rw [blocks, if_neg hshort] at h
      cases h

theorem flatten_blocks {bytes : Bytes} (h : bytes.length % blockSize = 0) :
    (blocks bytes).flatten = bytes := by
  induction bytes using blocks.induct with
  | case1 bytes hfull ih =>
      rw [blocks, if_pos hfull, List.flatten_cons, ih, List.take_append_drop]
      rw [List.length_drop, ← Nat.mod_eq_sub_mod hfull, h]
  | case2 bytes hshort =>
      have hnil : bytes = [] := by
        rw [Nat.mod_eq_of_lt (Nat.lt_of_not_le hshort)] at h
        exact List.length_eq_zero_iff.mp h
      rw [blocks, if_neg hshort, hnil, List.flatten_nil]

/-- A digest compresses the padded message block by block, and nothing of it is left out. -/
theorem ofMessage_spec {Chain : Type} (d : Digest Chain) (message : Bytes) :
    ∃ full : List Bytes, (∀ block ∈ full, block.length = blockSize) ∧
      full.flatten = message ++ padding message.length ∧
      d.ofMessage message = d.hex (full.foldl d.compress d.start) :=
  ⟨_, fun _ => length_of_mem_blocks, flatten_blocks (length_padded message), rfl⟩

example : sha1.ofMessage [97, 98, 99] = "a9993e364706816aba3e25717850c26c9cd0d89d" := by
  decide +kernel

example : sha256.ofMessage [97, 98, 99] =
    "ba7816bf8f01cfea414140de5dae2223b00361a396177a9cb410ff61f20015ad" := by
  decide +kernel

/-! ### Schedules -/

theorem length_wordsOf (bytes : Bytes) : (wordsOf bytes).length = bytes.length / 4 := by
  induction bytes using wordsOf.induct with
  | case1 a b c d rest ih =>
      simp only [wordsOf, List.length_cons, ih]
      omega
  | case2 bytes hshort =>
      rw [wordsOf.eq_2 bytes hshort, List.length_nil]
      match bytes, hshort with
      | [], _ | [_], _ | [_, _], _ | [_, _, _], _ => simp
      | a :: b :: c :: d :: rest, hshort => exact absurd rfl (hshort a b c d rest)

/-- Words of which each but the first ones comes from the words before it. -/
structure Grown (next : Array UInt32 → Nat → UInt32) (first : Array UInt32) (count : Nat)
    (w : Array UInt32) : Prop where
  size : w.size = first.size + count
  given : ∀ t < first.size, w.getD t 0 = first.getD t 0
  later : ∀ i < count, w.getD (first.size + i) 0 = next w i

theorem getD_push_of_lt {w : Array UInt32} {x : UInt32} {t : Nat} (h : t < w.size) :
    (w.push x).getD t 0 = w.getD t 0 := by
  simp [Array.getD_eq_getD_getElem?, Array.getElem?_push, Nat.ne_of_lt h]

/-- Words that are grown one after the other obey their rule in the end, if the rule looks at none
but earlier words. -/
theorem grown_foldl {next : Array UInt32 → Nat → UInt32} {first : Array UInt32}
    (hnext : ∀ w w' i, (∀ t < first.size + i, w.getD t 0 = w'.getD t 0) → next w i = next w' i)
    (count : Nat) :
    Grown next first count ((List.range count).foldl (fun w i => w.push (next w i)) first) := by
  induction count with
  | zero => exact ⟨rfl, fun _ _ => rfl, nofun⟩
  | succ count ih =>
      rw [List.range_succ, List.foldl_append, List.foldl_cons, List.foldl_nil]
      generalize (List.range count).foldl (fun w i => w.push (next w i)) first = w at ih
      obtain ⟨hsize, hgiven, hlater⟩ := ih
      have hold : ∀ t < first.size + count, (w.push (next w count)).getD t 0 = w.getD t 0 :=
        fun t ht => getD_push_of_lt (hsize ▸ ht)
      refine ⟨by rw [Array.size_push, hsize, Nat.add_assoc], ?_, ?_⟩
      · intro t ht
        rw [hold t (Nat.lt_add_right count ht), hgiven t ht]
      · intro i hi
        rcases Nat.lt_succ_iff_lt_or_eq.mp hi with hi | rfl
        · rw [hold _ (Nat.add_lt_add_left hi _), hlater i hi]
          exact hnext _ _ i fun t ht => (hold t (by omega)).symm
        · rw [← hsize, Array.getD_eq_getD_getElem?, Array.getElem?_push_size, Option.getD_some]
          exact hnext _ _ _ fun t ht => (hold t ht).symm

theorem size_wordsOf_block {block : Bytes} (h : block.length = blockSize) :
    (wordsOf block).toArray.size = 16 := by
  rw [List.size_toArray, length_wordsOf, h, blockSize]

/-- Grown from a block, the first words are those of the block. -/
theorem Grown.given_word {next : Array UInt32 → Nat → UInt32} {block : Bytes} {count : Nat}
    {w : Array UInt32} (hw : Grown next (wordsOf block).toArray count w)
    (h : block.length = blockSize) {t : Nat} (ht : t < 16) :
    w.getD t 0 = (wordsOf block).getD t 0 := by
  rw [hw.given t (by rwa [size_wordsOf_block h])]
  simp [Array.getD_eq_getD_getElem?]

namespace Sha1

variable {block : Bytes}

theorem schedule_grown (h : block.length = blockSize) :
    Grown (fun w i => rotateLeft
      (w.getD (i + 13) 0 ^^^ w.getD (i + 8) 0 ^^^ w.getD (i + 2) 0 ^^^ w.getD i 0) 1)
      (wordsOf block).toArray 64 (schedule block) := by
  refine grown_foldl (fun w w' i hsame => ?_) 64
  rw [size_wordsOf_block h] at hsame
  rw [hsame _ (by omega), hsame _ (by omega), hsame _ (by omega), hsame _ (by omega)]

/-- The words of the block, then one after the other from four before it. -/
theorem schedule_spec (h : block.length = blockSize) :
    (∀ t < 16, (schedule block).getD t 0 = (wordsOf block).getD t 0) ∧
      ∀ t, 16 ≤ t → t < 80 → (schedule block).getD t 0 = rotateLeft
        ((schedule block).getD (t - 3) 0 ^^^ (schedule block).getD (t - 8) 0 ^^^
          (schedule block).getD (t - 14) 0 ^^^ (schedule block).getD (t - 16) 0) 1 := by
  refine ⟨fun t ht => (schedule_grown h).given_word h ht, fun t ht hlast => ?_⟩
  obtain ⟨i, rfl⟩ := Nat.exists_eq_add_of_le ht
  have hlater := (schedule_grown h).later i (by omega)
  rw [size_wordsOf_block h] at hlater
  rw [hlater, show 16 + i - 3 = i + 13 by omega, show 16 + i - 8 = i + 8 by omega,
    show 16 + i - 14 = i + 2 by omega, Nat.add_sub_cancel_left]

end Sha1

namespace Sha256

variable {block : Bytes}

theorem schedule_grown (h : block.length = blockSize) :
    Grown (fun w i => smallSigma1 (w.getD (i + 14) 0) + w.getD (i + 9) 0 +
      smallSigma0 (w.getD (i + 1) 0) + w.getD i 0)
      (wordsOf block).toArray 48 (schedule block) := by
  refine grown_foldl (fun w w' i hsame => ?_) 48
  rw [size_wordsOf_block h] at hsame
  rw [hsame _ (by omega), hsame _ (by omega), hsame _ (by omega), hsame _ (by omega)]

/-- The words of the block, then one after the other from four before it. -/
theorem schedule_spec (h : block.length = blockSize) :
    (∀ t < 16, (schedule block).getD t 0 = (wordsOf block).getD t 0) ∧
      ∀ t, 16 ≤ t → t < 64 → (schedule block).getD t 0 =
        smallSigma1 ((schedule block).getD (t - 2) 0) + (schedule block).getD (t - 7) 0 +
          smallSigma0 ((schedule block).getD (t - 15) 0) + (schedule block).getD (t - 16) 0 := by
  refine ⟨fun t ht => (schedule_grown h).given_word h ht, fun t ht hlast => ?_⟩
  obtain ⟨i, rfl⟩ := Nat.exists_eq_add_of_le ht
  have hlater := (schedule_grown h).later i (by omega)
  rw [size_wordsOf_block h] at hlater
  rw [hlater, show 16 + i - 2 = i + 14 by omega, show 16 + i - 7 = i + 9 by omega,
    show 16 + i - 15 = i + 1 by omega, Nat.add_sub_cancel_left]

end Sha256

/-! ### Digits -/

/-- So many digits in base sixteen, lower case. -/
def IsHex (count : Nat) (text : String) : Prop :=
  text.toList.length = count ∧ ∀ c ∈ text.toList, c ∈ "0123456789abcdef".toList

theorem hexDigit_mem : ∀ n < 16, hexDigit n ∈ "0123456789abcdef".toList := by
  decide

/-- Each word of the last chaining value is written in eight digits. -/
theorem hex_isHex {Chain : Type} (d : Digest Chain) (chain : Chain) :
    IsHex (8 * (d.words chain).length) (d.hex chain) := by
  rw [IsHex, hex, String.toList_ofList]
  constructor
  · have hword : ∀ w, (hexWord w).length = 8 := fun w => by simp [hexWord]
    simp [List.length_flatMap, hword, List.map_const', Nat.mul_comm]
  · intro c hc
    obtain ⟨w, _, hw⟩ := List.mem_flatMap.mp hc
    obtain ⟨i, _, rfl⟩ := List.mem_map.mp hw
    exact hexDigit_mem _ (Nat.mod_lt _ (by decide))

theorem sha1_isHex (message : Bytes) : IsHex 40 (sha1.ofMessage message) :=
  hex_isHex sha1 _

theorem sha256_isHex (message : Bytes) : IsHex 64 (sha256.ofMessage message) :=
  hex_isHex sha256 _

end ArtifactHarvest.Digest
