import ArtifactHarvest.Path.Basic
import Mathlib.Tactic.IntervalCases

/-!
What is written as bytes is read again. Each character is written as a lead byte and the bytes that
the lead announces (`scan_char`), so a text comes back whole (`decode?_encode`).
-/

namespace ArtifactHarvest.Text.Utf8

theorem encode_append (a b : String) : encode (a ++ b) = encode a ++ encode b := by
  simp [encode]

/-- Texts with slashes between them are written one by one. -/
theorem encode_intercalate (texts : List String) :
    encode ("/".intercalate texts) = List.intercalate [slash] (texts.map encode) := by
  induction texts with
  | nil => rfl
  | cons text texts ih =>
      cases texts with
      | nil => rw [String.intercalate_singleton, List.map_singleton, List.intercalate_singleton]
      | cons next more =>
          have hslash : encode "/" = [slash] := by decide
          rw [String.intercalate_cons_cons, encode_append, encode_append, ih, hslash,
            List.map_cons, List.map_cons, List.map_cons, List.intercalate_cons_cons]

/-! ### Reading what was written -/

/-- A byte within the bounds adds its six bits to what has been read. -/
theorem scan_middle {value later m : Nat} {low high b : UInt8} (hb : b.toNat = m + 128)
    (hlow : low.toNat ≤ m + 128) (hhigh : m + 128 ≤ high.toNat) (rest : Bytes) :
    scan (some ⟨value, later + 1, low, high⟩) (b :: rest) =
      scan (some ⟨value * 64 + m, later, 0x80, 0xBF⟩) rest := by
  have hbounds : low ≤ b ∧ b ≤ high := by
    rw [UInt8.le_iff_toNat_le, UInt8.le_iff_toNat_le, hb]
    exact ⟨hlow, hhigh⟩
  simp [scan, hbounds, hb]

/-- The last byte that was announced completes a character. -/
theorem scan_last {value m : Nat} {low high b : UInt8} (hb : b.toNat = m + 128)
    (hlow : low.toNat ≤ m + 128) (hhigh : m + 128 ≤ high.toNat) (rest : Bytes) :
    scan (some ⟨value, 0, low, high⟩) (b :: rest) =
      some (Char.ofNat (value * 64 + m)) :: scan none rest := by
  have hbounds : low ≤ b ∧ b ≤ high := by
    rw [UInt8.le_iff_toNat_le, UInt8.le_iff_toNat_le, hb]
    exact ⟨hlow, hhigh⟩
  simp [scan, hbounds, hb]

theorem scan_opens {b : UInt8} {pending : Pending} (h : Lead.ofByte b = .opens pending)
    (rest : Bytes) : scan none (b :: rest) = scan (some pending) rest := by
  simp [scan, h]

theorem toNat_ofNat {n : Nat} (h : n < 256) : (UInt8.ofNat n).toNat = n := by
  rw [UInt8.toNat_ofNat']
  omega

theorem Lead.ofByte_one {n : Nat} (h : n < 128) :
    ofByte (UInt8.ofNat n) = .char (Char.ofNat n) := by
  rw [ofByte, toNat_ofNat (by omega)]
  exact if_pos h

theorem Lead.ofByte_two {n : Nat} (hlow : 2 ≤ n) (hhigh : n < 32) :
    ofByte (UInt8.ofNat (n + 192)) = .opens ⟨n, 0, 0x80, 0xBF⟩ := by
  interval_cases n <;> rfl

theorem Lead.ofByte_three {n : Nat} (h : n < 16) :
    ofByte (UInt8.ofNat (n + 224)) =
      .opens ⟨n, 1, if n = 0 then 0xA0 else 0x80, if n = 13 then 0x9F else 0xBF⟩ := by
  interval_cases n <;> rfl

theorem Lead.ofByte_four {n : Nat} (h : n < 5) :
    ofByte (UInt8.ofNat (n + 240)) =
      .opens ⟨n, 2, if n = 0 then 0x90 else 0x80, if n = 4 then 0x8F else 0xBF⟩ := by
  interval_cases n <;> rfl

/-- **A character that was written is read again**, whatever follows it. -/
theorem scan_char (c : Char) (rest : Bytes) :
    scan none (String.utf8EncodeChar c ++ rest) = some c :: scan none rest := by
  have hvalid : c.toNat < 0xD800 ∨ 0xDFFF < c.toNat ∧ c.toNat < 0x110000 := c.valid
  have hback : Char.ofNat c.toNat = c := Char.ofNat_toNat c
  generalize hn : c.toNat = n at hvalid hback
  have hval : c.val.toNat = n := hn
  unfold String.utf8EncodeChar
  rw [hval]
  by_cases hone : n ≤ 127
  · simp only [hone, if_true, List.cons_append, List.nil_append, scan,
      Lead.ofByte_one (Nat.lt_succ_of_le hone), hback]
  have hlast := toNat_ofNat (n := n % 64 + 128) (by omega)
  by_cases htwo : n ≤ 2047
  · have hlead : n / 64 % 32 = n / 64 := by omega
    have hvalue : n / 64 * 64 + n % 64 = n := by omega
    simp only [hone, htwo, if_false, if_true, List.cons_append, List.nil_append, hlead]
    rw [scan_opens (Lead.ofByte_two (by omega) (by omega)),
      scan_last hlast (by simp) (by simp; omega), hvalue, hback]
  have hthird := toNat_ofNat (n := n / 64 % 64 + 128) (by omega)
  by_cases hthree : n ≤ 65535
  · have hlead : n / 4096 % 16 = n / 4096 := by omega
    have hvalue : (n / 4096 * 64 + n / 64 % 64) * 64 + n % 64 = n := by omega
    simp only [hone, htwo, hthree, if_false, if_true, List.cons_append, List.nil_append, hlead]
    -- a first byte E0 leaves out what two bytes can hold, and ED the surrogates
    have hbounds : (if n / 4096 = 0 then 0xA0 else 0x80 : UInt8).toNat ≤ n / 64 % 64 + 128 ∧
        n / 64 % 64 + 128 ≤ (if n / 4096 = 13 then 0x9F else 0xBF : UInt8).toNat := by
      constructor <;> split <;> simp only [UInt8.reduceToNat] <;> omega
    rw [scan_opens (Lead.ofByte_three (by omega)), scan_middle hthird hbounds.1 hbounds.2,
      scan_last hlast (by simp) (by simp; omega), hvalue, hback]
  · have hlead : n / 262144 % 8 = n / 262144 := by omega
    have hsecond := toNat_ofNat (n := n / 4096 % 64 + 128) (by omega)
    have hvalue : ((n / 262144 * 64 + n / 4096 % 64) * 64 + n / 64 % 64) * 64 + n % 64 = n := by
      omega
    simp only [hone, htwo, hthree, if_false, List.cons_append, List.nil_append, hlead]
    -- a first byte F0 leaves out what three bytes can hold, and F4 what is beyond all code points
    have hbounds : (if n / 262144 = 0 then 0x90 else 0x80 : UInt8).toNat ≤ n / 4096 % 64 + 128 ∧
        n / 4096 % 64 + 128 ≤ (if n / 262144 = 4 then 0x8F else 0xBF : UInt8).toNat := by
      constructor <;> split <;> simp only [UInt8.reduceToNat] <;> omega
    rw [scan_opens (Lead.ofByte_four (by omega)), scan_middle hsecond hbounds.1 hbounds.2,
      scan_middle hthird (by simp) (by simp; omega), scan_last hlast (by simp) (by simp; omega),
      hvalue, hback]

theorem scan_encode (text : String) : scan none (encode text) = text.toList.map some := by
  unfold encode
  induction text.toList with
  | nil => rfl
  | cons c cs ih => rw [List.flatMap_cons, scan_char, ih, List.map_cons]

theorem decode?_encode (text : String) : decode? (encode text) = some text := by
  have hall : ∀ cs : List Char, (cs.map some).mapM id = some cs := by
    intro cs
    induction cs with
    | nil => rfl
    | cons c cs ih => simp [ih]
  rw [decode?, scan_encode, hall, Option.map_some, String.ofList_toList]

theorem encode_injective : Function.Injective encode := by
  intro a b h
  have hdecoded := congrArg decode? h
  rw [decode?_encode, decode?_encode] at hdecoded
  exact Option.some.inj hdecoded

theorem decodeLossy_encode (text : String) : decodeLossy (encode text) = text := by
  rw [decodeLossy, scan_encode, List.map_map]
  simp

end ArtifactHarvest.Text.Utf8
