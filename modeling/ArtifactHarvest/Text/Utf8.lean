/-!
UTF-8: writing characters as bytes, and reading bytes that need not be well formed. Reading is an
automaton over the bytes; every maximal part that cannot be completed counts as one fault.
-/

namespace ArtifactHarvest

abbrev Bytes := List UInt8

namespace Text.Utf8

/-- A text as bytes. -/
def encode (text : String) : Bytes :=
  text.toList.flatMap String.utf8EncodeChar

/-- A sequence that has begun: its value so far, how many bytes follow the next one, and the
bounds of the next one. -/
structure Pending where
  value : Nat
  later : Nat
  low : UInt8
  high : UInt8

/-- What a byte means where a character may begin. -/
inductive Lead where
  | char (c : Char)
  | opens (pending : Pending)
  | fault

/-- The narrower bounds after E0, ED, F0 and F4 leave out overlong forms, surrogates and values
beyond the last code point. -/
def Lead.ofByte (b : UInt8) : Lead :=
  let n := b.toNat
  if n < 0x80 then .char (Char.ofNat n)
  else if n < 0xC2 then .fault
  else if n < 0xE0 then .opens ⟨n - 0xC0, 0, 0x80, 0xBF⟩
  else if n = 0xE0 then .opens ⟨0, 1, 0xA0, 0xBF⟩
  else if n = 0xED then .opens ⟨13, 1, 0x80, 0x9F⟩
  else if n < 0xF0 then .opens ⟨n - 0xE0, 1, 0x80, 0xBF⟩
  else if n = 0xF0 then .opens ⟨0, 2, 0x90, 0xBF⟩
  else if n < 0xF4 then .opens ⟨n - 0xF0, 2, 0x80, 0xBF⟩
  else if n = 0xF4 then .opens ⟨4, 2, 0x80, 0x8F⟩
  else .fault

/-- The characters of the bytes, with `none` for each fault. -/
def scan : Option Pending → Bytes → List (Option Char)
  | none, [] => []
  | some _, [] => [none]
  | none, b :: rest =>
      match Lead.ofByte b with
      | .char c => some c :: scan none rest
      | .opens pending => scan (some pending) rest
      | .fault => none :: scan none rest
  | some pending, b :: rest =>
      if pending.low ≤ b ∧ b ≤ pending.high then
        let value := pending.value * 64 + (b.toNat - 0x80)
        match pending.later with
        | 0 => some (Char.ofNat value) :: scan none rest
        | later + 1 => scan (some ⟨value, later, 0x80, 0xBF⟩) rest
      else
        none ::
          match Lead.ofByte b with
          | .char c => some c :: scan none rest
          | .opens next => scan (some next) rest
          | .fault => none :: scan none rest

/-- The text of the bytes, or `none` when they are not well formed. -/
def decode? (bytes : Bytes) : Option String :=
  ((scan none bytes).mapM id).map String.ofList

/-- The text of the bytes, with the replacement character U+FFFD for each fault. -/
def decodeLossy (bytes : Bytes) : String :=
  String.ofList ((scan none bytes).map (·.getD (Char.ofNat 0xFFFD)))

end Text.Utf8

end ArtifactHarvest
