import ArtifactHarvest.Digest.Stream

/-!
The identifier and the time that stamp a summary: a random UUID of version 4, and a time in the form
of RFC 3339 with the offset `+00:00`.
-/

namespace ArtifactHarvest.Summary

open Digest (hexDigit)

/-- Lower-case digits of a byte in base sixteen. -/
def hexByte (b : UInt8) : List Char :=
  [hexDigit (b.toNat / 16), hexDigit (b.toNat % 16)]

/-- Sixteen bytes with the bits that mark version 4 and its variant set. -/
def versioned (bytes : Bytes) : Bytes :=
  (bytes.zipIdx).map fun (b, i) =>
    if i = 6 then (b &&& 0x0F) ||| 0x40 else if i = 8 then (b &&& 0x3F) ||| 0x80 else b

/-- An identifier from sixteen random bytes. -/
def identifier (bytes : Bytes) : String :=
  let part (start count : Nat) : List Char :=
    ((versioned bytes).drop start |>.take count).flatMap hexByte
  String.ofList
    (part 0 4 ++ '-' :: part 4 2 ++ '-' :: part 6 2 ++ '-' :: part 8 2 ++ '-' :: part 10 6)

/-- A moment in seconds and nanoseconds since the beginning of 1970. -/
structure Moment where
  seconds : Nat
  nanoseconds : Nat

/-- A number with zeros in front up to a width. -/
def padded (width n : Nat) : String :=
  let digits := toString n
  String.ofList (List.replicate (width - digits.length) '0') ++ digits

/-- Year, month and day of a day counted from the beginning of 1970. Years are taken to begin in
March, so that a leap day ends one. -/
def civil (day : Nat) : Nat × Nat × Nat :=
  let z := day + 719468
  let era := z / 146097
  let dayOfEra := z % 146097
  let yearOfEra := (dayOfEra - dayOfEra / 1460 + dayOfEra / 36524 - dayOfEra / 146096) / 365
  let dayOfYear := dayOfEra - (365 * yearOfEra + yearOfEra / 4 - yearOfEra / 100)
  let m := (5 * dayOfYear + 2) / 153
  let month := if m < 10 then m + 3 else m - 9
  (yearOfEra + era * 400 + (if month ≤ 2 then 1 else 0), month, dayOfYear - (153 * m + 2) / 5 + 1)

/-- The fraction of a second with as few groups of three digits as it needs. -/
def fraction (nanoseconds : Nat) : String :=
  if nanoseconds = 0 then ""
  else if nanoseconds % 1000000 = 0 then "." ++ padded 3 (nanoseconds / 1000000)
  else if nanoseconds % 1000 = 0 then "." ++ padded 6 (nanoseconds / 1000)
  else "." ++ padded 9 nanoseconds

def timestamp (m : Moment) : String :=
  let (year, month, day) := civil (m.seconds / 86400)
  let second := m.seconds % 86400
  padded 4 year ++ "-" ++ padded 2 month ++ "-" ++ padded 2 day ++ "T" ++
    padded 2 (second / 3600) ++ ":" ++ padded 2 (second / 60 % 60) ++ ":" ++
    padded 2 (second % 60) ++ fraction m.nanoseconds ++ "+00:00"

/-- Whether characters have the given shape: `h` stands for a lower-case digit in base sixteen, `d`
for a decimal digit, `v` for one of `8`, `9`, `a` and `b`, and any other character for itself. -/
def hasShape : List Char → List Char → Bool
  | [], [] => true
  | s :: shape, c :: cs =>
      let digit := '0' ≤ c && c ≤ '9'
      (if s = 'h' then digit || ('a' ≤ c && c ≤ 'f')
        else if s = 'd' then digit
        else if s = 'v' then c == '8' || c == '9' || c == 'a' || c == 'b'
        else c == s) && hasShape shape cs
  | _, _ => false

/-- Whether a text is a UUID of version 4 in lower case. -/
def isIdentifier (text : String) : Bool :=
  hasShape "hhhhhhhh-hhhh-4hhh-vhhh-hhhhhhhhhhhh".toList text.toList

/-- Whether a text is a time in the form of RFC 3339 with the offset `+00:00`. -/
def isTimestamp (text : String) : Bool :=
  let cs := text.toList
  let rest := cs.drop 19
  hasShape "dddd-dd-ddTdd:dd:dd".toList (cs.take 19) &&
    (match rest with
      | '.' :: digits =>
          (digits.takeWhile Char.isDigit) ≠ [] && digits.dropWhile Char.isDigit = "+00:00".toList
      | _ => rest = "+00:00".toList)

end ArtifactHarvest.Summary
