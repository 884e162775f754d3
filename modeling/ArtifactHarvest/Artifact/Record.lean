import ArtifactHarvest.Artifact.Basic
import ArtifactHarvest.Json.Reading

/-!
Descriptors as JSON records.
-/

namespace ArtifactHarvest

namespace Json.Value

/-- The text of a string. -/
def text? : Value → Option String
  | .string s => s.text?
  | _ => none

/-- A natural number of at most 64 bits. -/
def word? : Value → Option UInt64
  | .number (.natural n) => if n < UInt64.size then some (UInt64.ofNat n) else none
  | _ => none

end Json.Value

namespace Descriptor

open Json (Value Content)

/-- The names of the fields in the order in which they are written. -/
def fieldNames : List String :=
  ["path", "absolute_path", "glob_path", "file_size", "sha1sum", "sha256sum"]

def toJson (d : Descriptor) : Value :=
  .record [("path", .text d.path), ("absolute_path", .text d.absolutePath),
    ("glob_path", .text d.pattern), ("file_size", .natural d.size.toNat),
    ("sha1sum", .text d.sha1), ("sha256sum", .text d.sha256)]

/-- A descriptor from the values of its fields in order. -/
def ofFields? : List Value → Option Descriptor
  | [path, absolutePath, pattern, size, sha1, sha256] => do
      return ⟨← path.text?, ← absolutePath.text?, ← pattern.text?, ← size.word?, ← sha1.text?,
        ← sha256.text?⟩
  | _ => none

/-- The value of a key that stands just once. -/
def single? (members : List (String × Value)) (key : String) : Option Value :=
  match members.filter (·.1 = key) with
  | [(_, v)] => some v
  | _ => none

/-- A descriptor from a record in which each field stands once, in any order and among any others,
or from a list of the six values. -/
def ofJson? : Value → Option Descriptor
  | .object members => do
      let named ← members.mapM fun (key, v) => key.text?.map (·, v)
      ofFields? (← fieldNames.mapM (single? named))
  | .array items => ofFields? items
  | _ => none

def parse? (text : String) : Option Descriptor :=
  (Value.parse? text).bind ofJson?

/-- The descriptors that an array holds. -/
def parseAll? (text : String) : Option (List Descriptor) :=
  match Value.parse? text with
  | some (.array items) => items.mapM ofJson?
  | _ => none

end Descriptor

end ArtifactHarvest
