import ArtifactHarvest.Text.Utf8
import ArtifactHarvest.Yaml.Scalar

/-!
The tokens of a YAML text, and those of them that stand on one line: directives, anchors and tags.
-/

namespace ArtifactHarvest.Yaml

inductive Token where
  | version (major minor : Nat)
  | tagPrefix (handle : List Char) (text : Bytes)
  | documentStart
  | documentEnd
  | blockSequenceStart
  | blockMappingStart
  /-- The end of a block collection. -/
  | blockEnd
  | flowSequenceStart
  | flowSequenceEnd
  | flowMappingStart
  | flowMappingEnd
  | blockEntry
  | flowEntry
  | key
  | value
  | alias (name : List Char)
  | anchor (name : List Char)
  | tag (handle : List Char) (suffix : Bytes)
  | scalar (style : ScalarStyle) (text : List Char)
deriving DecidableEq

/-! ### Tags -/

/-- Whether a character may stand in a tag as it is. -/
def isTagChar (allowsFlowMarks : Bool) (c : Char) : Bool :=
  isWordChar c || c == ';' || c == '/' || c == '?' || c == ':' || c == '@' || c == '&' ||
    c == '=' || c == '+' || c == '$' || c == '.' || c == '!' || c == '~' || c == '*' ||
    c == '\'' || c == '(' || c == ')' || (allowsFlowMarks && (c == ',' || c == '[' || c == ']'))

/-- How many bytes follow a byte that begins a character. -/
def followers? (b : Nat) : Option Nat :=
  if b < 0x80 then some 0
  else if 0xC0 ≤ b ∧ b < 0xE0 then some 1
  else if 0xE0 ≤ b ∧ b < 0xF0 then some 2
  else if 0xF0 ≤ b ∧ b < 0xF8 then some 3
  else none

/-- The part of a tag at the front, percent escapes resolved, and how many characters it takes.
`due` bytes are still missing from a character that escapes spell. -/
def tagText (allowsFlowMarks : Bool) (due : Nat) : List Char → Option (Bytes × Nat)
  | [] => if due = 0 then some ([], 0) else none
  | c :: rest =>
      if c = '%' then
        match rest with
        | high :: low :: more => do
            let b := 16 * (← Quoted.hexValue? high) + (← Quoted.hexValue? low)
            let left ←
              if due = 0 then followers? b
              else if 0x80 ≤ b ∧ b < 0xC0 then some (due - 1)
              else none
            let (bytes, n) ← tagText allowsFlowMarks left more
            return (UInt8.ofNat b :: bytes, n + 3)
        | _ => none
      else if due ≠ 0 then none
      else if isTagChar allowsFlowMarks c then
        (tagText allowsFlowMarks 0 rest).map fun (bytes, n) =>
          (Text.Utf8.encode (String.singleton c) ++ bytes, n + 1)
      else some ([], 0)

/-- The handle at the front: `!`, word characters, and a second `!` where one follows. -/
def tagHandle? (cs : List Char) : Option (List Char × List Char) :=
  match cs with
  | '!' :: rest =>
      let word := rest.takeWhile isWordChar
      match rest.dropWhile isWordChar with
      | '!' :: after => some ('!' :: word ++ ['!'], after)
      | after => some ('!' :: word, after)
  | _ => none

/-- A tag as a token, and how many characters it takes. -/
def tagToken? (cs : List Char) : Option (Token × Nat) :=
  match cs with
  | '!' :: '<' :: rest => do
      let (text, n) ← tagText true 0 rest
      guard (n ≠ 0 ∧ (rest.drop n).head? = some '>')
      return (.tag [] text, n + 3)
  | _ => do
      let (handle, after) ← tagHandle? cs
      let (text, n) ← tagText false 0 after
      if 2 ≤ handle.length ∧ handle.getLast? = some '!' then
        guard (n ≠ 0)
        return (.tag handle text, handle.length + n)
      else
        let suffix := Text.Utf8.encode (String.ofList handle.tail) ++ text
        if suffix = [] then return (.tag [] (Text.Utf8.encode "!"), 1)
        else return (.tag ['!'] suffix, handle.length + n)

/-! ### Directives -/

/-- A number of at most nine digits at the front. -/
def versionNumber? (cs : List Char) : Option (Nat × List Char) :=
  let digits := cs.takeWhile Char.isDigit
  if digits = [] ∨ 9 < digits.length then none
  else some (digits.foldl (fun n c => 10 * n + (c.toNat - 48)) 0, cs.dropWhile Char.isDigit)

/-- Whether only blanks and a comment are left of a line. -/
def isTrailer (cs : List Char) : Bool :=
  match cs.dropWhile isBlank with
  | [] => true
  | c :: _ => c == '#'

/-- The directive on a line, from behind its `%`. -/
def directive? (line : List Char) : Option Token := do
  let name := line.takeWhile isWordChar
  let rest := line.dropWhile isWordChar
  guard (name ≠ [] ∧ (rest.head?.map isBlank).getD true)
  let rest := rest.dropWhile isBlank
  if name = "YAML".toList then
    let (major, rest) ← versionNumber? rest
    guard (rest.head? = some '.')
    let (minor, rest) ← versionNumber? rest.tail
    guard (isTrailer rest)
    return .version major minor
  else if name = "TAG".toList then
    let (handle, rest) ← tagHandle? rest
    guard (handle.getLast? = some '!' ∧ (rest.head?.map isBlank).getD false)
    let rest := rest.dropWhile isBlank
    let (text, n) ← tagText true 0 rest
    let rest := rest.drop n
    guard (n ≠ 0 ∧ (rest.head?.map isBlank).getD true ∧ isTrailer rest)
    return .tagPrefix handle text
  else none

/-! ### Anchors -/

/-- The name behind `&` or `*`, which must be followed by a gap or by one of a few marks. -/
def anchorName? (spots : List Spot) : Option (List Char) :=
  let name := (spots.takeWhile (isWordChar ·.char)).map Spot.char
  let next := charAt spots name.length
  if name ≠ [] ∧ (isGap next = true ∨ next ∈ ['?', ':', ',', ']', '\x7d', '%', '@', '\x60']) then
    some name
  else none

end ArtifactHarvest.Yaml
