/-!
A YAML text as a sequence of characters that know where they stand. The text ends in a NUL
character, which cannot stand in it otherwise.
-/

namespace ArtifactHarvest.Yaml

/-- A character and its place. `index` counts all characters before it. -/
structure Spot where
  char : Char
  index : Nat
  line : Nat
  column : Nat

/-- What stands after the last character. -/
def theEnd : Char := '\x00'

/-- Whether a character may stand in a text. -/
def isAllowed (c : Char) : Bool :=
  let n := c.toNat
  n == 9 || n == 10 || n == 13 || (0x20 ≤ n && n ≤ 0x7E) || n == 0x85 || (0xA0 ≤ n && n ≤ 0xD7FF) ||
    (0xE000 ≤ n && n ≤ 0xFFFD) || 0x10000 ≤ n

/-- Line breaks, once they are unified. -/
def isBreak (c : Char) : Bool := c == '\n' || c == '\u2028' || c == '\u2029'

def isBlank (c : Char) : Bool := c == ' ' || c == '\t'

/-- A break or the end. -/
def isLineEnd (c : Char) : Bool := isBreak c || c == theEnd

/-- A blank, a break or the end. -/
def isGap (c : Char) : Bool := isBlank c || isLineEnd c

/-- A character of a name. -/
def isWordChar (c : Char) : Bool := c.isAlphanum || c == '_' || c == '-'

/-- The text with one kind of ordinary line break. -/
def unifyBreaks : List Char → List Char
  | '\r' :: '\n' :: rest => '\n' :: unifyBreaks rest
  | c :: rest => (if c = '\r' ∨ c = '\u0085' then '\n' else c) :: unifyBreaks rest
  | [] => []

/-- The characters with their places, and the end. -/
def place (index line column : Nat) : List Char → List Spot
  | [] => [⟨theEnd, index, line, column⟩]
  | c :: rest =>
      ⟨c, index, line, column⟩ ::
        if isBreak c then place (index + 1) (line + 1) 0 rest
        else place (index + 1) line (column + 1) rest

/-- The spots of a text, if all its characters are allowed. -/
def spots? (text : String) : Option (List Spot) :=
  let cs := text.toList
  if cs.all isAllowed then some (place 0 0 0 (unifyBreaks cs)) else none

/-- The character so many places further on. -/
def charAt (spots : List Spot) (n : Nat) : Char :=
  ((spots.drop n).head?.map Spot.char).getD theEnd

/-- Whether a line that begins or ends a document begins here. -/
def atDocumentMark (spots : List Spot) : Bool :=
  match spots with
  | a :: b :: c :: rest =>
      a.column == 0 && (a.char == '-' || a.char == '.') && b.char == a.char && c.char == a.char &&
        isGap (charAt rest 0)
  | _ => false

end ArtifactHarvest.Yaml
