import ArtifactHarvest.Text.Quoted

/-!
JSON values and the two forms in which they are written: compact, and pretty with two spaces for
each level.
-/

namespace ArtifactHarvest.Json

/-- The content of a string. `none` stands for half of a surrogate pair: JSON can spell it, but no
text can hold it. -/
abbrev Content := List (Option Char)

namespace Content

def ofText (text : String) : Content := text.toList.map some

def text? (s : Content) : Option String := (s.mapM id).map String.ofList

end Content

inductive Number where
  | natural (n : Nat)
  /-- Any other number, as it is spelled. -/
  | other (spelling : List Char)
deriving DecidableEq

/-- A value. The members of an object keep their order. -/
inductive Value where
  | null
  | bool (b : Bool)
  | number (n : Number)
  | string (s : Content)
  | array (items : List Value)
  | object (members : List (Content × Value))

namespace Value

def text (s : String) : Value := .string (Content.ofText s)

def natural (n : Nat) : Value := .number (.natural n)

/-- An object with these keys. -/
def record (members : List (String × Value)) : Value :=
  .object (members.map fun (key, v) => (Content.ofText key, v))

end Value

/-- Four digits in base sixteen. -/
def fourHex (n : Nat) : List Char :=
  let digits := (Text.hexDigits n).toList
  List.replicate (4 - digits.length) '0' ++ digits

/-- How one character is written inside a string. -/
def writtenChar (c : Char) : List Char :=
  if c = '"' then ['\\', '"']
  else if c = '\\' then ['\\', '\\']
  else if c = '\x08' then ['\\', 'b']
  else if c = '\x0c' then ['\\', 'f']
  else if c = '\n' then ['\\', 'n']
  else if c = '\r' then ['\\', 'r']
  else if c = '\t' then ['\\', 't']
  else if c.toNat < 0x20 then '\\' :: 'u' :: fourHex c.toNat
  else [c]

/-- A string between its quotes. Half of a surrogate pair is written as U+D800. -/
def writtenString (s : Content) : List Char :=
  '"' :: s.flatMap (fun c => c.elim ['\\', 'u', 'd', '8', '0', '0'] writtenChar) ++ ['"']

def writtenNumber : Number → List Char
  | .natural n => (toString n).toList
  | .other spelling => spelling

mutual

/-- A value without any blank. -/
def compact : Value → List Char
  | .null => "null".toList
  | .bool true => "true".toList
  | .bool false => "false".toList
  | .number n => writtenNumber n
  | .string s => writtenString s
  | .array [] => ['[', ']']
  | .array (v :: vs) => '[' :: compact v ++ compactItems vs ++ [']']
  | .object [] => ['{', '}']
  | .object ((key, v) :: ms) =>
      '{' :: writtenString key ++ ':' :: compact v ++ compactMembers ms ++ ['}']

def compactItems : List Value → List Char
  | [] => []
  | v :: vs => ',' :: compact v ++ compactItems vs

def compactMembers : List (Content × Value) → List Char
  | [] => []
  | (key, v) :: ms => ',' :: writtenString key ++ ':' :: compact v ++ compactMembers ms

end

/-- A new line and the indentation of a level. -/
def newLine (level : Nat) : List Char :=
  '\n' :: List.replicate (2 * level) ' '

mutual

/-- A value with each item and each member on a line of its own. -/
def pretty (level : Nat) : Value → List Char
  | .null => "null".toList
  | .bool true => "true".toList
  | .bool false => "false".toList
  | .number n => writtenNumber n
  | .string s => writtenString s
  | .array [] => ['[', ']']
  | .array (v :: vs) =>
      '[' :: newLine (level + 1) ++ pretty (level + 1) v ++ prettyItems (level + 1) vs ++
        newLine level ++ [']']
  | .object [] => ['{', '}']
  | .object ((key, v) :: ms) =>
      '{' :: newLine (level + 1) ++ writtenString key ++ ':' :: ' ' :: pretty (level + 1) v ++
        prettyMembers (level + 1) ms ++ newLine level ++ ['}']

def prettyItems (level : Nat) : List Value → List Char
  | [] => []
  | v :: vs => ',' :: newLine level ++ pretty level v ++ prettyItems level vs

def prettyMembers (level : Nat) : List (Content × Value) → List Char
  | [] => []
  | (key, v) :: ms =>
      ',' :: newLine level ++ writtenString key ++ ':' :: ' ' :: pretty level v ++
        prettyMembers level ms

end

namespace Value

def toCompact (v : Value) : String := String.ofList (Json.compact v)

def toPretty (v : Value) : String := String.ofList (Json.pretty 0 v)

end Value

end ArtifactHarvest.Json
