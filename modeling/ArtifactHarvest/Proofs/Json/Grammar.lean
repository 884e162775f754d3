import ArtifactHarvest.Json.Token

/-!
The texts that JSON allows for a value. A value is a sequence of tokens (`Value.tokens`), each of
them spelled in one of its ways (`Token.Spells`), with blanks wherever two tokens meet and at either
end (`Layout`).
-/

namespace ArtifactHarvest.Json

namespace Number

/-- Some digits. -/
def Digits (cs : List Char) : Prop :=
  cs ≠ [] ∧ ∀ c ∈ cs, isDigit c = true

/-- Digits of which the first is no zero, or a zero alone. -/
inductive Whole : List Char → Prop where
  | zero : Whole ['0']
  | digits {c : Char} {cs : List Char} : c ≠ '0' → Digits (c :: cs) → Whole (c :: cs)

/-- Nothing, or a point and some digits. -/
inductive Fraction : List Char → Prop where
  | none : Fraction []
  | point {digits : List Char} : Digits digits → Fraction ('.' :: digits)

/-- Nothing, or a power of ten. -/
inductive Exponent : List Char → Prop where
  | none : Exponent []
  | power {mark : Char} {sign digits : List Char} : mark = 'e' ∨ mark = 'E' →
      sign = [] ∨ sign = ['+'] ∨ sign = ['-'] → Digits digits → Exponent (mark :: sign ++ digits)

/-- How numbers are spelled. A natural number is spelled by its digits alone, any other by itself.
-/
inductive Spells : Number → List Char → Prop where
  | natural {digits : List Char} : Whole digits →
      Spells (.natural (Nat.ofDigitChars 10 digits 0)) digits
  | other {sign whole fraction exponent : List Char} : sign = [] ∨ sign = ['-'] → Whole whole →
      Fraction fraction → Exponent exponent → ¬ (sign = [] ∧ fraction = [] ∧ exponent = []) →
      Spells (.other (sign ++ whole ++ fraction ++ exponent))
        (sign ++ whole ++ fraction ++ exponent)

end Number

/-- A part of what stands between the quotes of a string. -/
inductive Piece where
  | char (c : Char)
  /-- A unit of sixteen bits. -/
  | unit (u : Nat)

/-- The units that begin a surrogate pair. -/
def IsHigh (u : Nat) : Prop := 0xD800 ≤ u ∧ u < 0xDC00

/-- The units that end a surrogate pair. -/
def IsLow (u : Nat) : Prop := 0xDC00 ≤ u ∧ u < 0xE000

instance (u : Nat) : Decidable (IsHigh u) := inferInstanceAs (Decidable (_ ∧ _))

instance (u : Nat) : Decidable (IsLow u) := inferInstanceAs (Decidable (_ ∧ _))

namespace Content

/-- A unit on its own. Half of a surrogate pair is no character. -/
def ofUnit (u : Nat) : Option Char :=
  if IsHigh u ∨ IsLow u then none else some (Char.ofNat u)

/-- The character of a surrogate pair. -/
def ofPair (h l : Nat) : Char :=
  Char.ofNat (0x10000 + (h - 0xD800) * 0x400 + (l - 0xDC00))

/-- The content that pieces make up. Two units that are a surrogate pair make one character. -/
def ofPieces : List Piece → Content
  | [] => []
  | .char c :: rest => some c :: ofPieces rest
  | .unit h :: .unit l :: rest =>
      if IsHigh h ∧ IsLow l then some (ofPair h l) :: ofPieces rest
      else ofUnit h :: ofPieces (.unit l :: rest)
  | .unit u :: rest => ofUnit u :: ofPieces rest

end Content

/-- The digits of base sixteen, in lower or upper case. -/
def HexDigit (c : Char) (value : Nat) : Prop :=
  value < 16 ∧ (c = value.digitChar ∨ c = value.digitChar.toUpper)

/-- The characters that a backslash and one letter stand for. -/
def shortEscapes : List (Char × Char) :=
  [('"', '"'), ('\\', '\\'), ('/', '/'), ('b', '\x08'), ('f', '\x0c'), ('n', '\n'), ('r', '\r'),
    ('t', '\t')]

/-- How the pieces of a string are spelled. -/
inductive Piece.Spells : Piece → List Char → Prop where
  | plain {c : Char} : c ≠ '"' → c ≠ '\\' → 0x20 ≤ c.toNat → Spells (.char c) [c]
  | short {letter c : Char} : (letter, c) ∈ shortEscapes → Spells (.char c) ['\\', letter]
  | numeric {a b c d : Char} {p q r s : Nat} :
      HexDigit a p → HexDigit b q → HexDigit c r → HexDigit d s →
      Spells (.unit (((p * 16 + q) * 16 + r) * 16 + s)) ['\\', 'u', a, b, c, d]

/-- Pieces spelled one after another. -/
inductive Piece.SpellsAll : List Piece → List Char → Prop where
  | nil : SpellsAll [] []
  | cons {piece : Piece} {pieces : List Piece} {cs more : List Char} :
      piece.Spells cs → SpellsAll pieces more → SpellsAll (piece :: pieces) (cs ++ more)

def Mark.char : Mark → Char
  | .openObject => '{'
  | .closeObject => '}'
  | .openArray => '['
  | .closeArray => ']'
  | .comma => ','
  | .colon => ':'

/-- How tokens are spelled. -/
inductive Token.Spells : Token → List Char → Prop where
  | mark (m : Mark) : Spells (.mark m) [m.char]
  | null : Spells .null ['n', 'u', 'l', 'l']
  | yes : Spells (.bool true) ['t', 'r', 'u', 'e']
  | no : Spells (.bool false) ['f', 'a', 'l', 's', 'e']
  | number {n : Number} {cs : List Char} : n.Spells cs → Spells (.number n) cs
  | string {pieces : List Piece} {cs : List Char} : Piece.SpellsAll pieces cs →
      Spells (.string (Content.ofPieces pieces)) ('"' :: cs ++ ['"'])

/-- Blanks between tokens. -/
def Blank (cs : List Char) : Prop :=
  ∀ c ∈ cs, c = ' ' ∨ c = '\t' ∨ c = '\n' ∨ c = '\r'

/-- A text in which tokens stand in order, with any blanks around them. -/
inductive Layout : List Token → List Char → Prop where
  | nil {gap : List Char} : Blank gap → Layout [] gap
  | cons {gap cs more : List Char} {token : Token} {rest : List Token} :
      Blank gap → token.Spells cs → Layout rest more → Layout (token :: rest) (gap ++ cs ++ more)

mutual

/-- The tokens that a value consists of. -/
def Value.tokens : Value → List Token
  | .null => [.null]
  | .bool b => [.bool b]
  | .number n => [.number n]
  | .string s => [.string s]
  | .array [] => [.mark .openArray, .mark .closeArray]
  | .array (v :: vs) =>
      .mark .openArray :: (v.tokens ++ (itemTokens vs ++ [.mark .closeArray]))
  | .object [] => [.mark .openObject, .mark .closeObject]
  | .object ((key, v) :: ms) =>
      .mark .openObject :: .string key :: .mark .colon ::
        (v.tokens ++ (memberTokens ms ++ [.mark .closeObject]))

/-- The tokens of items behind the first one. -/
def itemTokens : List Value → List Token
  | [] => []
  | v :: vs => .mark .comma :: (v.tokens ++ itemTokens vs)

/-- The tokens of members behind the first one. -/
def memberTokens : List (Content × Value) → List Token
  | [] => []
  | (key, v) :: ms =>
      .mark .comma :: .string key :: .mark .colon :: (v.tokens ++ memberTokens ms)

end

end ArtifactHarvest.Json
