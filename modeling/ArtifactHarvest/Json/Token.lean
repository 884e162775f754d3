import ArtifactHarvest.Json.Value

/-!
The tokens of a JSON text, found by an automaton that takes one character at a time.
-/

namespace ArtifactHarvest.Json

inductive Mark where
  | openObject
  | closeObject
  | openArray
  | closeArray
  | comma
  | colon
deriving DecidableEq

inductive Token where
  | mark (m : Mark)
  | null
  | bool (b : Bool)
  | number (n : Number)
  | string (s : Content)
deriving DecidableEq

namespace Mark

def ofChar? (c : Char) : Option Mark :=
  if c = '{' then some .openObject
  else if c = '}' then some .closeObject
  else if c = '[' then some .openArray
  else if c = ']' then some .closeArray
  else if c = ',' then some .comma
  else if c = ':' then some .colon
  else none

end Mark

namespace Number

def isDigit (c : Char) : Bool := '0' ≤ c && c ≤ '9'

/-- Digits at the front, of which there must be one, and what follows. -/
def someDigits (cs : List Char) : Option (List Char) :=
  if cs.takeWhile isDigit = [] then none else some (cs.dropWhile isDigit)

/-- An integer part: no zero stands before other digits. -/
def integerPart (cs : List Char) : Option (List Char) :=
  match cs with
  | '0' :: rest => some rest
  | _ => someDigits cs

def fractionPart (cs : List Char) : Option (List Char) :=
  match cs with
  | '.' :: rest => someDigits rest
  | _ => some cs

def exponentPart (cs : List Char) : Option (List Char) :=
  match cs with
  | [] => some []
  | c :: rest =>
      if c = 'e' ∨ c = 'E' then
        match rest with
        | '+' :: digits | '-' :: digits => someDigits digits
        | digits => someDigits digits
      else some cs

/-- The number that a text spells, if it spells one. -/
def ofSpelling? (cs : List Char) : Option Number :=
  let unsigned := if cs.head? = some '-' then cs.tail else cs
  match ((integerPart unsigned).bind fractionPart).bind exponentPart with
  | some [] =>
      if cs.all isDigit then
        some (.natural (cs.foldl (fun n c => 10 * n + (c.toNat - 48)) 0))
      else some (.other cs)
  | _ => none

end Number

/-- Where the automaton stands. What has been read of a token stands newest first. -/
inductive Mode where
  | between
  /-- In a number, or in a word of letters. -/
  | bare (soFar : List Char)
  | string (soFar : Content) (high : Option Nat)
  /-- Behind a backslash. -/
  | escape (soFar : Content) (high : Option Nat)
  /-- In a numeric escape, with so many digits to come. -/
  | hex (soFar : Content) (high : Option Nat) (value due : Nat)

namespace Mode

/-- A character that may stand in a number or a word. -/
def isBare (c : Char) : Bool :=
  Number.isDigit c || c == '-' || c == '+' || c == '.' || ('a' ≤ c && c ≤ 'z') || c == 'E'

def isBlank (c : Char) : Bool := c == ' ' || c == '\t' || c == '\n' || c == '\r'

/-- The token that bare characters make. -/
def bareToken? (cs : List Char) : Option Token :=
  if cs = ['n', 'u', 'l', 'l'] then some .null
  else if cs = ['t', 'r', 'u', 'e'] then some (.bool true)
  else if cs = ['f', 'a', 'l', 's', 'e'] then some (.bool false)
  else (Number.ofSpelling? cs).map .number

/-- A first half of a surrogate pair that nothing followed becomes a character no text can hold. -/
def settled (soFar : Content) (high : Option Nat) : Content :=
  if high.isSome then none :: soFar else soFar

def simpleEscape? (c : Char) : Option Char :=
  if c = '"' ∨ c = '\\' ∨ c = '/' then some c
  else if c = 'b' then some '\x08'
  else if c = 'f' then some '\x0c'
  else if c = 'n' then some '\n'
  else if c = 'r' then some '\r'
  else if c = 't' then some '\t'
  else none

def hexValue? (c : Char) : Option Nat :=
  if '0' ≤ c ∧ c ≤ '9' then some (c.toNat - 48)
  else if 'a' ≤ c ∧ c ≤ 'f' then some (c.toNat - 87)
  else if 'A' ≤ c ∧ c ≤ 'F' then some (c.toNat - 55)
  else none

/-- In a string again after a numeric escape. Two halves of a surrogate pair make one character. -/
def afterHex (soFar : Content) (high : Option Nat) (unit : Nat) : Mode :=
  if 0xD800 ≤ unit ∧ unit < 0xDC00 then .string (settled soFar high) (some unit)
  else if 0xDC00 ≤ unit ∧ unit < 0xE000 then
    match high with
    | some h =>
        let c := Char.ofNat (0x10000 + (h - 0xD800) * 0x400 + (unit - 0xDC00))
        .string (some c :: soFar) none
    | none => .string (none :: soFar) none
  else .string (some (Char.ofNat unit) :: settled soFar high) none

/-- One character where a token may begin. -/
def start (c : Char) : Option (List Token × Mode) :=
  if isBlank c then some ([], .between)
  else if c = '"' then some ([], .string [] none)
  else if isBare c then some ([], .bare [c])
  else (Mark.ofChar? c).map fun m => ([.mark m], .between)

/-- One character further: the tokens that it completes, the last one first, and the next mode. -/
def step (mode : Mode) (c : Char) : Option (List Token × Mode) :=
  match mode with
  | .between => start c
  | .bare soFar =>
      if isBare c then some ([], .bare (c :: soFar))
      else
        (bareToken? soFar.reverse).bind fun token =>
          (start c).map fun (tokens, next) => (tokens ++ [token], next)
  | .string soFar high =>
      if c = '"' then some ([.string (settled soFar high).reverse], .between)
      else if c = '\\' then some ([], .escape soFar high)
      else if c.toNat < 0x20 then none
      else some ([], .string (some c :: settled soFar high) none)
  | .escape soFar high =>
      if c = 'u' then some ([], .hex soFar high 0 4)
      else (simpleEscape? c).map fun d => ([], .string (some d :: settled soFar high) none)
  | .hex soFar high value due =>
      (hexValue? c).map fun digit =>
        let value := 16 * value + digit
        if due ≤ 1 then ([], afterHex soFar high value) else ([], .hex soFar high value (due - 1))

/-- The token that the end of the text completes, if the text may end here. -/
def finish : Mode → Option (List Token)
  | .between => some []
  | .bare soFar => (bareToken? soFar.reverse).map fun token => [token]
  | _ => none

end Mode

/-- One character further, with the tokens so far, newest first. -/
def advance (state : List Token × Mode) (c : Char) : Option (List Token × Mode) :=
  (state.2.step c).map fun (tokens, next) => (tokens ++ state.1, next)

/-- The tokens of a text in order, if it is made of tokens. -/
def tokens? (text : List Char) : Option (List Token) :=
  (text.foldlM advance ([], .between)).bind fun (newestFirst, mode) =>
    mode.finish.map fun last => (last ++ newestFirst).reverse

end ArtifactHarvest.Json
