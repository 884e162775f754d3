import ArtifactHarvest.Yaml.Spot

/-!
The three kinds of scalars: plain, quoted and block scalars. Each is read by an automaton that takes
one character at a time and gives back what stands after the scalar.
-/

namespace ArtifactHarvest.Yaml

inductive ScalarStyle where
  | plain
  | singleQuoted
  | doubleQuoted
  | literal
  | folded
deriving DecidableEq

/-- Blanks and breaks between two words. Blanks after a break do not count. -/
structure Gap where
  blanks : List Char
  firstBreak : List Char
  laterBreaks : List Char
  broken : Bool

namespace Gap

def none : Gap := ⟨[], [], [], false⟩

/-- A gap whose first break was escaped and leaves nothing behind. -/
def escapedBreak : Gap := ⟨[], [], [], true⟩

def add (g : Gap) (c : Char) : Gap :=
  if isBreak c then
    if g.broken then { g with laterBreaks := g.laterBreaks ++ [c] }
    else { g with blanks := [], firstBreak := [c], broken := true }
  else if g.broken then g
  else { g with blanks := g.blanks ++ [c] }

/-- What a gap leaves between the words: a single ordinary break becomes a space. -/
def folded (g : Gap) : List Char :=
  if g.broken then
    if g.firstBreak = ['\n'] then (if g.laterBreaks = [] then [' '] else g.laterBreaks)
    else g.firstBreak ++ g.laterBreaks
  else g.blanks

end Gap

/-! ### Plain scalars -/

/-- A plain scalar in the making; the text stands last character first. -/
structure Plain where
  text : List Char
  gap : Gap
  /-- Whether the last character read belongs to a gap, or nothing is read yet. -/
  inGap : Bool

namespace Plain

def isFlowMark (c : Char) : Bool := c == ',' || c == '[' || c == ']' || c == '\x7b' || c == '\x7d'

/-- Whether a colon before `next` can stand nowhere in a flow collection. -/
def refusesColon (next : Char) : Bool := isFlowMark next || next == '?'

/-- Reads on in a context: whether it is inside a flow collection, and how far lines must be
indented outside one. -/
def read (inFlow : Bool) (indent : Int) (p : Plain) : List Spot → Option (Plain × List Spot)
  | [] => some (p, [])
  | spot :: rest =>
      let c := spot.char
      if isBlank c || isBreak c then
        if p.gap.broken && c == '\t' && decide ((spot.column : Int) < indent) then none
        else Plain.read inFlow indent { p with gap := p.gap.add c, inGap := true } rest
      else
        let ends := c == theEnd ||
          (p.inGap && (c == '#' || atDocumentMark (spot :: rest) ||
            (!p.text.isEmpty && !inFlow && decide ((spot.column : Int) < indent))))
        if ends then some (p, spot :: rest)
        else
          let next := charAt rest 0
          if inFlow && c == ':' && refusesColon next then none
          else if (c == ':' && isGap next) || (inFlow && isFlowMark c) then some (p, spot :: rest)
          else Plain.read inFlow indent ⟨c :: p.gap.folded.reverse ++ p.text, .none, false⟩ rest

end Plain

/-! ### Quoted scalars -/

inductive QuotedMode where
  | text
  | gap
  /-- Behind a character that changes what the next one means. -/
  | escape
  /-- In a numeric escape, with so many digits to come. -/
  | hex (value due : Nat)

structure Quoted where
  text : List Char
  gap : Gap
  mode : QuotedMode

namespace Quoted

def hexValue? (c : Char) : Option Nat :=
  if '0' ≤ c ∧ c ≤ '9' then some (c.toNat - 48)
  else if 'a' ≤ c ∧ c ≤ 'f' then some (c.toNat - 87)
  else if 'A' ≤ c ∧ c ≤ 'F' then some (c.toNat - 55)
  else none

/-- What a character behind a backslash stands for. -/
def escaped? (c : Char) : Option Char :=
  match c with
  | '0' => some '\x00'
  | 'a' => some '\x07'
  | 'b' => some '\x08'
  | 't' | '\t' => some '\t'
  | 'n' => some '\n'
  | 'v' => some '\x0b'
  | 'f' => some '\x0c'
  | 'r' => some '\r'
  | 'e' => some '\x1b'
  | ' ' => some ' '
  | '"' => some '"'
  | '/' => some '/'
  | '\\' => some '\\'
  | 'N' => some '\u0085'
  | '_' => some '\u00a0'
  | 'L' => some '\u2028'
  | 'P' => some '\u2029'
  | _ => none

/-- How many digits a numeric escape has. -/
def hexCount? (c : Char) : Option Nat :=
  if c = 'x' then some 2 else if c = 'u' then some 4 else if c = 'U' then some 8 else none

/-- Reads on up to the quote that ends the scalar. -/
def read (single : Bool) (q : Quoted) : List Spot → Option (List Char × List Spot)
  | [] => none
  | spot :: rest =>
      let c := spot.char
      let quote := if single then '\'' else '"'
      match q.mode with
      | .escape =>
          if single then Quoted.read single ⟨c :: q.text, .none, .text⟩ rest
          else if isBreak c then Quoted.read single ⟨q.text, .escapedBreak, .gap⟩ rest
          else
            match escaped? c, hexCount? c with
            | some d, _ => Quoted.read single ⟨d :: q.text, .none, .text⟩ rest
            | none, some n => Quoted.read single ⟨q.text, .none, .hex 0 n⟩ rest
            | none, none => none
      | .hex value due =>
          match hexValue? c with
          | none => none
          | some digit =>
              let value := 16 * value + digit
              if due ≤ 1 then
                if (0xD800 ≤ value ∧ value < 0xE000) ∨ 0x10FFFF < value then none
                else Quoted.read single ⟨Char.ofNat value :: q.text, .none, .text⟩ rest
              else Quoted.read single ⟨q.text, .none, .hex value (due - 1)⟩ rest
      | mode =>
          if isBlank c || isBreak c then
            Quoted.read single ⟨q.text, q.gap.add c, .gap⟩ rest
          else
            let text := q.gap.folded.reverse ++ q.text
            let lineBegins := match mode with | .gap => true | _ => false
            if c == theEnd || (lineBegins && atDocumentMark (spot :: rest)) then none
            else if c == quote then
              if single && charAt rest 0 == '\'' then
                Quoted.read single ⟨text, .none, .escape⟩ rest
              else some (text.reverse, rest)
            else if !single && c == '\\' then Quoted.read single ⟨text, .none, .escape⟩ rest
            else Quoted.read single ⟨c :: text, .none, .text⟩ rest

end Quoted

/-! ### Block scalars -/

/-- How the breaks at the end of a block scalar are treated. -/
inductive Chomping where
  | strip
  | clip
  | keep
deriving DecidableEq

structure BlockHeader where
  chomping : Chomping
  /-- The indentation that is asked for, or zero. -/
  increment : Nat

namespace BlockHeader

def chomping? (c : Char) : Option Chomping :=
  if c = '+' then some .keep else if c = '-' then some .strip else none

/-- The indicators behind `|` or `>`, and what follows them. -/
def read (cs : List Spot) : Option (BlockHeader × List Spot) :=
  let digit? (spots : List Spot) : Option Nat :=
    let c := charAt spots 0
    if c.isDigit then some (c.toNat - 48) else none
  match chomping? (charAt cs 0) with
  | some chomping =>
      match digit? (cs.drop 1) with
      | some 0 => none
      | some n => some (⟨chomping, n⟩, cs.drop 2)
      | none => some (⟨chomping, 0⟩, cs.drop 1)
  | none =>
      match digit? cs with
      | some 0 => none
      | some n =>
          match chomping? (charAt cs 1) with
          | some chomping => some (⟨chomping, n⟩, cs.drop 2)
          | none => some (⟨.clip, n⟩, cs.drop 1)
      | none => some (⟨.clip, 0⟩, cs)

end BlockHeader

/-- The breaks before the first line that is not empty, the widest indentation seen, and what
follows. With `indent` zero any number of spaces counts as indentation. -/
def openingBreaks (indent widest : Nat) (breaks : List Char) :
    List Spot → Option (List Char × Nat × List Spot)
  | [] => none
  | spot :: rest =>
      let c := spot.char
      let inMargin := indent == 0 || decide (spot.column < indent)
      if inMargin && c == ' ' then openingBreaks indent widest breaks rest
      else if inMargin && c == '\t' then none
      else if isBreak c then openingBreaks indent (max widest spot.column) (breaks ++ [c]) rest
      else some (breaks, max widest spot.column, spot :: rest)

/-- A block scalar in the making; the text stands last character first. -/
structure Block where
  text : List Char
  /-- The break that ended the last line. -/
  firstBreak : List Char
  /-- The breaks of the empty lines after it. -/
  laterBreaks : List Char
  /-- Whether the last line began with a blank. -/
  wasSpaced : Bool
  inLine : Bool

namespace Block

/-- The text with the breaks before a line that begins with `c`. In a folded scalar a single
ordinary break between two lines that begin with no blank becomes a space. -/
def beforeLine (literal : Bool) (b : Block) (c : Char) : List Char :=
  let joins := !literal && b.firstBreak == ['\n'] && !b.wasSpaced && !isBlank c
  let first := if joins then (if b.laterBreaks = [] then [' '] else []) else b.firstBreak
  (first ++ b.laterBreaks).reverse ++ b.text

/-- Reads on as long as lines have the indentation. -/
def read (literal : Bool) (indent : Nat) (b : Block) : List Spot → Option (Block × List Spot)
  | [] => none
  | spot :: rest =>
      let c := spot.char
      if b.inLine then
        if c == theEnd then some ({ b with firstBreak := [], laterBreaks := [] }, spot :: rest)
        else if isBreak c then
          Block.read literal indent
            { b with firstBreak := [c], laterBreaks := [], inLine := false } rest
        else Block.read literal indent { b with text := c :: b.text } rest
      else if spot.column < indent && c == ' ' then Block.read literal indent b rest
      else if spot.column < indent && c == '\t' then none
      else if isBreak c then
        Block.read literal indent { b with laterBreaks := b.laterBreaks ++ [c] } rest
      else if spot.column == indent && c != theEnd then
        Block.read literal indent ⟨c :: beforeLine literal b c, [], [], isBlank c, true⟩ rest
      else some (b, spot :: rest)

/-- The text with its last breaks treated as the header says. -/
def finish (b : Block) (chomping : Chomping) : List Char :=
  match chomping with
  | .strip => b.text.reverse
  | .clip => b.text.reverse ++ b.firstBreak
  | .keep => b.text.reverse ++ b.firstBreak ++ b.laterBreaks

/-- A block scalar from behind its `|` or `>`, where lines around it have the indentation
`parent`. -/
def scalar (literal : Bool) (parent : Int) (spots : List Spot) :
    Option (List Char × List Spot) := do
  let (header, spots) ← BlockHeader.read spots
  let spots := spots.dropWhile (isBlank ·.char)
  let spots := if charAt spots 0 = '#' then spots.dropWhile (!isLineEnd ·.char) else spots
  guard (isLineEnd (charAt spots 0))
  let spots := if isBreak (charAt spots 0) then spots.drop 1 else spots
  let asked := if header.increment = 0 then 0 else parent.toNat + header.increment
  let (breaks, widest, spots) ← openingBreaks asked 0 [] spots
  let indent := if asked = 0 then max (max widest (parent + 1).toNat) 1 else asked
  let (block, spots) ← Block.read literal indent ⟨[], [], breaks, false, false⟩ spots
  return (block.finish header.chomping, spots)

end Block

end ArtifactHarvest.Yaml
