import ArtifactHarvest.Yaml.Token

/-!
Finding the tokens of a YAML text. Indentation becomes tokens of its own. A key that is not
announced is known as one only when its colon comes, so the place where its tokens would have to go
is remembered: it must begin on the line of the colon, not far before it.
-/

namespace ArtifactHarvest.Yaml

/-- The place of what may turn out to be a key. -/
structure KeyPlace where
  /-- Whether it must be one: nothing else may begin at this indentation. -/
  required : Bool
  /-- How many tokens stand before it. -/
  position : Nat
  spot : Spot

/-- How far a text is scanned. -/
structure Scan where
  rest : List Spot
  newestFirst : List Token
  count : Nat
  /-- The column of the innermost block collection, or -1 outside any. -/
  indent : Int
  outerIndents : List Int
  /-- The possible key at this level, and those at the levels around it: one for each flow
  collection that is open. -/
  key : Option KeyPlace
  outerKeys : List (Option KeyPlace)
  /-- Whether a key may begin here. -/
  keyAllowed : Bool

namespace Scan

def start (spots : List Spot) : Scan := ⟨spots, [], 0, -1, [], none, [], true⟩

def inFlow (s : Scan) : Bool := !s.outerKeys.isEmpty

def column (s : Scan) : Nat := (s.rest.head?.map Spot.column).getD 0

def emit (s : Scan) (t : Token) : Scan :=
  { s with newestFirst := t :: s.newestFirst, count := s.count + 1 }

/-- Puts a token before those that came after a position. -/
def emitAt (s : Scan) (position : Nat) (t : Token) : Scan :=
  let later := s.count - position
  { s with
    newestFirst := s.newestFirst.take later ++ t :: s.newestFirst.drop later
    count := s.count + 1 }

def skip (s : Scan) (n : Nat) : Scan := { s with rest := s.rest.drop n }

/-- Whether a possible key is out of reach: on an earlier line, or too far back. -/
def isStale (here : Spot) (k : KeyPlace) : Bool :=
  k.spot.line < here.line || k.spot.index + 1024 < here.index

/-- A possible key after it has been checked. A required key must not get out of reach. -/
def settleKey (here : Spot) : Option KeyPlace → Option (Option KeyPlace)
  | none => some none
  | some k => if isStale here k then (if k.required then none else some none) else some (some k)

def settleKeys (s : Scan) (here : Spot) : Option Scan := do
  return { s with key := ← settleKey here s.key, outerKeys := ← s.outerKeys.mapM (settleKey here) }

/-- Gives up the possible key at this level. -/
def dropKey (s : Scan) : Option Scan :=
  match s.key with
  | some k => if k.required then none else some { s with key := none }
  | none => some s

/-- Notes that a key may begin here, where one may. -/
def noteKey (s : Scan) (here : Spot) : Option Scan :=
  if s.keyAllowed then do
    let required := !s.inFlow && s.indent == (here.column : Int)
    let s ← s.dropKey
    return { s with key := some ⟨required, s.count, here⟩ }
  else some s

/-- Opens a block collection when the column lies further in than the last one's. -/
def openBlock (s : Scan) (column position : Nat) (t : Token) : Scan :=
  if !s.inFlow && s.indent < (column : Int) then
    { s.emitAt position t with indent := column, outerIndents := s.indent :: s.outerIndents }
  else s

/-- Closes the block collections that lie further in than a column. -/
def closeBlocks (s : Scan) (column : Int) : Scan :=
  if s.inFlow then s else go s.outerIndents s
where
  go : List Int → Scan → Scan
    | [], s => s
    | outer :: more, s =>
        if column < s.indent then
          go more { s.emit .blockEnd with indent := outer, outerIndents := more }
        else s

/-- What stands before the next token: blanks, comments and breaks. Tabs count as blanks only where
no key may begin. -/
def gap (inFlow keyAllowed inComment : Bool) : List Spot → Bool × List Spot
  | [] => (keyAllowed, [])
  | spot :: rest =>
      let c := spot.char
      if isBreak c then gap inFlow (keyAllowed || !inFlow) false rest
      else if c == theEnd then (keyAllowed, spot :: rest)
      else if inComment then gap inFlow keyAllowed true rest
      else if (c == '\uFEFF' && spot.column == 0) || c == ' ' ||
          (c == '\t' && (inFlow || !keyAllowed)) then gap inFlow keyAllowed false rest
      else if c == '#' then gap inFlow keyAllowed true rest
      else (keyAllowed, spot :: rest)

/-- A token that stands alone and ends any key. -/
def plainMark (s : Scan) (keyAllowed : Bool) (t : Token) : Option Scan := do
  let s ← s.dropKey
  return { (s.skip 1).emit t with keyAllowed := keyAllowed }

def documentMark (s : Scan) (t : Token) : Option Scan := do
  let s ← (s.closeBlocks (-1)).dropKey
  return { (s.skip 3).emit t with keyAllowed := false }

def directive (s : Scan) : Option Scan := do
  let s ← (s.closeBlocks (-1)).dropKey
  let line := s.rest.takeWhile (!isLineEnd ·.char)
  let t ← directive? ((line.drop 1).map Spot.char)
  let after := s.rest.drop line.length
  return { s.emit t with
    keyAllowed := false
    rest := if isBreak (charAt after 0) then after.drop 1 else after }

def openFlow (s : Scan) (here : Spot) (t : Token) : Option Scan := do
  let s ← s.noteKey here
  return { (s.skip 1).emit t with
    key := none
    outerKeys := s.key :: s.outerKeys
    keyAllowed := true }

def closeFlow (s : Scan) (t : Token) : Option Scan := do
  let s ← s.dropKey
  let (key, outer) := match s.outerKeys with
    | key :: outer => (key, outer)
    | [] => (s.key, [])
  return { (s.skip 1).emit t with key := key, outerKeys := outer, keyAllowed := false }

/-- A token that announces an entry or a key of a block collection, which it may open. -/
def blockMark (s : Scan) (here : Spot) (opening t : Token) (keyAllowed : Bool) : Option Scan := do
  guard (s.inFlow || s.keyAllowed)
  (s.openBlock here.column s.count opening).plainMark keyAllowed t

/-- The colon before a value. It makes a key of what may have been one. -/
def value (s : Scan) (here : Spot) : Option Scan :=
  match s.key with
  | some k =>
      let s := (s.emitAt k.position .key).openBlock k.spot.column k.position .blockMappingStart
      some { (s.skip 1).emit .value with key := none, keyAllowed := false }
  | none => s.blockMark here .blockMappingStart .value (!s.inFlow)

def anchor (s : Scan) (here : Spot) (t : List Char → Token) : Option Scan := do
  let s ← s.noteKey here
  let name ← anchorName? (s.rest.drop 1)
  return { (s.skip (name.length + 1)).emit (t name) with keyAllowed := false }

def tag (s : Scan) (here : Spot) : Option Scan := do
  let s ← s.noteKey here
  let (t, n) ← tagToken? (s.rest.map Spot.char)
  let next := charAt s.rest n
  guard (isGap next || (s.inFlow && next == ','))
  return { (s.skip n).emit t with keyAllowed := false }

def blockScalar (s : Scan) (literal : Bool) : Option Scan := do
  let s ← s.dropKey
  let (text, rest) ← Block.scalar literal s.indent (s.rest.drop 1)
  return { s.emit (.scalar (if literal then .literal else .folded) text) with
    rest := rest, keyAllowed := true }

def quotedScalar (s : Scan) (here : Spot) (single : Bool) : Option Scan := do
  let s ← s.noteKey here
  let (text, rest) ← Quoted.read single ⟨[], .none, .text⟩ (s.rest.drop 1)
  return { s.emit (.scalar (if single then .singleQuoted else .doubleQuoted) text) with
    rest := rest, keyAllowed := false }

def plainScalar (s : Scan) (here : Spot) : Option Scan := do
  let s ← s.noteKey here
  let (p, rest) ← Plain.read s.inFlow (s.indent + 1) ⟨[], .none, true⟩ s.rest
  return { s.emit (.scalar .plain p.text.reverse) with rest := rest, keyAllowed := p.gap.broken }

/-- Characters that begin something other than a plain scalar. -/
def isIndicator (c : Char) : Bool :=
  c ∈ ['-', '?', ':', ',', '[', ']', '\x7b', '\x7d', '#', '&', '*', '!', '|', '>', '\'', '"', '%',
    '@', '\x60']

/-- The token that begins at a spot. -/
def token (s : Scan) (here : Spot) : Option Scan :=
  let c := here.char
  let next := charAt s.rest 1
  if here.column == 0 && c == '%' then s.directive
  else if atDocumentMark s.rest then
    s.documentMark (if c = '-' then .documentStart else .documentEnd)
  else if c == '[' then s.openFlow here .flowSequenceStart
  else if c == '\x7b' then s.openFlow here .flowMappingStart
  else if c == ']' then s.closeFlow .flowSequenceEnd
  else if c == '\x7d' then s.closeFlow .flowMappingEnd
  else if c == ',' then s.plainMark true .flowEntry
  else if c == '-' && isGap next then s.blockMark here .blockSequenceStart .blockEntry true
  else if c == '?' && (s.inFlow || isGap next) then
    s.blockMark here .blockMappingStart .key (!s.inFlow)
  else if c == ':' && (s.inFlow || isGap next) then s.value here
  else if c == '*' then s.anchor here .alias
  else if c == '&' then s.anchor here .anchor
  else if c == '!' then s.tag here
  else if c == '|' && !s.inFlow then s.blockScalar true
  else if c == '>' && !s.inFlow then s.blockScalar false
  else if c == '\'' then s.quotedScalar here true
  else if c == '"' then s.quotedScalar here false
  else if !(isGap c || isIndicator c) || (c == '-' && !isBlank next) ||
      (!s.inFlow && (c == '?' || c == ':') && !isGap next) then s.plainScalar here
  else none

/-- What stands behind the last token: the end of all block collections. -/
def finish (s : Scan) : Option (List Token) := do
  let s ← (s.closeBlocks (-1)).dropKey
  return s.newestFirst.reverse

/-- The next token, or the end of the text. -/
def advance (s : Scan) : Option (Scan ⊕ List Token) := do
  let (keyAllowed, rest) := gap s.inFlow s.keyAllowed false s.rest
  let here ← rest.head?
  let s ← settleKeys { s with rest := rest, keyAllowed := keyAllowed } here
  let s := s.closeBlocks here.column
  if here.char = theEnd then return .inr (← s.finish) else return .inl (← s.token here)

/-- The tokens from here on, of which there are fewer than the first argument. -/
def run : Nat → Scan → Option (List Token)
  | 0, _ => none
  | bound + 1, s =>
      match s.advance with
      | some (.inl next) => run bound next
      | some (.inr tokens) => some tokens
      | none => none

end Scan

/-- The tokens of a text in order. Each takes at least one character. -/
def tokens? (text : String) : Option (List Token) :=
  (spots? text).bind fun spots => Scan.run (spots.length + 1) (Scan.start spots)

end ArtifactHarvest.Yaml
