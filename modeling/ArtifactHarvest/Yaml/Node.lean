import ArtifactHarvest.Yaml.Scanner

/-!
The document that the tokens of a text make: a tree of nodes. Anchors are numbered, and an alias
leads to the node that last took its number.
-/

namespace ArtifactHarvest.Yaml

inductive Node where
  | scalar (anchor : Option Nat) (tag : Option Bytes) (style : ScalarStyle) (text : List Char)
  | alias (number : Nat)
  | sequence (anchor : Option Nat) (tag : Option Bytes) (items : List Node)
  | mapping (anchor : Option Nat) (tag : Option Bytes) (members : List (Node × Node))

namespace Node

/-- The node that stands for nothing written. -/
def absent : Node := .scalar none none .plain []

end Node

/-- Anchors and tags of a node. -/
structure Properties where
  anchor : Option Nat
  tag : Option Bytes

/-- How far the tokens are read, and the numbers that the anchors so far have. -/
structure Cursor where
  rest : List Token
  anchors : List (List Char × Nat)
  handles : List (List Char × Bytes)

namespace Cursor

def next (c : Cursor) : Option Token := c.rest.head?

def skip (c : Cursor) : Cursor := { c with rest := c.rest.tail }

/-- Gives an anchor its number: how many other names have one. A name that is used again moves to a
new number, which the next new name will share. -/
def define (c : Cursor) (name : List Char) : Nat × Cursor :=
  let number := c.anchors.length
  (number, { c with anchors := (name, number) :: c.anchors.filter (·.1 ≠ name) })

/-- The tag that a handle and a suffix make. -/
def resolveTag (c : Cursor) (handle : List Char) (suffix : Bytes) : Option Bytes :=
  if handle = [] then some suffix
  else (c.handles.find? (·.1 = handle)).map (·.2 ++ suffix)

/-- The anchor and the tag at the front, in either order. -/
def properties (c : Cursor) : Option (Properties × Cursor) :=
  match c.rest with
  | .anchor name :: .tag handle suffix :: rest => do
      let (number, c) := { c with rest := rest }.define name
      return (⟨some number, some (← c.resolveTag handle suffix)⟩, c)
  | .tag handle suffix :: .anchor name :: rest => do
      let (number, c) := { c with rest := rest }.define name
      return (⟨some number, some (← c.resolveTag handle suffix)⟩, c)
  | .anchor name :: rest =>
      let (number, c) := { c with rest := rest }.define name
      some (⟨some number, none⟩, c)
  | .tag handle suffix :: rest => do
      return (⟨none, some (← c.resolveTag handle suffix)⟩, { c with rest := rest })
  | _ => some (⟨none, none⟩, c)

end Cursor

/-- What may stand where a node is read. -/
inductive Position where
  | flow
  | block
  /-- Inside a block mapping, where a sequence need not be indented. -/
  | blockValue
deriving DecidableEq

mutual

/-- The node at the front. The first argument bounds the depth of the tree. -/
def readNode : Nat → Position → Cursor → Option (Node × Cursor)
  | 0, _, _ => none
  | depth + 1, position, c =>
      match c.next with
      | some (.alias name) =>
          (c.anchors.find? (·.1 = name)).map fun (_, number) => (.alias number, c.skip)
      | _ => do
          let (p, c) ← c.properties
          match c.next with
          | some (.scalar style text) =>
              some (.scalar p.anchor (p.tag.filter (· ≠ Text.Utf8.encode "!")) style text, c.skip)
          | some .flowSequenceStart => do
              let (items, c) ← readFlowItems depth true c.skip
              return (.sequence p.anchor p.tag items, c)
          | some .flowMappingStart => do
              let (members, c) ← readFlowMembers depth true c.skip
              return (.mapping p.anchor p.tag members, c)
          | token =>
              if position = .blockValue ∧ token = some .blockEntry then do
                let (items, c) ← readBlockItems depth false c
                return (.sequence p.anchor p.tag items, c)
              else if position ≠ .flow ∧ token = some .blockSequenceStart then do
                let (items, c) ← readBlockItems depth true c.skip
                return (.sequence p.anchor p.tag items, c)
              else if position ≠ .flow ∧ token = some .blockMappingStart then do
                let (members, c) ← readBlockMembers depth c.skip
                return (.mapping p.anchor p.tag members, c)
              else if p.anchor.isSome ∨ p.tag.isSome then
                some (.scalar p.anchor p.tag .plain [], c)
              else none

/-- The node at the front, or the absent one where one of the given tokens stands. -/
def readUnless : Nat → Position → List Token → Cursor → Option (Node × Cursor)
  | 0, _, _, _ => none
  | depth + 1, position, stops, c =>
      match c.next with
      | some t => if t ∈ stops then some (.absent, c) else readNode depth position c
      | none => none

/-- The entries of a block sequence. One that is indented has an end of its own. -/
def readBlockItems : Nat → Bool → Cursor → Option (List Node × Cursor)
  | 0, _, _ => none
  | depth + 1, indented, c =>
      match c.next with
      | some .blockEntry => do
          let stops : List Token :=
            if indented then [.blockEntry, .blockEnd] else [.blockEntry, .key, .value, .blockEnd]
          let (item, c) ← readUnless depth .block stops c.skip
          let (items, c) ← readBlockItems depth indented c
          return (item :: items, c)
      | some .blockEnd => some ([], if indented then c.skip else c)
      | _ => if indented then none else some ([], c)

/-- The members of a block mapping. -/
def readBlockMembers : Nat → Cursor → Option (List (Node × Node) × Cursor)
  | 0, _ => none
  | depth + 1, c =>
      match c.next with
      | some .key => do
          let stops : List Token := [.key, .value, .blockEnd]
          let (key, c) ← readUnless depth .blockValue stops c.skip
          let (value, c) ←
            if c.next = some .value then readUnless depth .blockValue stops c.skip
            else some (.absent, c)
          let (members, c) ← readBlockMembers depth c
          return ((key, value) :: members, c)
      | some .blockEnd => some ([], c.skip)
      | _ => none

/-- The entries of a flow sequence. An entry with a colon is a mapping of one member. -/
def readFlowItems : Nat → Bool → Cursor → Option (List Node × Cursor)
  | 0, _, _ => none
  | depth + 1, first, c =>
      if c.next = some .flowSequenceEnd then some ([], c.skip)
      else do
        let c ← if first then some c else if c.next = some .flowEntry then some c.skip else none
        match c.next with
        | some .flowSequenceEnd => return ([], c.skip)
        | some .key => do
            let (member, c) ← readFlowPair depth c.skip
            let (items, c) ← readFlowItems depth false c
            return (.mapping none none [member] :: items, c)
        | _ => do
            let (item, c) ← readNode depth .flow c
            let (items, c) ← readFlowItems depth false c
            return (item :: items, c)

/-- The key and value of an entry with a colon. A key that is left out takes the token in its place
with it. -/
def readFlowPair : Nat → Cursor → Option ((Node × Node) × Cursor)
  | 0, _ => none
  | depth + 1, c => do
      let stops : List Token := [.flowEntry, .flowSequenceEnd]
      let (key, c) ←
        match c.next with
        | some t =>
            if t ∈ Token.value :: stops then some (Node.absent, c.skip)
            else readNode depth .flow c
        | none => none
      let (value, c) ←
        if c.next = some .value then readUnless depth .flow stops c.skip else some (Node.absent, c)
      return ((key, value), c)

/-- The members of a flow mapping. -/
def readFlowMembers : Nat → Bool → Cursor → Option (List (Node × Node) × Cursor)
  | 0, _, _ => none
  | depth + 1, first, c =>
      if c.next = some .flowMappingEnd then some ([], c.skip)
      else do
        let c ← if first then some c else if c.next = some .flowEntry then some c.skip else none
        let stops : List Token := [.flowEntry, .flowMappingEnd]
        match c.next with
        | some .flowMappingEnd => return ([], c.skip)
        | some .key => do
            let (key, c) ← readUnless depth .flow (.value :: stops) c.skip
            let (value, c) ←
              if c.next = some .value then readUnless depth .flow stops c.skip
              else some (Node.absent, c)
            let (members, c) ← readFlowMembers depth false c
            return ((key, value) :: members, c)
        | _ => do
            let (key, c) ← readNode depth .flow c
            let (members, c) ← readFlowMembers depth false c
            return ((key, Node.absent) :: members, c)

end

/-- What a text holds: a document, or nothing at all. -/
inductive Document where
  | void
  | root (node : Node)

/-- The directives at the front: at most one version, which must be 1.1 or 1.2, and tag prefixes
with different handles. -/
def readDirectives (version : Bool) (handles : List (List Char × Bytes)) :
    List Token → Option (List (List Char × Bytes) × List Token)
  | .version major minor :: rest =>
      if version ∨ major ≠ 1 ∨ (minor ≠ 1 ∧ minor ≠ 2) then none
      else readDirectives true handles rest
  | .tagPrefix handle text :: rest =>
      if handles.any (·.1 = handle) then none
      else readDirectives version (handles ++ [(handle, text)]) rest
  | rest => some (handles, rest)

/-- The handles that are there without being declared. -/
def standardHandles : List (List Char × Bytes) :=
  [(['!'], Text.Utf8.encode "!"), (['!', '!'], Text.Utf8.encode "tag:yaml.org,2002:")]

/-- The one document that the tokens make. -/
def Document.ofTokens? (tokens : List Token) : Option Document :=
  if tokens = [] then some .void
  else do
    let (handles, rest) ← readDirectives false [] tokens
    let announced : Bool := rest.head? == some .documentStart
    guard (announced ∨ rest.length = tokens.length)
    let content := if announced then rest.tail else rest
    let isEmpty : Bool :=
      match content.head? with
      | none | some .documentStart | some .documentEnd => announced
      | some (.version ..) | some (.tagPrefix ..) => announced
      | _ => false
    let cursor : Cursor := ⟨content, [], handles ++ standardHandles⟩
    let (node, after) ←
      if isEmpty then some (Node.absent, cursor)
      else readNode (4 * content.length + 4) .block cursor
    guard (after.rest.all (· = .documentEnd))
    return .root node

/-- The document that a text holds. -/
def Document.parse? (text : String) : Option Document :=
  (tokens? text).bind ofTokens?

mutual

/-- The node that an alias with this number leads to, looking through a node in order. -/
def findAnchor (number : Nat) : Node → Option Node
  | .alias _ => none
  | .scalar anchor tag style text =>
      if anchor = some number then some (.scalar anchor tag style text) else none
  | .sequence anchor tag items =>
      (findAnchorItems number items).or
        (if anchor = some number then some (.sequence anchor tag items) else none)
  | .mapping anchor tag members =>
      (findAnchorMembers number members).or
        (if anchor = some number then some (.mapping anchor tag members) else none)

def findAnchorItems (number : Nat) : List Node → Option Node
  | [] => none
  | item :: items => (findAnchorItems number items).or (findAnchor number item)

def findAnchorMembers (number : Nat) : List (Node × Node) → Option Node
  | [] => none
  | (key, value) :: members =>
      (findAnchorMembers number members).or
        ((findAnchor number value).or (findAnchor number key))

end

end ArtifactHarvest.Yaml
