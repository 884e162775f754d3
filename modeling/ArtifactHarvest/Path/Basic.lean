import ArtifactHarvest.Text.Utf8

/-!
Paths as byte texts. A path is read through its components; joining, climbing and comparing follow
that reading, while the text itself is kept as it was written.
-/

namespace ArtifactHarvest

/-- The byte between the components of a path. -/
def slash : UInt8 := 47

/-- The byte of which the two special components are made. -/
def dot : UInt8 := 46

/-- The name of a directory entry. It is not empty, holds no slash and is neither `.` nor `..`. -/
structure Name where
  bytes : Bytes
  proper : bytes ≠ [] ∧ slash ∉ bytes ∧ bytes ≠ [dot] ∧ bytes ≠ [dot, dot]
deriving DecidableEq

namespace Name

theorem bytes_inj {a b : Name} : a.bytes = b.bytes ↔ a = b := by
  cases a; cases b; simp

def ofBytes? (bytes : Bytes) : Option Name :=
  if h : bytes ≠ [] ∧ slash ∉ bytes ∧ bytes ≠ [dot] ∧ bytes ≠ [dot, dot] then some ⟨bytes, h⟩
  else none

/-- The name as text, with U+FFFD where it is not UTF-8. -/
def text (n : Name) : String :=
  Text.Utf8.decodeLossy n.bytes

/-- The order of a listing: byte by byte. -/
def before (a b : Name) : Bool :=
  decide (a.bytes ≤ b.bytes)

end Name

/-- One step of a path. -/
inductive Component where
  /-- The leading slash of an absolute path. -/
  | root
  /-- A leading `.`. -/
  | here
  /-- `..` -/
  | up
  | name (n : Name)
deriving DecidableEq

namespace Component

/-- What a run between slashes stands for. Empty runs and `.` stand for nothing. -/
def ofRun? (run : Bytes) : Option Component :=
  if run = [dot, dot] then some .up else (Name.ofBytes? run).map .name

def bytes : Component → Bytes
  | .root => [slash]
  | .here => [dot]
  | .up => [dot, dot]
  | .name n => n.bytes

def name? : Component → Option Name
  | .name n => some n
  | _ => none

end Component

/-- A path as it is written. -/
structure Path where
  bytes : Bytes
deriving DecidableEq

namespace Path

def empty : Path := ⟨[]⟩

def ofText (text : String) : Path := ⟨Text.Utf8.encode text⟩

/-- The path as text, with U+FFFD where it is not UTF-8. -/
def text (p : Path) : String :=
  Text.Utf8.decodeLossy p.bytes

def isAbsolute (p : Path) : Bool :=
  p.bytes.head? == some slash

/-- What comes before the first run that can be taken off: a slash, a leading `.`, or nothing. -/
def lead (p : Path) : List Component :=
  if p.isAbsolute then [.root]
  else if (List.splitOn slash p.bytes).head? = some [dot] then [.here]
  else []

/-- The steps that the path takes. Repeated and trailing slashes add none, and neither does a `.`
that is not the first run. -/
def components (p : Path) : List Component :=
  p.lead ++ (List.splitOn slash p.bytes).filterMap Component.ofRun?

/-- `other` seen from `p`: an absolute path replaces it, any other is written after it. -/
def join (p other : Path) : Path :=
  if other.isAbsolute then other
  else if p.bytes = [] ∨ p.bytes.getLast? = some slash then ⟨p.bytes ++ other.bytes⟩
  else ⟨p.bytes ++ slash :: other.bytes⟩

/-- The path one name further down. -/
def child (p : Path) (n : Name) : Path :=
  p.join ⟨n.bytes⟩

def push (p : Path) (c : Component) : Path :=
  p.join ⟨c.bytes⟩

def ofComponents (cs : List Component) : Path :=
  cs.foldl push empty

/-- Whether a run between slashes stands for nothing. -/
def isIdle (run : Bytes) : Bool :=
  run == [] || run == [dot]

/-- The path without its last component, as text. A path that is a lone slash, or has no component
at all, has no parent; the parent of a lone `.` is the empty path. -/
def parent? (p : Path) : Option Path :=
  let head := p.lead.flatMap Component.bytes
  let runs := (List.splitOn slash (p.bytes.drop head.length)).reverse.dropWhile isIdle
  match runs, p.lead with
  | _ :: rest, _ => some ⟨head ++ List.intercalate [slash] (rest.dropWhile isIdle).reverse⟩
  | [], [.here] => some empty
  | [], _ => none

/-- The parent, or the path itself where it has none. -/
def up (p : Path) : Path :=
  p.parent?.getD p

def startsWith (p anchor : Path) : Bool :=
  anchor.components.isPrefixOf p.components

/-- The first path for each sequence of components, in order. Paths that differ only in slashes and
dots that stand for nothing count as one. -/
def distinct (paths : List Path) : List Path :=
  (keepFirst (paths.map fun p => (p.components, p))).map Prod.snd
where
  keepFirst : List (List Component × Path) → List (List Component × Path)
    | [] => []
    | first :: rest => first :: (keepFirst rest).filter fun later => later.1 ≠ first.1

/-- The components that follow `anchor`'s, when `p` begins with those. -/
def below? (p anchor : Path) : Option (List Component) :=
  if p.startsWith anchor then some (p.components.drop anchor.components.length) else none

end Path

end ArtifactHarvest
