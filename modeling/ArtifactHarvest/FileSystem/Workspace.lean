import ArtifactHarvest.FileSystem.Lookup

/-!
A file system seen from a working directory.

A directory is listed as a whole or not at all. No entry of a listing fails by itself.
-/

namespace ArtifactHarvest

/-- A file system and the working directory, which may have been removed. -/
structure Workspace where
  files : FileSystem
  here : Option Location

namespace Location

/-- The absolute path of a location. -/
def path (loc : Location) : Path :=
  ⟨slash :: List.intercalate [slash] (loc.reverse.map Name.bytes)⟩

end Location

namespace Workspace

/-- The place that a path leads to, and the links that could still be followed. A path with a NUL
byte is refused before anything is looked up. -/
def find (w : Workspace) (keepLast : Bool) (p : Path) : Except Fault (Place × Nat) :=
  if (0 : UInt8) ∈ p.bytes then .error .nulByte
  else if p.bytes = [] then .error .missing
  else if pathLengthLimit ≤ p.bytes.length then .error .nameTooLong
  else if p.isAbsolute then w.files.walk keepLast maxLinks [] p.runs
  else
    match w.here with
    | none => .error .missing
    | some loc => w.files.walk keepLast maxLinks loc p.runs

/-- The location of the object that a path leads to. -/
def locate (w : Workspace) (keepLast : Bool) (p : Path) : Except Fault Location :=
  match w.find keepLast p with
  | .ok (.object loc, _) => .ok loc
  | .ok (.vacant _, _) => .error .missing
  | .error fault => .error fault

/-- The object that a path leads to, with its location. -/
def lookup (w : Workspace) (keepLast : Bool) (p : Path) : Except Fault (Location × Object) :=
  match w.locate keepLast p with
  | .ok loc =>
      match w.files.objectAt loc with
      | some o => .ok (loc, o)
      | none => .error .missing
  | .error fault => .error fault

/-- The names in the directory that a path leads to, sorted. -/
def list (w : Workspace) (dir : Path) : Except Fault (List Name) :=
  match w.lookup false dir with
  | .ok (loc, .directory) =>
      if w.files.unlisted.contains loc then .error .denied else .ok (w.files.entries loc)
  | .ok _ => .error .notDirectory
  | .error fault => .error fault

/-- The names that a walk finds in a directory. One that cannot be listed is passed over. -/
def entries (w : Workspace) (dir : Path) : List Name :=
  match w.list dir with
  | .ok names => names
  | .error _ => []

def currentDirectory (w : Workspace) : Except Fault Path :=
  match w.here with
  | some loc => .ok loc.path
  | none => .error .missing

/-- All bytes of the file that a path leads to. -/
def read (w : Workspace) (p : Path) : Except Fault Bytes :=
  match w.lookup false p with
  | .error fault => .error fault
  | .ok (_, .file content) => .ok content
  | .ok (_, .special) => .ok []
  | .ok (_, .directory) => .error .isDirectory
  | .ok (_, _) => .error .readFailed

end Workspace

end ArtifactHarvest
