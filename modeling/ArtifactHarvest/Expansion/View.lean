import ArtifactHarvest.FileSystem.Canonical

/-!
What the walk of a pattern sees of a file system under a policy on links, and the quantities that
bound the walk: a directory reached by name is deeper than the one it was listed in, and a branch
never enters the same directory twice.
-/

namespace ArtifactHarvest

/-- A workspace together with the policy on links to directories. -/
structure View where
  workspace : Workspace
  followsLinks : Bool

/-- What an entry means to the walk. -/
inductive EntryKind where
  /-- A regular file, or a link to one. -/
  | file
  /-- A directory that may be entered, and where it really is. -/
  | directory (loc : Location)
  | other
deriving DecidableEq

namespace View

/-- Links to files count as files under either policy; links to directories count as directories
only when links are followed. -/
def classify (v : View) (p : Path) : EntryKind :=
  match v.workspace.lookup true p with
  | .ok (loc, .directory) => .directory loc
  | .ok (_, .link _) =>
      match v.workspace.lookup false p with
      | .ok (loc, .directory) => if v.followsLinks then .directory loc else .other
      | .ok (_, o) => if o.isRegular then .file else .other
      | .error _ => .other
  | .ok (_, o) => if o.isRegular then .file else .other
  | .error _ => .other

/-- The branch after the directory that a path leads to is entered, when it may be. Where links are
followed, a directory that is on the branch is not entered again, and one whose canonical path
cannot be made out is not entered at all. -/
def enter? (v : View) (branch : List Location) (p : Path) (loc : Location) :
    Option (List Location) :=
  if v.followsLinks then
    if v.workspace.resolves p && loc ∉ branch then some (loc :: branch) else none
  else some branch

/-- The branch after the step back to the directory before. -/
def leave (v : View) (branch : List Location) : List Location :=
  if v.followsLinks then branch.tail else branch

/-- How deep the directory is that a path leads to. -/
def depth (v : View) (dir : Path) : Nat :=
  match v.workspace.locate false dir with
  | .ok loc => loc.length
  | .error _ => 0

/-- How often the walk can still go down from a directory without using up a segment. -/
def room (v : View) (dir : Path) (branch : List Location) : Nat :=
  if v.followsLinks then (v.workspace.files.directories.filter (· ∉ branch)).length
  else v.workspace.files.height - v.depth dir

end View

end ArtifactHarvest
