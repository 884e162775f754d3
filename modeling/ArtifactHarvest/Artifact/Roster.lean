import ArtifactHarvest.Artifact.Basic
import Std.Data.HashSet

/-!
A roster keeps the first artifact for each reported path, in the order in which they came.
-/

namespace ArtifactHarvest

/-- The artifacts kept so far, newest first, and the paths they take. -/
structure Roster where
  taken : Std.HashSet String
  newestFirst : List Pending

namespace Roster

def empty : Roster := ⟨∅, []⟩

/-- Keeps an artifact unless its path is taken. -/
def push (r : Roster) (a : Pending) : Roster :=
  if a.path ∈ r.taken then r else ⟨r.taken.insert a.path, a :: r.newestFirst⟩

/-- Whether an artifact would be kept. -/
def admits (r : Roster) (a : Pending) : Bool :=
  a.path ∉ r.taken

def size (r : Roster) : Nat := r.newestFirst.length

def isEmpty (r : Roster) : Bool := r.newestFirst.isEmpty

/-- The kept artifacts, oldest first. -/
def toList (r : Roster) : List Pending := r.newestFirst.reverse

def ofList (artifacts : List Pending) : Roster := artifacts.foldl push empty

end Roster

end ArtifactHarvest
