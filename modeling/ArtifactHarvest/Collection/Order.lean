import ArtifactHarvest.FileSystem.Workspace
import ArtifactHarvest.Log.Record

/-!
What is to be collected, and the ways in which a collection fails.
-/

namespace ArtifactHarvest

/-- What happens to a matched file that cannot be read. -/
inductive ReadErrorPolicy where
  /-- The whole collection fails. -/
  | abort
  /-- The file is left out, with a warning. -/
  | skip
deriving DecidableEq

/-- What is to be collected. -/
structure Order where
  /-- The declared patterns, with semicolons between them. -/
  paths : String
  followsLinks : Bool
  /-- Where relative patterns start; the working directory when it is not given. -/
  root : Option Path
  onReadError : ReadErrorPolicy
deriving DecidableEq

namespace Order

def default : Order := ⟨"", false, none, .abort⟩

/-- The collection root. A relative one is taken from the working directory. -/
def resolveRoot (o : Order) (w : Workspace) : Except Fault Path :=
  match o.root with
  | some root => if root.isAbsolute then .ok root else w.currentDirectory.map (·.join root)
  | none => w.currentDirectory

end Order

/-- Why a collection failed. -/
inductive CollectionFault where
  | unreadable (file : Path) (fault : Fault)
  | cancelled
deriving DecidableEq

namespace CollectionFault

def message : CollectionFault → String
  | .unreadable file fault => "Failed to read file " ++ file.text ++ ": " ++ fault.message
  | .cancelled => "Artifact collection was cancelled"

/-- Whether a file could not be read. -/
def isUnreadable : CollectionFault → Bool
  | .unreadable .. => true
  | .cancelled => false

end CollectionFault

/-- An outcome together with the records that were logged on the way. -/
structure Logged (α : Type) where
  log : List Log.Record
  outcome : Except CollectionFault α

end ArtifactHarvest
