import ArtifactHarvest.Text.Blank

/-!
The set of enabled experiments. Names are trimmed on their way in.
-/

namespace ArtifactHarvest

/-- The names of the enabled experiments, in increasing order. -/
structure Experiments where
  names : List String
deriving DecidableEq

namespace Experiments

def none : Experiments := ⟨[]⟩

/-- A list in increasing order with one more name in its place. -/
def insertSorted (name : String) : List String → List String
  | [] => [name]
  | other :: rest =>
      if name = other then other :: rest
      else if name < other then name :: other :: rest
      else other :: insertSorted name rest

/-- Adds a name as it is. -/
def insert (e : Experiments) (name : String) : Experiments := ⟨insertSorted name e.names⟩

def isEnabled (e : Experiments) (name : String) : Bool := name ∈ e.names

/-- Whether enabling a name adds it. -/
def adds (e : Experiments) (name : String) : Bool :=
  let name := Text.trimmed name
  name ≠ "" && !e.isEnabled name

/-- Whether disabling a name takes one away. -/
def removes (e : Experiments) (name : String) : Bool := e.isEnabled (Text.trimmed name)

/-- Enables a name unless it is blank. -/
def enable (e : Experiments) (name : String) : Experiments :=
  let name := Text.trimmed name
  if name = "" then e else e.insert name

def disable (e : Experiments) (name : String) : Experiments :=
  ⟨e.names.filter (· ≠ Text.trimmed name)⟩

def ofNames (names : List String) : Experiments := names.foldl enable none

/-- The set of exactly these names, without trimming. -/
def ofExact (names : List String) : Experiments := names.foldl insert none

/-- Reports paths with forward slashes only. -/
def normalisedUploadPaths : String := "normalised-upload-paths"

end Experiments

end ArtifactHarvest
