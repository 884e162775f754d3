import ArtifactHarvest.Checksum

/-!
Artifacts: matched files, first without and then with their checksums.
-/

namespace ArtifactHarvest

/-- A matched file that has no checksum yet. -/
structure Pending where
  /-- The reported path, by which artifacts are told apart. -/
  path : String
  absolutePath : Path
  /-- The pattern that matched. -/
  pattern : String
deriving DecidableEq

/-- A matched file as it is reported. -/
structure Descriptor where
  path : String
  absolutePath : String
  pattern : String
  size : UInt64
  sha1 : String
  sha256 : String
deriving DecidableEq

namespace Pending

def describe (a : Pending) (c : Checksum) : Descriptor :=
  ⟨a.path, a.absolutePath.text, a.pattern, c.size, c.sha1, c.sha256⟩

end Pending

end ArtifactHarvest
