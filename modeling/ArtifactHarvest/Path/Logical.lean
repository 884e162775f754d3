import ArtifactHarvest.Path.Lexical

/-!
The path under which a matched file is reported, and how it is written.
-/

namespace ArtifactHarvest.Path

/-- The reported path of a match. A match of an absolute pattern keeps its whole path without the
leading slash; any other is given relative to the collection root, or as it is without one. -/
def logical (found : Path) (root : Option Path) (isAbsolute : Bool) : Path :=
  if isAbsolute then found.clean.stripRoot
  else (root.bind found.relativeTo?).getD found.clean

/-- The path written as it stands. -/
def native (p : Path) : String :=
  p.text

/-- The components with a slash between each two. The leading slash is a component itself. -/
def forward (p : Path) : String :=
  "/".intercalate (p.components.map fun c => Text.Utf8.decodeLossy c.bytes)

/-- The text of a reported path, in the form that `useForward` asks for. -/
def normalized (p : Path) (useForward : Bool) : String :=
  if useForward then p.forward else p.native

end ArtifactHarvest.Path
