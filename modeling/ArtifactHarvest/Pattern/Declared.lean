import ArtifactHarvest.Text.Blank

/-!
The setting that declares patterns: they stand one after another with a semicolon between them.
-/

namespace ArtifactHarvest.Pattern

/-- What divides the declared patterns. -/
def delimiter : Char := ';'

/-- The declared patterns in order, trimmed. Blank ones are dropped and repeats kept. -/
def declared (text : String) : List String :=
  (((List.splitOn delimiter text.toList).map Text.trim).filter (· ≠ [])).map String.ofList

end ArtifactHarvest.Pattern
