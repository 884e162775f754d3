import ArtifactHarvest.FileSystem.Edit
import ArtifactHarvest.Summary

/-!
Writing a summary to a file.
-/

namespace ArtifactHarvest.Summary

/-- A summary could not be written, and what is left behind. -/
structure SaveFault where
  file : Path
  fault : Fault
  left : Workspace

def SaveFault.message (e : SaveFault) : String :=
  "Failed to write summary to " ++ e.file.text

/-- The workspace with the summary in the file that a path leads to. -/
def save (s : Summary) (w : Workspace) (p : Path) (writing : Writing := .through) :
    Except SaveFault Workspace :=
  match w.write p (Text.Utf8.encode s.text) writing with
  | .ok w => .ok w
  | .error e => .error ⟨p, e.fault, e.left⟩

end ArtifactHarvest.Summary
