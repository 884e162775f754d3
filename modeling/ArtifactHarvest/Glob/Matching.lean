import ArtifactHarvest.Glob.Basic

/-!
Deciding whether a glob stands for a name. The answer is worked out for every end of the name at
once, token by token from the right, so the work grows with the product of the two lengths.
-/

namespace ArtifactHarvest.Glob

/-- Only the empty end of a name matches the empty glob. -/
def emptyRow : List Char → List Bool
  | [] => [true]
  | _ :: cs => false :: emptyRow cs

/-- From the answers of a glob for each end of the name, the answers of that glob behind a token
that takes one character. -/
def oneRow (t : GlobToken) : List Char → List Bool → List Bool
  | [], _ => [false]
  | c :: cs, row => (t.takes c && row.tail.head?.getD false) :: oneRow t cs row.tail

/-- The answers of a glob behind `*`. -/
def runRow : List Char → List Bool → List Bool
  | [], row => [row.head?.getD false]
  | c :: cs, row =>
      let later := runRow cs row.tail
      (row.head?.getD false || (c != '/' && later.head?.getD false)) :: later

/-- The answers for the name and each of its ends, the longest first. -/
def answers (cs : List Char) : Glob → List Bool
  | [] => emptyRow cs
  | .anyRun :: g => runRow cs (answers cs g)
  | t :: g => oneRow t cs (answers cs g)

/-- Whether the glob stands for the whole name. -/
def accepts (g : Glob) (name : String) : Bool :=
  (answers name.toList g).head?.getD false

end ArtifactHarvest.Glob
