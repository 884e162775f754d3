import ArtifactHarvest.Expansion.Walk
import ArtifactHarvest.Text.Quoted

/-!
Expanding a pattern into the files it matches.
-/

namespace ArtifactHarvest

/-- Why a pattern could not be expanded. -/
inductive ExpansionFault where
  | invalid (pattern : String) (fault : GlobFault)
  | unreadable (dir : Path) (fault : Fault)
  | cancelled (pattern : String)
deriving DecidableEq

def ExpansionFault.message : ExpansionFault → String
  | .invalid pattern fault =>
      "Invalid glob pattern " ++ Text.quoted pattern ++ ": " ++ fault.message
  | .unreadable dir fault => "Failed to read directory " ++ dir.text ++ ": " ++ fault.message
  | .cancelled pattern => "Expansion of " ++ Text.quoted pattern ++ " was cancelled"

/-- The files that one pattern matches, in the order of the walk and without repeats. -/
structure Expansion where
  pattern : String
  isAbsolute : Bool
  found : List Path
deriving DecidableEq

namespace View

/-- Whether one of the steps below `p` comes upon a link. A step that leads nowhere ends the
search. -/
def meetsLink (w : Workspace) : Path → List Component → Bool
  | _, [] => false
  | p, c :: cs =>
      match w.lookup true (p.push c) with
      | .ok (_, .link _) => true
      | .ok _ => meetsLink w (p.push c) cs
      | .error _ => false

/-- Whether the base is reached from the anchor through a link that must not be followed. With no
segment left to match, the last component of the base is the file asked for, which may be a link. -/
def refusesBase (v : View) (plan : Plan) : Bool :=
  !v.followsLinks &&
    match plan.base.below? plan.anchor with
    | some below =>
        meetsLink v.workspace plan.anchor (if plan.segments = [] then below.dropLast else below)
    | none => false

/-- The branch at the base. A base whose canonical path cannot be made out is not on it. -/
def firstBranch (v : View) (base : Path) (loc : Location) : List Location :=
  if v.followsLinks && v.workspace.resolves base then [loc] else []

/-- The files that a plan leads to, repeats included. Where there are segments to match, the base
has to be a directory that can be listed, whatever the segments ask for. Cancellation is noticed
where the walk of the segments begins. -/
def carryOut (v : View) (cancelled : Bool) (pattern : String) (plan : Plan) :
    Except ExpansionFault (List Path) :=
  if v.refusesBase plan then .ok []
  else if plan.segments = [] then
    .ok (if v.classify plan.base = .file then [plan.base] else [])
  else
    match v.workspace.lookup false plan.base with
    | .ok (loc, .directory) =>
        match v.workspace.list plan.base with
        | .error fault => .error (.unreadable plan.base fault)
        | .ok _ =>
            if cancelled then .error (.cancelled pattern)
            else .ok (v.matchesBelow plan.segments plan.base (v.firstBranch plan.base loc))
    | .ok _ | .error .missing => .ok []
    | .error fault => .error (.unreadable plan.base fault)

/-- The expansion of a pattern from a collection root. Without a root only absolute patterns can be
expanded. -/
def expand (v : View) (root : Option Path) (cancelled : Bool) (pattern : String) :
    Except ExpansionFault Expansion :=
  match Pattern.plan pattern (root.getD Path.empty) with
  | .error fault => .error (.invalid pattern fault)
  | .ok plan =>
      if !plan.isAbsolute && root.isNone then
        .error (.unreadable ⟨[dot]⟩ .noWorkingDirectory)
      else
        match v.carryOut cancelled pattern plan with
        | .error fault => .error fault
        | .ok found => .ok ⟨pattern, plan.isAbsolute, Path.distinct found⟩

end View

end ArtifactHarvest
