import ArtifactHarvest.Glob.Reading
import ArtifactHarvest.Path.Basic

/-!
A pattern split into the directory where the walk starts and the segments still to be matched
below it. The components before the first one that has to be matched are folded into the start.
-/

namespace ArtifactHarvest

/-- One component of a pattern. -/
inductive Segment where
  /-- Matches the one entry of that name. -/
  | named (n : Name)
  /-- Matches the entries that the glob stands for. -/
  | matching (g : Glob)
  /-- `**`, any number of levels. -/
  | anyDepth
  /-- `..`, back to the directory that the one before was reached from. -/
  | parent
deriving DecidableEq

namespace Segment

/-- Whether the walk can be told where to go without looking at any entry. -/
def isFixed : Segment → Bool
  | .named _ | .parent => true
  | .matching _ | .anyDepth => false

/-- What a component of a pattern asks for. A leading slash or `.` asks for nothing. -/
def ofComponent : Component → Except GlobFault (Option Segment)
  | .root | .here => .ok none
  | .up => .ok (some .parent)
  | .name n =>
      if n.text = "**" then .ok (some .anyDepth)
      else if Glob.isMeant n.text then (Glob.read n.text).map fun g => some (.matching g)
      else .ok (some (.named n))

end Segment

/-- The start of a walk. `anchor` is where the start was reached from: between the two the policy
on links holds as it does below. -/
structure Start where
  base : Path
  anchor : Path
deriving DecidableEq

namespace Start

/-- One fixed segment further. A climb out of the anchor takes the anchor along. -/
def follow (s : Start) : Segment → Start
  | .named n => { s with base := s.base.child n }
  | .parent =>
      let base := s.base.up
      ⟨base, if base.startsWith s.anchor then s.anchor else base⟩
  | .matching _ | .anyDepth => s

end Start

/-- What is left to do for a pattern once its fixed beginning is followed. -/
structure Plan extends Start where
  isAbsolute : Bool
  segments : List Segment

namespace Pattern

/-- All segments of a pattern, fixed or not; the first fault from the left counts. -/
def segments (text : String) : Except GlobFault (List Segment) :=
  ((Path.ofText text).components.mapM Segment.ofComponent).map (·.filterMap id)

/-- The plan for a pattern, seen from the collection root. An absolute pattern starts at `/` and is
its own anchor. -/
def plan (text : String) (root : Path) : Except GlobFault Plan := do
  let isAbsolute := (Path.ofText text).isAbsolute
  let all ← segments text
  let origin : Path := if isAbsolute then ⟨[slash]⟩ else root
  let start := (all.takeWhile Segment.isFixed).foldl Start.follow ⟨origin, origin⟩
  return {
    base := start.base
    anchor := if isAbsolute then start.base else start.anchor
    isAbsolute := isAbsolute
    segments := all.dropWhile Segment.isFixed }

end Pattern

end ArtifactHarvest
