import ArtifactHarvest.Path.Basic

/-!
Cleaning a path without looking at any directory: `.` vanishes and `..` takes back the name before
it. The clean form is a type of its own, so it is normal by construction.
-/

namespace ArtifactHarvest

/-- A path in clean form: some climbs, only where it does not begin at the root, then names. The
names stand innermost first. -/
structure Route where
  rooted : Bool
  climbs : Nat
  names : List Name
  grounded : rooted = true → climbs = 0
deriving DecidableEq

namespace Route

def start : Route := ⟨false, 0, [], by simp⟩

def ground : Route := ⟨true, 0, [], fun _ => rfl⟩

/-- A climb takes back the last name. With no name left it stays at the root, or climbs out. -/
def climb (r : Route) : Route :=
  match r.names with
  | _ :: outer => { r with names := outer }
  | [] =>
      if h : r.rooted = true then r
      else { r with climbs := r.climbs + 1, grounded := fun g => absurd g h }

def step (r : Route) : Component → Route
  | .root => ground
  | .here => r
  | .up => r.climb
  | .name n => { r with names := n :: r.names }

def components (r : Route) : List Component :=
  (if r.rooted then [Component.root] else []) ++ List.replicate r.climbs .up ++
    r.names.reverse.map .name

def toPath (r : Route) : Path :=
  Path.ofComponents r.components

end Route

namespace Path

def route (p : Path) : Route :=
  p.components.foldl Route.step Route.start

/-- The path in clean form. -/
def clean (p : Path) : Path :=
  p.route.toPath

/-- The path without its leading slash, rebuilt from its components. -/
def stripRoot (p : Path) : Path :=
  ofComponents (p.components.filter (· ≠ .root))

/-- What is left of two sequences after their longest common beginning. -/
def dropCommon {α : Type} [DecidableEq α] : List α → List α → List α × List α
  | x :: xs, y :: ys => if x = y then dropCommon xs ys else (x :: xs, y :: ys)
  | xs, ys => (xs, ys)

/-- The clean way from `base` to `p`: climb out of what only `base` has, then go down. There is
none when just one of the two begins at the root. -/
def relativeTo? (p base : Path) : Option Path :=
  if p.route.rooted = base.route.rooted then
    let (down, out) := dropCommon p.route.components base.route.components
    some (ofComponents (List.replicate out.length .up ++ down))
  else none

end Path

end ArtifactHarvest
