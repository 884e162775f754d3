import ArtifactHarvest.FileSystem.Workspace

/-!
The canonical path of a directory: the one without links, by which it is told from others. It cannot
always be made out, even where the directory can be looked up: what it is put together from may be
too long.
-/

namespace ArtifactHarvest

/-- Walks the runs from a directory as a look-up does, and says whether no path that the canonical
one is put together from is too long. -/
def FileSystem.resolves (fs : FileSystem) (links : Nat) (loc : Location) : List Bytes → Bool
  | [] => true
  | run :: todo =>
      if run = [dot] then fs.resolves links loc todo
      else if run = [dot, dot] then fs.resolves links loc.tail todo
      else
        match Name.ofBytes? run with
        | none => false
        | some n =>
            if pathLengthLimit ≤ (Location.path (n :: loc)).bytes.length then false
            else
              match fs.objectAt (n :: loc), links with
              | some (.link _), 0 => false
              | some (.link target), links + 1 =>
                  fs.resolves links (if target.isAbsolute then [] else loc) (target.runs ++ todo)
              | _, links => fs.resolves links (n :: loc) todo
termination_by todo => (links, todo.length)

namespace Workspace

/-- Whether the canonical path of what a path leads to can be made out. -/
def resolves (w : Workspace) (p : Path) : Bool :=
  match w.find false p, (if p.isAbsolute then some [] else w.here) with
  | .ok _, some start => w.files.resolves maxLinks start p.runs
  | _, _ => false

end Workspace

end ArtifactHarvest
