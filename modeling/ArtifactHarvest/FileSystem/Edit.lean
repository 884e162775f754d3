import ArtifactHarvest.FileSystem.Workspace

/-!
Changes to a file system, with the checks that decide whether each can be made.
-/

namespace ArtifactHarvest

namespace FileSystem

/-- The file system with an object at a location, in place of the one that may be there. -/
def put (fs : FileSystem) (loc : Location) (o : Object) : FileSystem where
  objects := (loc, o) :: fs.objects.filter fun entry => entry.1 ≠ loc
  distinct := by
    rw [List.map_cons, List.nodup_cons]
    constructor
    · simp
    · exact fs.distinct.sublist (List.filter_sublist.map _)
  unlisted := fs.unlisted.filter (· ≠ loc)

/-- The file system without an object and all that is below it. -/
def drop (fs : FileSystem) (loc : Location) : FileSystem where
  objects := fs.objects.filter fun entry => !loc.isSuffixOf entry.1
  distinct := fs.distinct.sublist (List.filter_sublist.map _)
  unlisted := fs.unlisted.filter fun dir => !loc.isSuffixOf dir

/-- The location after what is at `old` has been moved to `new`. -/
def moved (old new loc : Location) : Location :=
  if old.isSuffixOf loc then loc.take (loc.length - old.length) ++ new else loc

/-- The file system after what is at `old` has been moved to `new`. -/
def move (fs : FileSystem) (old new : Location) : FileSystem :=
  let rest := (fs.drop old).drop new
  let placed := (fs.objects.filter fun entry => old.isSuffixOf entry.1).foldl
    (fun fs entry => fs.put (moved old new entry.1) entry.2) rest
  { placed with
    unlisted := (fs.unlisted.filter (old.isSuffixOf ·)).map (moved old new) ++ rest.unlisted }

end FileSystem

/-- How the writing of a file goes, once its path has been looked up. -/
inductive Writing where
  /-- The file is opened and takes everything. -/
  | through
  /-- The file cannot be opened for writing. -/
  | refused (fault : Fault)
  /-- The file is opened, takes so many bytes at most, and then a write fails. -/
  | brokenOff (taken : Nat) (fault : Fault)

/-- A writing that has failed, and what it leaves behind. -/
structure WriteFault where
  fault : Fault
  left : Workspace

/-- A change to a file system. -/
inductive Edit where
  /-- The directory and those on the way to it, as far as they are missing. -/
  | directories (p : Path)
  /-- A file with this content, through links where there are any. -/
  | write (p : Path) (content : Bytes)
  | link (p : Path) (target : Path)
  | pipe (p : Path)
  /-- A directory goes with all that is in it; a link goes, not what it leads to. -/
  | remove (p : Path)
  | rename (p : Path) (target : Path)

namespace Workspace

/-- Puts an object at a place where nothing is. -/
def create (w : Workspace) (p : Path) (o : Object) : Except Fault Workspace :=
  match w.find true p with
  | .error fault => .error fault
  | .ok (.object _, _) => .error .exists
  | .ok (.vacant loc, _) => .ok { w with files := w.files.put loc o }

/-- Makes a directory unless one is there. -/
def ensureDirectory (w : Workspace) (p : Path) : Except Fault Workspace :=
  match w.lookup false p with
  | .ok (_, .directory) => .ok w
  | _ => w.create p .directory

def ensureDirectories (w : Workspace) (p : Path) : Except Fault Workspace :=
  let cs := p.components
  ((List.range cs.length).map fun k => Path.ofComponents (cs.take (k + 1))).foldlM
    ensureDirectory w

/-- Puts the content in a file, as far as the writing goes. To open the file is to empty it. -/
def fill (w : Workspace) (loc : Location) (content : Bytes) :
    Writing → Except WriteFault Workspace
  | .through => .ok { w with files := w.files.put loc (.file content) }
  | .refused fault => .error ⟨fault, w⟩
  | .brokenOff taken fault =>
      .error ⟨fault, { w with files := w.files.put loc (.file (content.take taken)) }⟩

/-- Hands the content to a special file, which keeps nothing of it. -/
def pass (w : Workspace) : Writing → Except WriteFault Workspace
  | .through => .ok w
  | .refused fault | .brokenOff _ fault => .error ⟨fault, w⟩

/-- Writes a file, or makes it where nothing is. -/
def write (w : Workspace) (p : Path) (content : Bytes) (writing : Writing := .through) :
    Except WriteFault Workspace :=
  match w.find false p with
  | .error fault => .error ⟨fault, w⟩
  | .ok (.vacant loc, _) => w.fill loc content writing
  | .ok (.object loc, _) =>
      match w.files.objectAt loc with
      | some (.file _) => w.fill loc content writing
      | some .special => w.pass writing
      | some .directory => .error ⟨.isDirectory, w⟩
      | _ => .error ⟨.readFailed, w⟩

def remove (w : Workspace) (p : Path) : Except Fault Workspace :=
  match w.locate true p with
  | .error fault => .error fault
  | .ok loc =>
      .ok {
        files := w.files.drop loc
        here := w.here.filter fun here => !loc.isSuffixOf here }

/-- Moves an object. A directory may take the place of an empty one only, anything else that of
anything but a directory. -/
def rename (w : Workspace) (p target : Path) : Except Fault Workspace :=
  match w.lookup true p, w.find true target with
  | .error fault, _ => .error fault
  | _, .error fault => .error fault
  | .ok (old, o), .ok (place, _) =>
      let new := match place with | .object loc => loc | .vacant loc => loc
      let done : Workspace := {
        files := w.files.move old new
        here := w.here.map (FileSystem.moved old new) }
      if old = new then .ok w
      else if old.isSuffixOf new then .error .invalid
      else if new.isSuffixOf old then .error .notEmpty
      else
        match place, w.files.objectAt new with
        | .vacant _, _ => .ok done
        | .object _, some .directory =>
            if !o.isDirectory then .error .isDirectory
            else if w.files.entries new ≠ [] then .error .notEmpty
            else .ok done
        | .object _, _ => if o.isDirectory then .error .notDirectory else .ok done

def apply (w : Workspace) : Edit → Except Fault Workspace
  | .directories p => w.ensureDirectories p
  | .write p content => (w.write p content).mapError WriteFault.fault
  | .link p target =>
      if target.bytes = [] then .error .missing
      else if (0 : UInt8) ∈ target.bytes then .error .nulByte
      else if pathLengthLimit ≤ target.bytes.length then .error .nameTooLong
      else w.create p (.link target)
  | .pipe p => w.create p .special
  | .remove p => w.remove p
  | .rename p target => w.rename p target

end Workspace

end ArtifactHarvest
