import ArtifactHarvest.Path.Basic

/-!
A finite file system: objects at locations below one root directory, and the ways in which an
operation on it can fail.

Whether a directory may be listed and whether a file can be read to its end is part of the picture.
How the writing of a file goes is said where it is written. Whether a directory may be passed and a
file opened at all is left out: what a path leads to can be looked up. So are owners, modes and
times, hard links, mount points, and what changes while a run goes on.
-/

namespace ArtifactHarvest

/-- Where an object is: the names that lead to it from the root, innermost first. -/
abbrev Location := List Name

inductive Object where
  | directory
  | file (content : Bytes)
  /-- A regular file that opens and hands out some bytes, but then a read fails, as each write
  does. -/
  | unreadable (given : Bytes)
  | link (target : Path)
  /-- Neither a regular file, a directory nor a link: a pipe, a socket or a device. -/
  | special
deriving DecidableEq

namespace Object

def isRegular : Object → Bool
  | .file _ | .unreadable _ => true
  | _ => false

def isDirectory : Object → Bool
  | .directory => true
  | _ => false

end Object

/-- Why an operation failed. -/
inductive Fault where
  | missing
  | readFailed
  | denied
  | exists
  | notDirectory
  | isDirectory
  | notEmpty
  | nameTooLong
  | linkLoop
  | nulByte
  | invalid
  | notRegular
  | noWorkingDirectory
  /-- A failure that some reader reports in its own words. -/
  | other (text : String)
deriving DecidableEq

def Fault.message : Fault → String
  | .missing => "No such file or directory (os error 2)"
  | .readFailed => "Input/output error (os error 5)"
  | .denied => "Permission denied (os error 13)"
  | .exists => "File exists (os error 17)"
  | .notDirectory => "Not a directory (os error 20)"
  | .isDirectory => "Is a directory (os error 21)"
  | .notEmpty => "Directory not empty (os error 39)"
  | .nameTooLong => "File name too long (os error 36)"
  | .linkLoop => "Too many levels of symbolic links (os error 40)"
  | .nulByte => "file name contained an unexpected NUL byte"
  | .invalid => "Invalid argument (os error 22)"
  | .notRegular => "not a regular file"
  | .noWorkingDirectory => "working directory is unavailable"
  | .other text => text

/-- The objects of a file system. The root directory is always there and is not listed. -/
structure FileSystem where
  objects : List (Location × Object)
  distinct : (objects.map Prod.fst).Nodup
  /-- The directories that cannot be listed. What is in them can still be asked for by name. -/
  unlisted : List Location := []

namespace FileSystem

def empty : FileSystem := ⟨[], .nil, []⟩

def objectAt (fs : FileSystem) (loc : Location) : Option Object :=
  if loc = [] then some .directory
  else (fs.objects.find? fun entry => entry.1 = loc).map Prod.snd

/-- The names of what is in a directory, sorted. -/
def entries (fs : FileSystem) (dir : Location) : List Name :=
  (fs.objects.filterMap fun entry =>
    match entry.1 with
    | n :: outer => if outer = dir then some n else none
    | [] => none).mergeSort Name.before

/-- The locations of all directories. -/
def directories (fs : FileSystem) : List Location :=
  [] :: (fs.objects.filter (·.2.isDirectory)).map Prod.fst

/-- No object is deeper than this. -/
def height (fs : FileSystem) : Nat :=
  (fs.objects.map (·.1.length)).foldr max 0

theorem mem_objects_of_objectAt {fs : FileSystem} {loc : Location} {o : Object}
    (hloc : loc ≠ []) (h : fs.objectAt loc = some o) : (loc, o) ∈ fs.objects := by
  simp only [objectAt, hloc, if_false, Option.map_eq_some_iff] at h
  obtain ⟨entry, hfind, rfl⟩ := h
  have hsame : entry.1 = loc := by simpa using List.find?_some hfind
  exact hsame ▸ List.mem_of_find?_eq_some hfind

theorem mem_directories {fs : FileSystem} {loc : Location}
    (h : fs.objectAt loc = some .directory) : loc ∈ fs.directories := by
  by_cases hloc : loc = []
  · simp [directories, hloc]
  · refine List.mem_cons_of_mem _ (List.mem_map.mpr ⟨(loc, .directory), ?_, rfl⟩)
    exact List.mem_filter.mpr ⟨mem_objects_of_objectAt hloc h, rfl⟩

theorem length_le_height {fs : FileSystem} {loc : Location} {o : Object}
    (h : fs.objectAt loc = some o) : loc.length ≤ fs.height := by
  by_cases hloc : loc = []
  · simp [hloc]
  · have bound : ∀ (ns : List Nat) (n : Nat), n ∈ ns → n ≤ ns.foldr max 0 := by
      intro ns n hn
      induction ns with
      | nil => cases hn
      | cons m ns ih =>
          rcases List.mem_cons.mp hn with rfl | hn
          · exact Nat.le_max_left _ _
          · exact Nat.le_trans (ih hn) (Nat.le_max_right _ _)
    exact bound _ _ (List.mem_map.mpr ⟨_, mem_objects_of_objectAt hloc h, rfl⟩)

end FileSystem

end ArtifactHarvest
