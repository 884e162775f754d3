import ArtifactHarvest.FileSystem.Basic

/-!
Finding what a path leads to. Links are followed, at most forty on one path; the last run of a path
may also name a link itself, or a place where nothing is yet. The main statement `walk_append` says
that a longer way is walked by walking its beginning and going on from there.
-/

namespace ArtifactHarvest

/-- The longest name of an entry, in bytes. -/
def maxNameLength : Nat := 255

/-- A path of this many bytes is too long. -/
def pathLengthLimit : Nat := 4096

/-- How many links may be followed on one path. -/
def maxLinks : Nat := 40

namespace Path

/-- The runs between slashes that are not empty. -/
def names (p : Path) : List Bytes :=
  (List.splitOn slash p.bytes).filter (· ≠ [])

/-- The runs that a look-up goes through. A trailing slash asks for a directory, as `.` does. -/
def runs (p : Path) : List Bytes :=
  p.names ++ (if p.bytes.getLast? = some slash then [[dot]] else [])

theorem names_child (p : Path) (n : Name) : (p.child n).names = p.names ++ [n.bytes] := by
  obtain ⟨hne, hslash, _, _⟩ := n.proper
  have hrel : Path.isAbsolute ⟨n.bytes⟩ = false := by
    cases hn : n.bytes with
    | nil => exact absurd hn hne
    | cons b rest =>
        have : b ≠ slash := fun e => hslash (by rw [hn, e]; exact List.mem_cons_self)
        simpa [isAbsolute] using this
  have hlast : (List.splitOn slash n.bytes).filter (· ≠ []) = [n.bytes] := by
    rw [List.splitOn_eq_singleton hslash]; simp [hne]
  simp only [child, join, hrel, Bool.false_eq_true, if_false, names]
  split
  · rename_i h
    rcases h with h | h
    · rw [h, List.nil_append, hlast]; simp
    · obtain ⟨front, hf⟩ := List.getLast?_eq_some_iff.mp h
      simp only [hf, List.append_assoc, List.singleton_append, List.splitOn_append_cons_self,
        List.filter_append, hlast, List.splitOn_nil]
      simp
  · simp only [List.splitOn_append_cons_self, List.filter_append, hlast]

theorem runs_child (p : Path) (n : Name) : (p.child n).runs = p.names ++ [n.bytes] := by
  obtain ⟨hne, hslash, _, _⟩ := n.proper
  have hn : n.bytes.getLast? ≠ some slash := fun e => hslash (List.mem_of_getLast? e)
  have hend : ∀ front : Bytes, (front ++ n.bytes).getLast? = n.bytes.getLast? := by
    intro front
    rw [List.getLast?_append]
    cases h : n.bytes.getLast? with
    | none => exact absurd (List.getLast?_eq_none_iff.mp h) hne
    | some b => rfl
  have hlast : (p.child n).bytes.getLast? ≠ some slash := by
    simp only [child, join]
    split
    · exact hn
    · split
      · simpa only [hend] using hn
      · have := hend (p.bytes ++ [slash])
        rw [List.append_assoc, List.singleton_append] at this
        rw [this]; exact hn
  simp only [runs, hlast, if_false, List.append_nil, names_child]

end Path

/-- What a path leads to: an object, or a place in a directory where nothing is. -/
inductive Place where
  | object (loc : Location)
  | vacant (loc : Location)
deriving DecidableEq

namespace FileSystem

/-- Walks the runs from a directory, with so many links left to follow. A link in last position is
the object found when `keepLast` says so. The links left over are given back. -/
def walk (fs : FileSystem) (keepLast : Bool) (links : Nat) (loc : Location) :
    List Bytes → Except Fault (Place × Nat)
  | [] => .ok (.object loc, links)
  | run :: todo =>
      match fs.objectAt loc with
      | none => .error .missing
      | some .directory =>
          if run = [dot] then fs.walk keepLast links loc todo
          else if run = [dot, dot] then fs.walk keepLast links loc.tail todo
          else
            match Name.ofBytes? run with
            | none => .error .missing
            | some n =>
                if n.bytes.length > maxNameLength then .error .nameTooLong
                else
                  match fs.objectAt (n :: loc) with
                  | none => if todo = [] then .ok (.vacant (n :: loc), links) else .error .missing
                  | some (.link target) =>
                      if todo = [] ∧ keepLast = true then .ok (.object (n :: loc), links)
                      else
                        match links with
                        | 0 => .error .linkLoop
                        | links + 1 =>
                            fs.walk keepLast links (if target.isAbsolute then [] else loc)
                              (target.runs ++ todo)
                  | some _ => fs.walk keepLast links (n :: loc) todo
      | some _ => .error .notDirectory
termination_by todo => (links, todo.length)

theorem walk_append (fs : FileSystem) (keepLast : Bool) (run : Bytes) (more : List Bytes)
    (links : Nat) (loc : Location) (todo : List Bytes) :
    fs.walk keepLast links loc (todo ++ run :: more) =
      match fs.walk false links loc todo with
      | .ok (.object dir, left) => fs.walk keepLast left dir (run :: more)
      | .ok (.vacant _, _) => .error .missing
      | .error fault => .error fault := by
  fun_induction fs.walk false links loc todo with
  | case1 => rfl
  | case2 links loc first todo h => simp [walk, h]
  | case3 links loc todo h ih =>
      rw [List.cons_append, walk]
      simp only [h, if_true, ih]
  | case4 links loc todo h hd ih =>
      rw [List.cons_append, walk]
      simp only [h, hd, if_true, if_false, ih]
  | case5 links loc first todo h hd hu hn => simp [walk, h, hd, hu, hn]
  | case6 links loc first todo h hd hu n hn hlen => simp [walk, h, hd, hu, hn, hlen]
  | case7 links loc first h hd hu n hn hlen ho => simp [walk, h, hd, hu, hn, hlen, ho]
  | case8 links loc first todo h hd hu n hn hlen ho ht => simp [walk, h, hd, hu, hn, hlen, ho]
  | case9 links loc first todo h hd hu n hn hlen target ho hk => simp at hk
  | case10 loc first todo h hd hu n hn hlen target ho hk => simp [walk, h, hd, hu, hn, hlen, ho]
  | case11 loc first todo h hd hu n hn hlen target ho links hk ih =>
      rw [List.cons_append, walk]
      simp only [h, hd, hu, hn, hlen, ho, if_false]
      rw [← List.append_assoc]
      simpa using ih
  | case12 links loc first todo h hd hu n hn hlen o ho hl ih =>
      rw [List.cons_append, walk]
      simp only [h, hd, hu, hn, hlen, if_false]
      split
      · simp_all
      · rename_i target heq
        rw [hl] at heq
        exact absurd (Option.some.inj heq) (ho target)
      · exact ih
  | case13 links loc first todo o h hd =>
      rw [List.cons_append, walk]
      cases o <;> simp_all

end FileSystem

end ArtifactHarvest
