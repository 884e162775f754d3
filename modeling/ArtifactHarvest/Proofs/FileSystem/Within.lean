import ArtifactHarvest.Proofs.FileSystem.Resolution

/-!
The part of a file system that is below one directory. A way that never leaves it leads to the same
place in every file system that has it (`FileSystem.walk_of_tree`), whatever is around it. More
links left to follow make a difference only where the fewer ran out (`Tree.walk_add`).
-/

namespace ArtifactHarvest

/-- The objects below a directory, under their locations seen from there. -/
abbrev Tree := Location → Option Object

/-- What is below a directory. -/
def FileSystem.treeAt (fs : FileSystem) (top : Location) : Tree :=
  fun inner => fs.objectAt (inner ++ top)

/-- A place in a tree, seen from the root directory. -/
def Place.under (top : Location) : Place → Place
  | .object inner => .object (inner ++ top)
  | .vacant inner => .vacant (inner ++ top)

namespace Tree

/-- Walks the runs as `FileSystem.walk` does, knowing of the tree alone. There is no outcome when
the way leaves the tree: by a climb from its top, or by a link with an absolute target. -/
def walk (t : Tree) (keepLast : Bool) (links : Nat) (inner : Location) :
    List Bytes → Option (Except Fault (Place × Nat))
  | [] => some (.ok (.object inner, links))
  | run :: todo =>
      match t inner with
      | none => some (.error .missing)
      | some .directory =>
          if run = [dot] then t.walk keepLast links inner todo
          else if run = [dot, dot] then
            if inner = [] then none else t.walk keepLast links inner.tail todo
          else
            match Name.ofBytes? run with
            | none => some (.error .missing)
            | some n =>
                if n.bytes.length > maxNameLength then some (.error .nameTooLong)
                else
                  match t (n :: inner) with
                  | none =>
                      if todo = [] then some (.ok (.vacant (n :: inner), links))
                      else some (.error .missing)
                  | some (.link target) =>
                      if todo = [] ∧ keepLast = true then some (.ok (.object (n :: inner), links))
                      else
                        match links with
                        | 0 => some (.error .linkLoop)
                        | links + 1 =>
                            if target.isAbsolute then none
                            else t.walk keepLast links inner (target.runs ++ todo)
                  | some _ => t.walk keepLast links (n :: inner) todo
      | some _ => some (.error .notDirectory)
termination_by todo => (links, todo.length)

variable {t : Tree}

theorem walk_append (t : Tree) (keepLast : Bool) (run : Bytes) (more : List Bytes)
    (links : Nat) (inner : Location) (todo : List Bytes) :
    t.walk keepLast links inner (todo ++ run :: more) =
      match t.walk false links inner todo with
      | some (.ok (.object dir, left)) => t.walk keepLast left dir (run :: more)
      | some (.ok (.vacant _, _)) => some (.error .missing)
      | some (.error fault) => some (.error fault)
      | none => none := by
  fun_induction t.walk false links inner todo with
  | case1 => rfl
  | case10 links inner first todo hdir hd hu n hn hlen target hlink hkeep => cases hkeep.2
  | case13 inner first todo hdir hd hu n hn hlen target hlink hkeep links habs ih =>
      rw [List.cons_append, walk]
      simp only [hdir, hd, hu, hn, hlen, hlink, habs, if_false]
      rw [← List.append_assoc]
      simpa using ih
  | _ => simp [walk, *]

/-- More links to follow make no difference, unless the fewer run out. -/
theorem walk_add (t : Tree) (keepLast : Bool) (more links : Nat) (inner : Location)
    (runs : List Bytes) :
    t.walk keepLast links inner runs = some (.error .linkLoop) ∨
      t.walk keepLast (links + more) inner runs =
        (t.walk keepLast links inner runs).map (Except.map (Prod.map id (· + more))) := by
  fun_induction t.walk keepLast links inner runs with
  | case1 => exact .inr (by simp [walk, Except.map])
  | case11 => exact .inl rfl
  | case12 inner first todo hdir hd hu n hn hlen target hlink hkeep links habs =>
      refine .inr ?_
      rw [Nat.succ_add, walk]
      simp [hdir, hd, hu, hn, hlen, hlink, hkeep, habs]
  | case13 inner first todo hdir hd hu n hn hlen target hlink hkeep links habs ih =>
      rw [Nat.succ_add, walk]
      simp only [hdir, hd, hu, hn, hlen, hlink, hkeep, habs, if_false]
      exact ih
  | case14 links inner first todo hdir hd hu n hn hlen o ho hobj ih =>
      rw [walk]
      simpa [hdir, hd, hu, hn, hlen, hobj] using ih
  | _ => simp_all [walk, Except.map]

/-- With other links left to follow, a way that is walked to its end is walked to the same end,
unless they run out. -/
theorem walk_of_links {keepLast : Bool} {links left : Nat} {inner : Location} {runs : List Bytes}
    {place : Place} (h : t.walk keepLast links inner runs = some (.ok (place, left)))
    (other : Nat) :
    t.walk keepLast other inner runs = some (.error .linkLoop) ∨
      ∃ left', t.walk keepLast other inner runs = some (.ok (place, left')) := by
  rcases Nat.le_total links other with hle | hle
  · obtain ⟨d, rfl⟩ := Nat.exists_eq_add_of_le hle
    rcases t.walk_add keepLast d links inner runs with hloop | hsame
    · rw [hloop] at h
      cases h
    · rw [h] at hsame
      exact .inr ⟨_, hsame⟩
  · obtain ⟨d, rfl⟩ := Nat.exists_eq_add_of_le hle
    refine (t.walk_add keepLast d other inner runs).imp_right fun hsame => ?_
    rw [h, eq_comm, Option.map_eq_some_iff] at hsame
    obtain ⟨outcome, houtcome, hmap⟩ := hsame
    cases outcome with
    | error fault => cases hmap
    | ok found =>
        cases hmap
        exact ⟨_, houtcome⟩

end Tree

namespace FileSystem

theorem left_le_of_walk {fs : FileSystem} {keepLast : Bool} {links left : Nat} {loc : Location}
    {runs : List Bytes} {place : Place} (h : fs.walk keepLast links loc runs = .ok (place, left)) :
    left ≤ links := by
  fun_induction fs.walk keepLast links loc runs with
  | case11 loc first todo hdir hd hu n hn hlen target hlink links hkeep ih =>
      exact Nat.le_succ_of_le (ih h)
  | _ => simp_all

/-- A way that does not leave the tree is the same where the tree stands. -/
theorem walk_of_tree {fs : FileSystem} {top : Location} {keepLast : Bool} {links : Nat}
    {inner : Location} {runs : List Bytes} {outcome : Except Fault (Place × Nat)}
    (h : (fs.treeAt top).walk keepLast links inner runs = some outcome) :
    fs.walk keepLast links (inner ++ top) runs = outcome.map (Prod.map (Place.under top) id) := by
  generalize ht : fs.treeAt top = t at h
  have hat : ∀ inner, fs.objectAt (inner ++ top) = t inner := fun inner => ht ▸ rfl
  have hbelow : ∀ n inner, fs.objectAt (n :: (inner ++ top)) = t (n :: inner) :=
    fun n inner => hat (n :: inner)
  fun_induction t.walk keepLast links inner runs with
  | case3 links inner todo hdir ih =>
      rw [walk]
      simpa [hat, hdir] using ih h
  | case4 | case12 => cases h
  | case5 links inner todo hdir hinner hup ih =>
      obtain ⟨n, outer, rfl⟩ := List.exists_cons_of_ne_nil hinner
      rw [walk]
      simpa [hat, hbelow, hdir] using ih h
  | case13 inner first todo hdir hd hu n hn hlen target hlink hkeep links habs ih =>
      rw [walk]
      simpa [hat, hbelow, hdir, hd, hu, hn, hlen, hlink, hkeep, habs] using ih h
  | case14 links inner first todo hdir hd hu n hn hlen o ho hobj ih =>
      rw [walk]
      simpa [hat, hbelow, hdir, hd, hu, hn, hlen, hobj] using ih h
  | _ =>
      cases h
      simp [walk, Place.under, Except.map, *]

end FileSystem

namespace Tree

variable {t : Tree}

/-- No link leads out of the tree: the way by its name, from the directory that holds it, stays in
the tree, wherever it ends. -/
def Enclosed (t : Tree) : Prop :=
  ∀ n inner target, t (n :: inner) = some (.link target) →
    t.walk false maxLinks inner [n.bytes] ≠ none

/-- With fewer links to follow, no way leaves the tree that does not leave it with more. -/
theorem walk_ne_none_of_le {keepLast : Bool} {links more : Nat} {inner : Location}
    {runs : List Bytes} (hlinks : links ≤ more) (h : t.walk keepLast more inner runs ≠ none) :
    t.walk keepLast links inner runs ≠ none := by
  obtain ⟨d, rfl⟩ := Nat.exists_eq_add_of_le hlinks
  intro hnone
  rcases t.walk_add keepLast d links inner runs with hloop | hsame
  · rw [hnone] at hloop
    cases hloop
  · rw [hnone] at hsame
    exact h hsame

theorem walk_name_ne_none (h : t.Enclosed) {keepLast : Bool} {links : Nat}
    (hlinks : links ≤ maxLinks) (inner : Location) (n : Name) :
    t.walk keepLast links inner [n.bytes] ≠ none := by
  obtain ⟨_, _, hdot, hup⟩ := n.proper
  by_cases hlink : keepLast = false ∧ ∃ target, t (n :: inner) = some (.link target)
  · obtain ⟨rfl, target, htarget⟩ := hlink
    exact walk_ne_none_of_le hlinks (h n inner target htarget)
  · rw [walk]
    simp only [hdot, hup, if_false, Name.ofBytes?_bytes]
    split
    · nofun
    · split
      · nofun
      · split
        · nofun
        · simp_all
        · simp [walk]
    · nofun

/-- No way by names leaves an enclosed tree. -/
theorem walk_names_ne_none {fs : FileSystem} {top : Location} (h : (fs.treeAt top).Enclosed)
    {keepLast : Bool} {links : Nat} (hlinks : links ≤ maxLinks) (inner : Location)
    (names : List Name) :
    (fs.treeAt top).walk keepLast links inner (names.map Name.bytes) ≠ none := by
  induction names generalizing links inner with
  | nil => simp [walk]
  | cons n names ih =>
      cases names with
      | nil => exact walk_name_ne_none h hlinks inner n
      | cons next more =>
          have hfirst : (fs.treeAt top).walk false links inner [n.bytes] ≠ none :=
            walk_name_ne_none h hlinks inner n
          rw [List.map_cons, List.map_cons, ← List.singleton_append, walk_append]
          split
          · rename_i dir left hdir
            have hleft : left ≤ links := FileSystem.left_le_of_walk (FileSystem.walk_of_tree hdir)
            exact ih (Nat.le_trans hleft hlinks) dir
          · nofun
          · nofun
          · contradiction

end Tree

end ArtifactHarvest
