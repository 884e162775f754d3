import ArtifactHarvest.FileSystem.Edit
import ArtifactHarvest.Proofs.FileSystem.Resolution

/-!
Writing a file. It succeeds where the path leads to what can be written and the writing goes through
(`write_ok_iff`). What is put in place of a file, or where nothing was, leaves the way there as it
is (`walk_put`), so the path gives back what was written (`read_of_write`), or how much of it was
taken before a failure (`left_of_write`). A special file keeps nothing (`write_special`).
-/

namespace ArtifactHarvest

namespace FileSystem

/-- Whether a file may be put at a location: nothing is there, or a file. -/
def TakesFile (fs : FileSystem) (spot : Location) : Prop :=
  ∀ o, fs.objectAt spot = some o → ∃ old, o = .file old

variable {fs : FileSystem} {spot loc : Location} {content : Bytes}

theorem TakesFile.ne_nil (h : fs.TakesFile spot) : spot ≠ [] := by
  rintro rfl
  obtain ⟨old, hold⟩ := h .directory rfl
  cases hold

theorem objectAt_put (fs : FileSystem) (o : Object) (hspot : spot ≠ []) :
    (fs.put spot o).objectAt loc = if loc = spot then some o else fs.objectAt loc := by
  by_cases hloc : loc = spot
  · subst hloc
    simp [objectAt, put, hspot]
  · by_cases hnil : loc = []
    · simp [objectAt, hnil, Ne.symm hspot]
    · simp only [objectAt, put, hnil, hloc, if_false, List.find?_cons, List.find?_filter,
        Ne.symm hloc, decide_false]
      congr 2
      funext entry
      by_cases hentry : entry.1 = loc
      · simp [hentry, hloc]
      · simp [hentry]

/-- What else is there stays where a file is put. -/
theorem objectAt_put_of_ne_file {o : Object} (hspot : fs.TakesFile spot)
    (hobj : fs.objectAt loc = some o) (ho : ∀ old, o ≠ .file old) :
    (fs.put spot (.file content)).objectAt loc = some o := by
  have hne : loc ≠ spot := by
    rintro rfl
    obtain ⟨old, hold⟩ := hspot o hobj
    exact ho old hold
  rw [objectAt_put fs _ hspot.ne_nil, if_neg hne, hobj]

/-- A way that ends where a file is put still ends there, and now at the file. Directories and links
on the way are not what the file replaces. -/
theorem walk_put {links left : Nat} {runs : List Bytes} {place : Place}
    (hspot : fs.TakesFile spot) (h : fs.walk false links loc runs = .ok (place, left))
    (hplace : place = .vacant spot ∨ place = .object spot) :
    (fs.put spot (.file content)).walk false links loc runs = .ok (.object spot, left) := by
  have hdirectory : ∀ {loc}, fs.objectAt loc = some .directory →
      (fs.put spot (.file content)).objectAt loc = some .directory := fun hobj =>
    objectAt_put_of_ne_file hspot hobj (by simp)
  fun_induction fs.walk false links loc runs with
  | case1 links loc =>
      obtain ⟨rfl, rfl⟩ := Prod.mk.inj (Except.ok.inj h)
      obtain hplace | hplace := hplace
      · cases hplace
      · rw [walk, hplace]
  | case2 | case5 | case6 | case8 | case10 | case13 => cases h
  | case3 links loc todo hdir ih =>
      rw [walk]
      simp only [hdirectory hdir, if_true, ih h]
  | case4 links loc todo hdir hdot ih =>
      rw [walk]
      simp only [hdirectory hdir, hdot, if_false, if_true, ih h]
  | case7 links loc run hdir hdot hup n hn hlen hnone =>
      obtain ⟨rfl, rfl⟩ := Prod.mk.inj (Except.ok.inj h)
      obtain hplace | hplace := hplace
      · obtain rfl := Place.vacant.inj hplace
        rw [walk]
        simp only [hdirectory hdir, hdot, hup, hn, hlen, if_false, objectAt_put fs _ hspot.ne_nil,
          if_true, walk]
      · cases hplace
  | case9 links loc todo run hdir hdot hup n hn hlen target hlink hkeep => cases hkeep.2
  | case11 loc run todo hdir hdot hup n hn hlen target hlink hkeep links ih =>
      rw [walk]
      simp only [hdirectory hdir, hdot, hup, hn, hlen, if_false,
        objectAt_put_of_ne_file hspot hlink (by simp), hkeep]
      simpa using ih h
  | case12 links loc run todo hdir hdot hup n hn hlen o hnolink hobj ih =>
      have hstill : ∃ o', (fs.put spot (.file content)).objectAt (n :: loc) = some o' ∧
          ∀ target, o' ≠ .link target := by
        rw [objectAt_put fs _ hspot.ne_nil]
        split
        · exact ⟨_, rfl, by simp⟩
        · exact ⟨o, hobj, hnolink⟩
      obtain ⟨o', hobj', hno⟩ := hstill
      rw [walk]
      simp only [hdirectory hdir, hdot, hup, hn, hlen, if_false, hobj']
      cases o' with
      | link target => exact absurd rfl (hno target)
      | directory | file | unreadable | special => exact ih h

/-- Nothing is at a place that is said to be vacant. -/
theorem objectAt_of_vacant {keepLast : Bool} {links left : Nat} {runs : List Bytes}
    (h : fs.walk keepLast links loc runs = .ok (.vacant spot, left)) : fs.objectAt spot = none := by
  fun_induction fs.walk keepLast links loc runs with
  | case1 | case2 | case5 | case6 | case8 | case9 | case10 | case13 => cases h
  | case3 _ _ _ _ ih => exact ih h
  | case4 _ _ _ _ _ ih => exact ih h
  | case7 _ _ _ _ _ _ _ _ _ hnone =>
      obtain ⟨hplace, -⟩ := Prod.mk.inj (Except.ok.inj h)
      exact Place.vacant.inj hplace ▸ hnone
  | case11 _ _ _ _ _ _ _ _ _ _ _ _ _ ih => exact ih (by simpa using h)
  | case12 _ _ _ _ _ _ _ _ _ _ _ _ _ ih => exact ih h

end FileSystem

namespace Workspace

variable {w w' : Workspace} {p : Path} {content : Bytes} {writing : Writing} {loc : Location}

/-- Whether a path leads to a pipe, a socket or a device. -/
def LeadsToSpecial (w : Workspace) (p : Path) : Prop :=
  ∃ loc, w.lookup false p = .ok (loc, .special)

/-- A path leads to a place where nothing is yet, or to a file. -/
def Takes (w : Workspace) (p : Path) (loc : Location) : Prop :=
  (∃ left, w.find false p = .ok (.vacant loc, left)) ∨
    ∃ old, w.lookup false p = .ok (loc, .file old)

/-- Whether a path leads to what can be written: a place where nothing is yet, a file, or a special
file. -/
def Writable (w : Workspace) (p : Path) : Prop :=
  (∃ loc, w.Takes p loc) ∨ w.LeadsToSpecial p

theorem lookup_of_find {keepLast : Bool} {left : Nat} {o : Object}
    (hfind : w.find keepLast p = .ok (.object loc, left)) (hobj : w.files.objectAt loc = some o) :
    w.lookup keepLast p = .ok (loc, o) := by
  simp only [lookup, locate, hfind, hobj]

theorem find_of_lookup {keepLast : Bool} {o : Object}
    (h : w.lookup keepLast p = .ok (loc, o)) :
    ∃ left, w.find keepLast p = .ok (.object loc, left) ∧ w.files.objectAt loc = some o := by
  obtain ⟨hlocate, hobj⟩ := lookup_eq h
  obtain ⟨left, hfind⟩ := locate_eq hlocate
  exact ⟨left, hfind, hobj⟩

/-- A path that leads to where a file is put leads to the file then. -/
theorem find_put {spot : Location} {place : Place} {left : Nat} (hspot : w.files.TakesFile spot)
    (h : w.find false p = .ok (place, left))
    (hplace : place = .vacant spot ∨ place = .object spot) :
    find { w with files := w.files.put spot (.file content) } false p =
      .ok (.object spot, left) := by
  simp only [find] at h ⊢
  split at h
  · cases h
  · rename_i hnul
    split at h
    · cases h
    · rename_i hempty
      split at h
      · cases h
      · rename_i hlong
        simp only [hnul, hempty, hlong, if_false]
        split at h
        · rename_i habs
          simp only [habs, if_true, FileSystem.walk_put hspot h hplace]
        · rename_i hrel
          split at h
          · cases h
          · rename_i here hhere
            simp only [hrel, Bool.false_eq_true, if_false, FileSystem.walk_put hspot h hplace]

theorem takesFile_of_vacant {left : Nat}
    (h : w.find false p = .ok (.vacant loc, left)) : w.files.TakesFile loc := by
  obtain ⟨start, -, hwalk⟩ := find_eq_walk h
  intro o hobj
  rw [FileSystem.objectAt_of_vacant hwalk] at hobj
  cases hobj

theorem takesFile_of_file {old : Bytes}
    (h : w.files.objectAt loc = some (.file old)) : w.files.TakesFile loc := by
  intro o hobj
  exact ⟨old, Option.some.inj (hobj.symm.trans h)⟩

/-- A file that was put where a path leads is what the path leads to. -/
theorem read_put (h : w.Takes p loc) :
    read { w with files := w.files.put loc (.file content) } p = .ok content := by
  obtain ⟨hspot, place, left, hfind, hplace⟩ : w.files.TakesFile loc ∧ ∃ place left,
      w.find false p = .ok (place, left) ∧ (place = .vacant loc ∨ place = .object loc) := by
    rcases h with ⟨left, hfind⟩ | ⟨old, hlookup⟩
    · exact ⟨takesFile_of_vacant hfind, _, left, hfind, .inl rfl⟩
    · obtain ⟨left, hfind, hobj⟩ := find_of_lookup hlookup
      exact ⟨takesFile_of_file hobj, _, left, hfind, .inr rfl⟩
  have hobj : (w.files.put loc (.file content)).objectAt loc = some (.file content) := by
    rw [FileSystem.objectAt_put _ _ hspot.ne_nil, if_pos rfl]
  rw [read, lookup_of_find (find_put hspot hfind hplace) hobj]

/-! ### What a writing does -/

theorem write_takes (h : w.Takes p loc) (content : Bytes) (writing : Writing) :
    w.write p content writing = w.fill loc content writing := by
  rcases h with ⟨left, hfind⟩ | ⟨old, hlookup⟩
  · simp only [write, hfind]
  · obtain ⟨left, hfind, hobj⟩ := find_of_lookup hlookup
    simp only [write, hfind, hobj]

/-- A special file keeps nothing of what it takes. -/
theorem write_special (h : w.LeadsToSpecial p) (content : Bytes) (writing : Writing) :
    w.write p content writing = w.pass writing := by
  obtain ⟨loc, hlookup⟩ := h
  obtain ⟨left, hfind, hobj⟩ := find_of_lookup hlookup
  simp only [write, hfind, hobj]

/-- Where nothing can be written, nothing changes. -/
theorem write_of_not_writable (h : ¬ w.Writable p) (content : Bytes) (writing : Writing) :
    ∃ fault, w.write p content writing = .error ⟨fault, w⟩ := by
  cases hfind : w.find false p with
  | error fault => exact ⟨fault, by simp only [write, hfind]⟩
  | ok found =>
      obtain ⟨place, left⟩ := found
      cases place with
      | vacant loc => exact absurd (.inl ⟨loc, .inl ⟨left, hfind⟩⟩) h
      | object loc =>
          simp only [write, hfind]
          split
          · rename_i old hobj
            exact absurd (.inl ⟨loc, .inr ⟨old, lookup_of_find hfind hobj⟩⟩) h
          · rename_i hobj
            exact absurd (.inr ⟨loc, lookup_of_find hfind hobj⟩) h
          · exact ⟨_, rfl⟩
          · exact ⟨_, rfl⟩

theorem write_ok_iff :
    (∃ w', w.write p content writing = .ok w') ↔ w.Writable p ∧ writing = .through := by
  by_cases h : w.Writable p
  · rw [and_iff_right h]
    rcases h with ⟨loc, htakes⟩ | hspecial
    · rw [write_takes htakes]
      cases writing <;> simp [fill]
    · rw [write_special hspecial]
      cases writing <;> simp [pass]
  · obtain ⟨fault, hfault⟩ := write_of_not_writable h content writing
    simp [h, hfault]

/-- A special file is left as it is, whether the writing goes through or not. -/
theorem left_of_special (hspecial : w.LeadsToSpecial p) :
    (∀ w', w.write p content writing = .ok w' → w' = w) ∧
      ∀ e, w.write p content writing = .error e → e.left = w := by
  rw [write_special hspecial]
  cases writing <;> simp [pass]

/-- **What was written is read back**, unless it went to a special file. -/
theorem read_of_write (h : w.write p content writing = .ok w')
    (hspecial : ¬ w.LeadsToSpecial p) : w'.read p = .ok content := by
  obtain ⟨hwritable, rfl⟩ := write_ok_iff.mp ⟨w', h⟩
  obtain ⟨loc, htakes⟩ := hwritable.resolve_right hspecial
  rw [write_takes htakes, fill, Except.ok.injEq] at h
  exact h ▸ read_put htakes

/-- What fails to be written leaves all as it was, or the beginning of it in the file. -/
theorem left_of_write {e : WriteFault} (h : w.write p content writing = .error e) :
    e.left = w ∨ ∃ taken, e.left.read p = .ok (content.take taken) := by
  by_cases hwritable : w.Writable p
  · rcases hwritable with ⟨loc, htakes⟩ | hspecial
    · rw [write_takes htakes] at h
      cases writing with
      | through => cases h
      | refused fault =>
          cases h
          exact .inl rfl
      | brokenOff taken fault =>
          cases h
          exact .inr ⟨taken, read_put htakes⟩
    · exact .inl ((left_of_special hspecial).2 e h)
  · obtain ⟨fault, hfault⟩ := write_of_not_writable hwritable content writing
    exact .inl (Except.error.inj (h.symm.trans hfault) ▸ rfl)

end Workspace

end ArtifactHarvest
