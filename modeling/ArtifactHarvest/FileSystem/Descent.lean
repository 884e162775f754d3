import ArtifactHarvest.FileSystem.Workspace

/-!
A directory reached by name through no link is one deeper than the directory it is listed in. Main
statement: `locate_child`.
-/

namespace ArtifactHarvest

theorem Name.ofBytes?_bytes (n : Name) : Name.ofBytes? n.bytes = some n := by
  simp only [ofBytes?]
  rw [dif_pos n.proper]

namespace FileSystem

theorem walk_dot {fs : FileSystem} {keepLast : Bool} {links left : Nat} {loc dir : Location}
    (h : fs.walk keepLast links loc [[dot]] = .ok (.object dir, left)) :
    loc = dir ∧ links = left ∧ fs.objectAt dir = some .directory := by
  rw [walk] at h
  split at h
  · cases h
  · rename_i ho
    simp only [if_true, walk, Except.ok.injEq, Prod.mk.injEq, Place.object.injEq] at h
    obtain ⟨rfl, rfl⟩ := h
    exact ⟨rfl, rfl, ho⟩
  · cases h

/-- A trailing slash changes nothing for a path that leads to a directory. -/
theorem walk_names {fs : FileSystem} {links left : Nat} {loc dir : Location} {p : Path}
    (h : fs.walk false links loc p.runs = .ok (.object dir, left)) :
    fs.walk false links loc p.names = .ok (.object dir, left) := by
  simp only [Path.runs] at h
  split at h
  · rw [walk_append] at h
    split at h
    · obtain ⟨rfl, rfl, _⟩ := walk_dot h
      assumption
    · cases h
    · cases h
  · simpa using h

theorem walk_name {fs : FileSystem} {keepLast : Bool} {links left : Nat} {dir loc : Location}
    {n : Name} (hd : fs.objectAt dir = some .directory)
    (h : fs.walk keepLast links dir [n.bytes] = .ok (.object loc, left))
    (ho : ∀ target, fs.objectAt (n :: dir) = some (.link target) → keepLast = true) :
    loc = n :: dir := by
  obtain ⟨_, _, hdot, hup⟩ := n.proper
  rw [walk] at h
  simp only [hd, hdot, hup, if_false, Name.ofBytes?_bytes] at h
  split at h
  · cases h
  · split at h
    · simp at h
    · rename_i target ht
      simp [ho target ht] at h
      exact h.1.symm
    · simp [walk] at h
      exact h.1.symm

end FileSystem

namespace Workspace

theorem find_eq_walk {w : Workspace} {keepLast : Bool} {p : Path} {place : Place} {left : Nat}
    (h : w.find keepLast p = .ok (place, left)) :
    ∃ start, (p.isAbsolute = true ∧ start = [] ∨ p.isAbsolute = false ∧ w.here = some start) ∧
      w.files.walk keepLast maxLinks start p.runs = .ok (place, left) := by
  simp only [find] at h
  split at h
  · cases h
  · split at h
    · cases h
    · split at h
      · cases h
      · split at h
        · exact ⟨[], .inl ⟨by assumption, rfl⟩, h⟩
        · split at h
          · cases h
          · rename_i habs _ loc hloc
            exact ⟨loc, .inr ⟨by simpa using habs, hloc⟩, h⟩

theorem ne_empty_of_find {w : Workspace} {keepLast : Bool} {p : Path} {place : Place} {left : Nat}
    (h : w.find keepLast p = .ok (place, left)) : p.bytes ≠ [] := by
  intro he
  simp [find, he] at h

theorem isAbsolute_child {p : Path} (n : Name) (hp : p.bytes ≠ []) :
    (p.child n).isAbsolute = p.isAbsolute := by
  obtain ⟨hne, hslash, _, _⟩ := n.proper
  have hrel : Path.isAbsolute ⟨n.bytes⟩ = false := by
    cases hn : n.bytes with
    | nil => exact absurd hn hne
    | cons b rest =>
        have : b ≠ slash := fun e => hslash (by rw [hn, e]; exact List.mem_cons_self)
        simpa [Path.isAbsolute] using this
  simp only [Path.child, Path.join, hrel, Bool.false_eq_true, if_false]
  cases hb : p.bytes with
  | nil => exact absurd hb hp
  | cons b rest => split <;> simp [Path.isAbsolute, hb]

theorem locate_eq {w : Workspace} {keepLast : Bool} {p : Path} {loc : Location}
    (h : w.locate keepLast p = .ok loc) : ∃ left, w.find keepLast p = .ok (.object loc, left) := by
  simp only [locate] at h
  split at h
  · rename_i place left hf
    cases h
    exact ⟨_, hf⟩
  · cases h
  · cases h

theorem lookup_eq {w : Workspace} {keepLast : Bool} {p : Path} {loc : Location} {o : Object}
    (h : w.lookup keepLast p = .ok (loc, o)) :
    w.locate keepLast p = .ok loc ∧ w.files.objectAt loc = some o := by
  simp only [lookup] at h
  split at h
  · rename_i l hl
    split at h
    · rename_i ob hob
      cases h
      exact ⟨hl, hob⟩
    · cases h
  · cases h

/-- Below a directory, a name that leads to a directory through no link leads to the location one
deeper, whether or not links in last position are kept. -/
theorem locate_child {w : Workspace} {dir : Path} {n : Name} {outer loc : Location}
    (hdir : w.lookup false dir = .ok (outer, .directory))
    (h : w.lookup true (dir.child n) = .ok (loc, .directory)) :
    loc = n :: outer ∧ w.locate false (dir.child n) = .ok loc := by
  obtain ⟨hl, ho⟩ := lookup_eq hdir
  obtain ⟨left, hf⟩ := locate_eq hl
  obtain ⟨hl', ho'⟩ := lookup_eq h
  obtain ⟨left', hf'⟩ := locate_eq hl'
  obtain ⟨start, hstart, hw⟩ := find_eq_walk hf
  obtain ⟨start', hstart', hw'⟩ := find_eq_walk hf'
  have hne := ne_empty_of_find hf
  rw [isAbsolute_child n hne] at hstart'
  have hs : start' = start := by
    rcases hstart with ⟨ha, rfl⟩ | ⟨ha, hh⟩ <;> rcases hstart' with ⟨ha', rfl⟩ | ⟨ha', hh'⟩
    · rfl
    · simp [ha] at ha'
    · simp [ha] at ha'
    · rw [hh] at hh'; exact (Option.some.inj hh').symm
  subst hs
  have hnames := FileSystem.walk_names hw
  rw [Path.runs_child, FileSystem.walk_append, hnames] at hw'
  have hloc : loc = n :: outer := FileSystem.walk_name ho hw' fun _ _ => rfl
  refine ⟨hloc, ?_⟩
  subst hloc
  have hsame : w.files.walk false left outer [n.bytes] =
      w.files.walk true left outer [n.bytes] := by
    obtain ⟨_, _, hdot, hup⟩ := n.proper
    simp [FileSystem.walk, ho, hdot, hup, Name.ofBytes?_bytes, ho']
  have hw2 : w.files.walk false maxLinks start' (dir.child n).runs =
      .ok (.object (n :: outer), left') := by
    rw [Path.runs_child, FileSystem.walk_append, hnames]
    exact hsame.trans hw'
  have hfind : w.find false (dir.child n) = .ok (.object (n :: outer), left') := by
    simp only [find] at hf' ⊢
    split at hf'
    · cases hf'
    · split at hf'
      · cases hf'
      · split at hf'
        · cases hf'
        · rename_i h1 h2 h3
          simp only [h1, h2, h3, if_false]
          rcases hstart with ⟨ha, rfl⟩ | ⟨ha, hh⟩
          · simp only [isAbsolute_child n hne, ha, if_true, hw2]
          · simp only [isAbsolute_child n hne, ha, Bool.false_eq_true, if_false, hh, hw2]
  simp only [locate, hfind]

end Workspace

end ArtifactHarvest
