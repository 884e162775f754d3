import ArtifactHarvest.FileSystem.Canonical
import ArtifactHarvest.Proofs.Path.Steps

/-!
What a path leads to. A way is walked run by run (`walk_cons`), and keeping a link in last position
matters only where there is one (`lookup_true_cases`). Whatever is found below a directory is in it
(`lookup_child`), and is listed where directories can be listed (`mem_entries_of_lookup`). What can
be looked up has a canonical path where no path is too long (`resolves_of_lookup`).
-/

namespace ArtifactHarvest

namespace FileSystem

theorem walk_cons (fs : FileSystem) (keepLast : Bool) (links : Nat) (loc : Location) (run : Bytes)
    {more : List Bytes} (hmore : more ≠ []) :
    fs.walk keepLast links loc (run :: more) =
      match fs.walk false links loc [run] with
      | .ok (.object dir, left) => fs.walk keepLast left dir more
      | .ok (.vacant _, _) => .error .missing
      | .error fault => .error fault := by
  cases more with
  | nil => exact absurd rfl hmore
  | cons next rest => exact walk_append fs keepLast next rest links loc [run]

/-- Keeping a link in last position changes where a single run leads only if it names a link. -/
theorem walk_true_run (fs : FileSystem) (links : Nat) (loc : Location) (run : Bytes) :
    fs.walk true links loc [run] = fs.walk false links loc [run] ∨
      ∃ found left target, fs.walk true links loc [run] = .ok (.object found, left) ∧
        fs.objectAt found = some (.link target) := by
  cases hdir : fs.objectAt loc with
  | none => exact .inl (by simp [walk, hdir])
  | some o =>
      cases o with
      | directory =>
          by_cases hdot : run = [dot]
          · exact .inl (by simp [walk, hdir, hdot])
          by_cases hup : run = [dot, dot]
          · exact .inl (by simp [walk, hdir, hup])
          cases hn : Name.ofBytes? run with
          | none => exact .inl (by simp [walk, hdir, hdot, hup, hn])
          | some n =>
              by_cases hlen : n.bytes.length > maxNameLength
              · exact .inl (by simp [walk, hdir, hdot, hup, hn, hlen])
              cases hobj : fs.objectAt (n :: loc) with
              | none => exact .inl (by simp [walk, hdir, hdot, hup, hn, hlen, hobj])
              | some found =>
                  cases found with
                  | link target =>
                      refine .inr ⟨n :: loc, links, target, ?_, hobj⟩
                      simp [walk, hdir, hdot, hup, hn, hlen, hobj]
                  | directory | file | unreadable | special =>
                      exact .inl (by simp [walk, hdir, hdot, hup, hn, hlen, hobj])
      | file | unreadable | link | special => exact .inl (by simp [walk, hdir])

theorem walk_true_cases (fs : FileSystem) (links : Nat) (loc : Location) (runs : List Bytes) :
    fs.walk true links loc runs = fs.walk false links loc runs ∨
      ∃ found left target, fs.walk true links loc runs = .ok (.object found, left) ∧
        fs.objectAt found = some (.link target) := by
  induction runs generalizing links loc with
  | nil => exact .inl (by simp [walk])
  | cons run more ih =>
      by_cases hmore : more = []
      · subst hmore
        exact walk_true_run fs links loc run
      · rw [walk_cons fs true links loc run hmore, walk_cons fs false links loc run hmore]
        split
        · exact ih _ _
        · exact .inl rfl
        · exact .inl rfl

/-- An object that a directory holds is listed there. -/
theorem mem_entries {fs : FileSystem} {dir : Location} {n : Name} {o : Object}
    (h : fs.objectAt (n :: dir) = some o) : n ∈ fs.entries dir := by
  have hmem := mem_objects_of_objectAt (List.cons_ne_nil n dir) h
  refine List.mem_mergeSort.mpr (List.mem_filterMap.mpr ⟨_, hmem, ?_⟩)
  simp

/-- A listed name is that of an object in the directory. -/
theorem entry_of_listed {dir : Location} {n : Name} {entry : Location × Object}
    (h : (match entry.1 with
      | first :: outer => if outer = dir then some first else none
      | [] => none) = some n) : entry.1 = n :: dir := by
  obtain ⟨loc, o⟩ := entry
  cases loc with
  | nil => cases h
  | cons first outer => simp_all

theorem exists_object_of_mem_entries {fs : FileSystem} {dir : Location} {n : Name}
    (h : n ∈ fs.entries dir) : ∃ o, (n :: dir, o) ∈ fs.objects := by
  obtain ⟨⟨loc, o⟩, hmem, hn⟩ := List.mem_filterMap.mp (List.mem_mergeSort.mp h)
  obtain rfl : loc = n :: dir := entry_of_listed hn
  exact ⟨o, hmem⟩

/-- No name is listed twice. -/
theorem nodup_entries (fs : FileSystem) (dir : Location) : (fs.entries dir).Nodup := by
  rw [entries, (List.mergeSort_perm _ _).nodup_iff]
  apply List.Pairwise.filterMap (R := fun a b => a.1 ≠ b.1)
  · intro a b hne n hn m hm hsame
    exact hne ((entry_of_listed hn).trans (hsame ▸ (entry_of_listed hm).symm))
  · exact List.pairwise_map.mp fs.distinct

/-- A listing is sorted, whatever order the objects are kept in. -/
theorem sorted_entries (fs : FileSystem) (dir : Location) :
    (fs.entries dir).Pairwise fun a b => Name.before a b = true := by
  refine List.pairwise_mergeSort (fun a b c => ?_) (fun a b => ?_) _
  · simpa [Name.before] using List.le_trans
  · simpa [Name.before] using List.le_total a.bytes b.bytes

/-- A name leads to an object only from a directory that holds it. -/
theorem directory_of_walk_name {fs : FileSystem} {keepLast : Bool} {links left : Nat}
    {dir loc : Location} {n : Name}
    (h : fs.walk keepLast links dir [n.bytes] = .ok (.object loc, left)) :
    fs.objectAt dir = some .directory ∧ n ∈ fs.entries dir := by
  obtain ⟨_, _, hdot, hup⟩ := n.proper
  rw [walk] at h
  simp only [hdot, hup, if_false, Name.ofBytes?_bytes] at h
  split at h
  · cases h
  · rename_i hdir
    refine ⟨hdir, ?_⟩
    split at h
    · cases h
    · split at h
      · simp at h
      · rename_i target hlink
        exact mem_entries hlink
      · rename_i o _ hobj
        exact mem_entries hobj
  · cases h

/-- All directories can be listed. -/
def Listable (fs : FileSystem) : Prop :=
  ∀ loc, fs.objectAt loc = some .directory → loc ∉ fs.unlisted

/-- No path of an object is too long. -/
def Short (fs : FileSystem) : Prop :=
  ∀ loc o, fs.objectAt loc = some o → loc.path.bytes.length < pathLengthLimit

theorem listable_of_unlisted {fs : FileSystem} (h : fs.unlisted = []) : fs.Listable := by
  intro loc _
  rw [h]
  exact List.not_mem_nil

theorem short_of_objects {fs : FileSystem}
    (h : ∀ entry ∈ fs.objects, entry.1.path.bytes.length < pathLengthLimit) : fs.Short := by
  intro loc o hobj
  by_cases hloc : loc = []
  · subst hloc
    decide
  · exact h _ (mem_objects_of_objectAt hloc hobj)

theorem resolves_of_walk {fs : FileSystem} {links left : Nat} {loc found : Location}
    {runs : List Bytes} (hshort : fs.Short)
    (h : fs.walk false links loc runs = .ok (.object found, left)) :
    fs.resolves links loc runs = true := by
  fun_induction fs.walk false links loc runs with
  | case1 => rw [resolves]
  | case11 loc run todo hdir hd hu n hn hlen target hlink links hkeep ih =>
      have hfits := Nat.not_le_of_lt (hshort _ _ hlink)
      rw [resolves]
      simpa [hd, hu, hn, hfits, hlink] using ih h
  | case12 links loc run todo hdir hd hu n hn hlen o hlink hobj ih =>
      have hfits := Nat.not_le_of_lt (hshort _ _ hobj)
      rw [resolves]
      simp only [hd, hu, hn, hfits, hobj, if_false]
      split
      · rename_i hsame
        exact absurd (Option.some.inj hsame) (hlink _)
      · rename_i hsame
        exact absurd (Option.some.inj hsame) (hlink _)
      · exact ih h
  | _ => simp_all [resolves]

end FileSystem

namespace Path

/-- Whether a text can be looked up at all. -/
structure Admissible (p : Path) : Prop where
  noNul : (0 : UInt8) ∉ p.bytes
  short : p.bytes.length < pathLengthLimit

theorem bytes_prefix_push (p : Path) {c : Component} (h : c.isStep = true) :
    p.bytes <+: (p.push c).bytes := by
  have hrel := isAbsolute_of_isStep h
  simp only [push, join, hrel, Bool.false_eq_true, if_false]
  split
  · exact List.prefix_append _ _
  · exact List.prefix_append _ _

theorem bytes_prefix_child (p : Path) (n : Name) : p.bytes <+: (p.child n).bytes :=
  p.bytes_prefix_push (c := .name n) rfl

/-- The text grows with each component that is pushed. -/
theorem bytes_prefix_foldl_push {p : Path} {cs : List Component} (h : ∀ c ∈ cs, c.isStep = true) :
    p.bytes <+: (cs.foldl push p).bytes := by
  induction cs generalizing p with
  | nil => exact List.prefix_refl p.bytes
  | cons c cs ih =>
      have hrest := ih (p := p.push c) fun d hd => h d (List.mem_cons_of_mem c hd)
      exact (p.bytes_prefix_push (h c List.mem_cons_self)).trans hrest

theorem bytes_prefix_foldl_push_of_prefix {p : Path} {front shorter : List Component}
    (h : ∀ c ∈ front, c.isStep = true) (hshorter : shorter <+: front) :
    (shorter.foldl push p).bytes <+: (front.foldl push p).bytes := by
  obtain ⟨back, rfl⟩ := hshorter
  rw [List.foldl_append]
  exact bytes_prefix_foldl_push fun c hc => h c (List.mem_append_right shorter hc)

theorem Admissible.of_child {p : Path} {n : Name} (h : (p.child n).Admissible) : p.Admissible :=
  ⟨fun hnul => h.noNul ((bytes_prefix_child p n).mem hnul),
    Nat.lt_of_le_of_lt (bytes_prefix_child p n).length_le h.short⟩

end Path

namespace Workspace

theorem find_eq_ok_iff {w : Workspace} {keepLast : Bool} {p : Path} {r : Place × Nat}
    (h : p.isAbsolute = true) :
    w.find keepLast p = .ok r ↔
      p.Admissible ∧ w.files.walk keepLast maxLinks [] p.runs = .ok r := by
  simp only [find, h, if_true, Path.ne_nil_of_isAbsolute h, if_false]
  constructor
  · intro hfind
    split at hfind
    · cases hfind
    · split at hfind
      · cases hfind
      · exact ⟨⟨by assumption, by omega⟩, hfind⟩
  · rintro ⟨hp, hwalk⟩
    have hshort : ¬ pathLengthLimit ≤ p.bytes.length := by have := hp.short; omega
    simp only [hp.noNul, hshort, if_false, hwalk]

theorem lookup_of_long {w : Workspace} {keepLast : Bool} {p : Path}
    (hnul : (0 : UInt8) ∉ p.bytes) (hlong : pathLengthLimit ≤ p.bytes.length) :
    w.lookup keepLast p = .error .nameTooLong := by
  have hne : p.bytes ≠ [] := by
    intro hnil
    rw [hnil] at hlong
    cases hlong
  simp only [lookup, locate, find, hnul, hne, hlong, if_false, if_true]

theorem lookup_eq_ok_iff {w : Workspace} {keepLast : Bool} {p : Path} {loc : Location} {o : Object}
    (h : p.isAbsolute = true) :
    w.lookup keepLast p = .ok (loc, o) ↔
      p.Admissible ∧ (∃ left, w.files.walk keepLast maxLinks [] p.runs = .ok (.object loc, left)) ∧
        w.files.objectAt loc = some o := by
  constructor
  · intro hlook
    obtain ⟨hloc, hobj⟩ := lookup_eq hlook
    obtain ⟨left, hfind⟩ := locate_eq hloc
    obtain ⟨hp, hwalk⟩ := (find_eq_ok_iff h).mp hfind
    exact ⟨hp, ⟨left, hwalk⟩, hobj⟩
  · rintro ⟨hp, ⟨left, hwalk⟩, hobj⟩
    simp only [lookup, locate, (find_eq_ok_iff h).mpr ⟨hp, hwalk⟩, hobj]

theorem admissible_of_lookup {w : Workspace} {keepLast : Bool} {p : Path}
    {found : Location × Object} (habs : p.isAbsolute = true)
    (h : w.lookup keepLast p = .ok found) : p.Admissible :=
  ((lookup_eq_ok_iff habs).mp h).1

/-- Keeping a link in last position changes what a path leads to only if it leads to a link. -/
theorem lookup_true_cases (w : Workspace) (p : Path) :
    w.lookup true p = w.lookup false p ∨
      ∃ loc target, w.lookup true p = .ok (loc, .link target) := by
  have hfind : w.find true p = w.find false p ∨
      ∃ loc left target, w.find true p = .ok (.object loc, left) ∧
        w.files.objectAt loc = some (.link target) := by
    simp only [find]
    split
    · exact .inl rfl
    · split
      · exact .inl rfl
      · split
        · exact .inl rfl
        · split
          · exact FileSystem.walk_true_cases _ _ _ _
          · split
            · exact .inl rfl
            · exact FileSystem.walk_true_cases _ _ _ _
  rcases hfind with hsame | ⟨loc, left, target, hlink, hobj⟩
  · exact .inl (by simp only [lookup, locate, hsame])
  · exact .inr ⟨loc, target, by simp only [lookup, locate, hlink, hobj]⟩

/-- Whatever a path leads to below a directory is in that directory. -/
theorem lookup_child {w : Workspace} {keepLast : Bool} {dir : Path} {n : Name} {loc : Location}
    {o : Object} (habs : dir.isAbsolute = true)
    (h : w.lookup keepLast (dir.child n) = .ok (loc, o)) :
    ∃ outer, w.lookup false dir = .ok (outer, .directory) ∧ n ∈ w.files.entries outer := by
  obtain ⟨hp, ⟨left, hwalk⟩, _⟩ := (lookup_eq_ok_iff (Path.isAbsolute_child n habs)).mp h
  rw [Path.runs_child, FileSystem.walk_append] at hwalk
  split at hwalk
  · rename_i outer between hnames
    obtain ⟨hdir, hmem⟩ := FileSystem.directory_of_walk_name hwalk
    have hruns : w.files.walk false maxLinks [] dir.runs = .ok (.object outer, between) := by
      rw [Path.runs]
      split
      · rw [FileSystem.walk_append, hnames]
        simp [FileSystem.walk, hdir]
      · simpa using hnames
    have hlook : w.lookup false dir = .ok (outer, .directory) :=
      (lookup_eq_ok_iff habs).mpr ⟨hp.of_child, ⟨between, hruns⟩, hdir⟩
    exact ⟨outer, hlook, hmem⟩
  · cases hwalk
  · cases hwalk

/-! ### Listing a directory -/

theorem list_of_directory {w : Workspace} {dir : Path} {loc : Location}
    (h : w.lookup false dir = .ok (loc, .directory)) :
    w.list dir = if loc ∈ w.files.unlisted then .error .denied else .ok (w.files.entries loc) := by
  simp only [list, h, List.contains_iff_mem]

theorem list_eq_ok_iff {w : Workspace} {dir : Path} {names : List Name} :
    w.list dir = .ok names ↔ ∃ loc, w.lookup false dir = .ok (loc, .directory) ∧
      loc ∉ w.files.unlisted ∧ names = w.files.entries loc := by
  constructor
  · intro h
    unfold list at h
    split at h
    · rename_i loc hlook
      split at h
      · cases h
      · rename_i hlisted
        cases h
        exact ⟨loc, hlook, mt List.contains_iff_mem.mpr hlisted, rfl⟩
    · cases h
    · cases h
  · rintro ⟨loc, hlook, hlisted, rfl⟩
    simp only [list_of_directory hlook, hlisted, if_false]

theorem mem_entries_iff {w : Workspace} {dir : Path} {n : Name} :
    n ∈ w.entries dir ↔ ∃ loc, w.lookup false dir = .ok (loc, .directory) ∧
      loc ∉ w.files.unlisted ∧ n ∈ w.files.entries loc := by
  unfold entries
  constructor
  · intro h
    cases hlist : w.list dir with
    | error fault => simp [hlist] at h
    | ok names =>
        obtain ⟨loc, hlook, hlisted, rfl⟩ := list_eq_ok_iff.mp hlist
        exact ⟨loc, hlook, hlisted, by simpa [hlist] using h⟩
  · rintro ⟨loc, hlook, hlisted, hn⟩
    simpa only [list_of_directory hlook, hlisted, if_false] using hn

theorem entries_of_directory {w : Workspace} {dir : Path} {loc : Location}
    (h : w.lookup false dir = .ok (loc, .directory)) (hlisted : loc ∉ w.files.unlisted) :
    w.entries dir = w.files.entries loc := by
  simp only [entries, list_of_directory h, hlisted, if_false]

theorem exists_object_of_mem_entries {w : Workspace} {dir : Path} {n : Name}
    (h : n ∈ w.entries dir) : ∃ loc o, (n :: loc, o) ∈ w.files.objects := by
  obtain ⟨loc, _, _, hn⟩ := mem_entries_iff.mp h
  exact ⟨loc, FileSystem.exists_object_of_mem_entries hn⟩

theorem nodup_entries (w : Workspace) (dir : Path) : (w.entries dir).Nodup := by
  unfold entries
  cases hlist : w.list dir with
  | error fault => exact List.nodup_nil
  | ok names =>
      obtain ⟨loc, _, _, rfl⟩ := list_eq_ok_iff.mp hlist
      exact w.files.nodup_entries loc

/-- Where all directories can be listed, whatever a path leads to is listed. -/
theorem mem_entries_of_lookup {w : Workspace} {keepLast : Bool} {dir : Path} {n : Name}
    {found : Location × Object} (hlist : w.files.Listable) (habs : dir.isAbsolute = true)
    (h : w.lookup keepLast (dir.child n) = .ok found) : n ∈ w.entries dir := by
  obtain ⟨outer, houter, hn⟩ := lookup_child habs h
  exact mem_entries_iff.mpr ⟨outer, houter, hlist outer (lookup_eq houter).2, hn⟩

/-- Where no path is too long, whatever can be looked up has a canonical path. -/
theorem resolves_of_lookup {w : Workspace} {p : Path} {found : Location × Object}
    (hshort : w.files.Short) (h : w.lookup false p = .ok found) : w.resolves p = true := by
  obtain ⟨loc, o⟩ := found
  obtain ⟨left, hfind⟩ := locate_eq (lookup_eq h).1
  obtain ⟨start, hstart, hwalk⟩ := find_eq_walk hfind
  have hfrom : (if p.isAbsolute then some [] else w.here) = some start := by
    rcases hstart with ⟨habs, rfl⟩ | ⟨habs, hhere⟩
    · rw [if_pos habs]
    · simpa [habs] using hhere
  simp only [resolves, hfind, hfrom]
  exact FileSystem.resolves_of_walk hshort hwalk

/-! ### What a path leads to -/

/-- The path leads to a regular file, through links or not. -/
def LeadsToFile (w : Workspace) (p : Path) : Prop :=
  ∃ loc o, w.lookup false p = .ok (loc, o) ∧ o.isRegular = true

theorem leadsToFile_iff {w : Workspace} {p : Path} {loc : Location} {o : Object}
    (h : w.lookup false p = .ok (loc, o)) : w.LeadsToFile p ↔ o.isRegular = true := by
  constructor
  · rintro ⟨loc', o', hlook, hregular⟩
    rw [h] at hlook
    cases hlook
    exact hregular
  · exact fun hregular => ⟨loc, o, h, hregular⟩

theorem not_leadsToFile {w : Workspace} {p : Path} {fault : Fault}
    (h : w.lookup false p = .error fault) : ¬ w.LeadsToFile p := by
  rintro ⟨loc, o, hlook, _⟩
  rw [h] at hlook
  cases hlook

theorem LeadsToFile.admissible {w : Workspace} {p : Path} (h : w.LeadsToFile p)
    (habs : p.isAbsolute = true) : p.Admissible := by
  obtain ⟨loc, o, hlook, _⟩ := h
  exact admissible_of_lookup habs hlook

/-- The path leads to a directory, through links or not. -/
def LeadsToDirectory (w : Workspace) (p : Path) : Prop :=
  ∃ loc, w.lookup false p = .ok (loc, .directory)

/-- The path leads to a directory that can be listed, through links or not. -/
def Lists (w : Workspace) (p : Path) : Prop :=
  ∃ loc, w.lookup false p = .ok (loc, .directory) ∧ loc ∉ w.files.unlisted

theorem Lists.leadsToDirectory {w : Workspace} {p : Path} (h : w.Lists p) :
    w.LeadsToDirectory p := by
  obtain ⟨loc, hlook, _⟩ := h
  exact ⟨loc, hlook⟩

/-- Nothing is found by listing where there is nothing to list. -/
theorem entries_of_not_lists {w : Workspace} {p : Path} (h : ¬ w.Lists p) : w.entries p = [] := by
  refine List.eq_nil_iff_forall_not_mem.mpr fun n hn => ?_
  obtain ⟨loc, hlook, hlisted, _⟩ := mem_entries_iff.mp hn
  exact h ⟨loc, hlook, hlisted⟩

/-- The path names a directory itself: its last component is no link. -/
def NamesDirectory (w : Workspace) (p : Path) : Prop :=
  ∃ loc, w.lookup true p = .ok (loc, .directory)

/-- The path names a link, wherever that leads. -/
def NamesLink (w : Workspace) (p : Path) : Prop :=
  ∃ loc target, w.lookup true p = .ok (loc, .link target)

/-- The path names something, be it a link. -/
def Names (w : Workspace) (p : Path) : Prop :=
  ∃ found, w.lookup true p = .ok found

theorem names_of_lookup {w : Workspace} {keepLast : Bool} {p : Path} {found : Location × Object}
    (h : w.lookup keepLast p = .ok found) : w.Names p := by
  cases keepLast with
  | true => exact ⟨found, h⟩
  | false =>
      rcases w.lookup_true_cases p with hsame | ⟨loc, target, hlink⟩
      · exact ⟨found, hsame.trans h⟩
      · exact ⟨_, hlink⟩

theorem NamesLink.names {w : Workspace} {p : Path} (h : w.NamesLink p) : w.Names p := by
  obtain ⟨loc, target, hlook⟩ := h
  exact ⟨_, hlook⟩

theorem LeadsToDirectory.names {w : Workspace} {p : Path} (h : w.LeadsToDirectory p) :
    w.Names p := by
  obtain ⟨loc, hlook⟩ := h
  exact names_of_lookup hlook

theorem LeadsToFile.names {w : Workspace} {p : Path} (h : w.LeadsToFile p) : w.Names p := by
  obtain ⟨loc, o, hlook, _⟩ := h
  exact names_of_lookup hlook

/-- What is named below a directory is reached through directories only. -/
theorem Names.leadsToDirectory {w : Workspace} {p : Path} {front back : List Name}
    (habs : p.isAbsolute = true) (h : w.Names (p.descend (front ++ back))) (hback : back ≠ []) :
    w.LeadsToDirectory (p.descend front) := by
  induction back generalizing front with
  | nil => exact absurd rfl hback
  | cons n more ih =>
      have hnext : w.Names (p.descend (front ++ [n])) := by
        by_cases hmore : more = []
        · simpa [hmore] using h
        · exact (ih (by simpa using h) hmore).names
      obtain ⟨⟨loc, o⟩, hlook⟩ := hnext
      rw [Path.descend_append] at hlook
      obtain ⟨outer, houter, _⟩ := lookup_child (Path.isAbsolute_descend front habs) hlook
      exact ⟨outer, houter⟩

theorem NamesDirectory.not_namesLink {w : Workspace} {p : Path} (h : w.NamesDirectory p) :
    ¬ w.NamesLink p := by
  obtain ⟨loc, hloc⟩ := h
  rintro ⟨loc', target, hlink⟩
  rw [hloc] at hlink
  cases hlink

theorem LeadsToDirectory.namesDirectory {w : Workspace} {p : Path} (h : w.LeadsToDirectory p)
    (hlink : ¬ w.NamesLink p) : w.NamesDirectory p := by
  obtain ⟨loc, hlook⟩ := h
  rcases w.lookup_true_cases p with hsame | hlook'
  · exact ⟨loc, hsame.trans hlook⟩
  · exact absurd hlook' hlink

/-- Down through directories themselves, the location grows by the names. -/
theorem lookup_descend {w : Workspace} {p : Path} {names : List Name} {loc : Location}
    (hp : w.lookup false p = .ok (loc, .directory))
    (h : ∀ front back, names = front ++ back → front ≠ [] → w.NamesDirectory (p.descend front)) :
    w.lookup false (p.descend names) = .ok (names.reverse ++ loc, .directory) := by
  induction names generalizing p loc with
  | nil => exact hp
  | cons n names ih =>
      obtain ⟨inner, hinner⟩ := h [n] names rfl (List.cons_ne_nil _ _)
      obtain ⟨rfl, hlocate⟩ := locate_child hp hinner
      have hchild : w.lookup false (p.child n) = .ok (n :: loc, .directory) := by
        simp only [lookup, hlocate, (lookup_eq hinner).2]
      have hrest := ih hchild fun front back hsplit _ =>
        h (n :: front) back (congrArg (n :: ·) hsplit) (List.cons_ne_nil _ _)
      simpa using hrest

/-- A small workspace: a directory `/r` with the file `x` in it. -/
def small : Workspace where
  files := {
    objects := [
      ([⟨[114], by decide⟩], .directory),
      ([⟨[120], by decide⟩, ⟨[114], by decide⟩], .file [])]
    distinct := by decide }
  here := none

theorem small_listable : Workspace.small.files.Listable :=
  FileSystem.listable_of_unlisted rfl

theorem small_short : Workspace.small.files.Short :=
  FileSystem.short_of_objects (by decide)

/-- A workspace with the files `/x` and `/a/x`, the deeper one kept first. -/
def scattered : Workspace where
  files := {
    objects := [
      ([⟨[120], by decide⟩, ⟨[97], by decide⟩], .file []),
      ([⟨[120], by decide⟩], .file []),
      ([⟨[97], by decide⟩], .directory)]
    distinct := by decide }
  here := none

/-- A workspace with a directory `/a`, a file `/x`, and a link `/l` back to `/`. -/
def looped : Workspace where
  files := {
    objects := [
      ([⟨[97], by decide⟩], .directory),
      ([⟨[120], by decide⟩], .file []),
      ([⟨[108], by decide⟩], .link ⟨[slash]⟩)]
    distinct := by decide }
  here := none

/-- A workspace with the file `/a/l/x`, in which the directory `/a` cannot be listed. -/
def shut : Workspace where
  files := {
    objects := [
      ([⟨[97], by decide⟩], .directory),
      ([⟨[108], by decide⟩, ⟨[97], by decide⟩], .directory),
      ([⟨[120], by decide⟩, ⟨[108], by decide⟩, ⟨[97], by decide⟩], .file [])]
    distinct := by decide
    unlisted := [[⟨[97], by decide⟩]] }
  here := none

end Workspace

end ArtifactHarvest
