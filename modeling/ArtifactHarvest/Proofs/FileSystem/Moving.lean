import ArtifactHarvest.Proofs.FileSystem.Spelling
import ArtifactHarvest.Proofs.FileSystem.Within
import ArtifactHarvest.Proofs.Path.Logical

/-!
Two directories with the same tree below them. What can be looked up below one of them is found at
the same place below the other (`Twins.lookup`), so listings agree too (`Twins.entries`), as long as
neither the length of a path nor the number of links on it is too much at one of the two.
-/

namespace ArtifactHarvest

namespace FileSystem

theorem mem_entries_iff {fs : FileSystem} {dir : Location} {n : Name} :
    n ∈ fs.entries dir ↔ fs.objectAt (n :: dir) ≠ none := by
  constructor
  · intro h hnone
    obtain ⟨o, hmem⟩ := exists_object_of_mem_entries h
    simp only [objectAt, List.cons_ne_nil, if_false, Option.map_eq_none_iff, List.find?_eq_none,
      decide_eq_true_eq] at hnone
    exact hnone _ hmem rfl
  · intro h
    obtain ⟨o, ho⟩ := Option.ne_none_iff_exists'.mp h
    exact mem_entries ho

/-- A listing is told by the tree. -/
theorem entries_eq_of_treeAt {fs fs' : FileSystem} {top top' : Location}
    (h : fs.treeAt top = fs'.treeAt top') (inner : Location) :
    fs.entries (inner ++ top) = fs'.entries (inner ++ top') := by
  refine List.Perm.eq_of_pairwise ?_ (fs.sorted_entries _) (fs'.sorted_entries _) ?_
  · intro a b _ _ hab hba
    exact Name.bytes_inj.mp (List.le_antisymm (of_decide_eq_true hab) (of_decide_eq_true hba))
  · refine (List.perm_ext_iff_of_nodup (nodup_entries _ _) (nodup_entries _ _)).mpr fun n => ?_
    have hobject : fs.objectAt (n :: (inner ++ top)) = fs'.objectAt (n :: (inner ++ top')) :=
      congrFun h (n :: inner)
    rw [mem_entries_iff, mem_entries_iff, hobject]

end FileSystem

namespace Path

theorem names_descend (p : Path) (names : List Name) :
    (p.descend names).names = p.names ++ names.map Name.bytes := by
  induction names generalizing p with
  | nil => simp
  | cons n names ih => simp [ih, names_child]

theorem runs_descend (p : Path) {names : List Name} (hnames : names ≠ []) :
    (p.descend names).runs = p.names ++ names.map Name.bytes := by
  obtain ⟨front, n, rfl⟩ : ∃ front n, names = front ++ [n] :=
    ⟨_, _, (List.dropLast_concat_getLast hnames).symm⟩
  rw [descend_append, descend_cons, descend_nil, runs_child, names_descend]
  simp

theorem bytes_descend {p : Path} (hne : p.bytes ≠ []) (hlast : p.bytes.getLast? ≠ some slash)
    (names : List Name) :
    (p.descend names).bytes = p.bytes ++ (names.map Name.bytes).flatMap (slash :: ·) := by
  rw [← foldl_push_names, bytes_foldl_push hne hlast (isStep_of_mem_names names), List.map_map]
  rfl

end Path

namespace Workspace

variable {w : Workspace} {p : Path} {keepLast : Bool}

theorem find_of_admissible (habs : p.isAbsolute = true) (hp : p.Admissible) (keepLast : Bool) :
    w.find keepLast p = w.files.walk keepLast maxLinks [] p.runs := by
  have hshort : ¬ pathLengthLimit ≤ p.bytes.length := Nat.not_le.mpr hp.short
  simp only [find, hp.noNul, Path.ne_nil_of_isAbsolute habs, hshort, habs, if_false, if_true]

/-- Too many links are met on the way only. -/
theorem walk_of_linkLoop (habs : p.isAbsolute = true)
    (h : w.lookup keepLast p = .error .linkLoop) :
    w.files.walk keepLast maxLinks [] p.runs = .error .linkLoop := by
  have hfind : w.find keepLast p = .error .linkLoop := by
    unfold lookup locate at h
    rcases hfound : w.find keepLast p with fault | ⟨loc | loc, left⟩
    · simpa [hfound] using h
    · simp only [hfound] at h
      split at h <;> cases h
    · simp [hfound] at h
  unfold find at hfind
  split at hfind
  · cases hfind
  · split at hfind
    · cases hfind
    · split at hfind
      · cases hfind
      · simpa only [habs, if_true] using hfind

theorem lookup_ne_error {found : Location × Object} (h : w.lookup false p = .ok found)
    (keepLast : Bool) (fault : Fault) : w.lookup keepLast p ≠ .error fault := by
  intro hfault
  cases keepLast with
  | false =>
      rw [h] at hfault
      cases hfault
  | true =>
      rcases w.lookup_true_cases p with hsame | ⟨_, _, hlink⟩
      · rw [hsame, h] at hfault
        cases hfault
      · rw [hlink] at hfault
        cases hfault

end Workspace

/-- A directory in a workspace, with an absolute path that leads to it. -/
structure Site where
  workspace : Workspace
  root : Path
  top : Location
  absolute : root.isAbsolute = true
  leads : workspace.lookup false root = .ok (top, .directory)

namespace Site

variable {s t : Site}

/-- What is below the directory. -/
def tree (s : Site) : Tree := s.workspace.files.treeAt s.top

/-- The path that goes down from the root by names. -/
def path (s : Site) (names : List Name) : Path := s.root.descend names

/-- What can be looked up below one root has a path below the other that is not too long to be
looked up. -/
def ShortAt (s t : Site) : Prop :=
  ∀ names keepLast found, s.workspace.lookup keepLast (s.path names) = .ok found →
    (t.path names).bytes.length < pathLengthLimit

/-- What can be looked up below one root does not come upon too many links below the other. -/
def FewLinksAt (s t : Site) : Prop :=
  ∀ names keepLast found, s.workspace.lookup keepLast (s.path names) = .ok found →
    t.workspace.lookup keepLast (t.path names) ≠ .error .linkLoop

theorem isAbsolute_path (s : Site) (names : List Name) : (s.path names).isAbsolute = true :=
  Path.isAbsolute_descend names s.absolute

/-- A path below the root holds a NUL byte only where a name does. -/
theorem notMem_zero_path {names : List Name} :
    (0 : UInt8) ∉ (s.path names).bytes ↔ ∀ n ∈ names, (0 : UInt8) ∉ n.bytes := by
  have hroot := (Workspace.admissible_of_lookup s.absolute s.leads).noNul
  rw [Path.mem_bytes_iff (by decide) (by decide)] at hroot ⊢
  simp only [not_exists, not_and] at hroot
  rw [path, Path.steps_descend]
  simp only [List.mem_append, List.mem_map, not_exists, not_and]
  constructor
  · intro h n hn
    exact h (.name n) (.inr ⟨n, hn, rfl⟩)
  · rintro h c (hc | ⟨n, hn, rfl⟩)
    · exact hroot c hc
    · exact h n hn

/-- The links that the way to the directory leaves to follow. -/
def left (s : Site) : Nat :=
  match s.workspace.find false s.root with
  | .ok (_, left) => left
  | .error _ => 0

theorem walk_root (s : Site) :
    s.workspace.files.walk false maxLinks [] s.root.runs = .ok (.object s.top, s.left) := by
  obtain ⟨links, hfind⟩ := Workspace.locate_eq (Workspace.lookup_eq s.leads).1
  have hleft : s.left = links := by simp only [left, hfind]
  rw [hleft]
  exact ((Workspace.find_eq_ok_iff s.absolute).mp hfind).2

theorem left_le (s : Site) : s.left ≤ maxLinks :=
  FileSystem.left_le_of_walk s.walk_root

/-- A look-up below the root goes on from the directory, with the links that are left. -/
theorem walk_path (s : Site) (keepLast : Bool) {names : List Name} (hnames : names ≠ []) :
    s.workspace.files.walk keepLast maxLinks [] (s.path names).runs =
      s.workspace.files.walk keepLast s.left s.top (names.map Name.bytes) := by
  obtain ⟨n, more, rfl⟩ := List.exists_cons_of_ne_nil hnames
  rw [path, Path.runs_descend _ hnames, List.map_cons, FileSystem.walk_append,
    FileSystem.walk_names s.walk_root]

variable {keepLast : Bool} {names : List Name} {loc inner : Location} {o : Object}

/-- What is found below the root is found in the tree. -/
theorem exists_walk_of_lookup (h : s.tree.Enclosed) (hnames : names ≠ [])
    (hlook : s.workspace.lookup keepLast (s.path names) = .ok (loc, o)) :
    ∃ inner left, loc = inner ++ s.top ∧ s.tree inner = some o ∧
      s.tree.walk keepLast s.left [] (names.map Name.bytes) =
        some (.ok (.object inner, left)) := by
  obtain ⟨_, ⟨left, hwalk⟩, hobj⟩ :=
    (Workspace.lookup_eq_ok_iff (s.isAbsolute_path names)).mp hlook
  have hstays : s.tree.walk keepLast s.left [] (names.map Name.bytes) ≠ none :=
    Tree.walk_names_ne_none h s.left_le [] names
  obtain ⟨outcome, houtcome⟩ := Option.ne_none_iff_exists'.mp hstays
  have hraised := FileSystem.walk_of_tree houtcome
  rw [List.nil_append, ← s.walk_path keepLast hnames, hwalk] at hraised
  rcases outcome with _ | ⟨inner | inner, _⟩
  · cases hraised
  · cases hraised
    exact ⟨inner, _, rfl, hobj, houtcome⟩
  · cases hraised

/-- What is found in the tree is found below the root, within the limits of a look-up. -/
theorem lookup_of_walk {links left : Nat} (hnames : names ≠ []) (hobj : s.tree inner = some o)
    (hwalk : s.tree.walk keepLast links [] (names.map Name.bytes) =
      some (.ok (.object inner, left)))
    (hadmissible : (s.path names).Admissible)
    (hloop : s.workspace.lookup keepLast (s.path names) ≠ .error .linkLoop) :
    s.workspace.lookup keepLast (s.path names) = .ok (inner ++ s.top, o) := by
  have hfind := Workspace.find_of_admissible (w := s.workspace) (s.isAbsolute_path names)
    hadmissible keepLast
  rw [s.walk_path keepLast hnames] at hfind
  have hat : s.workspace.files.objectAt (inner ++ s.top) = some o := hobj
  rcases Tree.walk_of_links hwalk s.left with hout | ⟨left', hfound⟩
  · have hfault := FileSystem.walk_of_tree hout
    rw [List.nil_append] at hfault
    rw [hfault] at hfind
    exact absurd (by simp [Workspace.lookup, Workspace.locate, hfind, Except.map]) hloop
  · have hok := FileSystem.walk_of_tree hfound
    rw [List.nil_append] at hok
    rw [hok] at hfind
    simp [Workspace.lookup, Workspace.locate, hfind, Except.map, Place.under, hat]

/-- A root that is spelled in no more bytes makes no path too long. -/
theorem shortAt_of_length_le (hs : s.root.bytes.getLast? ≠ some slash)
    (ht : t.root.bytes.getLast? ≠ some slash)
    (hlength : t.root.bytes.length ≤ s.root.bytes.length) : s.ShortAt t := by
  intro names keepLast found hlook
  have hshort := (Workspace.admissible_of_lookup (s.isAbsolute_path names) hlook).short
  rw [path, Path.bytes_descend (Path.ne_nil_of_isAbsolute s.absolute) hs, List.length_append]
    at hshort
  rw [path, Path.bytes_descend (Path.ne_nil_of_isAbsolute t.absolute) ht, List.length_append]
  omega

/-- Where at least as many links are left to follow, there are not too many. -/
theorem fewLinksAt_of_left_le (htree : s.tree = t.tree) (henclosed : s.tree.Enclosed)
    (hleft : s.left ≤ t.left) : s.FewLinksAt t := by
  rintro names keepLast ⟨loc, o⟩ hlook hloop
  by_cases hnames : names = []
  · subst hnames
    exact Workspace.lookup_ne_error t.leads keepLast .linkLoop hloop
  · have hfault := Workspace.walk_of_linkLoop (t.isAbsolute_path names) hloop
    rw [t.walk_path keepLast hnames] at hfault
    obtain ⟨inner, left, rfl, _, hwalk⟩ := exists_walk_of_lookup henclosed hnames hlook
    rw [htree] at hwalk
    obtain ⟨d, hd⟩ := Nat.exists_eq_add_of_le hleft
    rcases t.tree.walk_add keepLast d s.left [] (names.map Name.bytes) with hout | hmore
    · rw [hwalk] at hout
      cases hout
    · rw [hwalk, ← hd] at hmore
      have hfound := FileSystem.walk_of_tree hmore
      rw [List.nil_append, hfault] at hfound
      cases hfound

end Site

/-- Two directories hold the same tree, in which the same directories can be listed. No link leads
out of it, and no path is too long. -/
structure SameTree (s t : Site) : Prop where
  tree : s.tree = t.tree
  listed : ∀ inner, inner ++ s.top ∈ s.workspace.files.unlisted ↔
    inner ++ t.top ∈ t.workspace.files.unlisted
  enclosed : s.tree.Enclosed
  shortHere : s.workspace.files.Short
  shortThere : t.workspace.files.Short
  shortOver : s.ShortAt t
  shortBack : t.ShortAt s

/-- They hold the same tree, and the links on the way to either of them leave enough for those on
the ways below it. -/
structure Twins (s t : Site) : Prop extends SameTree s t where
  linksThere : s.FewLinksAt t
  linksBack : t.FewLinksAt s

/-- In one file system, roots that are spelled in as many bytes need nothing but the same place. -/
theorem SameTree.of_length_eq {s t : Site} (hfiles : t.workspace.files = s.workspace.files)
    (htop : t.top = s.top) (henclosed : s.tree.Enclosed) (hshort : s.workspace.files.Short)
    (hs : s.root.bytes.getLast? ≠ some slash) (ht : t.root.bytes.getLast? ≠ some slash)
    (hlength : s.root.bytes.length = t.root.bytes.length) : SameTree s t :=
  { tree := by rw [Site.tree, Site.tree, hfiles, htop]
    listed := fun inner => by rw [hfiles, htop]
    enclosed := henclosed
    shortHere := hshort
    shortThere := hfiles ▸ hshort
    shortOver := Site.shortAt_of_length_le hs ht hlength.ge
    shortBack := Site.shortAt_of_length_le ht hs hlength.le }

/-- Directories with as many links on the way to them need nothing but the same tree. -/
theorem SameTree.twins {s t : Site} (h : SameTree s t) (hleft : s.left = t.left) : Twins s t :=
  ⟨h, Site.fewLinksAt_of_left_le h.tree h.enclosed hleft.le,
    Site.fewLinksAt_of_left_le h.tree.symm (h.tree ▸ h.enclosed) hleft.ge⟩

namespace Twins

variable {s t : Site} {keepLast : Bool} {names : List Name} {loc : Location} {o : Object}

theorem symm (h : Twins s t) : Twins t s :=
  { tree := h.tree.symm
    listed := fun inner => (h.listed inner).symm
    enclosed := h.tree ▸ h.enclosed
    shortHere := h.shortThere
    shortThere := h.shortHere
    shortOver := h.shortBack
    shortBack := h.shortOver
    linksThere := h.linksBack
    linksBack := h.linksThere }

/-- What a path leads to below one root, it leads to below the other. -/
theorem lookup (h : Twins s t) (hnames : keepLast = false ∨ names ≠ [])
    (hlook : s.workspace.lookup keepLast (s.path names) = .ok (loc, o)) :
    ∃ inner, loc = inner ++ s.top ∧
      t.workspace.lookup keepLast (t.path names) = .ok (inner ++ t.top, o) := by
  by_cases hnil : names = []
  · subst hnil
    obtain rfl := hnames.resolve_right fun hne => hne rfl
    obtain ⟨rfl, rfl⟩ := Prod.mk.inj (Except.ok.inj (hlook.symm.trans s.leads))
    exact ⟨[], rfl, t.leads⟩
  · obtain ⟨inner, left, rfl, hobj, hwalk⟩ :=
      Site.exists_walk_of_lookup h.enclosed hnil hlook
    have hloop := h.linksThere names keepLast _ hlook
    have hnul := (Workspace.admissible_of_lookup (s.isAbsolute_path names) hlook).noNul
    have hadmissible : (t.path names).Admissible :=
      ⟨Site.notMem_zero_path.mpr (Site.notMem_zero_path.mp hnul),
        h.shortOver names keepLast _ hlook⟩
    rw [h.tree] at hobj hwalk
    exact ⟨inner, rfl, Site.lookup_of_walk hnil hobj hwalk hadmissible hloop⟩

theorem leadsToFile_iff (h : Twins s t) (names : List Name) :
    t.workspace.LeadsToFile (t.path names) ↔ s.workspace.LeadsToFile (s.path names) := by
  constructor
  · rintro ⟨_, o, hlook, hregular⟩
    obtain ⟨_, _, hlook'⟩ := h.symm.lookup (.inl rfl) hlook
    exact ⟨_, o, hlook', hregular⟩
  · rintro ⟨_, o, hlook, hregular⟩
    obtain ⟨_, _, hlook'⟩ := h.lookup (.inl rfl) hlook
    exact ⟨_, o, hlook', hregular⟩

theorem namesLink_iff (h : Twins s t) (hnames : names ≠ []) :
    t.workspace.NamesLink (t.path names) ↔ s.workspace.NamesLink (s.path names) := by
  constructor
  · rintro ⟨_, target, hlook⟩
    obtain ⟨_, _, hlook'⟩ := h.symm.lookup (.inr hnames) hlook
    exact ⟨_, target, hlook'⟩
  · rintro ⟨_, target, hlook⟩
    obtain ⟨_, _, hlook'⟩ := h.lookup (.inr hnames) hlook
    exact ⟨_, target, hlook'⟩

theorem lists (h : Twins s t) (hlists : s.workspace.Lists (s.path names)) :
    t.workspace.Lists (t.path names) := by
  obtain ⟨_, hlook, hlisted⟩ := hlists
  obtain ⟨inner, rfl, hlook'⟩ := h.lookup (.inl rfl) hlook
  exact ⟨_, hlook', mt (h.listed inner).mpr hlisted⟩

theorem entries (h : Twins s t) (names : List Name) :
    t.workspace.entries (t.path names) = s.workspace.entries (s.path names) := by
  by_cases hlists : s.workspace.Lists (s.path names)
  · obtain ⟨_, hlook, hlisted⟩ := hlists
    obtain ⟨inner, rfl, hlook'⟩ := h.lookup (.inl rfl) hlook
    rw [Workspace.entries_of_directory hlook hlisted,
      Workspace.entries_of_directory hlook' (mt (h.listed inner).mpr hlisted)]
    exact (FileSystem.entries_eq_of_treeAt h.tree inner).symm
  · rw [Workspace.entries_of_not_lists hlists,
      Workspace.entries_of_not_lists (mt h.symm.lists hlists)]

/-- Whatever can be looked up has a canonical path at both. -/
theorem resolves (h : Twins s t) {found : Location × Object}
    (hlook : s.workspace.lookup false (s.path names) = .ok found) :
    t.workspace.resolves (t.path names) = s.workspace.resolves (s.path names) := by
  obtain ⟨_, _, hlook'⟩ := h.lookup (.inl rfl) hlook
  rw [Workspace.resolves_of_lookup h.shortHere hlook,
    Workspace.resolves_of_lookup h.shortThere hlook']

end Twins

end ArtifactHarvest
