import ArtifactHarvest.Proofs.FileSystem.Moving
import ArtifactHarvest.Proofs.Path.Clean
import ArtifactHarvest.Proofs.Path.Normal

/-!
Ways on which no link is followed. They lead where their steps say (`direct_of_walk`): each name
goes one level down and each `..` one level up. So the clean form of a path leads to the same place
as the path (`find_clean`), in particular where there is no link at all (`lookup_clean`). Main
statement: `Path.clean_normal_form`.
-/

namespace ArtifactHarvest

namespace FileSystem

variable {fs : FileSystem} {keepLast : Bool} {links left : Nat} {dir loc : Location}

/-- Where no link is followed, it makes no difference that one in last position would be kept. -/
theorem walk_keep {runs : List Bytes} {place : Place}
    (h : fs.walk false links loc runs = .ok (place, links)) (keepLast : Bool) :
    fs.walk keepLast links loc runs = .ok (place, links) := by
  fun_induction fs.walk false links loc runs with
  | case11 loc run todo hdir hd hu n hn hlen target hlink links hkeep ih =>
      have hleft := left_le_of_walk h
      omega
  | _ => simp_all [walk]

/-- A name that is not followed as a link leads one level down. -/
theorem eq_cons_of_walk_name {n : Name}
    (h : fs.walk keepLast links dir [n.bytes] = .ok (.object loc, links)) : loc = n :: dir := by
  obtain ⟨_, _, hdot, hup⟩ := n.proper
  rw [walk] at h
  simp only [hdot, hup, if_false, Name.ofBytes?_bytes] at h
  split at h
  · cases h
  · split at h
    · cases h
    · split at h
      · simp at h
      · split at h
        · cases h
          rfl
        · split at h
          · cases h
          · -- following it would have used up one of the links
            have hleft := left_le_of_walk h
            omega
      · simp only [walk] at h
        cases h
        rfl
  · cases h

theorem walk_up (h : fs.walk keepLast links dir [[dot, dot]] = .ok (.object loc, left)) :
    loc = dir.tail := by
  rw [walk] at h
  split at h
  · cases h
  · simp only [walk, List.cons.injEq, List.cons_ne_nil, and_false, if_false, if_true] at h
    cases h
    rfl
  · cases h

/-- The names of a location lead to it from the root, and none of them is followed as a link. -/
def Direct (fs : FileSystem) (keepLast : Bool) (links : Nat) (loc : Location) : Prop :=
  fs.walk keepLast links [] (loc.reverse.map Name.bytes) = .ok (.object loc, links)

theorem direct_root : fs.Direct keepLast links [] := by
  rw [Direct, List.reverse_nil, List.map_nil, walk]

/-- A way on which no link is followed has such a beginning. -/
theorem exists_walk_of_append {front : List Bytes} {run : Bytes}
    (h : fs.walk keepLast links [] (front ++ [run]) = .ok (.object loc, links)) :
    ∃ dir, fs.walk false links [] front = .ok (.object dir, links) ∧
      fs.walk keepLast links dir [run] = .ok (.object loc, links) := by
  rw [walk_append] at h
  split at h
  · rename_i dir left hfront
    have hfirst := left_le_of_walk hfront
    have hlast := left_le_of_walk h
    obtain rfl : left = links := by omega
    exact ⟨dir, hfront, h⟩
  · cases h
  · cases h

theorem Direct.child {n : Name} (hdir : fs.Direct false links dir)
    (h : fs.walk keepLast links dir [n.bytes] = .ok (.object loc, links)) :
    fs.Direct keepLast links (n :: dir) := by
  obtain rfl := eq_cons_of_walk_name h
  rw [Direct, List.reverse_cons, List.map_append, List.map_singleton, walk_append, hdir]
  exact h

theorem Direct.outer (h : fs.Direct keepLast links loc) (keepOuter : Bool) :
    fs.Direct keepOuter links loc.tail := by
  cases loc with
  | nil => exact direct_root
  | cons n outer =>
      rw [Direct, List.reverse_cons, List.map_append, List.map_singleton] at h
      obtain ⟨dir, hfront, hlast⟩ := exists_walk_of_append h
      have hsame := eq_cons_of_walk_name hlast
      rw [List.cons.injEq] at hsame
      rw [hsame.2]
      exact walk_keep (hsame.2 ▸ hfront) keepOuter

/-- One step leads where it says. -/
theorem Direct.step {c : Component} (hc : c.isStep = true) (hdir : fs.Direct false links dir)
    (h : fs.walk keepLast links dir [c.bytes] = .ok (.object loc, links)) :
    loc = c.onto id dir ∧ fs.Direct keepLast links loc := by
  cases c with
  | root | here => cases hc
  | up =>
      obtain rfl := walk_up h
      exact ⟨rfl, hdir.outer keepLast⟩
  | name n =>
      obtain rfl := eq_cons_of_walk_name h
      exact ⟨rfl, hdir.child h⟩

/-- Steps on which no link is followed lead to what settles of them. -/
theorem direct_of_walk {cs : List Component} (hcs : ∀ c ∈ cs, c.isStep = true)
    (h : fs.walk keepLast links [] (cs.map Component.bytes) = .ok (.object loc, links)) :
    loc = Component.settle cs.reverse ∧ fs.Direct keepLast links loc := by
  induction cs using List.reverseRecOn generalizing keepLast loc with
  | nil =>
      rw [List.map_nil, walk] at h
      cases h
      exact ⟨rfl, direct_root⟩
  | append_singleton front c ih =>
      rw [List.map_append, List.map_singleton] at h
      obtain ⟨dir, hfront, hlast⟩ := exists_walk_of_append h
      obtain ⟨rfl, hdir⟩ := ih (fun d hd => hcs d (List.mem_append_left [c] hd)) hfront
      obtain ⟨rfl, hloc⟩ := hdir.step (hcs c (List.mem_append_right front List.mem_cons_self)) hlast
      rw [List.reverse_append]
      exact ⟨rfl, hloc⟩

/-- A way on which no link is followed leads to the same place without its dots. -/
theorem walk_undotted {runs : List Bytes}
    (h : fs.walk keepLast links [] runs = .ok (.object loc, links)) :
    fs.walk keepLast links [] (runs.filter (· ≠ [dot])) = .ok (.object loc, links) := by
  by_cases hlast : runs.getLast? = some [dot]
  · obtain ⟨front, rfl⟩ := List.getLast?_eq_some_iff.mp hlast
    obtain ⟨dir, hfront, hdot⟩ := exists_walk_of_append h
    obtain ⟨rfl, _, _⟩ := walk_dot hdot
    have hrest := walk_keep (walk_filter_dot hfront nofun) keepLast
    simpa using hrest
  · exact walk_filter_dot h fun _ => hlast

/-- No object is a link. -/
def LinkFree (fs : FileSystem) : Prop :=
  ∀ loc target, fs.objectAt loc ≠ some (.link target)

/-- Where there is no link, none is followed. -/
theorem LinkFree.left_eq (h : fs.LinkFree) {runs : List Bytes} {place : Place}
    (hwalk : fs.walk keepLast links loc runs = .ok (place, left)) : left = links := by
  fun_induction fs.walk keepLast links loc runs with
  | case11 loc run todo hdir hd hu n hn hlen target hlink links hkeep ih =>
      exact absurd hlink (h _ target)
  | _ => simp_all

end FileSystem

/-! ### What settles is shorter -/

theorem Text.intercalate_sublist {α : Type} {sep : α} {kept runs : List (List α)}
    (h : kept.Sublist runs) :
    (List.intercalate [sep] kept).Sublist (List.intercalate [sep] runs) := by
  induction h with
  | slnil => exact .slnil
  | cons run hkept ih =>
      rename_i kept runs
      rw [intercalate_cons]
      cases runs with
      | nil =>
          rw [List.sublist_nil.mp hkept]
          exact List.nil_sublist _
      | cons next more =>
          rw [intercalate_cons] at ih
          exact ih.trans ((List.sublist_cons_self sep _).trans (List.sublist_append_right run _))
  | cons_cons run hkept ih =>
      rw [intercalate_cons, intercalate_cons]
      exact (List.Sublist.refl run).append (hkept.flatMap (sep :: ·))

theorem Component.settle_sublist (cs : List Component) :
    ((settle cs).map Component.name).Sublist cs := by
  induction cs with
  | nil => exact .slnil
  | cons c outer ih =>
      cases c with
      | root | here => exact ih.cons _
      | up =>
          rw [settle, onto, List.map_tail]
          exact ((List.tail_sublist _).trans ih).cons _
      | name n => exact ih.cons_cons _

namespace Path

variable {p : Path}

/-- The clean form is spelled with some of the bytes of the path. -/
theorem clean_sublist (h : p.isAbsolute = true) : p.clean.bytes.Sublist p.bytes := by
  obtain ⟨text, htext⟩ := isAbsolute_iff.mp h
  have hfree : ∀ run ∈ List.splitOn slash text, slash ∉ run := fun run hrun =>
    Text.notMem_of_mem_splitOn hrun
  have hsteps : (p.steps.map Component.bytes).Sublist (List.splitOn slash text) := by
    rw [steps_of_isAbsolute h, htext, List.drop_succ_cons, List.drop_zero,
      ← filter_runs_eq_bytes hfree]
    exact List.filter_sublist.trans List.filter_sublist
  have hsettled := (Component.settle_sublist p.steps.reverse).reverse
  rw [List.reverse_reverse, ← List.map_reverse] at hsettled
  have hnames := (hsettled.map Component.bytes).trans hsteps
  rw [List.map_map] at hnames
  have hruns : List.intercalate [slash] (List.splitOn slash text) = text :=
    List.intercalate_splitOn slash
  rw [clean_eq_ofNames h, bytes_ofNames, htext, ← hruns]
  exact (Text.intercalate_sublist hnames).cons_cons slash

theorem Admissible.clean (hp : p.Admissible) (h : p.isAbsolute = true) : p.clean.Admissible :=
  ⟨fun hnul => hp.noNul ((clean_sublist h).mem hnul),
    Nat.lt_of_le_of_lt (clean_sublist h).length_le hp.short⟩

end Path

namespace Workspace

variable {w : Workspace} {p : Path} {keepLast : Bool} {loc : Location}

theorem find_ofNames (hp : (Path.ofNames loc.reverse).Admissible)
    (h : w.files.Direct keepLast maxLinks loc) :
    w.find keepLast (.ofNames loc.reverse) = .ok (.object loc, maxLinks) := by
  rw [find_of_admissible (Path.isAbsolute_ofNames _) hp]
  by_cases hloc : loc = []
  · subst hloc
    have hslash : (Path.ofNames []).runs = [[dot]] := by decide
    simp [hslash, FileSystem.walk, FileSystem.objectAt]
  · rw [Path.ofNames, Path.runs_descend _ (by simpa using hloc)]
    exact h

/-- **Cleaning does not lead elsewhere where no link is followed.** -/
theorem find_clean (habs : p.isAbsolute = true)
    (h : w.find keepLast p = .ok (.object loc, maxLinks)) :
    w.find keepLast p.clean = .ok (.object loc, maxLinks) := by
  obtain ⟨hp, hwalk⟩ := (find_eq_ok_iff habs).mp h
  have hsteps := FileSystem.walk_undotted hwalk
  rw [Path.filter_runs] at hsteps
  obtain ⟨rfl, hdirect⟩ :=
    FileSystem.direct_of_walk (fun c hc => Path.isStep_of_mem_steps hc) hsteps
  have hclean := hp.clean habs
  rw [Path.clean_eq_ofNames habs] at hclean ⊢
  exact find_ofNames hclean hdirect

theorem lookup_clean (hfree : w.files.LinkFree) (habs : p.isAbsolute = true)
    {found : Location × Object} (h : w.lookup keepLast p = .ok found) :
    w.lookup keepLast p.clean = .ok found := by
  obtain ⟨loc, o⟩ := found
  obtain ⟨hlocate, hobj⟩ := lookup_eq h
  obtain ⟨left, hfind⟩ := locate_eq hlocate
  obtain rfl := hfree.left_eq ((find_eq_ok_iff habs).mp hfind).2
  simp only [lookup, locate, find_clean habs hfind, hobj]

end Workspace

namespace Path

/-- The text of the clean form is that of the climbs and names of its route. -/
theorem bytes_clean (p : Path) :
    p.clean.bytes = (if p.isAbsolute then [slash] else []) ++ List.intercalate [slash]
      (List.replicate p.route.climbs [dot, dot] ++ p.route.names.reverse.map Name.bytes) := by
  have hsteps := isStep_of_mem_climbs p.route.climbs p.route.names.reverse
  have hbytes := bytes_ofComponents hsteps
  rw [List.map_append, List.map_replicate, List.map_map] at hbytes
  rw [← rooted_route, clean, Route.toPath, Route.components]
  cases p.route.rooted with
  | true =>
      simp only [if_true, List.singleton_append]
      rw [List.cons_append, bytes_ofComponents_root hsteps, hbytes]
      rfl
  | false =>
      simp only [Bool.false_eq_true, if_false, List.nil_append]
      rw [hbytes]
      rfl

/-- **Cleaning leaves a normal form.** No `.` is left in it, and `..` only in front and only where
the path is relative. It is absolute where the path is, and it is clean. It makes no difference to
clean a path before something is joined behind it. Where no object is a link, it leads to what the
path leads to. -/
theorem clean_normal_form (p : Path) :
    (∃ (climbs : Nat) (names : List Name), (p.isAbsolute = true → climbs = 0) ∧
      p.clean.components = (if p.isAbsolute then [.root] else []) ++
        List.replicate climbs .up ++ names.map .name ∧
      p.clean.bytes = (if p.isAbsolute then [slash] else []) ++
        List.intercalate [slash] (List.replicate climbs [dot, dot] ++ names.map Name.bytes)) ∧
    p.clean.isAbsolute = p.isAbsolute ∧ p.clean.clean = p.clean ∧
    (∀ other : Path, other.isAbsolute = false →
      (p.join other).clean = (p.clean.join other).clean) ∧
    ∀ (w : Workspace) (keepLast : Bool) (found : Location × Object), w.files.LinkFree →
      p.isAbsolute = true → w.lookup keepLast p = .ok found →
        w.lookup keepLast p.clean = .ok found := by
  refine ⟨⟨p.route.climbs, p.route.names.reverse, ?_, ?_, p.bytes_clean⟩, isAbsolute_clean p,
    clean_clean p, ?_, ?_⟩
  · intro habs
    exact p.route.grounded (p.rooted_route.trans habs)
  · rw [components_clean_eq, Route.components, rooted_route]
  · intro other hother
    exact (clean_join hother p).symm
  · intro w keepLast found hfree habs hlook
    exact w.lookup_clean hfree habs hlook

theorem small_cleaned :
    (ofText "../r/x").isAbsolute = false ∧ Workspace.small.files.LinkFree ∧
      (ofText "/r/../r/./").isAbsolute = true ∧
      Workspace.small.lookup false (ofText "/r/../r/./") =
        .ok ([⟨[114], by decide⟩], .directory) ∧
      ((ofText "/r/../r/./").join (ofText "../r/x")).clean =
        ((ofText "/r/../r/./").clean.join (ofText "../r/x")).clean ∧
      Workspace.small.lookup false (ofText "/r/../r/./").clean =
        .ok ([⟨[114], by decide⟩], .directory) := by
  have hrelative : (ofText "../r/x").isAbsolute = false := by decide
  have hfree : Workspace.small.files.LinkFree := by
    intro loc target hlink
    cases loc with
    | nil => cases hlink
    | cons n outer =>
        have hmem := FileSystem.mem_objects_of_objectAt (List.cons_ne_nil n outer) hlink
        simp [Workspace.small] at hmem
  have habs : (ofText "/r/../r/./").isAbsolute = true := by decide
  have hlook : Workspace.small.lookup false (ofText "/r/../r/./") =
      .ok ([⟨[114], by decide⟩], .directory) := by cbv
  obtain ⟨_, _, _, hjoin, hclean⟩ := clean_normal_form (ofText "/r/../r/./")
  exact ⟨hrelative, hfree, habs, hlook, hjoin _ hrelative,
    hclean .small false _ hfree habs hlook⟩

end Path

end ArtifactHarvest
