import ArtifactHarvest.Expansion.View
import ArtifactHarvest.FileSystem.Descent
import ArtifactHarvest.Glob.Matching
import ArtifactHarvest.Pattern.Plan

/-!
The walk of a pattern's segments below a directory. Each step uses up a segment or, behind `**`,
some of the room that is left: `room_child` says that going down takes room.
-/

namespace ArtifactHarvest

namespace View

theorem classify_directory {v : View} {p : Path} {loc : Location}
    (h : v.classify p = .directory loc) :
    v.workspace.files.objectAt loc = some .directory ∧
      (v.followsLinks = false → v.workspace.lookup true p = .ok (loc, .directory)) := by
  simp only [classify] at h
  split at h
  · rename_i l hl
    cases h
    exact ⟨(Workspace.lookup_eq hl).2, fun _ => hl⟩
  · split at h
    · rename_i l hl
      split at h
      · cases h
        rename_i hf
        exact ⟨(Workspace.lookup_eq hl).2, fun hn => by simp [hn] at hf⟩
      · cases h
    · split at h <;> cases h
    · cases h
  · split at h <;> cases h
  · cases h

theorem lookup_of_mem_entries {w : Workspace} {dir : Path} {n : Name} (h : n ∈ w.entries dir) :
    ∃ loc, w.lookup false dir = .ok (loc, .directory) := by
  simp only [Workspace.entries, Workspace.list] at h
  split at h
  · rename_i names hlist
    split at hlist
    · exact ⟨_, by assumption⟩
    · cases hlist
    · cases hlist
  · cases h

theorem filter_length_lt {α : Type} {p q : α → Bool} {xs : List α} {a : α}
    (hsub : ∀ x, q x = true → p x = true) (ha : a ∈ xs) (hp : p a = true) (hq : q a = false) :
    (xs.filter q).length < (xs.filter p).length := by
  have hle : ∀ ys : List α, (ys.filter q).length ≤ (ys.filter p).length := fun ys => by
    simpa only [← List.countP_eq_length_filter] using
      List.countP_mono_left fun x _ hx => hsub x hx
  obtain ⟨front, back, rfl⟩ := List.append_of_mem ha
  have hfront := hle front
  have hback := hle back
  simp only [List.filter_append, List.filter_cons, hp, hq, if_true, Bool.false_eq_true, if_false,
    List.length_append, List.length_cons]
  omega

/-- Going down to a listed directory takes room, under either policy on links. -/
theorem room_child {v : View} {dir : Path} {n : Name} {loc : Location}
    {branch inner : List Location} (hn : n ∈ v.workspace.entries dir)
    (hk : v.classify (dir.child n) = .directory loc)
    (he : v.enter? branch (dir.child n) loc = some inner) :
    v.room (dir.child n) inner < v.room dir branch := by
  obtain ⟨hobj, hlook⟩ := classify_directory hk
  cases hf : v.followsLinks with
  | true =>
      simp only [enter?, hf, if_true] at he
      split at he
      · rename_i hmay
        cases he
        obtain ⟨_, hfresh⟩ := Bool.and_eq_true_iff.mp hmay
        simp only [room, hf, if_true]
        refine filter_length_lt (a := loc) ?_ (FileSystem.mem_directories hobj) ?_ ?_
        · intro x hx
          simp only [List.mem_cons, not_or, decide_eq_true_eq] at hx ⊢
          exact hx.2
        · exact hfresh
        · simp
      · cases he
  | false =>
      simp only [room, hf, Bool.false_eq_true, if_false, depth]
      obtain ⟨outer, hdir⟩ := lookup_of_mem_entries hn
      obtain ⟨hloc, hchild⟩ := Workspace.locate_child hdir (hlook hf)
      have hd := (Workspace.lookup_eq hdir).1
      have hb := FileSystem.length_le_height hobj
      simp only [hd, hchild]
      subst hloc
      simp only [List.length_cons] at hb ⊢
      omega

/-- The names that a segment asks about in a directory. A named entry is asked for without listing
the directory. -/
def candidates (v : View) (dir : Path) : Segment → List Name
  | .named n => [n]
  | .matching g => (v.workspace.entries dir).filter fun n => g.accepts n.text
  | .anyDepth | .parent => []

/-- The files that the segments match below a directory, in the order of the walk. `branch` holds
the directories that were entered on the way, where links are followed. -/
def matchesBelow (v : View) (segments : List Segment) (dir : Path) (branch : List Location) :
    List Path :=
  match segments with
  | [] => []
  | .parent :: rest => matchesBelow v rest dir.up (v.leave branch)
  | .anyDepth :: rest =>
      let entries := v.workspace.entries dir
      let near :=
        match rest with
        | [] => (entries.map dir.child).filter fun p => v.classify p = .file
        | next :: more => matchesBelow v (next :: more) dir branch
      near ++ entries.attach.flatMap fun ⟨n, _⟩ =>
        match _hk : v.classify (dir.child n) with
        | .directory loc =>
            match _he : v.enter? branch (dir.child n) loc with
            | some inner => matchesBelow v (.anyDepth :: rest) (dir.child n) inner
            | none => []
        | _ => []
  | segment :: rest =>
      (v.candidates dir segment).flatMap fun n =>
        match v.classify (dir.child n), rest with
        | .file, [] => [dir.child n]
        | .directory loc, next :: more =>
            match v.enter? branch (dir.child n) loc with
            | some inner => matchesBelow v (next :: more) (dir.child n) inner
            | none => []
        | _, _ => []
termination_by (segments.length, v.room dir branch)
decreasing_by
  · apply Prod.Lex.left
    simp
  · apply Prod.Lex.left
    simp
  · apply Prod.Lex.right
    exact room_child (by assumption) (by assumption) (by assumption)
  · apply Prod.Lex.left
    simp

end View

end ArtifactHarvest
