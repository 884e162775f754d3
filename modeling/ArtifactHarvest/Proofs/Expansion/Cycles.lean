import ArtifactHarvest.Proofs.Expansion.Narrowing
import ArtifactHarvest.Proofs.FileSystem.Spelling

/-!
Ways that come back to a directory. With more directories on the branch the walk leaves matches out,
and nothing else changes (`exists_filter_longer`). Whether a path passes a directory twice is read
off its ancestors (`Workspace.circles`), and comes to the same as the names that lead down to it
coming back (`circles_eq_false_iff`).
-/

namespace ArtifactHarvest

namespace View

variable {v : View}

theorem narrows_longer (hv : v.followsLinks = true) (extra : List Location) :
    Narrows v v (fun cs => ∃ loc ∈ extra, v.workspace.HasAt false cs loc .directory)
      fun _ branch branch' => branch' = branch ++ extra where
  workspace := rfl
  staysOut := by
    rintro dir n branch _ habs rfl ⟨loc, hloc, hat⟩
    rw [Option.eq_none_iff_forall_ne_some]
    intro inner hentry
    obtain ⟨loc', hkind, henter⟩ := branchIn?_eq_some_iff.mp hentry
    have hat' := Workspace.hasAt_of_lookup (Path.isAbsolute_child n habs) (lookup_of_classify hkind)
    obtain rfl := hat.loc_eq hat'
    simp [enter?, hv, hloc] at henter
  goesAlong := by
    rintro dir n branch _ habs rfl hno
    unfold branchIn?
    cases hkind : v.classify (dir.child n) with
    | file | other => exact .inl ⟨rfl, rfl⟩
    | directory loc =>
        have hat := Workspace.hasAt_of_lookup (Path.isAbsolute_child n habs)
          (lookup_of_classify hkind)
        have hextra : loc ∉ extra := fun hmem => hno ⟨loc, hmem, hat⟩
        by_cases hresolves : v.workspace.resolves (dir.child n) = true
        · by_cases hbranch : loc ∈ branch
          · exact .inl (by simp [enter?, hv, hbranch])
          · exact .inr ⟨loc :: branch, loc :: branch ++ extra,
              by simp [enter?, hv, hresolves, hbranch],
              by simp [enter?, hv, hresolves, hbranch, hextra], rfl⟩
        · exact .inl (by simp [enter?, hv, hresolves])

/-- With more directories on the branch the walk finds less, and nothing else. -/
theorem exists_filter_longer (hv : v.followsLinks = true) {segments : List Segment} {dir : Path}
    (habs : dir.isAbsolute = true) (hparent : Segment.parent ∉ segments)
    (branch extra : List Location) :
    ∃ keep, v.matchesBelow segments dir (branch ++ extra) =
      (v.matchesBelow segments dir branch).filter keep := by
  classical
  let barred : List Component → Prop := fun cs =>
    ∃ loc ∈ extra, v.workspace.HasAt false cs loc .directory
  refine ⟨fun p => decide (Unbarred barred dir.steps p.steps.dropLast), Eq.symm ?_⟩
  apply filter_matchesBelow (narrows_longer hv extra) habs hparent rfl (List.prefix_refl _)
  · intro cs hbegins hne hcs
    exact absurd (hcs.eq_of_length_le hbegins.length_le) hne
  · intro outer n _ _
    rw [decide_eq_true_iff, Path.steps_child, List.dropLast_concat]

end View

namespace Workspace

variable {w : Workspace} {base : Path} {names : List Name}

/-- Whether two of the directories on the way from the base down to a path are the same one. -/
def circles (w : Workspace) (base p : Path) : Bool :=
  !decide ((p.ancestorsFrom base).map (w.locate false)).Nodup

/-- No directory is passed twice on the way down the names. -/
def Acyclic (w : Workspace) (base : Path) (names : List Name) : Prop :=
  ∀ front middle back, names = front ++ middle ++ back → middle ≠ [] → back ≠ [] →
    w.locate false (base.descend (front ++ middle)) ≠ w.locate false (base.descend front)

/-- No link is passed on the way down the names. -/
def Linkless (w : Workspace) (base : Path) (names : List Name) : Prop :=
  ∀ front back, names = front ++ back → front ≠ [] → back ≠ [] →
    w.NamesDirectory (base.descend front)

/-- An ancestor is where fewer of the names lead. -/
theorem locate_ancestor_descend {k : Nat} (habs : base.isAbsolute = true)
    (hfile : w.LeadsToFile (base.descend names)) (hk : k < names.length) :
    w.locate false ((base.descend names).ancestor (k + 1)) =
      w.locate false (base.descend (names.take (names.length - (k + 1)))) := by
  have hdownAbs := Path.isAbsolute_descend names habs
  have hancestorAbs := (Path.steps_ancestor hdownAbs (k + 1)).1
  have hfewerAbs := Path.isAbsolute_descend (names.take (names.length - (k + 1))) habs
  have hsteps : ((base.descend names).ancestor (k + 1)).steps =
      (base.descend (names.take (names.length - (k + 1)))).steps := by
    have hfewer : (base.descend (names.take (names.length - (k + 1)))).steps <+:
        (base.descend names).steps := by
      rw [Path.steps_descend, Path.steps_descend, List.prefix_append_right_inj]
      exact (List.take_prefix _ _).map _
    have hlength : ((base.descend names).ancestor (k + 1)).steps.length =
        (base.descend (names.take (names.length - (k + 1)))).steps.length := by
      rw [Path.length_steps_ancestor hdownAbs, Path.steps_descend, Path.steps_descend,
        List.length_append, List.length_append, List.length_map, List.length_map, List.length_take]
      omega
    exact (List.prefix_of_prefix_length_le (Path.prefix_steps_of_ancestor hdownAbs (k + 1)) hfewer
      hlength.le).eq_of_length hlength
  obtain ⟨loc, hloc⟩ : w.LeadsToDirectory (base.descend (names.take (names.length - (k + 1)))) := by
    have hsplit := List.take_append_drop (names.length - (k + 1)) names
    rw [← hsplit] at hfile
    apply hfile.names.leadsToDirectory habs
    rw [ne_eq, List.drop_eq_nil_iff]
    omega
  have hadmissible := (hfile.admissible hdownAbs).of_begins
    (Path.prefix_bytes_ancestor hdownAbs (k + 1))
  have hat := hasAt_of_lookup hfewerAbs hloc
  have hlook := (lookup_directory_iff hancestorAbs hadmissible).mpr (hsteps ▸ hat)
  rw [(lookup_eq hlook).1, (lookup_eq hloc).1]

/-- It is enough to compare the directories after so many names. -/
theorem acyclic_iff : w.Acyclic base names ↔ ∀ i j, i < j → j < names.length →
    w.locate false (base.descend (names.take j)) ≠
      w.locate false (base.descend (names.take i)) := by
  constructor
  · intro h i j hij hj
    have hmiddle := List.take_append_drop i (names.take j)
    rw [List.take_take, Nat.min_eq_left hij.le] at hmiddle
    have hsplit := List.take_append_drop j names
    rw [← hmiddle] at hsplit ⊢
    apply h _ _ _ hsplit.symm
    · rw [ne_eq, List.drop_eq_nil_iff, List.length_take]
      omega
    · rw [ne_eq, List.drop_eq_nil_iff]
      omega
  · intro h front middle back hsplit hmiddle hback
    have hmiddleLength := List.length_pos_iff.mpr hmiddle
    have hbackLength := List.length_pos_iff.mpr hback
    have hapart := h front.length (front ++ middle).length
    rw [hsplit, List.take_left, List.append_assoc, List.take_left] at hapart
    apply hapart
    · rw [List.length_append]
      omega
    · rw [List.length_append, List.length_append, List.length_append]
      omega

theorem circles_eq_false_iff (habs : base.isAbsolute = true)
    (hfile : w.LeadsToFile (base.descend names)) :
    w.circles base (base.descend names) = false ↔ w.Acyclic base names := by
  have hbegins : base.steps <+: (base.descend names).steps := by
    rw [Path.steps_descend]
    exact List.prefix_append _ _
  have hlength : (base.descend names).steps.length - base.steps.length = names.length := by
    rw [Path.steps_descend, List.length_append, List.length_map, Nat.add_sub_cancel_left]
  rw [circles, Bool.not_eq_false', decide_eq_true_iff,
    Path.ancestorsFrom_eq (Path.isAbsolute_descend names habs) habs hbegins, hlength, List.map_map,
    List.nodup_map_iff_inj_on List.nodup_range, acyclic_iff]
  constructor
  · intro hinj i j hij hj hsame
    -- after `i` names is where the ancestor is that lacks all names but `i`
    have hplace : ∀ m < names.length, w.locate false (base.descend (names.take m)) =
        w.locate false ((base.descend names).ancestor (names.length - 1 - m + 1)) := by
      intro m hm
      rw [locate_ancestor_descend habs hfile (by omega)]
      congr 3
      omega
    rw [hplace j hj, hplace i (hij.trans hj)] at hsame
    have hindex := hinj _ (List.mem_range.mpr (by omega)) _ (List.mem_range.mpr (by omega)) hsame
    omega
  · intro hacyclic
    have hapart : ∀ i j, i < j → j < names.length →
        w.locate false ((base.descend names).ancestor (i + 1)) ≠
          w.locate false ((base.descend names).ancestor (j + 1)) := by
      intro i j hij hj
      rw [locate_ancestor_descend habs hfile (hij.trans hj), locate_ancestor_descend habs hfile hj]
      apply hacyclic <;> omega
    intro i hi j hj hsame
    rw [List.mem_range] at hi hj
    rcases Nat.lt_trichotomy i j with hij | rfl | hji
    · exact absurd hsame (hapart i j hij hj)
    · rfl
    · exact absurd hsame.symm (hapart j i hji hi)

end Workspace

end ArtifactHarvest
