import ArtifactHarvest.Proofs.Expansion.Links
import ArtifactHarvest.Proofs.Expansion.Narrowing

/-!
The two policies on links compared. Where no path is too long, not following links leaves out the
paths through them, and nothing else: no directory that is reached without a link is on the branch
already (`narrows_not_follows`), and the base is refused where a link lies on the way to it
(`linkAt_of_refused`). Main statement: `found_of_not_follows`.
-/

namespace ArtifactHarvest

namespace Workspace

variable {w : Workspace}

/-- Whether a path names a link. -/
def isLink (w : Workspace) (p : Path) : Bool :=
  match w.lookup true p with
  | .ok (_, .link _) => true
  | _ => false

/-- Whether a directory on the way from the anchor to a path, the anchor itself left out, is a
link. -/
def passesLink (w : Workspace) (anchor p : Path) : Bool :=
  (p.ancestorsFrom anchor).any fun q => q.components ≠ anchor.components && w.isLink q

/-- Steps lead to a link. -/
def LinkAt (w : Workspace) (steps : List Component) : Prop :=
  ∃ loc target, w.HasAt true steps loc (.link target)

theorem isLink_iff {p : Path} : w.isLink p = true ↔ w.NamesLink p := by
  unfold isLink NamesLink
  split
  · rename_i loc target hlook
    simp [hlook]
  · rename_i hno
    constructor
    · intro h
      cases h
    · rintro ⟨loc, target, hlook⟩
      exact absurd hlook (hno loc target)

/-- The links that a path passes are told by its steps. -/
theorem passesLink_iff {anchor p : Path} (hanchor : anchor.isAbsolute = true)
    (habs : p.isAbsolute = true) (hp : p.Admissible) :
    w.passesLink anchor p = true ↔ ∃ cs, anchor.steps <+: cs ∧ cs ≠ anchor.steps ∧
      cs <+: p.steps ∧ cs ≠ p.steps ∧ w.LinkAt cs := by
  simp only [passesLink, List.any_eq_true, Path.mem_ancestorsFrom_iff, Bool.and_eq_true,
    decide_eq_true_eq, isLink_iff]
  have hlink : ∀ k, anchor.steps <+: (p.ancestor (k + 1)).steps →
      (p.ancestor (k + 1)).steps ≠ anchor.steps →
      (w.NamesLink (p.ancestor (k + 1)) ↔ w.LinkAt (p.ancestor (k + 1)).steps) := by
    intro k hbegins hne
    have hsome : (p.ancestor (k + 1)).steps ≠ [] := by
      intro hnil
      rw [hnil] at hbegins hne
      exact hne (List.prefix_nil.mp hbegins).symm
    simp only [NamesLink, LinkAt, lookup_ancestor_iff habs hp hsome]
  constructor
  · rintro ⟨_, ⟨⟨k, hk, rfl⟩, hbegins⟩, hne, hnamed⟩
    have hancestorAbs := (Path.steps_ancestor habs (k + 1)).1
    rw [Path.components_prefix_iff hanchor hancestorAbs] at hbegins
    rw [ne_eq, Path.components_eq_iff hancestorAbs hanchor] at hne
    obtain ⟨hcs, hproper⟩ := (Path.exists_ancestor_iff habs).mp ⟨k, hk, rfl⟩
    exact ⟨_, hbegins, hne, hcs, hproper, (hlink k hbegins hne).mp hnamed⟩
  · rintro ⟨cs, hbegins, hne, hcs, hproper, hat⟩
    obtain ⟨k, hk, rfl⟩ := (Path.exists_ancestor_iff habs).mpr ⟨hcs, hproper⟩
    have hancestorAbs := (Path.steps_ancestor habs (k + 1)).1
    refine ⟨_, ⟨⟨k, hk, rfl⟩, ?_⟩, ?_, (hlink k hbegins hne).mpr hat⟩
    · rwa [Path.components_prefix_iff hanchor hancestorAbs]
    · rwa [ne_eq, Path.components_eq_iff hancestorAbs hanchor]

end Workspace

namespace View

variable {w : Workspace} {plan : Plan} {pattern : String}

theorem tells_passesLink {anchor : Path} (hanchor : anchor.isAbsolute = true) :
    Tells w (fun p => !w.passesLink anchor p) w.LinkAt anchor.steps := by
  intro dir n habs hfile
  have hchildAbs := Path.isAbsolute_child n habs
  rw [Bool.not_eq_true', ← Bool.not_eq_true,
    Workspace.passesLink_iff hanchor hchildAbs (hfile.admissible hchildAbs)]
  constructor
  · intro h cs hbegins hne hcs hat
    refine h ⟨cs, hbegins, hne, ?_, ?_, hat⟩
    · exact hcs.trans (Path.prefix_steps_child dir n)
    · rintro rfl
      exact Path.not_steps_child_prefix dir n hcs
  · rintro h ⟨cs, hbegins, hne, hcs, hproper, hat⟩
    rw [Path.steps_child] at hcs hproper
    exact h cs hbegins hne ((List.prefix_concat_iff.mp hcs).resolve_left hproper) hat

/-- Where no link has been passed, the branch holds no directory that lies as deep as the entries of
the one where the walk stands, so following links makes no difference but at a link. -/
theorem narrows_not_follows (hshort : w.files.Short) :
    Narrows ⟨w, true⟩ ⟨w, false⟩ w.LinkAt fun dir branch _ =>
      ∃ loc, w.lookup false dir = .ok (loc, .directory) ∧ ∀ b ∈ branch, b.length ≤ loc.length where
  workspace := rfl
  staysOut := by
    rintro dir n branch branch' habs _ ⟨outer, target, hat⟩
    rw [Option.eq_none_iff_forall_ne_some]
    intro inner hentry
    obtain ⟨loc, hkind, _⟩ := branchIn?_eq_some_iff.mp hentry
    have hlook := (classify_eq_directory_iff rfl).mp hkind
    have hadmissible := Workspace.admissible_of_lookup (Path.isAbsolute_child n habs) hlook
    rw [(Workspace.lookup_child_iff habs hadmissible).mpr hat] at hlook
    cases hlook
  goesAlong := by
    rintro dir n branch branch' habs ⟨loc, hdir, hbranch⟩ hno
    have hsame : w.lookup true (dir.child n) = w.lookup false (dir.child n) := by
      rcases w.lookup_true_cases (dir.child n) with hsame | ⟨outer, target, hlink⟩
      · exact hsame
      · have hadmissible := Workspace.admissible_of_lookup (Path.isAbsolute_child n habs) hlink
        exact absurd ⟨outer, target, (Workspace.lookup_child_iff habs hadmissible).mp hlink⟩ hno
    have hkind : ∀ follows inner, (View.mk w follows).classify (dir.child n) = .directory inner ↔
        w.lookup false (dir.child n) = .ok (inner, .directory) := fun follows inner =>
      classify_eq_directory_iff_of_same hsame
    by_cases hleads : w.LeadsToDirectory (dir.child n)
    · obtain ⟨inner, hinner⟩ := hleads
      obtain ⟨rfl, _⟩ := Workspace.locate_child hdir (hsame.trans hinner)
      have hfresh : n :: loc ∉ branch := by
        intro hmem
        have hlength := hbranch _ hmem
        rw [List.length_cons] at hlength
        omega
      have hresolves := Workspace.resolves_of_lookup hshort hinner
      refine .inr ⟨(n :: loc) :: branch, branch', ?_, ?_, n :: loc, hinner, ?_⟩
      · exact branchIn?_eq_some_iff.mpr
          ⟨_, (hkind true _).mpr hinner, (enter?_eq_some_iff rfl).mpr ⟨hresolves, hfresh, rfl⟩⟩
      · exact branchIn?_eq_some_iff.mpr
          ⟨_, (hkind false _).mpr hinner, enter?_of_not_follows rfl _ _ _⟩
      · intro b hb
        rcases List.mem_cons.mp hb with rfl | hb
        · exact Nat.le_refl _
        · exact (hbranch b hb).trans (Nat.le_succ _)
    · have hnone : ∀ follows outer, (View.mk w follows).branchIn? outer (dir.child n) = none := by
        intro follows outer
        rw [Option.eq_none_iff_forall_ne_some]
        intro inner hentry
        obtain ⟨inner, hdirectory, _⟩ := branchIn?_eq_some_iff.mp hentry
        exact hleads ⟨inner, (hkind follows inner).mp hdirectory⟩
      exact .inl ⟨hnone true branch, hnone false branch'⟩

/-- A base is refused for a link on the way to it from the anchor. -/
theorem linkAt_of_refused {v : View} (hplan : plan.toStart.Anchored)
    (hrefuse : v.refusesBase plan = true) :
    ∃ cs, plan.anchor.steps <+: cs ∧ cs ≠ plan.anchor.steps ∧ cs <+: plan.base.steps ∧
      (plan.segments = [] → cs ≠ plan.base.steps) ∧ v.workspace.LinkAt cs := by
  obtain ⟨below, hbelow⟩ := hplan.below
  have hcomponents : plan.base.components = plan.anchor.components ++ below := by
    rw [Path.components_of_isAbsolute hplan.base, Path.components_of_isAbsolute hplan.anchor,
      ← hbelow, List.cons_append]
  obtain ⟨_, hmeets⟩ := (refusesBase_iff hcomponents).mp hrefuse
  obtain ⟨front, hfront, hne, ⟨loc, target, hlink⟩, _⟩ := meetsLink_iff.mp hmeets
  have hbegins : front <+: below := by
    refine hfront.trans ?_
    split
    · exact List.dropLast_prefix _
    · exact List.prefix_refl _
  have hstep : ∀ c ∈ front, c.isStep = true := fun c hc =>
    Path.isStep_of_mem_steps (p := plan.base)
      (hbelow ▸ List.mem_append_right _ (hbegins.mem hc))
  have hlinkAbs := Path.isAbsolute_foldl_push front hplan.anchor
  rw [Workspace.lookup_iff_hasAt hlinkAbs (Workspace.admissible_of_lookup hlinkAbs hlink)
    (Path.getLast?_runs_foldl_push hne hstep), Path.steps_foldl_push hstep] at hlink
  refine ⟨plan.anchor.steps ++ front, List.prefix_append _ _, ?_, ?_, ?_, loc, target, hlink⟩
  · simpa using hne
  · rw [← hbelow]
    exact (List.prefix_append_right_inj _).mpr hbegins
  · intro hsegments hsame
    rw [← hbelow, List.append_cancel_left_eq] at hsame
    rw [if_pos hsegments, hsame] at hfront
    have hlength := hfront.length_le
    have hpos := List.length_pos_iff.mpr (hsame ▸ hne)
    rw [List.length_dropLast] at hlength
    omega

/-- Where no text is too long, what is clear is no link. -/
theorem not_linkAt_of_clears {cs : List Component} (hseen : ∀ cs, ¬ plan.Unseen cs)
    (hclear : plan.Clears w cs) : ¬ w.LinkAt cs := by
  rcases hclear with ⟨loc, hdir⟩ | ⟨hunseen, _⟩
  · rintro ⟨loc', target, hlink⟩
    have hobj := hdir.2
    rw [hdir.loc_eq hlink, hlink.2] at hobj
    cases hobj
  · exact absurd hunseen (hseen _)

theorem beyond_anchor {cs anchor : List Component} (hbegins : anchor <+: cs) (hne : cs ≠ anchor) :
    ¬ cs <+: anchor := fun hback =>
  hne (hback.eq_of_length_le hbegins.length_le)

/-- **The two policies, plan by plan.** -/
theorem leads_of_not_follows (hshort : w.files.Short) (hplan : plan.toStart.Anchored)
    (hparent : Segment.parent ∉ plan.segments) (hseen : ∀ cs, ¬ plan.Unseen cs) :
    (View.mk w false).leads plan =
      ((View.mk w true).leads plan).filter fun p => !w.passesLink plan.anchor p := by
  cases hrefuse : (View.mk w false).refusesBase plan with
  | true =>
      -- the link for which the base is refused is passed by all that lies below the base
      obtain ⟨cs, hbegins, hne, hcs, hfile, hat⟩ := linkAt_of_refused hplan hrefuse
      rw [leads_of_refused hrefuse, eq_comm, List.filter_eq_nil_iff]
      intro p hp
      obtain ⟨habs, hleads, hbelow, hproper⟩ := below_base_of_mem_leads hplan.base hparent hp
      have hpasses : w.passesLink plan.anchor p = true := by
        rw [Workspace.passesLink_iff hplan.anchor habs (hleads.admissible habs)]
        refine ⟨cs, hbegins, hne, hcs.trans hbelow, ?_, hat⟩
        rintro rfl
        have hsame := hcs.eq_of_length_le hbelow.length_le
        by_cases hsegments : plan.segments = []
        · exact hfile hsegments hsame
        · exact hproper hsegments hsame.symm
      simp [hpasses]
  | false =>
      have hfollows : (View.mk w true).refusesBase plan = false := rfl
      by_cases hsegments : plan.segments = []
      · rw [leads_of_fixed hrefuse hsegments, leads_of_fixed hfollows hsegments]
        by_cases hfile : w.LeadsToFile plan.base
        · have hfound : (View.mk w false).carryOut false "" plan = .ok [plan.base] := by
            simp [carryOut, hrefuse, hsegments, classify_eq_file_iff, hfile]
          obtain ⟨habs, _, hclear⟩ := clears_of_mem_carryOut rfl hplan hfound List.mem_cons_self
          have hpasses : w.passesLink plan.anchor plan.base = false := by
            rw [← Bool.not_eq_true,
              Workspace.passesLink_iff hplan.anchor habs (hfile.admissible habs)]
            rintro ⟨cs, hbegins, hne, hcs, hproper, hat⟩
            have hway := hclear cs hcs hproper (beyond_anchor hbegins hne)
            exact not_linkAt_of_clears hseen hway hat
          simp [classify_eq_file_iff, hfile, hpasses]
        · simp [classify_eq_file_iff, hfile]
      · by_cases hlists : w.Lists plan.base
        · obtain ⟨loc, hloc, hlisted⟩ := hlists
          rw [leads_of_directory hrefuse hsegments hloc hlisted,
            leads_of_directory hfollows hsegments hloc hlisted, eq_comm]
          have hguarded := guarded_base rfl hplan hrefuse hsegments hloc
          have hresolves := Workspace.resolves_of_lookup hshort hloc
          apply filter_matchesBelow (narrows_not_follows hshort) hplan.base hparent
          · rw [firstBranch_of_resolves rfl hresolves]
            exact ⟨loc, hloc, by simp⟩
          · exact hplan.below
          · intro cs hbegins hne hcs
            exact not_linkAt_of_clears hseen (hguarded.2 cs hcs (beyond_anchor hbegins hne))
          · exact tells_passesLink hplan.anchor
        · rw [leads_of_not_lists hsegments hlists, leads_of_not_lists hsegments hlists,
            List.filter_nil]

/-- **Following links only adds paths.** For a pattern with no `..` behind its fixed beginning, an
expansion that does not follow links finds, in the same order, what one that follows them finds,
without the paths that pass a link below the anchor. -/
theorem found_of_not_follows {root : Path} (hshort : w.files.Short) (habs : root.isAbsolute = true)
    (hup : Component.up ∉ (Path.ofText pattern).components.dropWhile Component.isPlain)
    (hseen : ∀ plan, Pattern.plan pattern root = .ok plan → ∀ cs, ¬ plan.Unseen cs) :
    (View.mk w false).found root pattern = ((View.mk w true).found root pattern).filter fun p =>
      !w.passesLink (Pattern.start pattern root).anchor p := by
  cases hplan : Pattern.plan pattern root with
  | error fault => rw [found_of_fault hplan, found_of_fault hplan, List.filter_nil]
  | ok plan =>
      have hanchored := Pattern.plan_anchored habs hplan
      have hparent := Pattern.parent_notMem_segments hplan hup
      rw [found_of_plan hplan, found_of_plan hplan, Pattern.start_of_plan hplan,
        leads_of_not_follows hshort hanchored hparent (hseen plan hplan)]
      apply Path.distinct_filter
      intro p hp q hq hsame
      obtain ⟨hpAbs, hpFile, _⟩ := below_base_of_mem_leads hanchored.base hparent hp
      obtain ⟨hqAbs, hqFile, _⟩ := below_base_of_mem_leads hanchored.base hparent hq
      rw [Path.components_eq_iff hpAbs hqAbs] at hsame
      rw [Bool.eq_iff_iff, Bool.not_eq_true', Bool.not_eq_true', ← Bool.not_eq_true,
        ← Bool.not_eq_true,
        Workspace.passesLink_iff hanchored.anchor hpAbs (hpFile.admissible hpAbs),
        Workspace.passesLink_iff hanchored.anchor hqAbs (hqFile.admissible hqAbs), hsame]

/-- `/b` is a link to `/d`, so following links finds `f` twice. -/
theorem linked_found_not_following :
    Workspace.linked.files.Short ∧ (Path.ofText "/").isAbsolute = true ∧
      Component.up ∉ (Path.ofText "*/f").components.dropWhile Component.isPlain ∧
      (∀ plan, Pattern.plan "*/f" (Path.ofText "/") = .ok plan → ∀ cs, ¬ plan.Unseen cs) ∧
      (View.mk .linked true).found (Path.ofText "/") "*/f" =
        [Path.ofText "/b/f", Path.ofText "/d/f"] ∧
      (View.mk .linked false).found (Path.ofText "/") "*/f" = [Path.ofText "/d/f"] := by
  have habs : (Path.ofText "/").isAbsolute = true := by decide
  have hup : Component.up ∉ (Path.ofText "*/f").components.dropWhile Component.isPlain := by
    decide
  have hplan : Pattern.plan "*/f" (Path.ofText "/") = .ok ⟨⟨Path.ofText "/", Path.ofText "/"⟩,
      false, [.matching [.anyRun], .named ⟨[102], by decide⟩]⟩ := by cbv
  have hseen : ∀ plan, Pattern.plan "*/f" (Path.ofText "/") = .ok plan →
      ∀ cs, ¬ plan.Unseen cs := by
    rintro plan hsame cs ⟨hcs, front, rfl, hlong⟩
    rw [hplan] at hsame
    cases hsame
    have hnone : (Path.ofText "/").components ++ front <+: (Path.ofText "/").components := hcs
    obtain rfl : front = [] := by
      have hlength := hnone.length_le
      rw [List.length_append] at hlength
      exact List.length_eq_zero_iff.mp (by omega)
    exact absurd hlong (by decide)
  have hfound : (View.mk .linked true).found (Path.ofText "/") "*/f" =
      [Path.ofText "/b/f", Path.ofText "/d/f"] := by
    rw [found_of_plan hplan]
    cbv
  have hshort : Workspace.linked.files.Short := FileSystem.short_of_objects (by decide)
  refine ⟨hshort, habs, hup, hseen, hfound, ?_⟩
  rw [found_of_not_follows hshort habs hup hseen, hfound, Pattern.start_of_plan hplan]
  cbv

end View

end ArtifactHarvest
