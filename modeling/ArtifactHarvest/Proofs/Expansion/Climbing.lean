import ArtifactHarvest.Proofs.Expansion.Outset
import ArtifactHarvest.Proofs.Expansion.Respelling
import ArtifactHarvest.Proofs.Expansion.Spellings
import ArtifactHarvest.Proofs.Expansion.Trails

/-!
Names and climbs at the beginning of what is left of a pattern are folded into the base of its plan.
Where links are not followed they lead where a walk of the same names and climbs would
(`leads_climbing`), for no link that the walk would not pass is passed on the way to the base
(`refusesBase_climbed_eq_false_iff`).
-/

namespace ArtifactHarvest

/-! ### Climbs from below the root -/

namespace Start

/-- Where climbs lead from some names below the root: to the names in front, or to the root, and
from there on out of it, with the anchor. -/
structure Climbed (root : Path) (names : List Name) (s : Start) (left : List Name) : Prop where
  absolute : s.anchor.isAbsolute = true
  kept : left <+: names
  anchor : left ≠ [] → s.anchor = root
  base : s.base = s.anchor.descend left ∨ left = [] ∧ s.anchor = root ∧ s.base = root.trimmed

variable {root : Path} {names left : List Name} {s : Start}

theorem Climbed.respelled (h : Climbed root names s left) :
    root.Respelled s.base (s.anchor.descend left) := by
  rcases h.base with hbase | ⟨rfl, hanchor, hbase⟩
  · rw [hbase]
    exact .same (Path.isAbsolute_descend left h.absolute)
  · rw [hbase, hanchor]
    exact .below []

theorem follow_parent_of_startsWith (h : s.base.up.startsWith s.anchor = true) :
    s.follow .parent = ⟨s.base.up, s.anchor⟩ := by
  rw [follow, if_pos h]

theorem follow_parent_of_out (h : ¬ s.base.up.startsWith s.anchor = true) :
    s.follow .parent = ⟨s.base.up, s.base.up⟩ := by
  rw [follow, if_neg h]

/-- A climb takes back the last of the names that are left below the anchor. With none left it leads
out of the anchor, or stays where no step can be taken back. -/
theorem Climbed.follow_parent (habs : root.isAbsolute = true) (h : Climbed root names s left) :
    ∃ left', Climbed root names (s.follow .parent) left' := by
  have hsteps := h.respelled.steps_eq habs
  obtain ⟨hbaseAbs, _⟩ := h.respelled.isAbsolute habs
  have hup := Path.isAbsolute_up hbaseAbs
  have hstays : s.base.up.startsWith s.anchor = true ↔
      s.anchor.steps <+: s.base.steps.dropLast := by
    rw [Path.startsWith, List.isPrefixOf_iff_prefix, Path.components_prefix_iff h.absolute hup,
      Path.steps_up hbaseAbs]
  rcases List.eq_nil_or_concat' left with rfl | ⟨front, n, rfl⟩
  · rw [Path.descend_nil] at hsteps
    by_cases hnil : s.base.steps = []
    · have hfollow : s.follow .parent = s := by
        rw [follow_parent_of_startsWith (hstays.mpr (by simp [← hsteps, hnil])),
          Path.up_of_steps_nil hbaseAbs hnil]
      exact ⟨[], hfollow.symm ▸ h⟩
    · have hout : ¬ s.base.up.startsWith s.anchor = true := by
        rw [hstays, ← hsteps]
        intro hbegins
        have hlength := hbegins.length_le
        have hpos := List.length_pos_iff.mpr hnil
        rw [List.length_dropLast] at hlength
        omega
      rw [follow_parent_of_out hout]
      exact ⟨[], hup, List.nil_prefix, absurd rfl, .inl rfl⟩
  · have hanchor := h.anchor (by simp)
    have hbase := h.base.resolve_right fun hnone => by simp at hnone
    have hbegins : s.anchor.steps <+: s.base.steps.dropLast := by
      rw [hsteps, Path.steps_descend, List.map_append, List.map_singleton, ← List.append_assoc,
        List.dropLast_concat]
      exact List.prefix_append _ _
    rw [follow_parent_of_startsWith (hstays.mpr hbegins), hbase, hanchor,
      Path.Respelled.up_descend habs]
    refine ⟨front, habs, (List.prefix_append front [n]).trans h.kept, fun _ => rfl, ?_⟩
    split
    · rename_i hnil
      exact .inr ⟨hnil, rfl, rfl⟩
    · exact .inl rfl

theorem exists_climbed (habs : root.isAbsolute = true) (names : List Name) (climbs : Nat) :
    ∃ left, Climbed root names
      ((List.replicate climbs .parent).foldl follow ⟨root.descend names, root⟩) left := by
  induction climbs with
  | zero => exact ⟨names, habs, List.prefix_refl _, fun _ => rfl, .inl rfl⟩
  | succ climbs ih =>
      obtain ⟨left, hleft⟩ := ih
      rw [List.replicate_succ', List.foldl_append]
      exact hleft.follow_parent habs

/-- Climbs lead to the ancestors, whatever the anchor is. -/
theorem base_climbed (climbs : Nat) (s : Start) :
    ((List.replicate climbs .parent).foldl follow s).base = s.base.ancestor climbs := by
  induction climbs with
  | zero => rfl
  | succ climbs ih =>
      rw [List.replicate_succ', List.foldl_append, List.foldl_cons, List.foldl_nil]
      exact congrArg Path.up ih

end Start

/-- The plan of a relative pattern that goes down some names, climbs, and goes down names again. -/
def Plan.climbing (root : Path) (names : List Name) (climbs : Nat) (more : List Name)
    (rest : List Segment) : Plan :=
  ⟨Pattern.begun root (names.map .named ++ (List.replicate climbs .parent ++ more.map .named)),
    false, rest⟩

namespace View

variable {v : View} {root dir : Path}

/-! ### Fixed segments, walked or folded into the base -/

theorem matchesBelow_climbs (climbs : Nat) (rest : List Segment) (dir : Path) :
    v.matchesBelow (List.replicate climbs .parent ++ rest) dir [] =
      v.matchesBelow rest (dir.ancestor climbs) [] := by
  have hleave : v.leave [] = [] := by simp [leave]
  induction climbs generalizing dir with
  | zero => rfl
  | succ climbs ih =>
      rw [List.replicate_succ, List.cons_append, matchesBelow_parent, hleave, ih, Path.ancestor_up]

/-- What is inside an entry, where links are not followed. -/
theorem inside_eq_of_not_follows (hv : v.followsLinks = false) (segments : List Segment)
    (p : Path) :
    (v.workspace.NamesDirectory p ∧ v.inside segments p [] = v.matchesBelow segments p []) ∨
      (¬ v.workspace.NamesDirectory p ∧ v.inside segments p [] = []) := by
  unfold inside
  cases hkind : v.classify p with
  | directory loc =>
      have hlook := (classify_eq_directory_iff hv).mp hkind
      exact .inl ⟨⟨loc, hlook⟩, by simp only [enter?_of_not_follows hv]⟩
  | file | other =>
      refine .inr ⟨?_, rfl⟩
      rintro ⟨loc, hlook⟩
      rw [(classify_eq_directory_iff hv).mpr hlook] at hkind
      cases hkind

/-- Where links are not followed, a base is taken when none is on the way to it from the anchor. -/
theorem refusesBase_eq_false_iff_clear (hv : v.followsLinks = false) {plan : Plan}
    {names : List Name} (habs : plan.anchor.isAbsolute = true)
    (hbase : plan.base.components = plan.anchor.components ++ names.map .name) :
    v.refusesBase plan = false ↔ v.workspace.Clear plan.anchor (checkedNames plan names) := by
  rw [← Bool.not_eq_true, refusesBase_iff_of_names habs hbase, and_iff_right hv]
  simp only [Workspace.Clear, not_exists, not_and]

/-- Below a link, which is refused, and below what is no directory, nothing is found. -/
theorem leads_of_no_directory_below {plan : Plan} {names : List Name} (habs : dir.isAbsolute = true)
    (hbase : plan.base = dir.descend names) (hmore : names ≠ [] ∨ plan.segments ≠ [])
    (hdir : ¬ v.workspace.NamesDirectory dir)
    (hlink : v.refusesBase plan = false → ¬ v.workspace.NamesLink dir) : v.leads plan = [] := by
  cases hrefused : v.refusesBase plan with
  | true => exact leads_of_refused hrefused
  | false =>
      have hnone : ¬ v.workspace.LeadsToDirectory dir := fun hleads =>
        hdir (hleads.namesDirectory (hlink hrefused))
      have hbelow : names ≠ [] → ¬ v.workspace.Names plan.base := by
        intro hnames hnamed
        rw [hbase, ← List.nil_append names] at hnamed
        exact hnone (hnamed.leadsToDirectory habs hnames)
      by_cases hsegments : plan.segments = []
      · have hnames := hmore.resolve_right fun hsome => hsome hsegments
        exact leads_of_no_file hsegments fun hfile => hbelow hnames hfile.names
      · apply leads_of_not_lists hsegments
        intro hlists
        have hleads := hlists.leadsToDirectory
        by_cases hnames : names = []
        · rw [hbase, hnames] at hleads
          exact hnone hleads
        · exact hbelow hnames hleads.names

/-- Where links are not followed and all directories can be listed, names folded into the base lead
where the walk of these names does. -/
theorem leads_eq_matchesBelow (hv : v.followsLinks = false) (hlist : v.workspace.files.Listable)
    {plan : Plan} {names : List Name} (habs : dir.isAbsolute = true)
    (hdir : v.workspace.LeadsToDirectory dir)
    (hbase : plan.base = dir.descend names)
    (hclear : v.refusesBase plan = false ↔ v.workspace.Clear dir (checkedNames plan names)) :
    v.leads plan = v.matchesBelow (names.map .named ++ plan.segments) dir [] := by
  induction names generalizing dir with
  | nil =>
      have hgoes : v.refusesBase plan = false := hclear.mpr (by simpa [checkedNames] using .nil)
      obtain ⟨loc, hlook⟩ := hdir
      rw [← Path.descend_nil dir, ← hbase] at hlook
      by_cases hsegments : plan.segments = []
      · have hfile : ¬ v.classify plan.base = .file := by
          rw [classify_eq_file_iff, Workspace.leadsToFile_iff hlook]
          exact Bool.false_ne_true
        rw [leads_of_fixed hgoes hsegments, if_neg hfile, hsegments]
        exact (matchesBelow_nil dir []).symm
      · rw [leads_of_directory hgoes hsegments hlook (hlist loc (Workspace.lookup_eq hlook).2),
          firstBranch_of_not_follows hv, hbase]
        rfl
  | cons n names ih =>
      rw [List.map_cons, List.cons_append]
      by_cases hlast : names = [] ∧ plan.segments = []
      · -- the file asked for
        obtain ⟨rfl, hsegments⟩ := hlast
        have hgoes : v.refusesBase plan = false :=
          hclear.mpr (by simpa [checkedNames, hsegments] using .nil)
        rw [leads_of_fixed hgoes hsegments, hsegments, List.map_nil, List.nil_append,
          matchesBelow_single_last rfl, hbase]
        by_cases hfile : v.classify (dir.child n) = .file <;> simp [candidates, hfile]
      · have hmore : names ≠ [] ∨ plan.segments ≠ [] := not_and_or.mp hlast
        have hsome : names.map Segment.named ++ plan.segments ≠ [] := by simpa using hlast
        have hchecked : checkedNames plan (n :: names) = n :: checkedNames plan names :=
          checkedNames_append hmore [n]
        rw [hchecked, Workspace.clear_cons_iff] at hclear
        rw [matchesBelow_single rfl hsome, candidates, List.flatMap_singleton]
        rcases inside_eq_of_not_follows hv (names.map .named ++ plan.segments) (dir.child n) with
          ⟨hnamed, hinside⟩ | ⟨hnamed, hinside⟩
        · -- a directory: what is refused is a link further down
          obtain ⟨loc, hlook⟩ := hnamed
          have hkind : v.classify (dir.child n) = .directory loc :=
            (classify_eq_directory_iff hv).mpr hlook
          rw [hinside]
          refine ih (Path.isAbsolute_child n habs) ⟨loc, lookup_of_classify hkind⟩ hbase ?_
          rw [hclear, and_iff_right (Workspace.NamesDirectory.not_namesLink ⟨loc, hlook⟩)]
        · rw [hinside]
          exact leads_of_no_directory_below (Path.isAbsolute_child n habs) hbase hmore hnamed
            fun hgoes => (hclear.mp hgoes).1

/-! ### Climbs, walked or folded into the base -/

/-- With no link on the way to the names, none is met on the way to where climbs from there lead.
What is refused is a link further down. -/
theorem refusesBase_climbed_eq_false_iff (hv : v.followsLinks = false)
    (hreach : v.workspace.InReach root) (habs : root.isAbsolute = true)
    {names left more : List Name} {s : Start} {plan : Plan}
    (hclear : v.workspace.Clear root names)
    (hs : Start.Climbed root names s left) (hanchor : plan.anchor = s.anchor)
    (hbase : plan.base = s.base.descend more) :
    v.refusesBase plan = false ↔ v.workspace.Clear s.base (checkedNames plan more) := by
  have hkept : v.workspace.Clear plan.anchor left := by
    by_cases hnil : left = []
    · exact hnil ▸ .nil
    · rw [hanchor, hs.anchor hnil]
      exact hclear.of_prefix hs.kept
  have hcomponents : plan.base.components =
      plan.anchor.components ++ (left ++ more).map .name := by
    rw [hbase, Path.components_descend,
      hs.respelled.components_eq habs, Path.components_descend, hanchor,
      List.map_append, List.append_assoc]
  rw [refusesBase_eq_false_iff_clear hv (hanchor ▸ hs.absolute) hcomponents]
  by_cases hlast : more = [] ∧ plan.segments = []
  · obtain ⟨rfl, hsegments⟩ := hlast
    simp only [checkedNames, hsegments, if_true, List.append_nil, List.dropLast_nil]
    exact iff_of_true (hkept.of_prefix (List.dropLast_prefix left)) .nil
  · rw [checkedNames_append (not_and_or.mp hlast), Workspace.clear_append_iff, and_iff_right hkept,
      hanchor]
    exact (clear_respelled hreach habs hs.respelled).symm

theorem leadsToDirectory_ancestor {w : Workspace} (habs : dir.isAbsolute = true)
    (h : w.LeadsToDirectory dir) (d : Nat) : w.LeadsToDirectory (dir.ancestor d) := by
  induction d with
  | zero => exact h
  | succ d ih => exact Workspace.leadsToDirectory_up (Path.steps_ancestor habs d).1 ih

theorem start_climbing (root : Path) (names : List Name) (climbs : Nat) (more : List Name)
    (rest : List Segment) {s : Start}
    (hs : (List.replicate climbs .parent).foldl Start.follow ⟨root.descend names, root⟩ = s) :
    (Plan.climbing root names climbs more rest).toStart = ⟨s.base.descend more, s.anchor⟩ := by
  rw [Plan.climbing, Pattern.begun, List.foldl_append, Pattern.foldl_follow_named,
    List.foldl_append, hs, Pattern.foldl_follow_named]

/-- Climbs and names folded into the base lead where the walk of these climbs and names does, unless
a link is met on the way to where the climbs begin. -/
theorem leads_climbing (hv : v.followsLinks = false) (hlist : v.workspace.files.Listable)
    (hreach : v.workspace.InReach root)
    (habs : root.isAbsolute = true) {names : List Name}
    (hclear : v.workspace.Clear root names)
    (hdir : v.workspace.LeadsToDirectory (root.descend names)) (climbs : Nat) (more : List Name)
    (rest : List Segment) :
    v.leads (.climbing root names climbs more rest) =
      v.matchesBelow (List.replicate climbs .parent ++ (more.map .named ++ rest))
        (root.descend names) [] := by
  have hdownAbs := Path.isAbsolute_descend names habs
  obtain ⟨left, hclimbed⟩ := Start.exists_climbed habs names climbs
  have hbase := Start.base_climbed climbs ⟨root.descend names, root⟩
  generalize hs : (List.replicate climbs .parent).foldl Start.follow ⟨root.descend names, root⟩ = s
    at hclimbed hbase
  have hstart := start_climbing root names climbs more rest hs
  have hanchor := congrArg Start.anchor hstart
  have hdown := congrArg Start.base hstart
  have hleads := leadsToDirectory_ancestor hdownAbs hdir climbs
  rw [matchesBelow_climbs, ← hbase]
  rw [← hbase] at hleads
  exact leads_eq_matchesBelow hv hlist (hclimbed.respelled.isAbsolute habs).1 hleads hdown
    (refusesBase_climbed_eq_false_iff hv hreach habs hclear hclimbed hanchor hdown)

/-- An absolute pattern is not refused for a link on the way to its base, so there the two lead to
the same where no link is. -/
theorem leads_climbing_asAbsolute (hv : v.followsLinks = false)
    (hlist : v.workspace.files.Listable) (habs : root.isAbsolute = true) {names : List Name}
    (hdir : v.workspace.LeadsToDirectory (root.descend names)) {climbs : Nat}
    {more : List Name} {rest : List Segment}
    (hclear : v.workspace.Clear ((root.descend names).ancestor climbs)
      (if rest = [] then more.dropLast else more)) :
    v.leads (Plan.climbing root names climbs more rest).asAbsolute =
      v.matchesBelow (List.replicate climbs .parent ++ (more.map .named ++ rest))
        (root.descend names) [] := by
  have hdownAbs := Path.isAbsolute_descend names habs
  have hdown : (Plan.climbing root names climbs more rest).asAbsolute.base =
      ((root.descend names).ancestor climbs).descend more := by
    refine (congrArg Start.base (start_climbing root names climbs more rest rfl)).trans ?_
    rw [Start.base_climbed]
  rw [matchesBelow_climbs]
  apply leads_eq_matchesBelow hv hlist (Path.steps_ancestor hdownAbs climbs).1
    (leadsToDirectory_ancestor hdownAbs hdir climbs) hdown
  exact iff_of_true (refusesBase_asAbsolute v _) hclear

end View

end ArtifactHarvest
