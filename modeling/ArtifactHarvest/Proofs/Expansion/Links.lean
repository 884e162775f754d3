import ArtifactHarvest.Proofs.Expansion.Meaning
import ArtifactHarvest.Proofs.FileSystem.Spelling
import ArtifactHarvest.Proofs.Path.Returning
import Mathlib

/-!
Matches and links when links are not followed. The base of a plan lies below its anchor
(`Pattern.plan_anchored`), links between the two are looked for (`clears_of_not_refused`), and the
walk enters directories only (`mem_matchesBelow_of_invariant`). Main statement:
`real_ancestors_of_match`.
-/

namespace ArtifactHarvest

/-- What two sequences have in common at their beginning. -/
def shared {α : Type} [DecidableEq α] : List α → List α → List α
  | x :: xs, y :: ys => if x = y then x :: shared xs ys else []
  | _, _ => []

theorem prefix_shared_iff {α : Type} [DecidableEq α] {zs xs ys : List α} :
    zs <+: shared xs ys ↔ zs <+: xs ∧ zs <+: ys := by
  induction zs generalizing xs ys with
  | nil => simp
  | cons z zs ih =>
      cases xs with
      | nil => simp [shared]
      | cons x xs =>
          cases ys with
          | nil => simp [shared]
          | cons y ys =>
              by_cases hxy : x = y
              · subst hxy
                simp only [shared, if_true, List.cons_prefix_cons, ih]
                constructor
                · rintro ⟨hz, hxs, hys⟩
                  exact ⟨⟨hz, hxs⟩, hz, hys⟩
                · rintro ⟨⟨hz, hxs⟩, _, hys⟩
                  exact ⟨hz, hxs, hys⟩
              · simp only [shared, hxy, if_false, List.cons_prefix_cons]
                constructor
                · intro h
                  cases List.prefix_nil.mp h
                · rintro ⟨⟨rfl, _⟩, rfl, _⟩
                  exact absurd rfl hxy

/-- A beginning that goes beyond what is shared is none of the other sequence. -/
theorem not_prefix_of_beyond_shared {α : Type} [DecidableEq α] {zs xs ys : List α}
    (hzs : zs <+: xs) (hbeyond : shared xs ys <+: zs) (hne : zs ≠ shared xs ys) : ¬ zs <+: ys :=
  fun hys => hne (List.IsPrefix.eq_of_length_le (prefix_shared_iff.mpr ⟨hzs, hys⟩)
    hbeyond.length_le)

namespace Start

/-- The base lies below the anchor. -/
structure Anchored (s : Start) : Prop where
  base : s.base.isAbsolute = true
  anchor : s.anchor.isAbsolute = true
  below : s.anchor.steps <+: s.base.steps

theorem follow_anchored {s : Start} (segment : Segment) (h : s.Anchored) :
    (s.follow segment).Anchored := by
  cases segment with
  | named n =>
      refine ⟨Path.isAbsolute_child n h.base, h.anchor, ?_⟩
      simp only [follow, Path.steps_child]
      exact h.below.trans (List.prefix_append _ _)
  | parent =>
      have hup := Path.isAbsolute_up h.base
      by_cases hstays : s.base.up.startsWith s.anchor = true
      · refine ⟨hup, by simpa [follow, hstays] using h.anchor, ?_⟩
        have hbegins := hstays
        simp only [Path.startsWith, List.isPrefixOf_iff_prefix, Path.components_of_isAbsolute hup,
          Path.components_of_isAbsolute h.anchor, List.cons_prefix_cons, true_and] at hbegins
        simpa [follow, hstays] using hbegins
      · refine ⟨hup, by simpa [follow, hstays] using hup, ?_⟩
        simp [follow, hstays]
  | matching g => exact h
  | anyDepth => exact h

theorem foldl_follow_anchored {s : Start} (segments : List Segment) (h : s.Anchored) :
    (segments.foldl follow s).Anchored := by
  induction segments generalizing s with
  | nil => exact h
  | cons segment segments ih => exact ih (follow_anchored segment h)

end Start

theorem Pattern.plan_anchored {text : String} {root : Path} {plan : Plan}
    (habs : root.isAbsolute = true) (h : Pattern.plan text root = .ok plan) :
    plan.toStart.Anchored := by
  obtain ⟨all, _, _, _, hbase, hanchor⟩ := plan_spec h
  have horigin := isAbsolute_origin text habs
  have hstart : (begun (origin text root) (all.takeWhile Segment.isFixed)).Anchored :=
    Start.foldl_follow_anchored _ ⟨horigin, horigin, List.prefix_refl _⟩
  refine ⟨?_, ?_, ?_⟩
  · rw [hbase]
    exact hstart.base
  · rw [hanchor]
    split
    · rw [hbase]
      exact hstart.base
    · exact hstart.anchor
  · rw [hanchor]
    split
    · exact List.prefix_refl _
    · rw [hbase]
      exact hstart.below

/-- Components on the way from the anchor to the base whose text, written behind the anchor's, is
too long to be looked up. There the search for links on this way has given up. -/
def Plan.Unseen (plan : Plan) (cs : List Component) : Prop :=
  cs <+: plan.base.components ∧ ∃ front, cs = plan.anchor.components ++ front ∧
    pathLengthLimit ≤ (front.foldl Path.push plan.anchor).bytes.length

/-- The steps lead to a directory itself, or else to a link that went unseen. -/
def Plan.Clears (plan : Plan) (w : Workspace) (steps : List Component) : Prop :=
  (∃ loc, w.HasAt true steps loc .directory) ∨
    plan.Unseen (.root :: steps) ∧ ∃ loc target, w.HasAt true steps loc (.link target)

namespace View

variable {v : View}

/-- A part of a way is looked up where its steps lead if the text of the whole way can be looked
up. -/
theorem lookup_foldl_push {w : Workspace} {p : Path} {front shorter : List Component}
    {loc : Location} {o : Object} (habs : p.isAbsolute = true)
    (hstep : ∀ c ∈ front, c.isStep = true) (hfront : (front.foldl Path.push p).Admissible)
    (hshorter : shorter <+: front) (hne : shorter ≠ [])
    (hat : w.HasAt true (p.steps ++ shorter) loc o) :
    w.lookup true (shorter.foldl Path.push p) = .ok (loc, o) := by
  have hstepShorter := fun c hc => hstep c (hshorter.mem hc)
  have hadmissible := hfront.of_begins
    (Path.bytes_prefix_foldl_push_of_prefix (p := p) hstep hshorter)
  rw [Workspace.lookup_iff_hasAt (Path.isAbsolute_foldl_push shorter habs) hadmissible
    (Path.getLast?_runs_foldl_push hne hstepShorter), Path.steps_foldl_push hstepShorter]
  exact hat

/-- The search for a link comes upon one if the text of the way to it can be looked up. -/
theorem meetsLink_of_hasAt {w : Workspace} {p target : Path} {front cs : List Component}
    {loc : Location} (habs : p.isAbsolute = true) (hstep : ∀ c ∈ front, c.isStep = true)
    (hadmissible : (front.foldl Path.push p).Admissible) (hbegins : front <+: cs)
    (hfront : front ≠ []) (hat : w.HasAt true (p.steps ++ front) loc (.link target)) :
    meetsLink w p cs = true := by
  refine meetsLink_iff.mpr ⟨front, hbegins, hfront, ?_, ?_⟩
  · exact ⟨loc, target, lookup_foldl_push habs hstep hadmissible (List.prefix_refl _) hfront hat⟩
  · rintro shorter ⟨rest, rfl⟩ hne
    have hshorter := List.prefix_append shorter rest
    by_cases hrest : rest = []
    · subst hrest
      rw [List.append_nil] at hat
      exact ⟨_, lookup_foldl_push habs hstep hadmissible hshorter hne hat⟩
    · rw [← List.append_assoc] at hat
      obtain ⟨dir, hdir⟩ := hat.directory hrest
      rcases hdir.named with hreal | ⟨outer, target', hlink⟩
      · exact ⟨_, lookup_foldl_push habs hstep hadmissible hshorter hne hreal⟩
      · exact ⟨_, lookup_foldl_push habs hstep hadmissible hshorter hne hlink⟩

/-- Where the base is not refused, each directory on the way from the anchor is clear. -/
theorem clears_of_not_refused {plan : Plan} (hv : v.followsLinks = false)
    (hplan : plan.toStart.Anchored) (hrefuse : v.refusesBase plan = false)
    (hbase : plan.base.Admissible) {cs : List Component} (hbegins : cs <+: plan.base.steps)
    (hbeyond : ¬ cs <+: plan.anchor.steps) (hchecked : plan.segments = [] → cs ≠ plan.base.steps)
    {loc : Location} (hdir : v.workspace.HasAt false cs loc .directory) :
    plan.Clears v.workspace cs := by
  obtain ⟨front, rfl⟩ : plan.anchor.steps <+: cs :=
    (List.prefix_or_prefix_of_prefix hbegins hplan.below).resolve_left hbeyond
  obtain ⟨back, hback⟩ := hbegins
  have hfront : front ≠ [] := by
    rintro rfl
    exact hbeyond (by simp)
  have hstep : ∀ c ∈ front, c.isStep = true := fun c hc =>
    Path.isStep_of_mem_steps (p := plan.base)
      (hback ▸ List.mem_append_left back (List.mem_append_right _ hc))
  rcases hdir.named with hreal | ⟨outer, target, hat⟩
  · exact .inl ⟨loc, hreal⟩
  by_cases hlong : pathLengthLimit ≤ (front.foldl Path.push plan.anchor).bytes.length
  · refine .inr ⟨⟨⟨back, ?_⟩, front, ?_, hlong⟩, outer, target, hat⟩
    · rw [Path.components_of_isAbsolute hplan.base, ← hback, List.cons_append]
    · rw [Path.components_of_isAbsolute hplan.anchor, List.cons_append]
  -- the text can be looked up, so the search for links comes upon the one that is there
  exfalso
  have hadmissible : (front.foldl Path.push plan.anchor).Admissible := by
    refine hbase.of_steps ?_ (Nat.lt_of_not_le hlong)
    rw [Path.steps_foldl_push hstep, ← hback]
    exact List.subset_append_left _ _
  have hsearched : front <+: if plan.segments = [] then (front ++ back).dropLast
      else front ++ back := by
    split
    · rename_i hsegments
      have hmore : back ≠ [] := by
        rintro rfl
        exact hchecked hsegments (by simpa using hback)
      rw [List.dropLast_append_of_ne_nil hmore]
      exact List.prefix_append _ _
    · exact List.prefix_append _ _
  have hmeets := meetsLink_of_hasAt hplan.anchor hstep hadmissible hsearched hfront hat
  have hcomponents : plan.base.components = plan.anchor.components ++ (front ++ back) := by
    rw [Path.components_of_isAbsolute hplan.base, Path.components_of_isAbsolute hplan.anchor,
      ← hback, List.cons_append, List.append_assoc]
  rw [(refusesBase_iff hcomponents).mpr ⟨hv, hmeets⟩] at hrefuse
  cases hrefuse

/-- Every way down to the directory is clear beyond the anchor. -/
def Guarded (v : View) (plan : Plan) (dir : Path) : Prop :=
  dir.isAbsolute = true ∧ ∀ cs, cs <+: dir.steps → ¬ cs <+: plan.anchor.steps →
    plan.Clears v.workspace cs

theorem guarded_child {plan : Plan} {dir : Path} {n : Name} {loc : Location}
    (hv : v.followsLinks = false) (hdir : v.Guarded plan dir)
    (hkind : v.classify (dir.child n) = .directory loc) : v.Guarded plan (dir.child n) := by
  have habs := Path.isAbsolute_child n hdir.1
  refine ⟨habs, ?_⟩
  intro cs hcs hbeyond
  rw [Path.steps_child, List.prefix_concat_iff] at hcs
  rcases hcs with rfl | hcs
  · have hlook := (classify_eq_directory_iff hv).mp hkind
    have hadmissible := Workspace.admissible_of_lookup habs hlook
    rw [Workspace.lookup_child_iff hdir.1 hadmissible, Path.steps_child] at hlook
    exact .inl ⟨loc, hlook⟩
  · exact hdir.2 cs hcs hbeyond

theorem guarded_up {plan : Plan} {dir : Path} (hdir : v.Guarded plan dir) :
    v.Guarded plan dir.up := by
  refine ⟨Path.isAbsolute_up hdir.1, ?_⟩
  intro cs hcs
  rw [Path.steps_up hdir.1] at hcs
  exact hdir.2 cs (hcs.trans (List.dropLast_prefix _))

theorem guarded_base {plan : Plan} {loc : Location} (hv : v.followsLinks = false)
    (hplan : plan.toStart.Anchored) (hrefuse : v.refusesBase plan = false)
    (hsegments : plan.segments ≠ [])
    (hlook : v.workspace.lookup false plan.base = .ok (loc, .directory)) :
    v.Guarded plan plan.base := by
  refine ⟨hplan.base, ?_⟩
  intro cs hcs hbeyond
  have hadmissible := Workspace.admissible_of_lookup hplan.base hlook
  have hat := (Workspace.lookup_directory_iff hplan.base hadmissible).mp hlook
  obtain ⟨dir, hdir⟩ : ∃ dir, v.workspace.HasAt false cs dir .directory := by
    obtain ⟨back, hback⟩ := hcs
    by_cases hnil : back = []
    · subst hnil
      rw [← hback, List.append_nil] at hat
      exact ⟨loc, hat⟩
    · exact (hback ▸ hat).directory hnil
  exact clears_of_not_refused hv hplan hrefuse hadmissible hcs hbeyond
    (fun h => absurd h hsegments) hdir

/-- The way to a match is clear beyond the anchor. -/
theorem clears_of_mem_carryOut {plan : Plan} {pattern : String} {found : List Path} {p : Path}
    (hv : v.followsLinks = false) (hplan : plan.toStart.Anchored)
    (hfound : v.carryOut false pattern plan = .ok found) (hp : p ∈ found) :
    p.isAbsolute = true ∧ v.workspace.LeadsToFile p ∧
      ∀ cs, cs <+: p.steps → cs ≠ p.steps → ¬ cs <+: plan.anchor.steps →
        plan.Clears v.workspace cs := by
  obtain ⟨hrefuse, ⟨hsegments, rfl, hfile⟩ | ⟨hsegments, loc, hlook, _, hp⟩⟩ :=
    mem_carryOut_iff.mp ⟨found, hfound, hp⟩
  · refine ⟨hplan.base, hfile, ?_⟩
    intro cs hcs hne hbeyond
    obtain ⟨loc, o, hlook, _⟩ := hfile
    have hadmissible := Workspace.admissible_of_lookup hplan.base hlook
    obtain ⟨back, hback⟩ := hcs
    have hmore : back ≠ [] := by
      rintro rfl
      exact hne (by simpa using hback)
    have hat := Workspace.hasAt_of_lookup hplan.base hlook
    rw [← hback] at hat
    obtain ⟨dir, hdir⟩ := hat.directory hmore
    exact clears_of_not_refused hv hplan hrefuse hadmissible ⟨back, hback⟩ hbeyond (fun _ => hne)
      hdir
  · obtain ⟨outer, n, ⟨houter, hclear⟩, rfl, hfile⟩ := mem_matchesBelow_of_invariant
      (fun dir n loc hdir hkind => guarded_child (n := n) hv hdir hkind)
      (fun dir hdir => guarded_up hdir) (guarded_base hv hplan hrefuse hsegments hlook) hp
    refine ⟨Path.isAbsolute_child n houter, hfile, ?_⟩
    intro cs hcs hne hbeyond
    rw [Path.steps_child] at hcs hne
    exact hclear cs ((List.prefix_concat_iff.mp hcs).resolve_left hne) hbeyond

/-- What a plan permits below its anchor goes through directories themselves only. -/
theorem Permits.namesDirectory {plan : Plan} {literal names front back : List Name}
    (hv : v.followsLinks = false) (hpermits : v.Permits plan names)
    (habs : plan.anchor.isAbsolute = true) (hbase : plan.base = plan.anchor.descend literal)
    (hfile : v.workspace.LeadsToFile (plan.base.descend names))
    (hsplit : literal ++ names = front ++ back) (hfront : front ≠ []) (hback : back ≠ []) :
    v.workspace.NamesDirectory (plan.anchor.descend front) := by
  have hleads : v.workspace.LeadsToDirectory (plan.anchor.descend front) := by
    rw [hbase, ← Path.descend_append, hsplit] at hfile
    exact hfile.names.leadsToDirectory habs hback
  rcases List.append_eq_append_iff.mp hsplit with ⟨middle, rfl, hnames⟩ | ⟨middle, hliteral, hrest⟩
  · by_cases hmiddle : middle = []
    · subst hmiddle
      rw [List.append_nil] at hfront ⊢ hleads
      refine hleads.namesDirectory (hpermits.literal hv literal [] ?_ hfront (.inr ?_))
      · rw [List.append_nil, hbase]
      · rw [hnames]
        exact hback
    · rw [Path.descend_append, ← hbase]
      exact hpermits.real hv middle back hnames hmiddle hback
  · refine hleads.namesDirectory (hpermits.literal hv front middle (hliteral ▸ hbase) hfront ?_)
    by_cases hmiddle : middle = []
    · subst hmiddle
      exact .inr fun hnil => hback (by simpa [hnil] using hrest)
    · exact .inl hmiddle

/-- Where the way to a match is clear, an ancestor beyond the anchor is a directory itself, unless
it is a link that went unseen. -/
theorem namesDirectory_ancestor_iff {w : Workspace} {plan : Plan} {p : Path} {k : Nat}
    (hplan : plan.toStart.Anchored) (habs : p.isAbsolute = true) (hp : p.Admissible)
    (hclear : ∀ cs, cs <+: p.steps → cs ≠ p.steps → ¬ cs <+: plan.anchor.steps → plan.Clears w cs)
    (hbeyond : shared p.components plan.anchor.components <+: (p.ancestor (k + 1)).components)
    (hne : (p.ancestor (k + 1)).components ≠ shared p.components plan.anchor.components) :
    w.NamesDirectory (p.ancestor (k + 1)) ↔
      ¬ (w.NamesLink (p.ancestor (k + 1)) ∧ plan.Unseen (p.ancestor (k + 1)).components) := by
  have hancestorAbs := (Path.steps_ancestor habs (k + 1)).1
  have hparent := Path.prefix_steps_ancestor habs k
  have hsteps := hparent.trans (List.dropLast_prefix p.steps)
  have hcomponents := Path.components_of_isAbsolute hancestorAbs
  have houtside : ¬ (p.ancestor (k + 1)).steps <+: plan.anchor.steps := by
    have hbegins : (p.ancestor (k + 1)).components <+: p.components := by
      rw [hcomponents, Path.components_of_isAbsolute habs]
      exact List.cons_prefix_cons.mpr ⟨rfl, hsteps⟩
    have hnot := not_prefix_of_beyond_shared hbegins hbeyond hne
    rwa [hcomponents, Path.components_of_isAbsolute hplan.anchor, List.cons_prefix_cons,
      and_iff_right rfl] at hnot
  have hsome : (p.ancestor (k + 1)).steps ≠ [] := by
    intro hnil
    exact houtside (hnil ▸ List.nil_prefix)
  have hproper : (p.ancestor (k + 1)).steps ≠ p.steps := by
    intro hsame
    have hlength := hparent.length_le
    have hpos := List.length_pos_iff.mpr hsome
    rw [hsame] at hlength hpos
    rw [List.length_dropLast] at hlength
    omega
  have hlook : ∀ loc o, w.lookup true (p.ancestor (k + 1)) = .ok (loc, o) ↔
      w.HasAt true (p.ancestor (k + 1)).steps loc o := fun loc o =>
    Workspace.lookup_ancestor_iff habs hp hsome
  constructor
  · rintro hdir ⟨hlink, _⟩
    exact hdir.not_namesLink hlink
  · intro hseen
    rcases hclear _ hsteps hproper houtside with ⟨loc, hat⟩ | ⟨hunseen, loc, target, hat⟩
    · exact ⟨loc, (hlook _ _).mpr hat⟩
    · exact absurd ⟨⟨loc, target, (hlook _ _).mpr hat⟩, hcomponents ▸ hunseen⟩ hseen

/-- Below the root, what a plan permits is really where its names say. -/
theorem Permits.locate_up {plan : Plan} {literal names : List Name} (hv : v.followsLinks = false)
    (hpermits : v.Permits plan names) (habs : plan.anchor.isAbsolute = true)
    (hbase : plan.base = plan.anchor.descend literal)
    (hfile : v.workspace.LeadsToFile (plan.base.descend names))
    (hother : plan.base.descend names ≠ plan.anchor) :
    ∃ loc front n, v.workspace.locate false plan.anchor = .ok loc ∧
      plan.base.descend names = plan.anchor.descend (front ++ [n]) ∧
      v.workspace.locate false (plan.base.descend names).up = .ok (front.reverse ++ loc) := by
  have hway : plan.base.descend names = plan.anchor.descend (literal ++ names) := by
    rw [Path.descend_append, ← hbase]
  have hnames : literal ++ names ≠ [] := by
    intro hnil
    rw [hway, hnil] at hother
    exact hother rfl
  obtain ⟨front, n, hsplit⟩ : ∃ front n, literal ++ names = front ++ [n] :=
    ⟨_, _, (List.dropLast_concat_getLast hnames).symm⟩
  obtain ⟨loc, hroot⟩ : v.workspace.LeadsToDirectory plan.anchor := by
    have hnamed : v.workspace.Names (plan.anchor.descend ([] ++ (literal ++ names))) :=
      hway ▸ hfile.names
    exact hnamed.leadsToDirectory habs hnames
  have hdirs : ∀ shorter longer, front = shorter ++ longer → shorter ≠ [] →
      v.workspace.NamesDirectory (plan.anchor.descend shorter) := by
    intro shorter longer hfront hshorter
    have hwhole : literal ++ names = shorter ++ (longer ++ [n]) := by
      rw [hsplit, hfront, List.append_assoc]
    exact hpermits.namesDirectory hv habs hbase hfile hwhole hshorter (by simp)
  have hat := Workspace.hasAt_of_lookup (Path.isAbsolute_descend front habs)
    (Workspace.lookup_descend hroot hdirs)
  have hmatchAbs : (plan.base.descend names).isAbsolute = true :=
    hway ▸ Path.isAbsolute_descend _ habs
  have hsteps : (plan.base.descend names).up.steps = (plan.anchor.descend front).steps := by
    rw [Path.steps_up hmatchAbs, hway, hsplit]
    simp
  have hadmissible := (hfile.admissible hmatchAbs).of_begins (Path.prefix_bytes_up hmatchAbs)
  have hlook := (Workspace.lookup_directory_iff (Path.isAbsolute_up hmatchAbs) hadmissible).mpr
    (hsteps ▸ hat)
  exact ⟨loc, front, n, (Workspace.lookup_eq hroot).1, hsplit ▸ hway, (Workspace.lookup_eq hlook).1⟩

/-- **Links are not followed.** An ancestor of a match that goes beyond what the match shares with
the anchor is a directory itself, unless it is a link that went unseen. For a relative pattern
without `..`, the directory of a match is really where the names say, below the root. -/
theorem real_ancestors_of_match {w : Workspace} {root : Path} {pattern : String} {plan : Plan}
    {cancelled : Bool} {e : Expansion} {p : Path} (habs : root.isAbsolute = true)
    (hplan : Pattern.plan pattern root = .ok plan)
    (hexpand : (View.mk w false).expand (some root) cancelled pattern = .ok e)
    (hp : p ∈ e.found) :
    (∀ k, shared p.components plan.anchor.components <+: (p.ancestor (k + 1)).components →
      (p.ancestor (k + 1)).components ≠ shared p.components plan.anchor.components →
      (w.NamesDirectory (p.ancestor (k + 1)) ↔
        ¬ (w.NamesLink (p.ancestor (k + 1)) ∧ plan.Unseen (p.ancestor (k + 1)).components))) ∧
    ((Path.ofText pattern).isAbsolute = false → Component.up ∉ (Path.ofText pattern).components →
      p.components ≠ root.components →
      ∃ loc names n, w.locate false root = .ok loc ∧ p = root.descend (names ++ [n]) ∧
        w.locate false p.up = .ok (names.reverse ++ loc)) := by
  have hanchored := Pattern.plan_anchored habs hplan
  obtain ⟨found, hfound, rfl⟩ := (expand_eq_ok_iff hplan).mp hexpand
  have hfound := carryOut_of_cancelled hfound
  have hp := Path.mem_of_mem_distinct hp
  obtain ⟨hpAbs, hfile, hclear⟩ := clears_of_mem_carryOut rfl hanchored hfound hp
  constructor
  · intro k hbeyond hne
    exact namesDirectory_ancestor_iff hanchored hpAbs (hfile.admissible hpAbs) hclear hbeyond hne
  · intro hrelative hup hother
    obtain ⟨literal, hbase, hanchor, hparent⟩ := Pattern.plan_of_up_notMem hplan hup
    obtain ⟨_, _, hisAbsolute, _⟩ := Pattern.plan_spec hplan
    have horigin : Pattern.origin pattern root = root := by simp [Pattern.origin, hrelative]
    rw [hisAbsolute, hrelative, if_neg Bool.false_ne_true] at hanchor
    subst hanchor
    rw [horigin] at hbase
    obtain ⟨names, rfl, _, _, hpermits⟩ :=
      takes_of_mem_carryOut pattern (by simp) habs hbase hparent ⟨found, hfound, hp⟩
    exact hpermits.locate_up rfl habs hbase hfile fun hsame => hother (congrArg _ hsame)

theorem star_match_below_root :
    (Path.ofText "/r").isAbsolute = true ∧
      Pattern.plan "*" (Path.ofText "/r") =
        .ok ⟨⟨Path.ofText "/r", Path.ofText "/r"⟩, false, [.matching [.anyRun]]⟩ ∧
      (View.mk .small false).expand (some (Path.ofText "/r")) false "*" =
        .ok ⟨"*", false, [Path.ofText "/r/x"]⟩ ∧
      ∃ loc names n, Workspace.small.locate false (Path.ofText "/r") = .ok loc ∧
        Path.ofText "/r/x" = (Path.ofText "/r").descend (names ++ [n]) ∧
        Workspace.small.locate false (Path.ofText "/r/x").up = .ok (names.reverse ++ loc) := by
  have habs : (Path.ofText "/r").isAbsolute = true := by decide
  have hplan : Pattern.plan "*" (Path.ofText "/r") =
      .ok ⟨⟨Path.ofText "/r", Path.ofText "/r"⟩, false, [.matching [.anyRun]]⟩ := by cbv
  have hexpand : (View.mk .small false).expand (some (Path.ofText "/r")) false "*" =
      .ok ⟨"*", false, [Path.ofText "/r/x"]⟩ := by cbv
  have hmatch := real_ancestors_of_match habs hplan hexpand List.mem_cons_self
  exact ⟨habs, hplan, hexpand, hmatch.2 (by decide) (by decide) (by decide)⟩

end View

/-! ### A link that goes unseen

The text of an anchor may hold any number of slashes and dots that stand for nothing. A climb leaves
them out of the base, while the search for links still starts from the whole text of the anchor. -/

theorem Text.splitOn_replicate_append {α : Type} [DecidableEq α] (sep : α) (k : Nat)
    (xs : List α) :
    List.splitOn sep (List.replicate k sep ++ xs) =
      List.replicate k [] ++ List.splitOn sep xs := by
  induction k with
  | zero => rfl
  | succ k ih =>
      rw [List.replicate_succ, List.cons_append, splitOn_cons_self, ih, List.replicate_succ,
        List.cons_append]

namespace Path

/-- The root directory, written with so many slashes more than it takes. -/
def slashes (k : Nat) : Path := ⟨List.replicate (k + 1) slash⟩

theorem components_slashes (k : Nat) : (slashes k).components = [.root] := by
  have hruns := Text.splitOn_replicate_append slash (k + 1) []
  rw [List.append_nil] at hruns
  have hsteps : (slashes k).steps = [] := by
    simp [steps, slashes, hruns, Component.ofRun?, Name.ofBytes?]
  rw [components_of_isAbsolute rfl, hsteps]

theorem bytes_child_slashes (k : Nat) (n : Name) :
    ((slashes k).child n).bytes = List.replicate (k + 1) slash ++ n.bytes := by
  have hrel : Path.isAbsolute ⟨n.bytes⟩ = false := isAbsolute_of_isStep (c := .name n) rfl
  simp [child, join, hrel, slashes, List.getLast?_replicate]

theorem trimmed_slashes (k : Nat) : (slashes k).trimmed = ⟨[slash]⟩ := by
  have hruns := Text.splitOn_replicate_append slash k []
  rw [List.append_nil] at hruns
  simp [trimmed, slashes, List.replicate_succ, hruns, isIdle]

/-- A climb back to the root directory takes all slashes but one along. -/
theorem up_child_slashes (k : Nat) (n : Name) : ((slashes k).child n).up = ⟨[slash]⟩ :=
  (up_child rfl n).trans (trimmed_slashes k)

end Path

/-- A workspace with a directory `/d` that holds `f`, and beside it a link `/b` to `/d`. -/
def Workspace.linked : Workspace where
  files := {
    objects := [
      ([⟨[100], by decide⟩], .directory),
      ([⟨[102], by decide⟩, ⟨[100], by decide⟩], .file []),
      ([⟨[98], by decide⟩], .link ⟨[100]⟩)]
    distinct := by decide }
  here := none

theorem plan_from_slashes : Pattern.plan "a/../b/f" (.slashes 4096) =
    .ok ⟨⟨Path.ofText "/b/f", .slashes 4096⟩, false, []⟩ := by
  have hsegments : Pattern.segments "a/../b/f" = .ok [.named ⟨[97], by decide⟩, .parent,
      .named ⟨[98], by decide⟩, .named ⟨[102], by decide⟩] := by cbv
  have habs : (Path.ofText "a/../b/f").isAbsolute = false := by decide
  have hup : ((Path.slashes 4096).child ⟨[97], by decide⟩).up = ⟨[slash]⟩ :=
    Path.up_child_slashes 4096 _
  have hstays : Path.startsWith ⟨[slash]⟩ (.slashes 4096) = true := by
    simp only [Path.startsWith, Path.components_slashes]
    decide
  simp only [Pattern.plan, habs, hsegments]
  simp [bind, Except.bind, pure, Except.pure, Segment.isFixed, List.takeWhile, List.dropWhile,
    Start.follow, hup, hstays]
  decide

/-- The text behind so many slashes is too long to be looked up, and the link `/b` is passed. -/
theorem link_passed_unseen :
    (Path.slashes 4096).isAbsolute = true ∧ Component.up ∉ (Path.slashes 4096).components ∧
      ∃ plan e, Pattern.plan "a/../b/f" (.slashes 4096) = .ok plan ∧
        (View.mk .linked false).expand (some (.slashes 4096)) false "a/../b/f" = .ok e ∧
        Path.ofText "/b/f" ∈ e.found ∧
        shared (Path.ofText "/b/f").components plan.anchor.components <+:
          ((Path.ofText "/b/f").ancestor 1).components ∧
        ((Path.ofText "/b/f").ancestor 1).components ≠
          shared (Path.ofText "/b/f").components plan.anchor.components ∧
        ¬ Workspace.linked.NamesDirectory ((Path.ofText "/b/f").ancestor 1) := by
  have hlook : Workspace.linked.lookup true
      ((Path.slashes 4096).push (.name ⟨[98], by decide⟩)) = .error .nameTooLong := by
    have hbytes : ((Path.slashes 4096).push (.name ⟨[98], by decide⟩)).bytes = _ :=
      Path.bytes_child_slashes 4096 ⟨[98], by decide⟩
    refine Workspace.lookup_of_long ?_ ?_
    · rw [hbytes, List.mem_append, List.mem_replicate]
      decide
    · rw [hbytes, List.length_append, List.length_replicate]
      decide
  have hbelow : (Path.ofText "/b/f").components = (Path.slashes 4096).components ++
      [.name ⟨[98], by decide⟩, .name ⟨[102], by decide⟩] := by
    rw [Path.components_slashes]
    decide
  have hrefuse : (View.mk .linked false).refusesBase
      ⟨⟨Path.ofText "/b/f", .slashes 4096⟩, false, []⟩ = false := by
    rw [← Bool.not_eq_true, View.refusesBase_iff hbelow]
    simp [View.meetsLink, hlook]
  have hfound : (View.mk .linked false).carryOut false "a/../b/f"
      ⟨⟨Path.ofText "/b/f", .slashes 4096⟩, false, []⟩ = .ok [Path.ofText "/b/f"] := by
    have hfile : (View.mk .linked false).classify (Path.ofText "/b/f") = .file := by cbv
    simp [View.carryOut, hrefuse, hfile]
  have hancestor : (Path.ofText "/b/f").ancestor 1 = Path.ofText "/b" := by decide
  refine ⟨rfl, by simp [Path.components_slashes], _, _, plan_from_slashes,
    (View.expand_eq_ok_iff plan_from_slashes).mpr ⟨_, hfound, rfl⟩, ?_, ?_, ?_, ?_⟩
  · decide
  · simp only [Path.components_slashes]
    decide
  · simp only [Path.components_slashes]
    decide
  · rw [hancestor]
    rintro ⟨loc, hloc⟩
    have hlink : Workspace.linked.lookup true (Path.ofText "/b") =
        .ok ([⟨[98], by decide⟩], .link ⟨[100]⟩) := by cbv
    rw [hlink] at hloc
    cases hloc

end ArtifactHarvest
