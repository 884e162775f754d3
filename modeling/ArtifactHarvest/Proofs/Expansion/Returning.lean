import ArtifactHarvest.Proofs.Expansion.Climbing
import ArtifactHarvest.Proofs.Expansion.Depth
import ArtifactHarvest.Proofs.Expansion.Links
import ArtifactHarvest.Proofs.Expansion.Ordering
import ArtifactHarvest.Proofs.Expansion.Wildcards

/-!
A pattern that goes down to any directory and back up again. Each directory that is found on the way
leads back to where it was found (`inside_turning`). So where all directories can be listed, the
pattern leads where it would without the two components, however many there are (`leads_turning`).
Main statement: `found_of_turned_back`.
-/

namespace ArtifactHarvest

/-! ### A component to be matched, and back up again -/

/-- The directory holds one that the glob stands for, itself and not through a link. -/
def Workspace.Offers (w : Workspace) (dir : Path) (g : Glob) : Prop :=
  ∃ n, Glob.Matches g n.text.toList ∧ w.NamesDirectory (dir.child n)

theorem Workspace.Offers.leadsToDirectory {w : Workspace} {dir : Path} {g : Glob}
    (h : w.Offers dir g) (habs : dir.isAbsolute = true) : w.LeadsToDirectory dir := by
  obtain ⟨n, _, loc, hlook⟩ := h
  obtain ⟨outer, houter, _⟩ := lookup_child habs hlook
  exact ⟨outer, houter⟩

namespace View

variable {v : View} {plan : Plan} {dir : Path} {g : Glob} {segments : List Segment}

/-- Each directory that the glob stands for leads back to where it was found. -/
theorem inside_turning (hv : v.followsLinks = false) (habs : dir.isAbsolute = true) (n : Name) :
    (v.workspace.NamesDirectory (dir.child n) ∧
      v.inside (.parent :: segments) (dir.child n) [] = v.matchesBelow segments dir.trimmed []) ∨
    (¬ v.workspace.NamesDirectory (dir.child n) ∧
      v.inside (.parent :: segments) (dir.child n) [] = []) := by
  have hback : v.matchesBelow (.parent :: segments) (dir.child n) [] =
      v.matchesBelow segments dir.trimmed [] := by
    rw [← Path.up_child habs n]
    exact matchesBelow_climbs 1 segments (dir.child n)
  rw [← hback]
  exact inside_eq_of_not_follows hv (.parent :: segments) (dir.child n)

theorem leads_of_turning (hv : v.followsLinks = false)
    (hsegments : plan.segments = .matching g :: .parent :: segments)
    (hclear : v.refusesBase plan = false) :
    v.leads plan = (v.candidates plan.base (.matching g)).flatMap fun n =>
      v.inside (.parent :: segments) (plan.base.child n) [] := by
  have hsome : plan.segments ≠ [] := hsegments ▸ List.cons_ne_nil _ _
  by_cases hlists : v.workspace.Lists plan.base
  · obtain ⟨loc, hlook, hlisted⟩ := hlists
    rw [leads_of_directory hclear hsome hlook hlisted, firstBranch_of_not_follows hv, hsegments]
    exact matchesBelow_single rfl (List.cons_ne_nil _ _) plan.base []
  · rw [leads_of_not_lists hsome hlists, candidates, Workspace.entries_of_not_lists hlists]
    rfl

/-- However many directories the glob stands for, they find what is found from where they are. -/
theorem leads_turning (hv : v.followsLinks = false) (hlist : v.workspace.files.Listable)
    (habs : plan.base.isAbsolute = true)
    (hsegments : plan.segments = .matching g :: .parent :: segments)
    (hclear : v.refusesBase plan = false) (hoffers : v.workspace.Offers plan.base g) :
    Path.distinct (v.leads plan) =
      Path.distinct (v.matchesBelow segments plan.base.trimmed []) := by
  obtain ⟨n, hmatches, loc, hlook⟩ := hoffers
  rw [leads_of_turning hv hsegments hclear]
  apply Path.alike_flatMap_of_mem (a := n)
  · intro k _
    exact (inside_turning hv habs k).imp And.right And.right
  · exact (mem_candidates_iff (Workspace.mem_entries_of_lookup hlist habs hlook)).mpr hmatches
  · exact ((inside_turning hv habs n).resolve_right fun hnone => hnone.1 ⟨loc, hlook⟩).2

theorem leads_turning_of_not (hv : v.followsLinks = false) (habs : plan.base.isAbsolute = true)
    (hsegments : plan.segments = .matching g :: .parent :: segments)
    (hnone : v.refusesBase plan = false → ¬ v.workspace.Offers plan.base g) :
    v.leads plan = [] := by
  cases hrefused : v.refusesBase plan with
  | true => exact leads_of_refused hrefused
  | false =>
      rw [leads_of_turning hv hsegments hrefused, List.flatMap_eq_nil_iff]
      intro n hn
      refine ((inside_turning hv habs n).resolve_left ?_).2
      rintro ⟨hdir, -⟩
      exact hnone hrefused ⟨n, accepts_of_mem_candidates hn, hdir⟩

end View

namespace Pattern

theorem segmentsOf_cons_of_ok {c : Component} {s : Segment}
    (hc : Segment.ofComponent c = .ok (some s)) (cs : List Component) :
    segmentsOf (c :: cs) = (segmentsOf cs).map (s :: ·) :=
  segmentsOf_insert hc [] cs

/-- Plain names stand for themselves in front of other components. -/
theorem segmentsOf_names {names : List Name} (h : ∀ n ∈ names, (Component.name n).isPlain = true)
    (back : List Component) :
    segmentsOf (names.map .name ++ back) = (segmentsOf back).map (names.map .named ++ ·) := by
  have hplain : ∀ c ∈ names.map Component.name, c.isPlain = true := by simpa using h
  rw [segmentsOf_append hplain, Segment.filterMap_ofPlain?_names]

end Pattern

/-- The plan as it is for an absolute pattern, or for a relative one. -/
def Plan.spelled (isAbsolute : Bool) (plan : Plan) : Plan :=
  if isAbsolute then plan.asAbsolute else plan

namespace Pattern

theorem plan_eq_spelled {text : String} {all : List Segment}
    (h : segmentsOf (Path.ofText text).components = .ok all) (root : Path) :
    plan text root = .ok (Plan.spelled (Path.ofText text).isAbsolute
      ⟨begun (origin text root) (all.takeWhile Segment.isFixed), false,
        all.dropWhile Segment.isFixed⟩) := by
  rw [plan_of_segmentsOf h root, origin]
  cases (Path.ofText text).isAbsolute <;> rfl

/-- The plans of two patterns of which the first has a component to be matched and a step back where
the second has nothing. -/
theorem plans_of_turned (root : Path) {p q : String} {names more : List Name} {m : Name} {g : Glob}
    {back : List Component} {climbs : Nat}
    (hsame : (Path.ofText q).isAbsolute = (Path.ofText p).isAbsolute)
    (hp : (Path.ofText p).steps = names.map .name ++ .name m :: .up :: back)
    (hq : (Path.ofText q).steps = names.map .name ++ back)
    (hnames : ∀ n ∈ names, (Component.name n).isPlain = true)
    (hm : Segment.ofComponent (.name m) = .ok (some (.matching g)))
    (hback : back.takeWhile Component.isPlain = List.replicate climbs .up ++ more.map .name) :
    (∃ fault, plan p root = .error fault ∧ plan q root = .error fault) ∨
    ∃ rest, (back.dropWhile Component.isPlain = [] → rest = []) ∧
      plan p root = .ok (.spelled (Path.ofText p).isAbsolute (.under (origin p root) names
        (.matching g :: .parent :: (List.replicate climbs .parent ++ (more.map .named ++ rest))))) ∧
      plan q root = .ok (.spelled (Path.ofText p).isAbsolute
        (.climbing (origin p root) names climbs more rest)) := by
  have hup : Segment.ofComponent .up = .ok (some .parent) := rfl
  have hpAll := segmentsOf_components p
  have hqAll := segmentsOf_components q
  rw [hp, segmentsOf_names hnames, segmentsOf_cons_of_ok hm, segmentsOf_cons_of_ok hup] at hpAll
  rw [hq, segmentsOf_names hnames] at hqAll
  cases hall : segmentsOf back with
  | error fault =>
      rw [hall] at hpAll hqAll
      exact .inl ⟨fault, plan_of_fault hpAll root, plan_of_fault hqAll root⟩
  | ok all =>
      rw [hall] at hpAll hqAll
      have hfixed : all.takeWhile Segment.isFixed =
          List.replicate climbs .parent ++ more.map .named := by
        rw [takeWhile_isFixed hall, hback, List.filterMap_append,
          Segment.filterMap_ofPlain?_names more]
        congr 1
        exact List.filterMap_replicate_of_some rfl
      have hsplit : all = List.replicate climbs .parent ++
          (more.map .named ++ all.dropWhile Segment.isFixed) := by
        rw [← List.append_assoc, ← hfixed, List.takeWhile_append_dropWhile]
      have hnamed : ∀ s ∈ names.map Segment.named, s.isFixed = true := by simp [Segment.isFixed]
      have horigin : origin q root = origin p root := by rw [origin, origin, hsame]
      refine .inr ⟨all.dropWhile Segment.isFixed, ?_, ?_, ?_⟩
      · intro hnil
        have hrest := dropWhile_isFixed hall
        rw [hnil] at hrest
        exact (Except.ok.inj hrest).symm
      · have htake : (names.map Segment.named ++ .matching g :: .parent :: all).takeWhile
            Segment.isFixed = names.map .named := by
          simp [List.takeWhile_append_of_pos hnamed, Segment.isFixed]
        have hdrop : (names.map Segment.named ++ .matching g :: .parent :: all).dropWhile
            Segment.isFixed = .matching g :: .parent :: all := by
          simp [List.dropWhile_append_of_pos hnamed, Segment.isFixed]
        rw [plan_eq_spelled hpAll, htake, hdrop, begun, foldl_follow_named, ← hsplit]
        rfl
      · rw [plan_eq_spelled hqAll, horigin, hsame]
        simp only [List.takeWhile_append_of_pos hnamed, List.dropWhile_append_of_pos hnamed, hfixed]
        rfl

end Pattern

namespace View

section

variable {v : View} {root : Path} {names : List Name} {g : Glob}

theorem refusesBase_under_eq_false_iff {segments : List Segment} (habs : root.isAbsolute = true)
    (hsegments : segments ≠ []) (hv : v.followsLinks = false) :
    v.refusesBase (.under root names segments) = false ↔ v.workspace.Clear root names := by
  rw [refusesBase_eq_false_iff_clear hv habs (Path.components_descend _ names)]
  simp only [checkedNames, Plan.under, hsegments, if_false]

/-- Where a relative pattern can turn back, its plan leads where the plan without the turn does. -/
theorem leads_turning_relative (hv : v.followsLinks = false) (hlist : v.workspace.files.Listable)
    (habs : root.isAbsolute = true) (hreach : v.workspace.InReach root)
    (hclear : v.workspace.Clear root names)
    (hoffers : v.workspace.Offers (root.descend names) g) (climbs : Nat) (more : List Name)
    (rest : List Segment) :
    (Path.distinct (v.leads (.under root names (.matching g :: .parent ::
        (List.replicate climbs .parent ++ (more.map .named ++ rest)))))).map Path.components =
      (Path.distinct (v.leads (.climbing root names climbs more rest))).map Path.components ∧
    ((∀ n, (root.child n).up = root) →
      Path.distinct (v.leads (.under root names (.matching g :: .parent ::
          (List.replicate climbs .parent ++ (more.map .named ++ rest))))) =
        Path.distinct (v.leads (.climbing root names climbs more rest))) := by
  have hdownAbs := Path.isAbsolute_descend names habs
  rw [leads_climbing hv hlist hreach habs hclear (hoffers.leadsToDirectory hdownAbs)]
  generalize List.replicate climbs Segment.parent ++ (more.map .named ++ rest) = segments
  have hgoes : v.refusesBase (.under root names (.matching g :: .parent :: segments)) = false :=
    (refusesBase_under_eq_false_iff habs (List.cons_ne_nil _ _) hv).mpr hclear
  rw [leads_turning hv hlist hdownAbs rfl hgoes hoffers]
  constructor
  · apply Path.map_components_distinct_congr
    exact matchesBelow_respelled hv hreach habs (.trimmed habs names) segments []
  · intro hroot
    have htrimmed : root.trimmed = root :=
      (Path.up_child habs ⟨[97], by decide⟩).symm.trans (hroot ⟨[97], by decide⟩)
    exact congrArg (fun dir => Path.distinct (v.matchesBelow segments dir []))
      (Path.trimmed_descend_of_trimmed habs htrimmed names)

/-- So does the plan of an absolute pattern, unless a link is on the way to the other's base. -/
theorem leads_turning_absolute (hv : v.followsLinks = false)
    (hlist : v.workspace.files.Listable) (hoffers : v.workspace.Offers (.ofNames names) g)
    {climbs : Nat} {more : List Name} {rest : List Segment}
    (hclear : v.workspace.Clear ((Path.ofNames names).ancestor climbs)
      (if rest = [] then more.dropLast else more)) :
    Path.distinct (v.leads (Plan.under ⟨[slash]⟩ names (.matching g :: .parent ::
        (List.replicate climbs .parent ++ (more.map .named ++ rest)))).asAbsolute) =
      Path.distinct (v.leads (Plan.climbing ⟨[slash]⟩ names climbs more rest).asAbsolute) := by
  have hdownAbs := Path.isAbsolute_ofNames names
  rw [leads_climbing_asAbsolute hv hlist rfl (hoffers.leadsToDirectory hdownAbs) hclear]
  generalize List.replicate climbs Segment.parent ++ (more.map .named ++ rest) = segments
  have hturned : Path.distinct (v.leads (Plan.under ⟨[slash]⟩ names
      (.matching g :: .parent :: segments)).asAbsolute) = _ :=
    leads_turning hv hlist hdownAbs rfl (refusesBase_asAbsolute v _) hoffers
  rw [hturned]
  exact congrArg (fun dir => Path.distinct (v.matchesBelow segments dir []))
    (Path.trimmed_descend_of_trimmed rfl rfl names)

end

variable {w : Workspace} {root : Path} {p q : String} {names more : List Name} {m : Name}
  {back : List Component} {climbs : Nat}

/-- A component that is read as no glob makes the pattern find nothing. -/
theorem found_of_no_glob {fault : GlobFault} (hmem : .name m ∈ (Path.ofText p).components)
    (hm : (Component.name m).isPlain = false) (hstars : m.text ≠ "**")
    (hglob : Glob.read m.text = .error fault) : (View.mk w false).found root p = [] := by
  have hasks : Glob.isMeant m.text = true := by simpa [Component.isPlain] using hm
  have hfault : ¬ Glob.WellFormed m.text.toList := by
    rw [Glob.wellFormed_iff]
    rintro ⟨g, hg⟩
    cases hglob.symm.trans hg
  obtain ⟨_, hplan⟩ : ∃ fault, Pattern.plan p root = .error fault :=
    Pattern.plan_eq_error_iff.mpr ⟨m, hmem, Glob.isMeant_iff.mp hasks, hstars, hfault⟩
  exact found_of_fault hplan

/-- A relative pattern that turns back, and the one without the turn. -/
theorem found_turned_relative {g : Glob} {rest : List Segment} (habs : root.isAbsolute = true)
    (hpPlan : Pattern.plan p root = .ok (.under root names (.matching g :: .parent ::
      (List.replicate climbs .parent ++ (more.map .named ++ rest)))))
    (hqPlan : Pattern.plan q root = .ok (.climbing root names climbs more rest)) :
    (w.Clear root names ∧ w.Offers (root.descend names) g → w.files.Listable → w.InReach root →
      ((View.mk w false).found root p).map Path.components =
          ((View.mk w false).found root q).map Path.components ∧
        ((∀ n, (root.child n).up = root) →
          (View.mk w false).found root p = (View.mk w false).found root q)) ∧
    (¬ (w.Clear root names ∧ w.Offers (root.descend names) g) →
      (View.mk w false).found root p = []) := by
  rw [found_of_plan hpPlan, found_of_plan hqPlan]
  constructor
  · rintro ⟨hclear, hoffers⟩ hlist hreach
    exact leads_turning_relative rfl hlist habs hreach hclear hoffers climbs more rest
  · intro hcannot
    have hnone : (View.mk w false).refusesBase (.under root names (.matching g :: .parent ::
        (List.replicate climbs .parent ++ (more.map .named ++ rest)))) = false →
        ¬ w.Offers (root.descend names) g := by
      intro hgoes hoffers
      have hclear := (refusesBase_under_eq_false_iff habs (List.cons_ne_nil _ _) rfl).mp hgoes
      exact hcannot ⟨hclear, hoffers⟩
    rw [leads_turning_of_not rfl (Path.isAbsolute_descend names habs) rfl hnone]
    rfl

/-- The same for absolute patterns. -/
theorem found_turned_absolute {g : Glob} {rest : List Segment}
    (hpPlan : Pattern.plan p root = .ok (Plan.under ⟨[slash]⟩ names (.matching g :: .parent ::
      (List.replicate climbs .parent ++ (more.map .named ++ rest)))).asAbsolute)
    (hqPlan : Pattern.plan q root =
      .ok (Plan.climbing ⟨[slash]⟩ names climbs more rest).asAbsolute) :
    (w.Offers (.ofNames names) g → w.files.Listable →
      w.Clear ((Path.ofNames names).ancestor climbs) (if rest = [] then more.dropLast else more) →
        (View.mk w false).found root p = (View.mk w false).found root q) ∧
    (¬ w.Offers (.ofNames names) g → (View.mk w false).found root p = []) := by
  rw [found_of_plan hpPlan, found_of_plan hqPlan]
  constructor
  · intro hoffers hlist hclear
    exact leads_turning_absolute rfl hlist hoffers hclear
  · intro hcannot
    rw [leads_turning_of_not rfl (Path.isAbsolute_ofNames names) rfl fun _ => hcannot]
    rfl

/-- **Down to any directory and back up again.** Let two patterns differ in that the first has a
component to be matched, which is not `**`, and a step back where the second has nothing. Only names
stand in front of the two, and no step back follows a name in front of what is to be matched next.
Links are not followed. Then a relative pattern finds the same files in the same order as without
the two, if no link is on the way down the names and a directory is there that the component stands
for, if all directories can be listed, and if what is out of reach for one spelling of the root is
so for the other. Without the way or the directory it finds nothing. The files are the same by
their components, and by their texts too where a step back comes to the root as it is written. An
absolute pattern may pass links on the way down the names, but finds the same only if no link is on
the way that the second pattern goes on by name. -/
theorem found_of_turned_back (habs : root.isAbsolute = true)
    (hsame : (Path.ofText q).isAbsolute = (Path.ofText p).isAbsolute)
    (hp : (Path.ofText p).steps = names.map .name ++ .name m :: .up :: back)
    (hq : (Path.ofText q).steps = names.map .name ++ back)
    (hnames : ∀ n ∈ names, (Component.name n).isPlain = true)
    (hm : (Component.name m).isPlain = false) (hstars : m.text ≠ "**")
    (hback : back.takeWhile Component.isPlain = List.replicate climbs .up ++ more.map .name) :
    ((Path.ofText p).isAbsolute = false →
      ((∃ g, Glob.read m.text = .ok g ∧ w.Clear root names ∧ w.Offers (root.descend names) g) →
        w.files.Listable → w.InReach root →
          ((View.mk w false).found root p).map Path.components =
              ((View.mk w false).found root q).map Path.components ∧
            ((∀ n, (root.child n).up = root) →
              (View.mk w false).found root p = (View.mk w false).found root q)) ∧
      ((¬ ∃ g, Glob.read m.text = .ok g ∧ w.Clear root names ∧ w.Offers (root.descend names) g) →
        (View.mk w false).found root p = [])) ∧
    ((Path.ofText p).isAbsolute = true →
      ((∃ g, Glob.read m.text = .ok g ∧ w.Offers (.ofNames names) g) → w.files.Listable →
        w.Clear ((Path.ofNames names).ancestor climbs)
            (if back.dropWhile Component.isPlain = [] then more.dropLast else more) →
          (View.mk w false).found root p = (View.mk w false).found root q) ∧
      ((¬ ∃ g, Glob.read m.text = .ok g ∧ w.Offers (.ofNames names) g) →
        (View.mk w false).found root p = [])) := by
  cases hglob : Glob.read m.text with
  | error fault =>
      have hmem : .name m ∈ (Path.ofText p).components := by
        rw [Path.components_eq, hp]
        simp
      have hnone : (View.mk w false).found root p = [] := found_of_no_glob hmem hm hstars hglob
      simp [hnone]
  | ok g =>
      have hsegment : Segment.ofComponent (.name m) = .ok (some (.matching g)) := by
        have hasks : Glob.isMeant m.text = true := by simpa [Component.isPlain] using hm
        simp only [Segment.ofComponent, hstars, hasks, hglob, if_false, if_true]
        rfl
      simp only [Except.ok.injEq, exists_eq_left']
      rcases Pattern.plans_of_turned root hsame hp hq hnames hsegment hback with
        ⟨fault, hpPlan, hqPlan⟩ | ⟨rest, hrest, hpPlan, hqPlan⟩
      · rw [found_of_fault hpPlan, found_of_fault hqPlan]
        simp
      · refine ⟨fun hrelative => ?_, fun habsolute => ?_⟩
        · have horigin : Pattern.origin p root = root := by simp [Pattern.origin, hrelative]
          simp only [hrelative, horigin, Plan.spelled, Bool.false_eq_true, if_false]
            at hpPlan hqPlan
          exact found_turned_relative habs hpPlan hqPlan
        · have horigin : Pattern.origin p root = ⟨[slash]⟩ := by simp [Pattern.origin, habsolute]
          simp only [habsolute, horigin, Plan.spelled, if_true] at hpPlan hqPlan
          obtain ⟨hturns, hcannot⟩ := found_turned_absolute (w := w) hpPlan hqPlan
          refine ⟨fun hoffers hlist hclear => hturns hoffers hlist ?_, hcannot⟩
          by_cases hnil : back.dropWhile Component.isPlain = []
          · rw [if_pos hnil] at hclear
            rwa [hrest hnil, if_pos rfl]
          · rw [if_neg hnil] at hclear
            split
            · exact hclear.of_prefix (List.dropLast_prefix more)
            · exact hclear

/-- From `/` the pattern `*/../r/x` turns back in `/r`. -/
theorem small_found_turned_back :
    (Path.ofText "/").isAbsolute = true ∧ Workspace.small.files.Listable ∧
      Workspace.small.InReach (Path.ofText "/") ∧
      (Path.ofText "r/x").isAbsolute = (Path.ofText "*/../r/x").isAbsolute ∧
      (Path.ofText "*/../r/x").steps = ([] : List Name).map .name ++
        .name ⟨[42], by decide⟩ :: .up :: [.name ⟨[114], by decide⟩, .name ⟨[120], by decide⟩] ∧
      (Path.ofText "r/x").steps = ([] : List Name).map .name ++
        [.name ⟨[114], by decide⟩, .name ⟨[120], by decide⟩] ∧
      Workspace.small.Clear (Path.ofText "/") [] ∧
      Workspace.small.Offers (Path.ofText "/") [.anyRun] ∧
      (View.mk .small false).found (Path.ofText "/") "*/../r/x" = [Path.ofText "/r/x"] := by
  have habs : (Path.ofText "/").isAbsolute = true := by decide
  have hroot : ∀ n, ((Path.ofText "/").child n).up = Path.ofText "/" := fun n =>
    Path.up_child habs n
  have hreach : Workspace.small.InReach (Path.ofText "/") := Workspace.inReach_of_up habs hroot
  have hrelative : (Path.ofText "*/../r/x").isAbsolute = false := by decide
  have hsame : (Path.ofText "r/x").isAbsolute = (Path.ofText "*/../r/x").isAbsolute := by decide
  have hpSteps : (Path.ofText "*/../r/x").steps = ([] : List Name).map .name ++
      .name ⟨[42], by decide⟩ :: .up :: [.name ⟨[114], by decide⟩, .name ⟨[120], by decide⟩] := by
    cbv
  have hqSteps : (Path.ofText "r/x").steps = ([] : List Name).map .name ++
      [.name ⟨[114], by decide⟩, .name ⟨[120], by decide⟩] := by cbv
  have hm : (Component.name ⟨[42], by decide⟩).isPlain = false := by decide
  have hback : [Component.name ⟨[114], by decide⟩, .name ⟨[120], by decide⟩].takeWhile
      Component.isPlain = List.replicate 0 .up ++
        [⟨[114], by decide⟩, ⟨[120], by decide⟩].map Component.name := by decide
  have hclear : Workspace.small.Clear (Path.ofText "/") [] := .nil
  have hoffers : Workspace.small.Offers (Path.ofText "/") [.anyRun] :=
    ⟨⟨[114], by decide⟩, (Glob.accepts_iff _ _).mp (by decide), [⟨[114], by decide⟩], by cbv⟩
  have hplan : Pattern.plan "r/x" (Path.ofText "/") =
      .ok ⟨⟨Path.ofText "/r/x", Path.ofText "/"⟩, false, []⟩ := by cbv
  have hfound : (View.mk .small false).found (Path.ofText "/") "r/x" = [Path.ofText "/r/x"] := by
    have hfile : (View.mk .small false).classify (Path.ofText "/r/x") = .file := by cbv
    exact found_of_file hplan (by cbv) rfl hfile
  have hturned : (View.mk .small false).found (Path.ofText "/") "*/../r/x" = _ :=
    (((found_of_turned_back habs hsame hpSteps hqSteps (by simp) hm (by decide) hback).1
      hrelative).1 ⟨[.anyRun], by cbv, hclear, hoffers⟩ Workspace.small_listable hreach).2 hroot
  exact ⟨habs, Workspace.small_listable, hreach, hsame, hpSteps, hqSteps, hclear, hoffers,
    hturned.trans hfound⟩

end View

/-! ### Where the step back makes a difference

The base of an absolute pattern may lie behind a link, while the walk passes none. And a step back
leaves out what stands for nothing at the end of the root, so it may reach what is otherwise too
far. -/

namespace View

/-- Down to `/d` and back up again, the link `/b` is not passed. -/
theorem linked_turned_back :
    Workspace.linked.Offers (Path.ofText "/") [.anyRun] ∧
      (View.mk .linked false).found (Path.ofText "/") "/*/../b/f" = [] ∧
      (View.mk .linked false).found (Path.ofText "/") "/b/f" = [Path.ofText "/b/f"] := by
  have hoffers : Workspace.linked.Offers (Path.ofText "/") [.anyRun] :=
    ⟨⟨[100], by decide⟩, (Glob.accepts_iff _ _).mp (by decide), [⟨[100], by decide⟩], by cbv⟩
  have hplan : Pattern.plan "/*/../b/f" (Path.ofText "/") =
      .ok ⟨⟨Path.ofText "/", Path.ofText "/"⟩, true, [.matching [.anyRun], .parent,
        .named ⟨[98], by decide⟩, .named ⟨[102], by decide⟩]⟩ := by cbv
  have hplan' : Pattern.plan "/b/f" (Path.ofText "/") =
      .ok ⟨⟨Path.ofText "/b/f", Path.ofText "/b/f"⟩, true, []⟩ := by cbv
  have hlink : (View.mk .linked false).classify ((Path.ofText "/").child ⟨[98], by decide⟩) =
      .other := by cbv
  have hfile : (View.mk .linked false).classify (Path.ofText "/b/f") = .file := by cbv
  refine ⟨hoffers, ?_, ?_⟩
  · have hturned : Path.distinct ((View.mk .linked false).leads
        ⟨⟨Path.ofText "/", Path.ofText "/"⟩, true, [.matching [.anyRun], .parent,
          .named ⟨[98], by decide⟩, .named ⟨[102], by decide⟩]⟩) = _ :=
      leads_turning rfl (FileSystem.listable_of_unlisted rfl) rfl rfl (by cbv) hoffers
    have hwalk : (View.mk .linked false).matchesBelow
        [.named ⟨[98], by decide⟩, .named ⟨[102], by decide⟩] (Path.ofText "/") [] = [] := by
      rw [matchesBelow_single rfl (List.cons_ne_nil _ _), candidates, List.flatMap_singleton,
        inside, hlink]
    rw [found_of_plan hplan, hturned]
    exact congrArg Path.distinct hwalk
  · exact found_of_file hplan' (by cbv) rfl hfile

/-- Behind too long a path no file is found. -/
theorem leads_of_long {v : View} {root : Path} {names : List Name} (habs : root.isAbsolute = true)
    (hlong : pathLengthLimit ≤ (root.descend names).bytes.length) :
    v.leads (.under root names []) = [] := by
  apply leads_of_no_file rfl
  intro hfile
  have hshort := (hfile.admissible (Path.isAbsolute_descend names habs)).short
  exact absurd hlong (Nat.not_le_of_lt hshort)

theorem length_child_slashes (k : Nat) (n : Name) :
    ((Path.slashes k).child n).bytes.length = k + 1 + n.bytes.length := by
  rw [Path.bytes_child_slashes, List.length_append, List.length_replicate]

/-- From a root that is written with so many slashes, `a/x` is too long a way below it. Down to `/a`
and back up again, the slashes are left out. -/
theorem scattered_turned_back :
    (Path.slashes 4093).isAbsolute = true ∧ Component.up ∉ (Path.slashes 4093).components ∧
      Workspace.scattered.Offers (.slashes 4093) [.anyRun] ∧
      (View.mk .scattered false).found (.slashes 4093) "*/../a/x" = [Path.ofText "/a/x"] ∧
      (View.mk .scattered false).found (.slashes 4093) "a/x" = [] := by
  have habs : (Path.slashes 4093).isAbsolute = true := rfl
  have hsteps : ((Path.slashes 4093).child ⟨[97], by decide⟩).steps =
      [.name ⟨[97], by decide⟩] := by
    have hcomponents := Path.components_slashes 4093
    rw [Path.components_of_isAbsolute habs] at hcomponents
    rw [Path.steps_child, (List.cons.inj hcomponents).2]
    rfl
  have hadmissible : ((Path.slashes 4093).child ⟨[97], by decide⟩).Admissible := by
    refine ⟨?_, ?_⟩
    · rw [Path.bytes_child_slashes, List.mem_append, List.mem_replicate]
      decide
    · rw [length_child_slashes]
      decide
  have hoffers : Workspace.scattered.Offers (.slashes 4093) [.anyRun] := by
    refine ⟨⟨[97], by decide⟩, (Glob.accepts_iff _ _).mp (by decide), [⟨[97], by decide⟩], ?_⟩
    rw [Workspace.lookup_child_iff habs hadmissible, hsteps]
    exact ⟨⟨40, by cbv⟩, by cbv⟩
  have hdirectory : (View.mk .scattered false).classify
      ((Path.ofText "/").child ⟨[97], by decide⟩) = .directory [⟨[97], by decide⟩] := by cbv
  have hwalk : (View.mk .scattered false).matchesBelow
      [.named ⟨[97], by decide⟩, .named ⟨[120], by decide⟩] (Path.ofText "/") [] =
        [Path.ofText "/a/x"] := by
    rw [matchesBelow_single rfl (List.cons_ne_nil _ _), candidates, List.flatMap_singleton,
      inside_of_directory hdirectory rfl, matchesBelow_single_last rfl]
    cbv
  refine ⟨habs, by simp [Path.components_slashes], hoffers, ?_, ?_⟩
  · have hall : Pattern.segmentsOf (Path.ofText "*/../a/x").components = .ok ([.matching [.anyRun],
        .parent, .named ⟨[97], by decide⟩, .named ⟨[120], by decide⟩]) := by cbv
    have hplan : Pattern.plan "*/../a/x" (.slashes 4093) = .ok (.under (.slashes 4093) [] _) :=
      Pattern.plan_under (by decide) hall rfl
    have hclear : (View.mk .scattered false).refusesBase (.under (.slashes 4093) [] [.matching
        [.anyRun], .parent, .named ⟨[97], by decide⟩, .named ⟨[120], by decide⟩]) = false :=
      (refusesBase_under_eq_false_iff habs (List.cons_ne_nil _ _) rfl).mpr .nil
    have hback : (View.mk .scattered false).matchesBelow
        [.named ⟨[97], by decide⟩, .named ⟨[120], by decide⟩] (Path.slashes 4093).trimmed [] =
          [Path.ofText "/a/x"] := by
      rw [Path.trimmed_slashes]
      exact hwalk
    have hlist : Workspace.scattered.files.Listable := FileSystem.listable_of_unlisted rfl
    have hturned :=
      (leads_turning rfl hlist habs rfl hclear hoffers).trans (congrArg Path.distinct hback)
    rw [found_of_plan hplan]
    exact hturned.trans rfl
  · have hall : Pattern.segmentsOf (Path.ofText "a/x").components =
        .ok [.named ⟨[97], by decide⟩, .named ⟨[120], by decide⟩] := by cbv
    have hplan : Pattern.plan "a/x" (.slashes 4093) =
        .ok (.under (.slashes 4093) [⟨[97], by decide⟩, ⟨[120], by decide⟩] []) :=
      Pattern.plan_under (by decide) hall rfl
    rw [found_of_plan hplan, leads_of_long habs]
    · rfl
    · rw [Path.descend_cons, Path.descend_cons, Path.descend_nil, Path.length_child_child habs,
        length_child_slashes]
      decide

/-- By its name `/a/l` is reached, but nothing is found by listing `/a`. -/
theorem shut_turned_back :
    Workspace.shut.Clear (Path.ofText "/") [⟨[97], by decide⟩] ∧
      Workspace.shut.Offers ((Path.ofText "/").descend [⟨[97], by decide⟩]) [.anyRun] ∧
      (View.mk .shut false).found (Path.ofText "/") "a/*/../l/x" = [] ∧
      (View.mk .shut false).found (Path.ofText "/") "a/l/x" = [Path.ofText "/a/l/x"] := by
  have hdirectory : Workspace.shut.NamesDirectory ((Path.ofText "/").child ⟨[97], by decide⟩) :=
    ⟨[⟨[97], by decide⟩], by cbv⟩
  have hclear : Workspace.shut.Clear (Path.ofText "/") [⟨[97], by decide⟩] :=
    Workspace.clear_cons_iff.mpr ⟨hdirectory.not_namesLink, .nil⟩
  have hoffers : Workspace.shut.Offers ((Path.ofText "/").descend [⟨[97], by decide⟩])
      [.anyRun] := by
    refine ⟨⟨[108], by decide⟩, (Glob.accepts_iff _ _).mp (by decide), ?_⟩
    exact ⟨[⟨[108], by decide⟩, ⟨[97], by decide⟩], by cbv⟩
  have hall : Pattern.segmentsOf (Path.ofText "a/*/../l/x").components =
      .ok [.named ⟨[97], by decide⟩, .matching [.anyRun], .parent, .named ⟨[108], by decide⟩,
        .named ⟨[120], by decide⟩] := by cbv
  have hplan : Pattern.plan "a/*/../l/x" (Path.ofText "/") =
      .ok (.under (Path.ofText "/") [⟨[97], by decide⟩] [.matching [.anyRun], .parent,
        .named ⟨[108], by decide⟩, .named ⟨[120], by decide⟩]) :=
    Pattern.plan_under (by decide) hall rfl
  have hall' : Pattern.segmentsOf (Path.ofText "a/l/x").components =
      .ok [.named ⟨[97], by decide⟩, .named ⟨[108], by decide⟩, .named ⟨[120], by decide⟩] := by
    cbv
  have hplan' : Pattern.plan "a/l/x" (Path.ofText "/") = .ok (.under (Path.ofText "/")
      [⟨[97], by decide⟩, ⟨[108], by decide⟩, ⟨[120], by decide⟩] []) :=
    Pattern.plan_under (by decide) hall' rfl
  have hfile : (View.mk .shut false).classify (Path.ofText "/a/l/x") = .file := by cbv
  refine ⟨hclear, hoffers, ?_, found_of_file hplan' (by cbv) rfl hfile⟩
  rw [found_of_plan hplan]
  cbv

/-- The pattern without the step back may find more, and it may find less. -/
theorem turned_back_otherwise :
    (Workspace.linked.Offers (Path.ofText "/") [.anyRun] ∧
      (View.mk .linked false).found (Path.ofText "/") "/*/../b/f" = [] ∧
      (View.mk .linked false).found (Path.ofText "/") "/b/f" = [Path.ofText "/b/f"]) ∧
    (Path.slashes 4093).isAbsolute = true ∧ Component.up ∉ (Path.slashes 4093).components ∧
      Workspace.scattered.Offers (.slashes 4093) [.anyRun] ∧
      (View.mk .scattered false).found (.slashes 4093) "*/../a/x" = [Path.ofText "/a/x"] ∧
      (View.mk .scattered false).found (.slashes 4093) "a/x" = [] ∧
    Workspace.shut.Clear (Path.ofText "/") [⟨[97], by decide⟩] ∧
      Workspace.shut.Offers ((Path.ofText "/").descend [⟨[97], by decide⟩]) [.anyRun] ∧
      (View.mk .shut false).found (Path.ofText "/") "a/*/../l/x" = [] ∧
      (View.mk .shut false).found (Path.ofText "/") "a/l/x" = [Path.ofText "/a/l/x"] := by
  obtain ⟨habs, hup, hoffers, hturned, hnone⟩ := scattered_turned_back
  exact ⟨linked_turned_back, habs, hup, hoffers, hturned, hnone, shut_turned_back⟩

end View

end ArtifactHarvest
