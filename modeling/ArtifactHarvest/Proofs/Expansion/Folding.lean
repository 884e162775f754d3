import ArtifactHarvest.Proofs.Expansion.Cycles
import ArtifactHarvest.Proofs.Expansion.Links
import ArtifactHarvest.Proofs.Expansion.Naming
import ArtifactHarvest.Proofs.Pattern.Downward

/-!
Names that are folded into the base of a plan, and names that are walked. Those that are walked are
entered under the guard against cycles, those that are folded into the base are not. Where all
directories can be listed and no path is too long, this is all the difference (`leads_unfolded`).
Main statement: `found_of_singled`, on a name of a pattern and a wildcard for it.
-/

namespace ArtifactHarvest

namespace View

variable {v : View} {root : Path} {literal : List Name} {segments : List Segment}

/-- What a plan permits on the way down to a file: no links, or no directory twice. -/
theorem permits_under_iff {names : List Name} (habs : root.isAbsolute = true)
    (hfile : v.workspace.LeadsToFile (root.descend (literal ++ names))) :
    v.Permits (.under root literal segments) names ↔
      (v.followsLinks = false → v.workspace.Linkless root (literal ++ names)) ∧
      (v.followsLinks = true → v.workspace.Acyclic (root.descend literal) names) := by
  have hfileBelow : v.workspace.LeadsToFile
      ((Plan.under root literal segments).base.descend names) := by
    rwa [Plan.under, ← Path.descend_append]
  constructor
  · intro hpermits
    refine ⟨?_, hpermits.acyclic⟩
    intro hv front back hsplit hfront hback
    exact hpermits.namesDirectory hv habs rfl hfileBelow hsplit hfront hback
  · rintro ⟨hlinkless, hacyclic⟩
    refine ⟨?_, ?_, ?_, hacyclic⟩
    · intro front back hsplit hback
      exact (hsplit ▸ hfileBelow.names).leadsToDirectory
        (Path.isAbsolute_descend literal habs) hback
    · intro hv front back hsplit hfront hback
      have hway := hlinkless hv (literal ++ front) back (by rw [hsplit, List.append_assoc])
        (List.append_ne_nil_of_right_ne_nil literal hfront) hback
      rwa [Path.descend_append] at hway
    · intro hv front back hsplit hfront hback
      have hliteral : literal = front ++ back :=
        Path.names_eq_of_components_eq habs (congrArg Path.components hsplit)
      apply Workspace.NamesDirectory.not_namesLink
      apply hlinkless hv front (back ++ names) (by rw [hliteral, List.append_assoc]) hfront
      intro hnil
      obtain ⟨hnone, hnames⟩ := List.append_eq_nil_iff.mp hnil
      rcases hback with hback | hback
      · exact hback hnone
      · exact hback hnames

theorem mem_leads_under_iff {p : Path} (hlist : v.workspace.files.Listable)
    (hshort : v.followsLinks = true → v.workspace.files.Short) (habs : root.isAbsolute = true)
    (hparent : Segment.parent ∉ segments) :
    p ∈ v.leads (.under root literal segments) ↔ ∃ names, p = root.descend (literal ++ names) ∧
      Segment.Takes segments names ∧ v.workspace.LeadsToFile p ∧
      (v.followsLinks = false → v.workspace.Linkless root (literal ++ names)) ∧
      (v.followsLinks = true → v.workspace.Acyclic (root.descend literal) names) := by
  have hbase : (Plan.under root literal segments).base =
      (Plan.under root literal segments).anchor.descend literal := rfl
  rw [mem_leads_iff, mem_carryOut_iff_takes "" hlist hshort habs hbase hparent]
  constructor
  · rintro ⟨names, rfl, htakes, hfile, hpermits⟩
    have hway : (Plan.under root literal segments).base.descend names =
        root.descend (literal ++ names) := (Path.descend_append root literal names).symm
    rw [hway] at hfile ⊢
    exact ⟨names, rfl, htakes, hfile, (permits_under_iff habs hfile).mp hpermits⟩
  · rintro ⟨names, rfl, htakes, hfile, hpermits⟩
    exact ⟨names, Path.descend_append root literal names, htakes, hfile,
      (permits_under_iff habs hfile).mpr hpermits⟩

/-- Names that are walked lead to what they lead to as part of the base, but for what comes back to
a directory. -/
theorem mem_leads_unfolded_iff (names : List Name) {p : Path} (hlist : v.workspace.files.Listable)
    (hshort : v.followsLinks = true → v.workspace.files.Short) (habs : root.isAbsolute = true)
    (hparent : Segment.parent ∉ segments) :
    p ∈ v.leads (.under root literal (names.map .named ++ segments)) ↔
      p ∈ v.leads (.under root (literal ++ names) segments) ∧
        (v.followsLinks = true → v.workspace.circles (root.descend literal) p = false) := by
  have hparents : Segment.parent ∉ names.map .named ++ segments := by
    simp [hparent]
  have hliteralAbs := Path.isAbsolute_descend literal habs
  have hcircles : ∀ {back : List Name}, v.workspace.LeadsToFile (root.descend (literal ++ back)) →
      (v.workspace.circles (root.descend literal) (root.descend (literal ++ back)) = false ↔
        v.workspace.Acyclic (root.descend literal) back) := by
    intro back hfile
    rw [Path.descend_append] at hfile ⊢
    exact Workspace.circles_eq_false_iff hliteralAbs hfile
  rw [mem_leads_under_iff hlist hshort habs hparents, mem_leads_under_iff hlist hshort habs hparent]
  constructor
  · rintro ⟨more, rfl, htakes, hfile, hlinkless, hacyclic⟩
    obtain ⟨back, rfl, hback⟩ := Segment.takes_named_append_iff.mp htakes
    refine ⟨⟨back, by rw [List.append_assoc], hback, hfile, ?_, ?_⟩, ?_⟩
    · rwa [List.append_assoc]
    · intro hv front middle rest hsplit hmiddle hrest
      have hway := hacyclic hv (names ++ front) middle rest (by simp [hsplit]) hmiddle hrest
      simpa only [Path.descend_append] using hway
    · intro hv
      exact (hcircles hfile).mpr (hacyclic hv)
  · rintro ⟨⟨back, rfl, htakes, hfile, hlinkless, _⟩, hapart⟩
    rw [List.append_assoc] at hfile hlinkless hapart ⊢
    refine ⟨names ++ back, rfl, Segment.takes_named_append_iff.mpr ⟨back, rfl, htakes⟩, hfile,
      hlinkless, ?_⟩
    intro hv
    exact (hcircles hfile).mp (hapart hv)

/-- A name with more behind it leads to what is inside its entry. -/
theorem leads_named {n : Name} {loc : Location} (hsegments : segments ≠ [])
    (hrefuse : v.refusesBase (.under root literal (.named n :: segments)) = false)
    (hloc : v.workspace.lookup false (root.descend literal) = .ok (loc, .directory))
    (hlisted : loc ∉ v.workspace.files.unlisted) :
    v.leads (.under root literal (.named n :: segments)) =
      v.inside segments ((root.descend literal).child n)
        (v.firstBranch (root.descend literal) loc) := by
  have hnamed : v.candidates (root.descend literal) (.named n) = [n] := rfl
  rw [leads_of_directory hrefuse (List.cons_ne_nil _ _) hloc hlisted, Plan.under,
    matchesBelow_single rfl hsegments, hnamed, List.flatMap_singleton]

/-- In last position it leads to the file of that name. -/
theorem leads_named_last {n : Name} {loc : Location}
    (hrefuse : v.refusesBase (.under root literal [.named n]) = false)
    (hloc : v.workspace.lookup false (root.descend literal) = .ok (loc, .directory))
    (hlisted : loc ∉ v.workspace.files.unlisted) :
    v.leads (.under root literal [.named n]) =
      if v.classify ((root.descend literal).child n) = .file then [(root.descend literal).child n]
      else [] := by
  have hnamed : v.candidates (root.descend literal) (.named n) = [n] := rfl
  rw [leads_of_directory hrefuse (List.cons_ne_nil _ _) hloc hlisted]
  refine (matchesBelow_single_last rfl (root.descend literal) _).trans ?_
  rw [hnamed, List.map_singleton, List.filter_singleton, Bool.cond_decide]

/-- One name that is walked leaves matches out, and their order as it is. -/
theorem exists_filter_named (literal : List Name) (n : Name) (hlist : v.workspace.files.Listable)
    (hshort : v.followsLinks = true → v.workspace.files.Short) (habs : root.isAbsolute = true)
    (hparent : Segment.parent ∉ segments) :
    ∃ keep, v.leads (.under root literal (.named n :: segments)) =
      (v.leads (.under root (literal ++ [n]) segments)).filter keep := by
  by_cases hnone : v.leads (.under root literal (.named n :: segments)) = []
  · exact ⟨fun _ => false, by simp [hnone]⟩
  -- where something is found, neither base is refused and both are there
  obtain ⟨p, hp⟩ := List.exists_mem_of_ne_nil _ hnone
  have hfolded : p ∈ v.leads (.under root (literal ++ [n]) segments) :=
    ((mem_leads_unfolded_iff [n] hlist hshort habs hparent).mp hp).1
  have hbase : (Plan.under root (literal ++ [n]) segments).base =
      (root.descend literal).child n := by
    rw [Plan.under, Path.descend_append, Path.descend_cons, Path.descend_nil]
  obtain ⟨hrefuse, _⟩ := mem_carryOut_iff.mp (mem_leads_iff.mp hfolded)
  obtain ⟨hrefuse', hway'⟩ := mem_carryOut_iff.mp (mem_leads_iff.mp hp)
  obtain ⟨_, loc, hloc, hlisted, _⟩ := hway'.resolve_left fun h => List.cons_ne_nil _ _ h.1
  by_cases hsegments : segments = []
  · subst hsegments
    refine ⟨fun _ => true, ?_⟩
    rw [List.filter_true, leads_named_last hrefuse' hloc hlisted, leads_of_fixed hrefuse rfl, hbase]
  · rw [leads_named hsegments hrefuse' hloc hlisted] at hp ⊢
    generalize hbranch : v.firstBranch (root.descend literal) loc = branch at hp ⊢
    obtain ⟨loc', inner, hkind, henter, _⟩ := mem_inside.mp hp
    have hlook : v.workspace.lookup false (Plan.under root (literal ++ [n]) segments).base =
        .ok (loc', .directory) := hbase ▸ lookup_of_classify hkind
    have hentry : v.branchIn? branch ((root.descend literal).child n) = some inner :=
      branchIn?_eq_some_iff.mpr ⟨loc', hkind, henter⟩
    rw [leads_of_directory hrefuse hsegments hlook (hlist loc' (Workspace.lookup_eq hlook).2),
      inside_of_entry hentry, hbase]
    cases hv : v.followsLinks with
    | false =>
        refine ⟨fun _ => true, ?_⟩
        rw [enter?_of_not_follows hv, ← hbranch, firstBranch_of_not_follows hv] at henter
        cases henter
        rw [List.filter_true, firstBranch_of_not_follows hv]
        rfl
    | true =>
        obtain ⟨hresolves, _, rfl⟩ := (enter?_eq_some_iff hv).mp henter
        rw [firstBranch_of_resolves hv hresolves]
        exact exists_filter_longer hv
          (Path.isAbsolute_child n (Path.isAbsolute_descend literal habs)) hparent [loc'] branch

theorem exists_filter_names (literal names : List Name) (hlist : v.workspace.files.Listable)
    (hshort : v.followsLinks = true → v.workspace.files.Short) (habs : root.isAbsolute = true)
    (hparent : Segment.parent ∉ segments) :
    ∃ keep, v.leads (.under root literal (names.map .named ++ segments)) =
      (v.leads (.under root (literal ++ names) segments)).filter keep := by
  induction names generalizing literal with
  | nil => exact ⟨fun _ => true, by simp⟩
  | cons n names ih =>
      have hparents : Segment.parent ∉ names.map .named ++ segments := by
        simp [hparent]
      obtain ⟨keep, hkeep⟩ := ih (literal ++ [n])
      obtain ⟨keep', hkeep'⟩ := exists_filter_named literal n hlist hshort habs hparents
      refine ⟨fun p => keep' p && keep p, ?_⟩
      rw [List.map_cons, List.cons_append, hkeep', hkeep, List.filter_filter, List.append_assoc,
        List.singleton_append]

/-- **Names that are walked, and names that are folded into the base.** -/
theorem leads_unfolded (names : List Name) (hlist : v.workspace.files.Listable)
    (hshort : v.followsLinks = true → v.workspace.files.Short) (habs : root.isAbsolute = true)
    (hparent : Segment.parent ∉ segments) :
    v.leads (.under root literal (names.map .named ++ segments)) =
      (v.leads (.under root (literal ++ names) segments)).filter fun p =>
        !(v.followsLinks && v.workspace.circles (root.descend literal) p) := by
  obtain ⟨keep, hkeep⟩ := exists_filter_names literal names hlist hshort habs hparent
  rw [hkeep]
  apply List.filter_congr
  intro p hp
  have hkept : keep p = true ↔
      p ∈ v.leads (.under root literal (names.map .named ++ segments)) := by
    rw [hkeep, List.mem_filter, and_iff_right hp]
  rw [Bool.eq_iff_iff, hkept, mem_leads_unfolded_iff names hlist hshort habs hparent,
    and_iff_right hp]
  cases v.followsLinks <;> simp

/-! ### One name of a pattern as a wildcard -/

/-- Segments that are walked alike lead to the same files. -/
theorem leads_append_congr {tail tail' : List Segment} (htail : tail ≠ []) (htail' : tail' ≠ [])
    (h : ∀ dir branch, dir.isAbsolute = true →
      v.matchesBelow tail dir branch = v.matchesBelow tail' dir branch)
    (front : List Segment) (habs : root.isAbsolute = true) :
    v.leads (.under root literal (front ++ tail)) =
      v.leads (.under root literal (front ++ tail')) := by
  have hfront : (Plan.under root literal (front ++ tail)).segments ≠ [] :=
    List.append_ne_nil_of_right_ne_nil front htail
  have hfront' : (Plan.under root literal (front ++ tail')).segments ≠ [] :=
    List.append_ne_nil_of_right_ne_nil front htail'
  have hsame : v.refusesBase (.under root literal (front ++ tail)) =
      v.refusesBase (.under root literal (front ++ tail')) := by
    simp only [refusesBase, hfront, hfront', if_false]
    rfl
  cases hrefuse : v.refusesBase (.under root literal (front ++ tail')) with
  | true => rw [leads_of_refused hrefuse, leads_of_refused (hsame.trans hrefuse)]
  | false =>
      by_cases hlists : v.workspace.Lists (root.descend literal)
      · obtain ⟨loc, hloc, hlisted⟩ := hlists
        rw [leads_of_directory hrefuse hfront' hloc hlisted,
          leads_of_directory (hsame.trans hrefuse) hfront hloc hlisted]
        exact matchesBelow_append_congr htail htail' h front (Path.isAbsolute_descend literal habs)
      · rw [leads_of_not_lists hfront hlists, leads_of_not_lists hfront' hlists]

variable {w : Workspace} {follows : Bool} {root : Path} {p q : String}
  {front back : List Component} {n m : Name} {g : Glob}

/-- Two patterns that go down by the same names, one by walking some of them. -/
theorem found_of_unfolded {names more : List Name} {segments rest : List Segment}
    (hlist : w.files.Listable) (habs : root.isAbsolute = true) (hparent : Segment.parent ∉ rest)
    (hp : Pattern.plan p root = .ok (.under root (names ++ more) rest))
    (hq : Pattern.plan q root = .ok (.under root names segments))
    (hwalk : (View.mk w follows).leads (.under root names segments) =
      (View.mk w follows).leads (.under root names (more.map .named ++ rest))) :
    ((follows = true → w.files.Short) →
      (View.mk w follows).found root q = ((View.mk w follows).found root p).filter fun x =>
        !(follows && w.circles (Pattern.start q root).base x)) ∧
    (more = [] → (View.mk w follows).found root q = (View.mk w follows).found root p) := by
  rw [found_of_plan hp, found_of_plan hq, hwalk]
  constructor
  · intro hshort
    rw [leads_unfolded more hlist hshort habs hparent, Pattern.start_of_plan hq]
    apply Path.distinct_filter
    intro x hx y hy hsame
    obtain ⟨front, rfl, _⟩ := (mem_leads_under_iff hlist hshort habs hparent).mp hx
    obtain ⟨back, rfl, _⟩ := (mem_leads_under_iff hlist hshort habs hparent).mp hy
    rw [Path.names_eq_of_components_eq habs hsame]
  · rintro rfl
    rw [List.map_nil, List.nil_append, List.append_nil]

/-- **A name in a pattern and a wildcard for it.** Where a relative pattern without `..` asks for a
name, and another one in its place for a wildcard that stands for this name alone, and where all
directories can be listed, the second finds what the first finds, in the same order, without what
comes back to a directory that lies on the way from the second one's base. It finds all of that if
links are not followed, or if something else has to be matched in front. -/
theorem found_of_singled (hlist : w.files.Listable) (habs : root.isAbsolute = true)
    (hrelative : (Path.ofText p).isAbsolute = false)
    (hp : (Path.ofText p).components = front ++ .name n :: back)
    (hq : (Path.ofText q).components = front ++ .name m :: back)
    (hup : Component.up ∉ front ++ back) (hplain : (Component.name n).isPlain = true)
    (hm : Segment.ofComponent (.name m) = .ok (some (.matching g)))
    (htext : ∀ entry ∈ w.files.objects, ∀ k ∈ entry.1, k.IsText)
    (hone : ∀ k : Name, k.IsText → (Glob.Matches g k.text.toList ↔ k = n)) :
    ((follows = true → w.files.Short) →
      (View.mk w follows).found root q = ((View.mk w follows).found root p).filter fun x =>
        !(follows && w.circles (Pattern.start q root).base x)) ∧
    (follows = false ∨ (∃ c ∈ front, c.isPlain = false) →
      (View.mk w follows).found root q = (View.mk w follows).found root p) := by
  rcases Pattern.plans_of_singled root hrelative hp hq hup hplain hm with
    ⟨fault, hplan, hplan'⟩ |
      ⟨names, more, between, rest, tail, hplan, hplan', hsplit, hrest, hfirst⟩
  · simp [found_of_fault hplan, found_of_fault hplan']
  · have halike : ∀ dir branch, dir.isAbsolute = true →
        (View.mk w follows).matchesBelow (.matching g :: tail) dir branch =
          (View.mk w follows).matchesBelow (.named n :: tail) dir branch := by
      intro dir branch hdir
      apply matchesBelow_singled tail hlist hdir
      intro k hk
      obtain ⟨loc, o, hmem⟩ := Workspace.exists_object_of_mem_entries hk
      exact hone k (htext _ hmem k List.mem_cons_self)
    have hwalk : (View.mk w follows).leads (.under root names (between ++ .matching g :: tail)) =
        (View.mk w follows).leads (.under root names (between ++ .named n :: tail)) :=
      leads_append_congr (List.cons_ne_nil _ tail) (List.cons_ne_nil _ tail) halike between habs
    rw [hsplit] at hwalk
    obtain ⟨hfound, hsame⟩ := found_of_unfolded hlist habs hrest hplan hplan' hwalk
    refine ⟨hfound, ?_⟩
    rintro (rfl | hmatched)
    · simpa using hfound nofun
    · exact hsame (hfirst hmatched)

/-- Without links on the way, both find the file. -/
theorem small_found_singled :
    Workspace.small.files.Listable ∧ Workspace.small.files.Short ∧
      (Path.ofText "/").isAbsolute = true ∧ (Path.ofText "r/x").isAbsolute = false ∧
      (∀ entry ∈ Workspace.small.files.objects, ∀ k ∈ entry.1, k.IsText) ∧
      (View.mk .small true).found (Path.ofText "/") "r/x" = [Path.ofText "/r/x"] ∧
      (View.mk .small true).found (Path.ofText "/") "[r]/x" = [Path.ofText "/r/x"] := by
  have habs : (Path.ofText "/").isAbsolute = true := by decide
  have hrelative : (Path.ofText "r/x").isAbsolute = false := by decide
  have hp : (Path.ofText "r/x").components =
      [] ++ .name ⟨[114], by decide⟩ :: [.name ⟨[120], by decide⟩] := by decide
  have hq : (Path.ofText "[r]/x").components =
      [] ++ .name ⟨[91, 114, 93], by decide⟩ :: [.name ⟨[120], by decide⟩] := by decide
  have hm : Segment.ofComponent (.name ⟨[91, 114, 93], by decide⟩) =
      .ok (some (.matching (.oneOf false [.single 'r'] :: [].map .char))) := by cbv
  have htext : ∀ entry ∈ Workspace.small.files.objects, ∀ k ∈ entry.1, k.IsText := by decide
  have hplan : Pattern.plan "r/x" (Path.ofText "/") =
      .ok ⟨⟨Path.ofText "/r/x", Path.ofText "/"⟩, false, []⟩ := by cbv
  have hfile : (View.mk .small true).classify (Path.ofText "/r/x") = .file := by cbv
  have hfound : (View.mk .small true).found (Path.ofText "/") "r/x" = [Path.ofText "/r/x"] :=
    found_of_file hplan (by cbv) rfl hfile
  have hone : ∀ k : Name, k.IsText →
      (Glob.Matches (.oneOf false [.single 'r'] :: [].map .char) k.text.toList ↔
        k = ⟨[114], by decide⟩) := by
    intro k hk
    exact Glob.matches_bracketed_iff hk (by decide) (by decide) (by decide)
  have hlist := Workspace.small_listable
  have hshort := Workspace.small_short
  refine ⟨hlist, hshort, habs, hrelative, htext, hfound, ?_⟩
  have hsingled : (View.mk .small true).found (Path.ofText "/") "[r]/x" = _ :=
    (found_of_singled hlist habs hrelative hp hq (by decide) (by decide) hm htext hone).1
      fun _ => hshort
  rw [hsingled, hfound]
  cbv

/-- A link back to the directory above it is passed as part of the base, and not entered as an entry
that a wildcard stands for. -/
theorem looped_found_by_name :
    (View.mk .looped true).found (Path.ofText "/") "l/x" = [Path.ofText "/l/x"] ∧
      (View.mk .looped true).found (Path.ofText "/") "[l]/x" = [] := by
  have hplan : Pattern.plan "l/x" (Path.ofText "/") =
      .ok ⟨⟨Path.ofText "/l/x", Path.ofText "/"⟩, false, []⟩ := by cbv
  have hfile : (View.mk .looped true).classify (Path.ofText "/l/x") = .file := by cbv
  have hall : Pattern.segmentsOf (Path.ofText "[l]/x").components =
      .ok [.matching [.oneOf false [.single 'l']], .named ⟨[120], by decide⟩] := by cbv
  have hplan' : Pattern.plan "[l]/x" (Path.ofText "/") = .ok (.under (Path.ofText "/") []
      [.matching [.oneOf false [.single 'l']], .named ⟨[120], by decide⟩]) :=
    Pattern.plan_under (by decide) hall rfl
  refine ⟨found_of_file hplan (by cbv) rfl hfile, ?_⟩
  rw [found_of_plan hplan']
  cbv

/-- A directory that cannot be listed is passed as part of the base, and not asked what a wildcard
stands for. -/
theorem shut_found_by_name :
    (View.mk .shut false).found (Path.ofText "/") "a/l/x" = [Path.ofText "/a/l/x"] ∧
      (View.mk .shut false).found (Path.ofText "/") "a/[l]/x" = [] := by
  have hplan : Pattern.plan "a/l/x" (Path.ofText "/") =
      .ok ⟨⟨Path.ofText "/a/l/x", Path.ofText "/"⟩, false, []⟩ := by cbv
  have hfile : (View.mk .shut false).classify (Path.ofText "/a/l/x") = .file := by cbv
  have hall : Pattern.segmentsOf (Path.ofText "a/[l]/x").components =
      .ok [.named ⟨[97], by decide⟩, .matching [.oneOf false [.single 'l']],
        .named ⟨[120], by decide⟩] := by cbv
  have hplan' : Pattern.plan "a/[l]/x" (Path.ofText "/") = .ok (.under (Path.ofText "/")
      [⟨[97], by decide⟩] [.matching [.oneOf false [.single 'l']], .named ⟨[120], by decide⟩]) :=
    Pattern.plan_under (by decide) hall rfl
  refine ⟨found_of_file hplan (by cbv) rfl hfile, ?_⟩
  rw [found_of_plan hplan']
  cbv

/-- By its name more is found than by a wildcard for it, where links are followed and where a
directory cannot be listed. -/
theorem found_by_name_only :
    (Path.ofText "/").isAbsolute = true ∧
      (Component.name ⟨[108], by decide⟩).isPlain = true ∧
      Segment.ofComponent (.name ⟨[91, 108, 93], by decide⟩) =
        .ok (some (.matching [.oneOf false [.single 'l']])) ∧
      (∀ k : Name, k.IsText →
        (Glob.Matches [.oneOf false [.single 'l']] k.text.toList ↔ k = ⟨[108], by decide⟩)) ∧
      ((Path.ofText "l/x").components =
          [] ++ .name ⟨[108], by decide⟩ :: [.name ⟨[120], by decide⟩] ∧
        (Path.ofText "[l]/x").components =
          [] ++ .name ⟨[91, 108, 93], by decide⟩ :: [.name ⟨[120], by decide⟩] ∧
        (∀ entry ∈ Workspace.looped.files.objects, ∀ k ∈ entry.1, k.IsText) ∧
        (View.mk .looped true).found (Path.ofText "/") "l/x" = [Path.ofText "/l/x"] ∧
        (View.mk .looped true).found (Path.ofText "/") "[l]/x" = []) ∧
      (Path.ofText "a/l/x").components =
          [.name ⟨[97], by decide⟩] ++ .name ⟨[108], by decide⟩ :: [.name ⟨[120], by decide⟩] ∧
        (Path.ofText "a/[l]/x").components = [.name ⟨[97], by decide⟩] ++
          .name ⟨[91, 108, 93], by decide⟩ :: [.name ⟨[120], by decide⟩] ∧
        (∀ entry ∈ Workspace.shut.files.objects, ∀ k ∈ entry.1, k.IsText) ∧
        (View.mk .shut false).found (Path.ofText "/") "a/l/x" = [Path.ofText "/a/l/x"] ∧
        (View.mk .shut false).found (Path.ofText "/") "a/[l]/x" = [] := by
  have hone : ∀ k : Name, k.IsText →
      (Glob.Matches (.oneOf false [.single 'l'] :: [].map .char) k.text.toList ↔
        k = ⟨[108], by decide⟩) :=
    fun k hk => Glob.matches_bracketed_iff hk (by decide) (by decide) (by decide)
  obtain ⟨hlooped, hbarred⟩ := looped_found_by_name
  obtain ⟨hshut, hunlisted⟩ := shut_found_by_name
  exact ⟨by decide, by decide, by cbv, hone,
    ⟨by decide, by decide, by decide, hlooped, hbarred⟩,
    by decide, by decide, by decide, hshut, hunlisted⟩

end View

end ArtifactHarvest
