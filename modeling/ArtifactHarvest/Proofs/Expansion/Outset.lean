import ArtifactHarvest.Proofs.Expansion.Walking

/-!
How an expansion sets out: when the base of a plan is refused for a link on the way from the anchor
(`meetsLink_iff`, `refusesBase_eq_false_iff`), which paths the plan leads to otherwise
(`mem_carryOut_iff`), and what the expansion comes to in each case (`found_of_plan`,
`leads_of_directory`).
-/

namespace ArtifactHarvest.View

/-- The search for a link looks at one step after another and ends where nothing is found. -/
theorem meetsLink_iff {w : Workspace} {p : Path} {cs : List Component} :
    meetsLink w p cs = true ↔ ∃ front, front <+: cs ∧ front ≠ [] ∧
      w.NamesLink (front.foldl Path.push p) ∧
      ∀ shorter, shorter <+: front → shorter ≠ [] → w.Names (shorter.foldl Path.push p) := by
  induction cs generalizing p with
  | nil =>
      simp only [meetsLink, Bool.false_eq_true, List.prefix_nil, false_iff]
      rintro ⟨front, rfl, hne, _⟩
      exact hne rfl
  | cons c cs ih =>
      constructor
      · intro h
        simp only [meetsLink] at h
        split at h
        · rename_i loc target hlook
          refine ⟨[c], by simp, by simp, ⟨loc, target, hlook⟩, ?_⟩
          intro shorter hshorter hne
          rcases List.prefix_cons_iff.mp hshorter with rfl | ⟨more, rfl, hmore⟩
          · exact absurd rfl hne
          · rw [List.prefix_nil.mp hmore]
            exact ⟨_, hlook⟩
        · rename_i found _ hlook
          obtain ⟨front, hfront, hne, hlink, hshorter⟩ := ih.mp h
          refine ⟨c :: front, List.cons_prefix_cons.mpr ⟨rfl, hfront⟩, by simp, hlink, ?_⟩
          intro shorter hbegins hsome
          rcases List.prefix_cons_iff.mp hbegins with rfl | ⟨more, rfl, hmore⟩
          · exact absurd rfl hsome
          · by_cases hnil : more = []
            · subst hnil
              exact ⟨_, hlook⟩
            · exact hshorter more hmore hnil
        · cases h
      · rintro ⟨front, hfront, hne, hlink, hshorter⟩
        rcases List.prefix_cons_iff.mp hfront with rfl | ⟨more, rfl, hmore⟩
        · exact absurd rfl hne
        · obtain ⟨found, hlook⟩ := hshorter [c] (by simp) (by simp)
          simp only [meetsLink]
          rw [List.foldl_cons, List.foldl_nil] at hlook
          rw [hlook]
          split
          · rfl
          · rename_i hno hsame
            by_cases hnil : more = []
            · subst hnil
              obtain ⟨loc, target, hlink⟩ := hlink
              rw [List.foldl_cons, List.foldl_nil, hlook] at hlink
              cases hlink
              exact absurd (Except.ok.inj hsame).symm (hno loc target)
            · refine ih.mpr ⟨more, hmore, hnil, hlink, fun shorter hbegins hsome => ?_⟩
              exact hshorter (c :: shorter) (List.cons_prefix_cons.mpr ⟨rfl, hbegins⟩) (by simp)
          · rename_i herror
            cases herror

/-- Down a sequence of names the search for a link misses none. -/
theorem meetsLink_names_iff {w : Workspace} {p : Path} {names : List Name}
    (habs : p.isAbsolute = true) :
    meetsLink w p (names.map .name) = true ↔
      ∃ front, front <+: names ∧ front ≠ [] ∧ w.NamesLink (p.descend front) := by
  rw [meetsLink_iff]
  constructor
  · rintro ⟨front, hfront, hne, hlink, _⟩
    obtain ⟨back, hback⟩ := hfront
    obtain ⟨first, last, hnames, rfl, rfl⟩ := List.map_eq_append_iff.mp hback.symm
    rw [Path.foldl_push_names] at hlink
    exact ⟨first, ⟨last, hnames.symm⟩, by simpa using hne, hlink⟩
  · rintro ⟨front, hfront, hne, hlink⟩
    refine ⟨front.map .name, hfront.map _, by simpa using hne, ?_, ?_⟩
    · rwa [Path.foldl_push_names]
    · intro shorter hshorter hsome
      obtain ⟨back, hback⟩ := hshorter
      obtain ⟨first, last, hnames, rfl, rfl⟩ := List.map_eq_append_iff.mp hback.symm
      rw [Path.foldl_push_names]
      by_cases hlast : last = []
      · subst hlast
        rw [List.append_nil] at hnames
        exact hnames ▸ hlink.names
      · exact ((hnames ▸ hlink.names).leadsToDirectory habs hlast).names

/-- The names on the way from the anchor to the base that the policy on links looks at. With no
segment left to match, the last one is the file asked for. -/
def checkedNames (plan : Plan) (literal : List Name) : List Name :=
  if plan.segments = [] then literal.dropLast else literal

/-- A base below its anchor is refused for a link that the search on the way to it meets. -/
theorem refusesBase_iff {v : View} {plan : Plan} {below : List Component}
    (h : plan.base.components = plan.anchor.components ++ below) :
    v.refusesBase plan = true ↔ v.followsLinks = false ∧
      meetsLink v.workspace plan.anchor (if plan.segments = [] then below.dropLast else below) =
        true := by
  have hbelow : plan.base.below? plan.anchor = some below := by
    simp [Path.below?, Path.startsWith, h]
  simp only [refusesBase, hbelow, Bool.and_eq_true, Bool.not_eq_true']

/-- Down a sequence of names no link on the way is missed. -/
theorem refusesBase_iff_of_names {v : View} {plan : Plan} {literal : List Name}
    (habs : plan.anchor.isAbsolute = true)
    (hbase : plan.base.components = plan.anchor.components ++ literal.map .name) :
    v.refusesBase plan = true ↔ v.followsLinks = false ∧
      ∃ front, front <+: checkedNames plan literal ∧ front ≠ [] ∧
        v.workspace.NamesLink (plan.anchor.descend front) := by
  have hchecked : (if plan.segments = [] then (literal.map Component.name).dropLast
      else literal.map Component.name) = (checkedNames plan literal).map .name := by
    unfold checkedNames
    split
    · exact List.map_dropLast.symm
    · rfl
  rw [refusesBase_iff hbase, hchecked, meetsLink_names_iff habs]

theorem refusesBase_iff_of_descend {v : View} {plan : Plan} {literal : List Name}
    (habs : plan.anchor.isAbsolute = true) (hbase : plan.base = plan.anchor.descend literal) :
    v.refusesBase plan = true ↔ v.followsLinks = false ∧
      ∃ front, front <+: checkedNames plan literal ∧ front ≠ [] ∧
        v.workspace.NamesLink (plan.anchor.descend front) :=
  refusesBase_iff_of_names habs (hbase ▸ Path.components_descend _ literal)

theorem checkedNames_append {plan : Plan} {more : List Name} (h : more ≠ [] ∨ plan.segments ≠ [])
    (front : List Name) : checkedNames plan (front ++ more) = front ++ checkedNames plan more := by
  unfold checkedNames
  split
  · rename_i hsegments
    exact List.dropLast_append_of_ne_nil (h.resolve_right fun hsome => hsome hsegments)
  · rfl

theorem prefix_checkedNames_iff {plan : Plan} {literal front : List Name} (hfront : front ≠ []) :
    front <+: checkedNames plan literal ↔
      ∃ back, literal = front ++ back ∧ (back ≠ [] ∨ plan.segments ≠ []) := by
  unfold checkedNames
  by_cases hsegments : plan.segments = []
  · simp only [hsegments, if_true, ne_eq, not_true_eq_false, or_false]
    constructor
    · rintro ⟨back, hback⟩
      have hne : literal ≠ [] := by
        rintro rfl
        exact hfront (List.append_eq_nil_iff.mp hback).1
      refine ⟨back ++ [literal.getLast hne], ?_, by simp⟩
      rw [← List.append_assoc, hback, List.dropLast_concat_getLast]
    · rintro ⟨back, rfl, hback⟩
      rw [List.dropLast_append_of_ne_nil hback]
      exact List.prefix_append _ _
  · simp only [hsegments, if_false, ne_eq, not_false_eq_true, or_true, and_true]
    exact ⟨fun ⟨back, hback⟩ => ⟨back, hback.symm⟩, fun ⟨back, hback⟩ => ⟨back, hback.symm⟩⟩

/-- A base below its anchor is taken when no link is on the way from one to the other. -/
theorem refusesBase_eq_false_iff {v : View} {plan : Plan} {literal : List Name}
    (habs : plan.anchor.isAbsolute = true) (hbase : plan.base = plan.anchor.descend literal) :
    v.refusesBase plan = false ↔ (v.followsLinks = false → ∀ front back,
      plan.base = plan.anchor.descend (front ++ back) → front ≠ [] →
        back ≠ [] ∨ plan.segments ≠ [] → ¬ v.workspace.NamesLink (plan.anchor.descend front)) := by
  rw [← Bool.not_eq_true, refusesBase_iff_of_descend habs hbase]
  constructor
  · intro h hv front back hsplit hfront hback hlink
    have hliteral := Path.names_eq_of_components_eq habs
      (congrArg Path.components (hbase.symm.trans hsplit))
    exact h ⟨hv, front, (prefix_checkedNames_iff hfront).mpr ⟨back, hliteral, hback⟩, hfront, hlink⟩
  · rintro h ⟨hv, front, hbegins, hfront, hlink⟩
    obtain ⟨back, hliteral, hback⟩ := (prefix_checkedNames_iff hfront).mp hbegins
    exact h hv front back (hliteral ▸ hbase) hfront hback hlink

/-! ### The branch at the base -/

theorem firstBranch_of_not_follows {v : View} (hv : v.followsLinks = false) (base : Path)
    (loc : Location) : v.firstBranch base loc = [] := by
  simp [firstBranch, hv]

theorem firstBranch_of_resolves {v : View} {base : Path} (hv : v.followsLinks = true)
    (hresolves : v.workspace.resolves base = true) (loc : Location) :
    v.firstBranch base loc = [loc] := by
  simp [firstBranch, hv, hresolves]

/-- The paths that a plan leads to, when nothing breaks its walk off. -/
theorem mem_carryOut_iff {v : View} {plan : Plan} {pattern : String} {p : Path} :
    (∃ found, v.carryOut false pattern plan = .ok found ∧ p ∈ found) ↔
      v.refusesBase plan = false ∧
        (plan.segments = [] ∧ p = plan.base ∧ v.workspace.LeadsToFile plan.base ∨
          plan.segments ≠ [] ∧ ∃ loc, v.workspace.lookup false plan.base = .ok (loc, .directory) ∧
            loc ∉ v.workspace.files.unlisted ∧
            p ∈ v.matchesBelow plan.segments plan.base (v.firstBranch plan.base loc)) := by
  unfold carryOut
  cases hrefuse : v.refusesBase plan with
  | true => simp
  | false =>
      by_cases hsegments : plan.segments = []
      · simp only [hsegments, Bool.false_eq_true, if_false, if_true, ← classify_eq_file_iff]
        by_cases hfile : v.classify plan.base = .file <;> simp [hfile]
      · simp only [hsegments, Bool.false_eq_true, if_false]
        cases hlook : v.workspace.lookup false plan.base with
        | error fault => cases fault <;> simp [hsegments]
        | ok found =>
            obtain ⟨loc, o⟩ := found
            cases o with
            | directory =>
                simp only [Workspace.list_of_directory hlook]
                by_cases hlisted : loc ∈ v.workspace.files.unlisted <;> simp [hsegments, hlisted]
            | file | unreadable | link | special => simp [hsegments]

/-- A cancelled expansion that comes to its end comes to the same as any other. -/
theorem carryOut_of_cancelled {v : View} {plan : Plan} {pattern : String} {cancelled : Bool}
    {found : List Path} (h : v.carryOut cancelled pattern plan = .ok found) :
    v.carryOut false pattern plan = .ok found := by
  cases cancelled with
  | false => exact h
  | true =>
      simp only [carryOut] at h ⊢
      split
      · simpa [*] using h
      · split
        · simpa [*] using h
        · cases hlook : v.workspace.lookup false plan.base with
          | error fault => cases fault <;> simp_all
          | ok found =>
              obtain ⟨loc, o⟩ := found
              cases o with
              | directory => cases hlist : v.workspace.list plan.base <;> simp_all
              | file | unreadable | link | special => simp_all

/-- An expansion from a root holds what its plan leads to, each path once. -/
theorem expand_eq_ok_iff {v : View} {root : Path} {pattern : String} {plan : Plan}
    {cancelled : Bool} {e : Expansion} (hplan : Pattern.plan pattern root = .ok plan) :
    v.expand (some root) cancelled pattern = .ok e ↔
      ∃ found, v.carryOut cancelled pattern plan = .ok found ∧
        e = ⟨pattern, plan.isAbsolute, Path.distinct found⟩ := by
  simp only [expand, Option.getD_some, hplan, Option.isNone_some, Bool.and_false,
    Bool.false_eq_true, if_false]
  cases v.carryOut cancelled pattern plan with
  | error fault => simp
  | ok found => simp [eq_comm]

/-! ### What an expansion comes to -/

variable {v : View} {plan : Plan} {pattern : String}

/-- The files that an expansion finds. A fault counts as no match. -/
def found (v : View) (root : Path) (pattern : String) : List Path :=
  match v.expand (some root) false pattern with
  | .ok e => e.found
  | .error _ => []

/-- The files that a plan leads to, repeats included. A fault counts as no match. -/
def leads (v : View) (plan : Plan) : List Path :=
  match v.carryOut false "" plan with
  | .ok found => found
  | .error _ => []

/-- A pattern is named in no fault but a cancelled one. -/
theorem carryOut_pattern (pattern : String) :
    v.carryOut false pattern plan = v.carryOut false "" plan := by
  simp [carryOut]

theorem found_of_plan {root : Path} (hplan : Pattern.plan pattern root = .ok plan) :
    v.found root pattern = Path.distinct (v.leads plan) := by
  simp only [found, leads, expand, Option.getD_some, hplan, Option.isNone_some, Bool.and_false,
    Bool.false_eq_true, if_false, carryOut_pattern pattern]
  cases v.carryOut false "" plan <;> rfl

theorem found_of_fault {root : Path} {fault : GlobFault}
    (hplan : Pattern.plan pattern root = .error fault) : v.found root pattern = [] := by
  simp [found, expand, hplan]

theorem mem_leads_iff {p : Path} :
    p ∈ v.leads plan ↔ ∃ found, v.carryOut false "" plan = .ok found ∧ p ∈ found := by
  unfold leads
  cases v.carryOut false "" plan <;> simp

theorem leads_of_refused (h : v.refusesBase plan = true) : v.leads plan = [] := by
  simp [leads, carryOut, h]

theorem leads_of_fixed (hrefuse : v.refusesBase plan = false) (hsegments : plan.segments = []) :
    v.leads plan = if v.classify plan.base = .file then [plan.base] else [] := by
  simp [leads, carryOut, hrefuse, hsegments]

/-- With nothing left to match, a plan finds the file that its base leads to. -/
theorem found_of_file {root : Path} (hplan : Pattern.plan pattern root = .ok plan)
    (hrefuse : v.refusesBase plan = false) (hsegments : plan.segments = [])
    (hfile : v.classify plan.base = .file) : v.found root pattern = [plan.base] := by
  rw [found_of_plan hplan, leads_of_fixed hrefuse hsegments, if_pos hfile]
  rfl

theorem carryOut_of_directory {loc : Location} (hrefuse : v.refusesBase plan = false)
    (hsegments : plan.segments ≠ [])
    (hlook : v.workspace.lookup false plan.base = .ok (loc, .directory))
    (hlisted : loc ∉ v.workspace.files.unlisted) :
    v.carryOut false pattern plan =
      .ok (v.matchesBelow plan.segments plan.base (v.firstBranch plan.base loc)) := by
  simp [carryOut, hrefuse, hsegments, hlook, Workspace.list_of_directory hlook, hlisted]

theorem leads_of_directory {loc : Location} (hrefuse : v.refusesBase plan = false)
    (hsegments : plan.segments ≠ [])
    (hlook : v.workspace.lookup false plan.base = .ok (loc, .directory))
    (hlisted : loc ∉ v.workspace.files.unlisted) :
    v.leads plan = v.matchesBelow plan.segments plan.base (v.firstBranch plan.base loc) := by
  simp only [leads, carryOut_of_directory hrefuse hsegments hlook hlisted]

theorem leads_of_no_file (hsegments : plan.segments = [])
    (hfile : ¬ v.workspace.LeadsToFile plan.base) : v.leads plan = [] := by
  apply List.eq_nil_iff_forall_not_mem.mpr
  intro p hp
  obtain ⟨_, ⟨_, rfl, hleads⟩ | ⟨hsome, _⟩⟩ := mem_carryOut_iff.mp (mem_leads_iff.mp hp)
  · exact hfile hleads
  · exact hsome hsegments

theorem leads_of_not_lists (hsegments : plan.segments ≠ [])
    (hlook : ¬ v.workspace.Lists plan.base) : v.leads plan = [] := by
  apply List.eq_nil_iff_forall_not_mem.mpr
  intro p hp
  obtain ⟨_, ⟨hnone, _⟩ | ⟨_, loc, hdir, hlisted, _⟩⟩ := mem_carryOut_iff.mp (mem_leads_iff.mp hp)
  · exact hsegments hnone
  · exact hlook ⟨loc, hdir, hlisted⟩

end ArtifactHarvest.View
