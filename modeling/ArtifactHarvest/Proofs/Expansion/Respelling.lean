import ArtifactHarvest.Proofs.Expansion.Preserving
import ArtifactHarvest.Proofs.Path.Clean
import ArtifactHarvest.Proofs.Text.Encoding
import ArtifactHarvest.Proofs.Text.Lossy
import Mathlib

/-!
A pattern below a root, and the absolute pattern that writes the root in front of it. Both plans
have the same base and the same segments (`Pattern.plan_respelled`). They differ in the anchor: an
absolute pattern is its own, so links on the way to its base are not looked at. Each name on the way
from the anchor of the relative one stands in the pattern (`Start.exists_stands`). Main statement:
`View.expand_respelled`.
-/

namespace ArtifactHarvest

/-- The same fault, for a pattern that is written in another way. -/
def ExpansionFault.ofPattern (pattern : String) : ExpansionFault → ExpansionFault
  | .invalid _ fault => .invalid pattern fault
  | .unreadable dir fault => .unreadable dir fault
  | .cancelled _ => .cancelled pattern

/-! ### The plan -/

/-- The plan with the same base and the same segments that is its own anchor. -/
def Plan.asAbsolute (plan : Plan) : Plan :=
  ⟨⟨plan.base, plan.base⟩, true, plan.segments⟩

/-- Where segments lead does not depend on the anchor. -/
theorem Start.base_foldl_follow_congr (segments : List Segment) {s t : Start}
    (h : s.base = t.base) : (segments.foldl follow s).base = (segments.foldl follow t).base := by
  induction segments generalizing s t with
  | nil => exact h
  | cons segment segments ih =>
      refine ih ?_
      cases segment with
      | named n => exact congrArg (·.child n) h
      | parent => exact congrArg Path.up h
      | matching | anyDepth => exact h

theorem Text.subset_intercalate {texts : List String} {text : String} (h : text ∈ texts) :
    text.toList ⊆ ("/".intercalate texts).toList := by
  induction texts with
  | nil => cases h
  | cons first texts ih =>
      cases texts with
      | nil =>
          rw [String.intercalate_singleton, List.mem_singleton.mp h]
          exact List.Subset.refl _
      | cons next more =>
          rw [String.intercalate_cons_cons, String.toList_append, String.toList_append]
          rcases List.mem_cons.mp h with rfl | h
          · exact List.subset_append_of_subset_left _ (List.subset_append_left _ _)
          · exact List.subset_append_of_subset_right _ (ih h)

/-- The names of a path are plain where its text is. -/
theorem Path.isPlain_of_isMeant {r : String} {names : List Name} (hplain : Glob.isMeant r = false)
    (hr : ofText r = ofNames names) : ∀ n ∈ names, (Component.name n).isPlain = true := by
  have htext : r = "/" ++ "/".intercalate (names.map Name.text) := by
    have hbytes := congrArg Path.bytes hr
    rw [bytes_ofNames] at hbytes
    have hread := congrArg Text.Utf8.decodeLossy hbytes
    have hslash := Text.Utf8.decodeLossy_slash [] (List.intercalate [slash] (names.map Name.bytes))
    rw [List.nil_append] at hslash
    rw [ofText, Text.Utf8.decodeLossy_encode, hslash, Text.Utf8.decodeLossy_intercalate,
      List.map_map] at hread
    exact hread
  intro n hn
  have hsubset : n.text.toList ⊆ r.toList := by
    rw [htext, String.toList_append]
    exact List.subset_append_of_subset_right _
      (Text.subset_intercalate (List.mem_map_of_mem hn))
  have hnone : ∀ c ∈ n.text.toList, ¬ (c == '*' || c == '?' || c == '[') = true := fun c hc =>
    List.any_eq_false.mp hplain c (hsubset hc)
  simp only [Component.isPlain, Bool.not_eq_true', Glob.isMeant]
  exact List.any_eq_false.mpr hnone

namespace Pattern

variable {r p : String} {names : List Name}

/-- Plain components in front stand for their own segments, whatever follows. -/
theorem segmentsOf_append {front : List Component} (h : ∀ c ∈ front, c.isPlain = true)
    (back : List Component) :
    segmentsOf (front ++ back) =
      (segmentsOf back).map (front.filterMap Segment.ofPlain? ++ ·) := by
  have hfront : front.mapM Segment.ofComponent = .ok (front.map Segment.ofPlain?) := by
    induction front with
    | nil => rfl
    | cons c front ih =>
        have hc := Segment.ofComponent_of_isPlain (h c List.mem_cons_self)
        rw [List.mapM_cons, hc, ih fun d hd => h d (List.mem_cons_of_mem c hd)]
        rfl
  simp only [segmentsOf, List.mapM_append, hfront]
  cases back.mapM Segment.ofComponent with
  | error fault => rfl
  | ok all => simp [bind, Except.bind, pure, Except.pure, Except.map, List.filterMap_map]

theorem components_respelled (hr : Path.ofText r = .ofNames names) (p : String) :
    (Path.ofText (r ++ "/" ++ p)).isAbsolute = true ∧
    (Path.ofText (r ++ "/" ++ p)).components =
      (.root :: names.map .name) ++ (Path.ofText p).steps := by
  have hr' : Text.Utf8.encode r = (Path.ofNames names).bytes := congrArg Path.bytes hr
  have habs : (Path.ofText (r ++ "/" ++ p)).isAbsolute = true := by
    simp [Path.ofText, Path.isAbsolute, Text.Utf8.encode_append, hr', Path.bytes_ofNames]
  refine ⟨habs, ?_⟩
  have hslash : Text.Utf8.encode "/" = [slash] := by decide
  have hsteps : (Path.ofText (r ++ "/" ++ p)).steps =
      (Path.ofNames names).steps ++ (Path.ofText p).steps := by
    simp only [Path.steps, Path.ofText, Text.Utf8.encode_append, hr', hslash, List.append_assoc,
      List.singleton_append, List.splitOn_append_cons_self, List.filterMap_append]
  rw [Path.components_of_isAbsolute habs, hsteps, Path.steps_ofNames, List.cons_append]

theorem segmentsOf_components (text : String) :
    segmentsOf (Path.ofText text).components = segmentsOf (Path.ofText text).steps := by
  rw [Path.components_eq, segmentsOf_append fun c => Segment.isPlain_of_mem_lead,
    Segment.filterMap_ofPlain?_lead]
  cases segmentsOf (Path.ofText text).steps <;> rfl

/-- **Both spellings lead to the same base and the same segments.** -/
theorem plan_respelled (hr : Path.ofText r = .ofNames names) (hplain : Glob.isMeant r = false)
    (hrelative : (Path.ofText p).isAbsolute = false) (root : Path) :
    plan (r ++ "/" ++ p) root = (plan p (Path.ofText r)).map Plan.asAbsolute := by
  obtain ⟨habs, hcomponents⟩ := components_respelled hr p
  have hfront : ∀ c ∈ Component.root :: names.map .name, c.isPlain = true := by
    intro c hc
    rcases List.mem_cons.mp hc with rfl | hc
    · rfl
    · obtain ⟨n, hn, rfl⟩ := List.mem_map.mp hc
      exact Path.isPlain_of_isMeant hplain hr n hn
  have hnamed : (Component.root :: names.map .name).filterMap Segment.ofPlain? =
      names.map .named := Segment.filterMap_ofPlain?_names names
  rw [plan_of_relative _ hrelative, segmentsOf_components p]
  simp only [plan, segments_eq, hcomponents, segmentsOf_append hfront, habs, if_true, hnamed]
  cases segmentsOf (Path.ofText p).steps with
  | error fault => rfl
  | ok all =>
      have hfixed : ∀ segment ∈ names.map Segment.named, segment.isFixed = true := by
        intro segment hsegment
        obtain ⟨n, _, rfl⟩ := List.mem_map.mp hsegment
        rfl
      -- down the names of the root, and from there on alike
      have hbase : ((names.map Segment.named ++ all.takeWhile Segment.isFixed).foldl Start.follow
            ⟨⟨[slash]⟩, ⟨[slash]⟩⟩).base =
          (begun (Path.ofText r) (all.takeWhile Segment.isFixed)).base := by
        rw [List.foldl_append, foldl_follow_named, begun, hr]
        exact Start.base_foldl_follow_congr _ rfl
      simp only [Except.map, bind, Except.bind, pure, Except.pure,
        List.takeWhile_append_of_pos hfixed, List.dropWhile_append_of_pos hfixed, hbase,
        Plan.asAbsolute]

end Pattern

/-! ### The names on the way -/

namespace Start

/-- Where plain components lead. Both paths of the start are clean, the base is what the components
come to, and each name between the two paths stands at a position of its own: the components up to
there lead to where that name leads. -/
structure Stands (root : Path) (cs : List Component) (s : Start) (outer inner : List Name) :
    Prop where
  anchor : s.anchor = .ofNames outer
  base : s.base = .ofNames (outer ++ inner)
  reached : (cs.foldl Path.push root).clean = s.base
  position : ∀ front back, inner = front ++ back → front ≠ [] →
    ∃ before n behind, cs = before ++ .name n :: behind ∧ (back ≠ [] → behind ≠ []) ∧
      ((before ++ [.name n]).foldl Path.push root).clean = .ofNames (outer ++ front)

variable {root : Path} {cs : List Component} {s : Start} {outer inner : List Name}

theorem Stands.follow_name (h : Stands root cs s outer inner) (habs : root.isAbsolute = true)
    (n : Name) : Stands root (cs ++ [.name n]) (s.follow (.named n)) outer (inner ++ [n]) := by
  have hbase : s.base.child n = .ofNames (outer ++ (inner ++ [n])) := by
    rw [h.base, Path.child_ofNames, List.append_assoc]
  have hreached : ((cs ++ [Component.name n]).foldl Path.push root).clean = s.base.child n := by
    rw [List.foldl_append, List.foldl_cons, List.foldl_nil,
      Path.clean_push_name (Path.isAbsolute_foldl_push cs habs), h.reached]
  refine ⟨h.anchor, hbase, hreached, fun front back hsplit hfront => ?_⟩
  rcases List.eq_nil_or_concat' back with rfl | ⟨back, last, rfl⟩
  · rw [List.append_nil] at hsplit
    subst hsplit
    exact ⟨cs, n, [], rfl, by simp, hreached.trans hbase⟩
  · obtain ⟨hinner, hlast⟩ := List.append_inj' (hsplit.trans (List.append_assoc ..).symm) rfl
    obtain ⟨before, m, behind, hcs, _, hleads⟩ := h.position front back hinner hfront
    exact ⟨before, m, behind ++ [.name n], by simp [hcs], by simp, hleads⟩

/-- A climb takes back the last name. With no name left, the anchor climbs along. -/
theorem Stands.follow_up (h : Stands root cs s outer inner) (habs : root.isAbsolute = true) :
    ∃ outer' inner', Stands root (cs ++ [.up]) (s.follow .parent) outer' inner' := by
  have hreached : ((cs ++ [Component.up]).foldl Path.push root).clean = s.base.up := by
    rw [List.foldl_append, List.foldl_cons, List.foldl_nil,
      Path.clean_push_up (Path.isAbsolute_foldl_push cs habs), h.reached]
  have hup : s.base.up = .ofNames (outer ++ inner).dropLast := by rw [h.base, Path.up_ofNames]
  rcases List.eq_nil_or_concat' inner with rfl | ⟨inner, last, rfl⟩
  · rw [List.append_nil] at hup
    refine ⟨outer.dropLast, [], ?_, by rw [List.append_nil]; exact hup, hreached, ?_⟩
    · simp only [follow]
      split
      · -- only at `/` does the climb lead to what begins with the anchor
        rename_i hbegins
        rw [Path.startsWith, hup, h.anchor, Path.components_ofNames, Path.components_ofNames,
          List.isPrefixOf_iff_prefix] at hbegins
        have hlength := hbegins.length_le
        simp only [List.length_cons, List.length_map, List.length_dropLast] at hlength
        obtain rfl : outer = [] := List.length_eq_zero_iff.mp (by omega)
        exact h.anchor
      · exact hup
    · intro front back hsplit hfront
      exact absurd (List.append_eq_nil_iff.mp hsplit.symm).1 hfront
  · rw [← List.append_assoc, List.dropLast_concat] at hup
    refine ⟨outer, inner, ?_, hup, hreached, ?_⟩
    · simp only [follow]
      rw [if_pos]
      · exact h.anchor
      · rw [Path.startsWith, hup, h.anchor, Path.components_ofNames, Path.components_ofNames,
          List.isPrefixOf_iff_prefix, List.map_append]
        exact List.prefix_append _ _
    · intro front back hsplit hfront
      obtain ⟨before, n, behind, hcs, _, hleads⟩ :=
        h.position front (back ++ [last]) (by simp [hsplit]) hfront
      exact ⟨before, n, behind ++ [.up], by simp [hcs], by simp, hleads⟩

/-- Plain components lead on from a clean root name by name. -/
theorem exists_stands (names : List Name) (hcs : .root ∉ cs) :
    ∃ outer inner, Stands (.ofNames names) cs
      ((cs.filterMap Segment.ofPlain?).foldl follow ⟨.ofNames names, .ofNames names⟩)
      outer inner := by
  induction cs using List.reverseRecOn with
  | nil =>
      refine ⟨names, [], rfl, by rw [List.append_nil]; rfl, Path.clean_ofNames names, ?_⟩
      intro front back hsplit hfront
      exact absurd (List.append_eq_nil_iff.mp hsplit.symm).1 hfront
  | append_singleton cs c ih =>
      obtain ⟨outer, inner, h⟩ := ih fun hmem => hcs (List.mem_append_left _ hmem)
      rw [List.filterMap_append, List.foldl_append]
      cases c with
      | root => simp at hcs
      | here =>
          refine ⟨outer, inner, h.anchor, h.base, ?_, fun front back hsplit hfront => ?_⟩
          · rw [List.foldl_append, List.foldl_cons, List.foldl_nil, Path.clean_push_here
              (Path.isAbsolute_foldl_push cs (Path.isAbsolute_ofNames names)), h.reached]
            rfl
          · obtain ⟨before, n, behind, hsame, _, hleads⟩ := h.position front back hsplit hfront
            exact ⟨before, n, behind ++ [.here], by simp [hsame], by simp, hleads⟩
      | up => exact h.follow_up (Path.isAbsolute_ofNames names)
      | name n => exact ⟨outer, inner ++ [n], h.follow_name (Path.isAbsolute_ofNames names) n⟩

end Start

/-- A directory that a pattern names in front of its first component to be matched: the one that a
name leads to from the root, together with the components in front of it, up to cleaning. The last
component of a pattern with nothing to be matched names no directory but the file asked for. -/
def Pattern.Passes (text : String) (root dir : Path) : Prop :=
  ∃ front n back, (Path.ofText text).components = front ++ .name n :: back ∧ back ≠ [] ∧
    (∀ c ∈ front ++ [Component.name n], c.isPlain = true) ∧
    dir = ((front ++ [Component.name n]).foldl Path.push root).clean

namespace View

variable {v : View} {r p : String} {names : List Name} {plan : Plan} {cancelled : Bool}

/-- A relative pattern that names no link to a directory is not refused for one. -/
theorem refusesBase_of_passes (hrelative : (Path.ofText p).isAbsolute = false)
    (hplan : Pattern.plan p (.ofNames names) = .ok plan)
    (hlinks : v.followsLinks = false →
      ∀ dir, Pattern.Passes p (.ofNames names) dir → ¬ v.workspace.NamesLink dir) :
    v.refusesBase plan = false := by
  obtain ⟨all, hall, habs, hsegments, hbase, hanchor⟩ := Pattern.plan_spec hplan
  have hroot : Component.root ∉ (Path.ofText p).components := fun hmem =>
    Bool.false_ne_true (hrelative.symm.trans (Path.isAbsolute_iff_root_mem.mpr hmem))
  obtain ⟨outer, inner, hstands⟩ := Start.exists_stands names
    fun hmem => hroot ((List.takeWhile_sublist Component.isPlain).mem hmem)
  have horigin : Pattern.origin p (.ofNames names) = .ofNames names := by
    simp [Pattern.origin, hrelative]
  rw [horigin, Pattern.takeWhile_isFixed hall] at hbase hanchor
  rw [habs, hrelative, if_neg Bool.false_ne_true] at hanchor
  have hanchor' : plan.anchor = .ofNames outer := hanchor.trans hstands.anchor
  have hbase' : plan.base = plan.anchor.descend inner := by
    rw [hanchor', Path.descend_ofNames]
    exact hbase.trans hstands.base
  refine (refusesBase_eq_false_iff (hanchor' ▸ Path.isAbsolute_ofNames outer) hbase').mpr ?_
  intro hfollows front back hsplit hfront hback
  rw [hanchor', Path.descend_ofNames] at hbase' hsplit ⊢
  have hinner : inner = front ++ back :=
    List.append_cancel_left (Path.ofNames_inj (hbase'.symm.trans hsplit))
  obtain ⟨before, n, behind, hcs, hlater, hleads⟩ := hstands.position front back hinner hfront
  have hcomponents : (Path.ofText p).components =
      before ++ .name n :: (behind ++ (Path.ofText p).components.dropWhile Component.isPlain) := by
    rw [← List.cons_append, ← List.append_assoc, ← hcs, List.takeWhile_append_dropWhile]
  refine hlinks hfollows _ ⟨before, n, _, hcomponents, ?_, ?_, hleads.symm⟩
  · intro hnil
    obtain ⟨hbehind, hrest⟩ := List.append_eq_nil_iff.mp hnil
    rcases hback with hback | hmore
    · exact hlater hback hbehind
    · -- what is left to be matched comes from components behind the plain ones
      have hdropped := Pattern.dropWhile_isFixed hall
      rw [hrest, ← hsegments] at hdropped
      exact hmore (Except.ok.inj hdropped).symm
  · have hplain : ∀ c ∈ (Path.ofText p).components.takeWhile Component.isPlain,
        c.isPlain = true := List.all_eq_true.mp List.all_takeWhile
    intro c hc
    apply hplain c
    rw [hcs, ← List.singleton_append, ← List.append_assoc]
    exact List.mem_append_left _ hc

/-- A plan that is its own anchor meets no link on the way to its base. -/
theorem refusesBase_asAbsolute (v : View) (plan : Plan) :
    v.refusesBase plan.asAbsolute = false := by
  have hbelow : plan.asAbsolute.base.below? plan.asAbsolute.anchor = some [] := by
    simp [Plan.asAbsolute, Path.below?, Path.startsWith]
  simp [refusesBase, hbelow, meetsLink]

theorem carryOut_asAbsolute (h : v.refusesBase plan = false) (pattern pattern' : String) :
    v.carryOut cancelled pattern' plan.asAbsolute =
      (v.carryOut cancelled pattern plan).mapError (·.ofPattern pattern') := by
  unfold carryOut
  rw [refusesBase_asAbsolute, h, if_neg Bool.false_ne_true, if_neg Bool.false_ne_true]
  by_cases hsegments : plan.segments = []
  · simp [Plan.asAbsolute, hsegments, Except.mapError]
  · simp only [Plan.asAbsolute, hsegments, if_false]
    cases v.workspace.lookup false plan.base with
    | error fault => cases fault <;> rfl
    | ok found =>
        obtain ⟨loc, o⟩ := found
        cases v.workspace.list plan.base <;> cases o <;> cases cancelled <;> rfl

/-- The two spellings of a pattern come to the same expansion, or to the same fault. -/
theorem expand_asAbsolute (hr : Path.ofText r = .ofNames names) (hplain : Glob.isMeant r = false)
    (hrelative : (Path.ofText p).isAbsolute = false)
    (hlinks : v.followsLinks = false →
      ∀ dir, Pattern.Passes p (.ofNames names) dir → ¬ v.workspace.NamesLink dir)
    (origin : Option Path) :
    v.expand origin cancelled (r ++ "/" ++ p) =
      ((v.expand (some (Path.ofText r)) cancelled p).map fun e =>
        ⟨r ++ "/" ++ p, true, e.found⟩).mapError (·.ofPattern (r ++ "/" ++ p)) := by
  rw [expand, expand, Pattern.plan_respelled hr hplain hrelative, Option.getD_some]
  cases hplan : Pattern.plan p (Path.ofText r) with
  | error fault => rfl
  | ok plan =>
      have hrefuse := refusesBase_of_passes hrelative (hr ▸ hplan) hlinks
      have hcarried : v.carryOut cancelled (r ++ "/" ++ p) plan.asAbsolute = _ :=
        carryOut_asAbsolute hrefuse p (r ++ "/" ++ p)
      have habs : plan.asAbsolute.isAbsolute = true := rfl
      simp only [Except.map, habs, hcarried, Option.isNone_some, Bool.not_true, Bool.false_and,
        Bool.and_false, Bool.false_eq_true, if_false]
      cases v.carryOut cancelled p plan <;> rfl

end View

/-! ### The reported paths -/

/-- What is reported of a match of an absolute pattern are its names without the leading slash. -/
theorem Path.bytes_logical_absolute (names : List Name) (origin : Option Path) :
    ((ofNames names).logical origin true).bytes =
      List.intercalate [slash] (names.map Name.bytes) := by
  have hsettled := clean_eq_ofNames (isAbsolute_ofNames names)
  rw [clean_ofNames] at hsettled
  rw [logical, if_pos rfl, stripRoot_clean (isAbsolute_ofNames names), ← ofNames_inj hsettled,
    bytes_ofComponents (isStep_of_mem_names names), List.map_map]
  rfl

/-- Below a root both reports end alike. The absolute one has the root's names in front. -/
theorem Path.bytes_logical_below {outer inner : List Name} (houter : outer ≠ [])
    (hinner : inner ≠ []) (origin : Option Path) :
    ((ofNames (outer ++ inner)).logical origin true).bytes = (ofNames outer).bytes.drop 1 ++
      slash :: ((ofNames (outer ++ inner)).logical (some (ofNames outer)) false).bytes := by
  rw [bytes_logical_absolute, ← descend_ofNames, logical_descend (isAbsolute_ofNames outer),
    bytes_ofComponents (isStep_of_mem_names inner), List.map_map, bytes_ofNames, List.map_append,
    Text.intercalate_append slash (by simpa using houter) (by simpa using hinner)]
  rfl

namespace View

variable {v : View} {r p : String} {cancelled : Bool}

/-- The matches below a clean root are paths of names. -/
theorem exists_names_of_mem_found {names : List Name} {e : Expansion}
    (h : v.expand (some (.ofNames names)) cancelled p = .ok e) :
    ∀ m ∈ e.found, ∃ reached, m = .ofNames reached := by
  refine of_mem_found ?_ ?_ ⟨[], rfl⟩ ?_ h
  · rintro _ n ⟨reached, rfl⟩
    exact ⟨reached ++ [n], Path.child_ofNames reached n⟩
  · rintro _ ⟨reached, rfl⟩
    exact ⟨reached.dropLast, Path.up_ofNames reached⟩
  · intro root hroot
    exact ⟨names, (Option.mem_some.mp hroot).symm⟩

/-- **Absolute and relative spelling agree.** Let a root be clean and free of what asks for
matching. Then a relative pattern comes to the same matches in the same order, or to the same fault,
as the absolute pattern that writes the root and a slash in front of it. Where links are not
followed, this holds for a pattern that names no link to a directory. What is reported of a match
below the root is the same too, but for the root in front. -/
theorem expand_respelled (habs : (Path.ofText r).isAbsolute = true)
    (hclean : (Path.ofText r).clean = Path.ofText r) (hplain : Glob.isMeant r = false)
    (hrelative : (Path.ofText p).isAbsolute = false)
    (hlinks : v.followsLinks = false →
      ∀ dir, Pattern.Passes p (Path.ofText r) dir → ¬ v.workspace.NamesLink dir)
    (origin : Option Path) :
    v.expand origin cancelled (r ++ "/" ++ p) =
      ((v.expand (some (Path.ofText r)) cancelled p).map fun e =>
        ⟨r ++ "/" ++ p, true, e.found⟩).mapError (·.ofPattern (r ++ "/" ++ p)) ∧
    (r ≠ "/" → ∀ e, v.expand (some (Path.ofText r)) cancelled p = .ok e → ∀ m ∈ e.found,
      ∀ below, m.components = (Path.ofText r).components ++ below → below ≠ [] →
        (m.logical origin true).bytes = (Path.ofText r).bytes.drop 1 ++
          slash :: (m.logical (some (Path.ofText r)) false).bytes) := by
  obtain ⟨names, hr⟩ := Path.exists_names_of_clean habs hclean
  refine ⟨expand_asAbsolute hr hplain hrelative (hr ▸ hlinks) origin, ?_⟩
  intro hslash e he m hm below hbelow hsome
  rw [hr] at he hbelow ⊢
  obtain ⟨reached, rfl⟩ := exists_names_of_mem_found he m hm
  rw [Path.components_ofNames, Path.components_ofNames, List.cons_append, List.cons_inj_right,
    List.map_eq_append_iff] at hbelow
  obtain ⟨outer, inner, rfl, houter, rfl⟩ := hbelow
  obtain rfl := (List.map_inj_right fun a b hab => Component.name.inj hab).mp houter
  apply Path.bytes_logical_below
  · rintro rfl
    apply hslash
    have hbytes : Text.Utf8.encode r = Text.Utf8.encode "/" := congrArg Path.bytes hr
    rw [← Text.Utf8.decodeLossy_encode r, hbytes, Text.Utf8.decodeLossy_encode]
  · rintro rfl
    exact hsome rfl

theorem climbing_pattern_respelled :
    (Path.ofText "/r").isAbsolute = true ∧ (Path.ofText "/r").clean = Path.ofText "/r" ∧
      Glob.isMeant "/r" = false ∧ (Path.ofText "../r/*").isAbsolute = false ∧
      (∀ dir, Pattern.Passes "../r/*" (Path.ofText "/r") dir → ¬ Workspace.small.NamesLink dir) ∧
      (View.mk .small false).expand none false ("/r" ++ "/" ++ "../r/*") =
        .ok ⟨"/r" ++ "/" ++ "../r/*", true, [Path.ofText "/r/x"]⟩ := by
  have habs : (Path.ofText "/r").isAbsolute = true := by decide
  have hclean : (Path.ofText "/r").clean = Path.ofText "/r" := by decide
  have hplain : Glob.isMeant "/r" = false := by decide
  have hrelative : (Path.ofText "../r/*").isAbsolute = false := by decide
  have hlinks : ∀ dir, Pattern.Passes "../r/*" (Path.ofText "/r") dir →
      ¬ Workspace.small.NamesLink dir := by
    rintro _ ⟨front, n, back, hsplit, hback, -, rfl⟩ ⟨loc, target, hlook⟩
    have hcomponents : (Path.ofText "../r/*").components =
        [.up, .name ⟨[114], by decide⟩, .name ⟨[42], by decide⟩] := by cbv
    rw [hcomponents] at hsplit
    -- the only name with something behind it is `r`
    rcases front with _ | ⟨c, _ | ⟨d, more⟩⟩
    · simp at hsplit
    · simp only [List.cons_append, List.nil_append, List.cons.injEq, Component.name.injEq] at hsplit
      obtain ⟨rfl, rfl, -⟩ := hsplit
      have hdirectory : Workspace.small.lookup true (Path.ofText "/r") =
          .ok ([⟨[114], by decide⟩], .directory) := by cbv
      have hback : (([Component.up] ++ [Component.name ⟨[114], by decide⟩]).foldl Path.push
          (Path.ofText "/r")).clean = Path.ofText "/r" := by decide
      rw [hback, hdirectory] at hlook
      cases hlook
    · rcases more with _ | ⟨e, more⟩
      · simp only [List.cons_append, List.nil_append, List.cons.injEq] at hsplit
        exact hback hsplit.2.2.2.symm
      · simp at hsplit
  have hsegments : Pattern.segments "../r/*" =
      .ok [.parent, .named ⟨[114], by decide⟩, .matching [.anyRun]] := by cbv
  have hplan : Pattern.plan "../r/*" (Path.ofText "/r") =
      .ok ⟨⟨Path.ofText "/r", Path.ofText "/"⟩, false, [.matching [.anyRun]]⟩ := by
    rw [Pattern.plan, hsegments]
    rfl
  have hcarried : (View.mk .small false).carryOut false "../r/*"
      ⟨⟨Path.ofText "/r", Path.ofText "/"⟩, false, [.matching [.anyRun]]⟩ =
        .ok [Path.ofText "/r/x"] := by cbv
  have hexpand : (View.mk .small false).expand (some (Path.ofText "/r")) false "../r/*" =
      .ok ⟨"../r/*", false, [Path.ofText "/r/x"]⟩ := by
    simp only [expand, Option.getD_some, hplan, hcarried]
    rfl
  refine ⟨habs, hclean, hplain, hrelative, hlinks, ?_⟩
  rw [(expand_respelled habs hclean hplain hrelative (fun _ => hlinks) none).1, hexpand]
  rfl

end View

end ArtifactHarvest
