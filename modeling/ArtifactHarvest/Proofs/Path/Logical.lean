import ArtifactHarvest.Path.Logical
import ArtifactHarvest.Proofs.Pattern.Climbing

/-!
The path under which a match is reported leads back to the match. Steps written one after another
are read again as they were (`components_ofComponents`), and cleaning leaves a list of names, of
which the reported path takes back those that only the root has and adds those that only the match
has (`logical_of_isAbsolute`, `settle_replicate_up`). Main statement: `logical_leads_back`.
-/

namespace ArtifactHarvest

theorem Text.intercalate_cons {α : Type} (sep : α) (run : List α) (runs : List (List α)) :
    List.intercalate [sep] (run :: runs) = run ++ runs.flatMap (sep :: ·) := by
  induction runs generalizing run with
  | nil => simp
  | cons next runs ih =>
      rw [List.intercalate_cons_cons, ih, List.flatMap_cons, List.append_assoc,
        List.singleton_append, List.cons_append]

/-- Climbs take back as many of the names that are left. -/
theorem Component.settle_replicate_up (k : Nat) (outer : List Component) :
    settle (List.replicate k .up ++ outer) = (settle outer).drop k := by
  induction k with
  | zero => rfl
  | succ k ih =>
      rw [List.replicate_succ, List.cons_append, settle, ih]
      simp [onto, List.tail_drop]

namespace Path

/-! ### Reading what was written -/

/-- Behind a text that does not end in a slash every step is written with a slash before it. -/
theorem bytes_foldl_push {p : Path} {cs : List Component} (hne : p.bytes ≠ [])
    (hlast : p.bytes.getLast? ≠ some slash) (h : ∀ c ∈ cs, c.isStep = true) :
    (cs.foldl push p).bytes = p.bytes ++ (cs.map Component.bytes).flatMap (slash :: ·) := by
  induction cs generalizing p with
  | nil => simp
  | cons c cs ih =>
      have hc := h c List.mem_cons_self
      have hpush : (p.push c).bytes = p.bytes ++ slash :: c.bytes := by
        simp [push, join, isAbsolute_of_isStep hc, hne, hlast]
      have hclosed : (p.push c).bytes.getLast? ≠ some slash := by
        rw [hpush, List.getLast?_append_of_ne_nil _ (List.cons_ne_nil _ _),
          List.getLast?_cons_of_ne_nil (Component.bytes_ne_nil hc)]
        exact fun hslash => Component.slash_notMem_bytes hc (List.mem_of_getLast? hslash)
      rw [List.foldl_cons, ih (by simp [hpush]) hclosed fun d hd => h d (List.mem_cons_of_mem c hd),
        hpush]
      simp

theorem bytes_ofComponents {cs : List Component} (h : ∀ c ∈ cs, c.isStep = true) :
    (ofComponents cs).bytes = List.intercalate [slash] (cs.map Component.bytes) := by
  cases cs with
  | nil => rfl
  | cons c cs =>
      have hc := h c List.mem_cons_self
      have hfirst : empty.push c = ⟨c.bytes⟩ := by
        simp [push, join, isAbsolute_of_isStep hc, empty]
      have hclosed : c.bytes.getLast? ≠ some slash := fun hslash =>
        Component.slash_notMem_bytes hc (List.mem_of_getLast? hslash)
      rw [ofComponents, List.foldl_cons, hfirst, List.map_cons, Text.intercalate_cons,
        bytes_foldl_push (p := ⟨c.bytes⟩) (Component.bytes_ne_nil hc) hclosed
          fun d hd => h d (List.mem_cons_of_mem c hd)]

theorem bytes_ofComponents_root {cs : List Component} (h : ∀ c ∈ cs, c.isStep = true) :
    (ofComponents (.root :: cs)).bytes = slash :: (ofComponents cs).bytes := by
  cases cs with
  | nil => rfl
  | cons c cs =>
      have hc := h c List.mem_cons_self
      have hfirst : push ⟨[slash]⟩ c = ⟨slash :: c.bytes⟩ := by
        simp [push, join, isAbsolute_of_isStep hc]
      have hclosed : (slash :: c.bytes).getLast? ≠ some slash := by
        rw [List.getLast?_cons_of_ne_nil (Component.bytes_ne_nil hc)]
        exact fun hslash => Component.slash_notMem_bytes hc (List.mem_of_getLast? hslash)
      rw [ofComponents_root, List.foldl_cons, hfirst, bytes_ofComponents h, List.map_cons,
        Text.intercalate_cons, bytes_foldl_push (List.cons_ne_nil _ _) hclosed
          fun d hd => h d (List.mem_cons_of_mem c hd), List.cons_append]

theorem isAbsolute_ofComponents_root (cs : List Component) :
    (ofComponents (.root :: cs)).isAbsolute = true :=
  isAbsolute_foldl_push cs rfl

/-- Steps that are written as a relative path are read again as they were. -/
theorem components_ofComponents {cs : List Component} (h : ∀ c ∈ cs, c.isStep = true) :
    (ofComponents cs).components = cs := by
  have hsteps : (ofComponents cs).steps = cs := steps_foldl_push h
  have hlead : (ofComponents cs).lead = [] := by
    cases cs with
    | nil => rfl
    | cons c cs =>
        have hc := h c List.mem_cons_self
        have hruns : List.splitOn slash (ofComponents (c :: cs)).bytes =
            c.bytes :: cs.map Component.bytes := by
          rw [bytes_ofComponents h, List.splitOn_intercalate slash _ (by simp)]
          · rfl
          · intro run hrun
            obtain ⟨d, hd, rfl⟩ := List.mem_map.mp hrun
            exact Component.slash_notMem_bytes (h d hd)
        have hrelative : (ofComponents (c :: cs)).isAbsolute = false := by
          refine Bool.eq_false_iff.mpr fun habs => ?_
          obtain ⟨rest, hrest⟩ := isAbsolute_iff.mp habs
          simp only [hrest, Text.splitOn_cons_self, List.cons.injEq] at hruns
          exact Component.bytes_ne_nil hc hruns.1.symm
        simp [lead, hrelative, hruns, Component.bytes_ne_dot hc]
  rw [components_eq, hlead, hsteps, List.nil_append]

/-! ### What two sequences share -/

/-- What is taken away is the longest common beginning. -/
theorem dropCommon_spec {α : Type} [DecidableEq α] (xs ys : List α) :
    ∃ shared, xs = shared ++ (dropCommon xs ys).1 ∧ ys = shared ++ (dropCommon xs ys).2 ∧
      ∀ other, other <+: xs → other <+: ys → other <+: shared := by
  fun_induction dropCommon xs ys with
  | case1 xs x ys ih =>
      obtain ⟨shared, hxs, hys, hlongest⟩ := ih
      refine ⟨x :: shared, by rw [List.cons_append, ← hxs], by rw [List.cons_append, ← hys], ?_⟩
      intro other hx hy
      cases other with
      | nil => exact List.nil_prefix
      | cons z other =>
          rw [List.cons_prefix_cons] at hx hy ⊢
          exact ⟨hx.1, hlongest other hx.2 hy.2⟩
  | case2 x xs y ys hne =>
      refine ⟨[], rfl, rfl, fun other hx hy => ?_⟩
      cases other with
      | nil => exact List.nil_prefix
      | cons z other =>
          rw [List.cons_prefix_cons] at hx hy
          exact absurd (hx.1.symm.trans hy.1) hne
  | case3 xs ys hnil =>
      refine ⟨[], rfl, rfl, fun other hx hy => ?_⟩
      cases other with
      | nil => exact List.nil_prefix
      | cons z other =>
          obtain ⟨xs, rfl, _⟩ := List.cons_prefix_iff.mp hx
          obtain ⟨ys, rfl, _⟩ := List.cons_prefix_iff.mp hy
          exact (hnil z xs z ys rfl rfl).elim

theorem dropCommon_append {α : Type} [DecidableEq α] (xs ys : List α) :
    dropCommon (xs ++ ys) xs = (ys, []) := by
  induction xs with
  | nil => cases ys <;> rfl
  | cons x xs ih => simp [dropCommon, ih]

/-! ### The reported path -/

theorem isStep_of_mem_climbs (k : Nat) (names : List Name) :
    ∀ c ∈ List.replicate k .up ++ names.map Component.name, c.isStep = true := by
  intro c hc
  rcases List.mem_append.mp hc with hup | hname
  · rw [List.eq_of_mem_replicate hup]
    rfl
  · exact isStep_of_mem_names names c hname

variable {p root found : Path}

/-- The clean form of an absolute path is the root and the names that are left of its steps. -/
theorem components_clean (h : p.isAbsolute = true) :
    p.clean.components = .root :: (Component.settle p.steps.reverse).reverse.map .name := by
  rw [clean_of_isAbsolute h, components_of_isAbsolute (isAbsolute_ofComponents_root _),
    steps_ofComponents (isStep_of_mem_names _)]

theorem stripRoot_clean (h : p.isAbsolute = true) :
    p.clean.stripRoot = ofComponents ((Component.settle p.steps.reverse).reverse.map .name) := by
  rw [stripRoot, components_clean h, List.filter_cons_of_neg (by simp), List.filter_eq_self.mpr]
  intro c hc
  obtain ⟨n, _, rfl⟩ := List.mem_map.mp hc
  rfl

theorem components_route (h : p.isAbsolute = true) : p.route.components = p.clean.components := by
  obtain ⟨hrooted, hnames⟩ := route_of_isAbsolute h
  simp [components_clean h, Route.components, hrooted, p.route.grounded hrooted, hnames]

/-- The reported path climbs out of what only the root has and goes down to what only the match
has. -/
theorem logical_of_isAbsolute (hfound : found.isAbsolute = true) (hroot : root.isAbsolute = true) :
    found.logical (some root) false = ofComponents
      (List.replicate (dropCommon found.clean.components root.clean.components).2.length .up ++
        (dropCommon found.clean.components root.clean.components).1) := by
  simp [logical, relativeTo?, (route_of_isAbsolute hfound).1, (route_of_isAbsolute hroot).1,
    components_route hfound, components_route hroot]

/-- Seen from a root, what is below it has the names that lead down to it, however the root is
spelled. -/
theorem logical_descend {root : Path} (habs : root.isAbsolute = true) (names : List Name) :
    (root.descend names).logical (some root) false = ofComponents (names.map .name) := by
  have hclean : (root.descend names).clean.components =
      root.clean.components ++ names.map .name := by
    rw [components_clean (isAbsolute_descend names habs), components_clean habs, steps_descend,
      List.reverse_append, ← List.map_reverse, Component.settle_append_names]
    simp
  rw [logical_of_isAbsolute (isAbsolute_descend names habs) habs, hclean, dropCommon_append]
  rfl

/-- Two clean absolute paths share the root, and what follows their longest common beginning are
names. -/
theorem exists_names_of_dropCommon (hfound : found.isAbsolute = true)
    (hroot : root.isAbsolute = true) :
    ∃ shared down out : List Name,
      dropCommon found.clean.components root.clean.components = (down.map .name, out.map .name) ∧
      (Component.settle found.steps.reverse).reverse = shared ++ down ∧
      (Component.settle root.steps.reverse).reverse = shared ++ out ∧
      ∀ other, other <+: found.clean.components → other <+: root.clean.components →
        other <+: .root :: shared.map .name := by
  obtain ⟨shared, hdown, hout, hlongest⟩ :=
    dropCommon_spec found.clean.components root.clean.components
  generalize dropCommon found.clean.components root.clean.components = rest at hdown hout ⊢
  rw [components_clean hfound] at hdown hlongest ⊢
  rw [components_clean hroot] at hout hlongest ⊢
  obtain ⟨below, rfl, _⟩ := List.cons_prefix_iff.mp
    (hlongest [.root] (List.cons_prefix_cons.mpr ⟨rfl, List.nil_prefix⟩)
      (List.cons_prefix_cons.mpr ⟨rfl, List.nil_prefix⟩))
  rw [List.cons_append, List.cons_inj_right] at hdown hout
  obtain ⟨common, down, hfoundNames, rfl, hfoundDown⟩ := List.map_eq_append_iff.mp hdown
  obtain ⟨common', out, hrootNames, hcommon, hrootOut⟩ := List.map_eq_append_iff.mp hout
  obtain rfl := (List.map_inj_right fun a b hab => Component.name.inj hab).mp hcommon
  exact ⟨common', down, out, Prod.ext hfoundDown.symm hrootOut.symm, hfoundNames, hrootNames,
    hlongest⟩

/-- **The reported path leads back to the match.** Seen from the root it denotes the match, up to
cleaning. It climbs once for each component that the clean root has beyond its longest common
beginning with the clean match, and goes on with names. Two matches are reported under one path only
if they clean to the same path. A match of an absolute pattern is reported by its clean path without
the leading slash. -/
theorem logical_leads_back (hfound : found.isAbsolute = true) (hroot : root.isAbsolute = true) :
    (root.join (found.logical (some root) false)).clean = found.clean ∧
    (∃ (shared out : List Component) (names : List Name),
      found.clean.components = shared ++ names.map .name ∧ root.clean.components = shared ++ out ∧
      (∀ other, other <+: found.clean.components → other <+: root.clean.components →
        other <+: shared) ∧
      (found.logical (some root) false).components =
        List.replicate out.length .up ++ names.map .name) ∧
    (∀ other : Path, other.isAbsolute = true →
      other.logical (some root) false = found.logical (some root) false →
        other.clean = found.clean) ∧
    ∀ origin, ⟨slash :: (found.logical origin true).bytes⟩ = found.clean := by
  have hback : ∀ other : Path, other.isAbsolute = true →
      (root.join (other.logical (some root) false)).clean = other.clean := by
    intro other hother
    obtain ⟨shared, down, out, hrest, hotherNames, hrootNames, _⟩ :=
      exists_names_of_dropCommon hother hroot
    have hlogical := logical_of_isAbsolute hother hroot
    rw [hrest, List.length_map] at hlogical
    have hcomponents := components_ofComponents (isStep_of_mem_climbs out.length down)
    have hrelative : (other.logical (some root) false).isAbsolute = false := by
      refine Bool.eq_false_iff.mpr fun habs => ?_
      rw [isAbsolute_iff_root_mem, hlogical, hcomponents] at habs
      cases isStep_of_mem_climbs out.length down _ habs
    have hsteps : (other.logical (some root) false).steps =
        List.replicate out.length .up ++ down.map .name := by
      rw [hlogical, ofComponents, steps_foldl_push (isStep_of_mem_climbs out.length down)]
      rfl
    rw [clean_eq_iff (isAbsolute_join hroot) hother, steps_join hrelative, hsteps]
    -- the climbs take back what only the root has, which leaves what both share
    calc Component.settle
          (root.steps ++
            (List.replicate out.length Component.up ++ down.map Component.name)).reverse
        = down.reverse ++ (Component.settle root.steps.reverse).drop out.length := by
          rw [List.reverse_append, List.reverse_append, List.reverse_replicate, ← List.map_reverse,
            List.append_assoc, Component.settle_append_names, Component.settle_replicate_up]
      _ = down.reverse ++ shared.reverse := by
          rw [← List.reverse_reverse (Component.settle root.steps.reverse), hrootNames,
            List.reverse_append, List.drop_left' List.length_reverse]
      _ = Component.settle other.steps.reverse := by
          rw [← List.reverse_append, ← hotherNames, List.reverse_reverse]
  refine ⟨hback found hfound, ?_, fun other hother hsame => ?_, fun origin => ?_⟩
  · obtain ⟨shared, down, out, hrest, hfoundNames, hrootNames, hlongest⟩ :=
      exists_names_of_dropCommon hfound hroot
    refine ⟨.root :: shared.map .name, out.map .name, down, ?_, ?_, hlongest, ?_⟩
    · rw [components_clean hfound, hfoundNames, List.map_append, List.cons_append]
    · rw [components_clean hroot, hrootNames, List.map_append, List.cons_append]
    · rw [logical_of_isAbsolute hfound hroot, hrest, List.length_map]
      exact components_ofComponents (isStep_of_mem_climbs out.length down)
  · rw [← hback other hother, hsame, hback found hfound]
  · rw [logical, if_pos rfl, stripRoot_clean hfound,
      ← bytes_ofComponents_root (isStep_of_mem_names _), ← clean_of_isAbsolute hfound]

theorem sibling_leads_back :
    (ofText "/w/a/../b").isAbsolute = true ∧ (ofText "/w/./r/s/..").isAbsolute = true ∧
      (ofText "/w/a/../b").logical (some (ofText "/w/./r/s/..")) false = ofText "../b" ∧
      ((ofText "/w/./r/s/..").join (ofText "../b")).clean = ofText "/w/b" := by
  have hfound : (ofText "/w/a/../b").isAbsolute = true := by decide
  have hroot : (ofText "/w/./r/s/..").isAbsolute = true := by decide
  have hlogical : (ofText "/w/a/../b").logical (some (ofText "/w/./r/s/..")) false =
      ofText "../b" := by decide
  have hclean : (ofText "/w/a/../b").clean = ofText "/w/b" := by decide
  refine ⟨hfound, hroot, hlogical, ?_⟩
  rw [← hlogical, ← hclean]
  exact (logical_leads_back hfound hroot).1

end Path

end ArtifactHarvest
