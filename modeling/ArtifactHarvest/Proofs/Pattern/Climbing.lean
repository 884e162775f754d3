import ArtifactHarvest.Proofs.Pattern.Splitting
import Mathlib

/-!
Where the fixed beginning of a pattern leads when it climbs. A climb takes back the last step of the
root as it is written, while cleaning takes back the last name that is left. The two agree unless a
`..` of the root is taken back that had a name to take back itself. Main statement:
`clean_base_iff`.
-/

namespace ArtifactHarvest

namespace Component

/-- A component put on a stack: a name goes on top, a climb takes the top off. -/
def onto {α : Type} (f : Name → α) (stack : List α) : Component → List α
  | .name n => f n :: stack
  | .up => stack.tail
  | .root | .here => stack

/-- The names that are left of steps, innermost first, when each climb takes one back. -/
def settle : List Component → List Name
  | [] => []
  | c :: outer => onto id (settle outer) c

theorem settle_append_names (names : List Name) (outer : List Component) :
    settle (names.map .name ++ outer) = names ++ settle outer := by
  induction names with
  | nil => rfl
  | cons n names ih =>
      rw [List.map_cons, List.cons_append, settle, ih]
      rfl

theorem foldl_onto_settle (cs outer : List Component) :
    cs.foldl (onto id) (settle outer) = settle (cs.reverse ++ outer) := by
  induction cs generalizing outer with
  | nil => rfl
  | cons c cs ih =>
      rw [List.foldl_cons, List.reverse_cons, List.append_assoc, List.singleton_append,
        ← ih (c :: outer), settle]

/-- A step brings at most one name. -/
theorem length_settle_le (steps : List Component) (d : Nat) :
    (settle steps).length ≤ (settle (steps.drop d)).length + d := by
  induction d generalizing steps with
  | zero => simp
  | succ d ih =>
      cases steps with
      | nil => simp [settle]
      | cons c outer =>
          have houter := ih outer
          rw [List.drop_succ_cons]
          cases c <;> simp only [settle, onto, List.length_cons, List.length_tail] <;> omega

/-- Taking back steps takes back as many names, unless one of the steps is a climb and names are
left that it could have taken back. -/
theorem drop_settle_iff {steps : List Component} {d : Nat}
    (hsteps : ∀ c ∈ steps, c.isStep = true) :
    settle (steps.drop d) = (settle steps).drop d ↔
      .up ∉ steps.take d ∨ settle (steps.drop d) = [] := by
  induction d generalizing steps with
  | zero => simp
  | succ d ih =>
      cases steps with
      | nil => simp [settle]
      | cons c outer =>
          have houter : ∀ c ∈ outer, c.isStep = true := fun c hc => hsteps c (.tail _ hc)
          rw [List.drop_succ_cons, List.take_succ_cons]
          cases c with
          | root | here => exact absurd (hsteps _ List.mem_cons_self) Bool.false_ne_true
          | name n => simpa [settle, onto] using ih houter
          | up =>
              have hbound := length_settle_le outer d
              simp only [settle, onto, List.drop_tail, List.mem_cons, true_or, not_true_eq_false,
                false_or]
              constructor
              · intro hsame
                have hlength := congrArg List.length hsame
                rw [List.length_drop] at hlength
                exact List.eq_nil_of_length_eq_zero (by omega)
              · intro hnil
                rw [hnil, List.length_nil] at hbound
                rw [hnil, List.drop_eq_nil_of_le (by omega)]

end Component

namespace Route

/-- What components do to a stack is what their clean form does: it takes off as many entries as it
climbs and puts its names on top. -/
theorem foldl_onto {α : Type} (f : Name → α) {cs : List Component} (hcs : .root ∉ cs) {r : Route}
    (hr : r.rooted = false) (stack : List α) :
    cs.foldl (Component.onto f) (r.names.map f ++ stack.drop r.climbs) =
      (cs.foldl step r).names.map f ++ stack.drop (cs.foldl step r).climbs := by
  induction cs generalizing r with
  | nil => rfl
  | cons c cs ih =>
      have hrest : .root ∉ cs := fun h => hcs (List.mem_cons_of_mem c h)
      rw [List.foldl_cons, List.foldl_cons]
      cases c with
      | root => exact absurd List.mem_cons_self hcs
      | here => exact ih hrest hr
      | name n => exact ih hrest (r := r.step (.name n)) hr
      | up =>
          have hrooted : r.climb.rooted = false := by
            unfold climb
            split <;> simp [hr]
          rw [← ih hrest (r := r.step .up) hrooted]
          congr 1
          cases hnames : r.names with
          | nil => simp [Component.onto, step, climb, hnames, hr, List.tail_drop]
          | cons n outer => simp [Component.onto, step, climb, hnames]

theorem names_foldl_step {cs : List Component} (hcs : .root ∉ cs) {r : Route}
    (hr : r.rooted = true) :
    (cs.foldl step r).rooted = true ∧
      (cs.foldl step r).names = cs.foldl (Component.onto id) r.names := by
  induction cs generalizing r with
  | nil => exact ⟨hr, rfl⟩
  | cons c cs ih =>
      have hrest : .root ∉ cs := fun h => hcs (List.mem_cons_of_mem c h)
      rw [List.foldl_cons, List.foldl_cons]
      cases c with
      | root => exact absurd List.mem_cons_self hcs
      | here => exact ih hrest hr
      | name n => exact ih hrest (r := r.step (.name n)) hr
      | up =>
          cases hnames : r.names with
          | nil =>
              have hsame : r.step .up = r := by simp [step, climb, hnames, hr]
              rw [hsame]
              simpa [Component.onto, hnames] using ih hrest hr
          | cons n outer =>
              have := ih hrest (r := r.step .up) (by simp [step, climb, hnames, hr])
              simpa [step, climb, hnames, Component.onto] using this

end Route

namespace Path

variable {p q : Path}

/-- The clean form of an absolute path has the names that are left of its steps. -/
theorem route_of_isAbsolute (h : p.isAbsolute = true) :
    p.route.rooted = true ∧ p.route.names = Component.settle p.steps.reverse := by
  have hroute := Route.names_foldl_step p.root_notMem_steps (r := Route.ground) rfl
  rw [route, components_of_isAbsolute h, List.foldl_cons]
  have hsettle := Component.foldl_onto_settle p.steps []
  rw [List.append_nil] at hsettle
  exact ⟨hroute.1, hroute.2.trans hsettle⟩

theorem clean_of_isAbsolute (h : p.isAbsolute = true) :
    p.clean = ofComponents (.root :: (Component.settle p.steps.reverse).reverse.map .name) := by
  obtain ⟨hrooted, hnames⟩ := route_of_isAbsolute h
  simp [clean, Route.toPath, Route.components, hrooted, p.route.grounded hrooted, hnames]

theorem clean_eq_iff (hp : p.isAbsolute = true) (hq : q.isAbsolute = true) :
    p.clean = q.clean ↔
      Component.settle p.steps.reverse = Component.settle q.steps.reverse := by
  rw [clean_of_isAbsolute hp, clean_of_isAbsolute hq]
  constructor
  · intro h
    have hsteps := congrArg steps h
    rw [steps_ofComponents (isStep_of_mem_names _), steps_ofComponents (isStep_of_mem_names _)]
      at hsteps
    have hnames := (List.map_inj_right fun a b hab => Component.name.inj hab).mp hsteps
    exact List.reverse_inj.mp hnames
  · intro h
    rw [h]

theorem clean_eq_slash_iff (hp : p.isAbsolute = true) :
    p.clean = ⟨[slash]⟩ ↔ Component.settle p.steps.reverse = [] :=
  clean_eq_iff (q := ⟨[slash]⟩) hp rfl

theorem settle_push {c : Component} (hc : c ≠ .root) (p : Path) :
    Component.settle (p.push c).steps.reverse =
      Component.onto id (Component.settle p.steps.reverse) c := by
  cases c with
  | root => exact absurd rfl hc
  | here =>
      have hidle : (p.push .here).steps = p.steps ++ [] := steps_join rfl
      rw [hidle, List.append_nil, Component.onto]
  | up | name n =>
      rw [steps_push rfl, List.reverse_append, List.reverse_singleton,
        List.singleton_append, Component.settle]

theorem settle_foldl_push {cs : List Component} (hcs : .root ∉ cs) (h : p.isAbsolute = true) :
    (cs.foldl push p).isAbsolute = true ∧
      Component.settle (cs.foldl push p).steps.reverse =
        cs.foldl (Component.onto id) (Component.settle p.steps.reverse) := by
  induction cs generalizing p with
  | nil => exact ⟨h, rfl⟩
  | cons c cs ih =>
      have hrest : .root ∉ cs := fun hmem => hcs (List.mem_cons_of_mem c hmem)
      have hc : c ≠ .root := fun hroot => hcs (hroot ▸ List.mem_cons_self)
      rw [List.foldl_cons, List.foldl_cons, ← settle_push hc]
      exact ih hrest (isAbsolute_push h)

end Path

namespace Pattern

/-- The components of a pattern that are in front of the first one to be matched. -/
def beginning (text : String) : List Component :=
  (Path.ofText text).components.takeWhile Component.isPlain

/-- How far the beginning of a pattern climbs out of where it starts from. -/
def climbs (text : String) : Nat :=
  ((beginning text).foldl Route.step Route.start).climbs

/-- Following plain components does to the steps of the start what they do to a stack. -/
theorem steps_follow (cs : List Component) {s : Start} (h : s.base.isAbsolute = true) :
    ((cs.filterMap Segment.ofPlain?).foldl Start.follow s).base.isAbsolute = true ∧
      ((cs.filterMap Segment.ofPlain?).foldl Start.follow s).base.steps.reverse =
        cs.foldl (Component.onto .name) s.base.steps.reverse := by
  induction cs generalizing s with
  | nil => exact ⟨h, rfl⟩
  | cons c cs ih =>
      cases c with
      | root | here => exact ih h
      | name n =>
          have hnext := ih (s := s.follow (.named n)) (Path.isAbsolute_child n h)
          simpa [Segment.ofPlain?, Start.follow, Component.onto] using hnext
      | up =>
          have hnext := ih (s := s.follow .parent) (Path.isAbsolute_up h)
          have hsteps : (s.follow .parent).base.steps.reverse = s.base.steps.reverse.tail := by
            rw [List.tail_reverse, ← Path.steps_up h]
            rfl
          rw [hsteps] at hnext
          exact hnext

/-- Following plain components leads where joining them does, up to cleaning, unless one of the
steps taken back is a climb that had a name to take back. -/
theorem clean_follow_iff {start : Path} {cs : List Component} (h : start.isAbsolute = true)
    (hcs : .root ∉ cs) :
    ((cs.filterMap Segment.ofPlain?).foldl Start.follow ⟨start, start⟩).base.clean =
        (cs.foldl Path.push start).clean ↔
      .up ∉ start.steps.reverse.take (cs.foldl Route.step Route.start).climbs ∨
        (start.ancestor (cs.foldl Route.step Route.start).climbs).clean = ⟨[slash]⟩ := by
  obtain ⟨hfollowAbs, hfollow⟩ := steps_follow cs (s := ⟨start, start⟩) h
  obtain ⟨hpushAbs, hpush⟩ := Path.settle_foldl_push hcs h
  obtain ⟨hancestorAbs, hancestor⟩ := Path.steps_ancestor h (cs.foldl Route.step Route.start).climbs
  have hwritten := Route.foldl_onto Component.name hcs (r := Route.start) rfl start.steps.reverse
  have hcleaned := Route.foldl_onto id hcs (r := Route.start) rfl
    (Component.settle start.steps.reverse)
  simp only [Route.start, List.map_nil, List.nil_append, List.drop_zero] at hwritten hcleaned
  have hsteps : ∀ c ∈ start.steps.reverse, c.isStep = true := fun c hc =>
    Path.isStep_of_mem_steps (List.mem_reverse.mp hc)
  rw [Path.clean_eq_iff hfollowAbs hpushAbs, Path.clean_eq_slash_iff hancestorAbs, hancestor,
    hfollow, hpush, hwritten, hcleaned, Component.settle_append_names, List.map_id,
    List.append_cancel_left_eq]
  exact Component.drop_settle_iff hsteps

/-- **Where climbs lead.** The base of a plan is where the pattern's fixed beginning leads from its
origin, up to cleaning, exactly if no `..` stands among the steps of the origin that the pattern
climbs out of, or the climb ends at `/`. -/
theorem clean_base_iff {text : String} {root : Path} {p : Plan} (habs : root.isAbsolute = true)
    (hplan : plan text root = .ok p) :
    p.base.clean = ((beginning text).foldl Path.push (origin text root)).clean ↔
      .up ∉ (origin text root).steps.reverse.take (climbs text) ∨
        ((origin text root).ancestor (climbs text)).clean = ⟨[slash]⟩ := by
  obtain ⟨all, hall, _, _, hbase, _⟩ := plan_spec hplan
  have horigin := isAbsolute_origin text habs
  rw [hbase, takeWhile_isFixed hall, begun]
  cases hpattern : (Path.ofText text).isAbsolute with
  | false =>
      refine clean_follow_iff horigin fun hmem => ?_
      have hroot := (List.takeWhile_sublist _).mem hmem
      rw [Path.components_eq, List.mem_append] at hroot
      rcases hroot with hlead | hsteps
      · simp only [Path.lead, hpattern, Bool.false_eq_true, if_false] at hlead
        split at hlead <;> simp at hlead
      · exact Path.root_notMem_steps _ hsteps
  | true =>
      -- an absolute pattern starts at `/`, where there is nothing to climb out of
      have hslash : origin text root = ⟨[slash]⟩ := by simp [origin, hpattern]
      have hcs : (Path.ofText text).components.takeWhile Component.isPlain =
          .root :: (Path.ofText text).steps.takeWhile Component.isPlain := by
        rw [Path.components_of_isAbsolute hpattern, List.takeWhile_cons_of_pos rfl]
      have hnone : ∀ d, .up ∉ (origin text root).steps.reverse.take d := by
        intro d
        simp [hslash, Path.steps_slash]
      refine iff_of_true ?_ (.inl (hnone _))
      have hroot : .root ∉ (Path.ofText text).steps.takeWhile Component.isPlain := fun hmem =>
        Path.root_notMem_steps _ ((List.takeWhile_sublist _).mem hmem)
      have hsame := (clean_follow_iff horigin hroot).mpr (.inl (hnone _))
      rw [hcs, List.filterMap_cons_none rfl, hsame, beginning, hcs, List.foldl_cons, hslash]
      rfl

theorem clean_base_of_plain_root :
    (Path.ofText "/a/b").isAbsolute = true ∧ ∃ p, plan "../x" (Path.ofText "/a/b") = .ok p ∧
      p.base.clean = ((beginning "../x").foldl Path.push (Path.ofText "/a/b")).clean := by
  have habs : (Path.ofText "/a/b").isAbsolute = true := by decide
  have hplan : plan "../x" (Path.ofText "/a/b") =
      .ok ⟨⟨Path.ofText "/a/x", Path.ofText "/a"⟩, false, []⟩ := by cbv
  have horigin : origin "../x" (Path.ofText "/a/b") = Path.ofText "/a/b" := by decide
  refine ⟨habs, _, hplan, ?_⟩
  rw [← horigin]
  exact (clean_base_iff habs hplan).mpr (.inl (by decide))

/-- A pattern that climbs out of a root ending in `..` only takes that `..` back. -/
theorem clean_base_ne_of_root_up :
    (Path.ofText "/a/b/..").isAbsolute = true ∧ ∃ p, plan "../x" (Path.ofText "/a/b/..") = .ok p ∧
      p.base.clean = Path.ofText "/a/b/x" ∧
      p.base.clean ≠
        ((beginning "../x").foldl Path.push (origin "../x" (Path.ofText "/a/b/.."))).clean := by
  have hplan : plan "../x" (Path.ofText "/a/b/..") =
      .ok ⟨⟨Path.ofText "/a/b/x", Path.ofText "/a/b"⟩, false, []⟩ := by cbv
  exact ⟨by decide, _, hplan, by decide, by decide⟩

end Pattern

end ArtifactHarvest
