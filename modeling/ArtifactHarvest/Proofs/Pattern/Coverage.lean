import ArtifactHarvest.Proofs.Expansion.Wildcards
import ArtifactHarvest.Proofs.Path.Climbing
import ArtifactHarvest.Proofs.Pattern.Climbing

/-!
What a plan makes of a pattern, from any root, relative or not. The base is a beginning of the
origin with names behind it and begins with the anchor (`Start.Reached`), and from the first
wildcard on each component has a segment of its own (`Pattern.segmentsOf_means`). Main statement:
`Pattern.plan_covers`.
-/

namespace ArtifactHarvest

/-- What a component of a pattern asks the walk for. A leading slash or `.` asks for nothing. -/
inductive Component.Means : Component → Segment → Prop where
  | parent : Means .up .parent
  | anyDepth {n : Name} : n.text = "**" → Means (.name n) .anyDepth
  | matching {n : Name} {g : Glob} : Glob.Asks n.text → n.text ≠ "**" →
      Glob.readChars n.text.toList = .ok g → Means (.name n) (.matching g)
  | named {n : Name} : ¬ Glob.Asks n.text → Means (.name n) (.named n)

theorem Segment.ofComponent_means {c : Component} {s : Option Segment} (hc : c.isStep = true)
    (h : ofComponent c = .ok s) : ∃ segment, s = some segment ∧ c.Means segment := by
  cases c with
  | root | here => cases hc
  | up =>
      cases h
      exact ⟨.parent, rfl, .parent⟩
  | name n =>
      by_cases hstars : n.text = "**"
      · rw [ofComponent_doubleStar hstars] at h
        cases h
        exact ⟨.anyDepth, rfl, .anyDepth hstars⟩
      · by_cases hasks : Glob.Asks n.text
        · rw [ofComponent_asks hasks hstars] at h
          cases hread : Glob.readChars n.text.toList with
          | error fault => simp [hread, Except.map] at h
          | ok g =>
              rw [hread] at h
              cases h
              exact ⟨.matching g, rfl, .matching hasks hstars hread⟩
        · rw [ofComponent_plain hasks] at h
          cases h
          exact ⟨.named n, rfl, .named hasks⟩

namespace Start

/-- What a start keeps as it is moved on from an origin: it begins with its anchor, and behind what
is left of the origin there are names. -/
structure Reached (origin : Path) (s : Start) : Prop where
  anchored : s.anchor.components <+: s.base.components
  named : ∃ (kept : List Component) (names : List Name),
    kept <+: origin.components ∧ s.base.components = kept ++ names.map .name

variable {origin : Path} {s : Start}

theorem reached_origin (origin : Path) : Reached origin ⟨origin, origin⟩ :=
  ⟨List.prefix_refl _, origin.components, [], List.prefix_refl _, by simp⟩

/-- A beginning of the base has the same form. -/
theorem Reached.named_of_prefix (h : s.Reached origin) {cs : List Component}
    (hcs : cs <+: s.base.components) :
    ∃ (kept : List Component) (names : List Name),
      kept <+: origin.components ∧ cs = kept ++ names.map .name := by
  obtain ⟨kept, names, hkept, hbase⟩ := h.named
  rw [hbase, List.prefix_iff_eq_take, List.take_append, ← List.map_take] at hcs
  exact ⟨_, _, (List.take_prefix _ kept).trans hkept, hcs⟩

theorem Reached.follow (h : s.Reached origin) (segment : Segment) :
    (s.follow segment).Reached origin := by
  cases segment with
  | named n =>
      obtain ⟨kept, names, hkept, hbase⟩ := h.named
      have hchild := s.base.components_child n
      refine ⟨?_, kept, names ++ [n], hkept, ?_⟩
      · rw [Start.follow, hchild]
        exact h.anchored.trans (List.prefix_append _ _)
      · rw [Start.follow, hchild, hbase]
        simp
  | parent =>
      refine ⟨?_, h.named_of_prefix s.base.prefix_components_up⟩
      simp only [Start.follow]
      split
      · rename_i hstays
        exact List.isPrefixOf_iff_prefix.mp hstays
      · exact List.prefix_refl _
  | matching g => exact h
  | anyDepth => exact h

theorem Reached.foldl_follow (segments : List Segment) (h : s.Reached origin) :
    (segments.foldl Start.follow s).Reached origin := by
  induction segments generalizing s with
  | nil => exact h
  | cons segment segments ih => exact ih (h.follow segment)

end Start

namespace Pattern

variable {text : String} {root : Path} {p : Plan}

/-- Steps and segments stand one to one. -/
theorem segmentsOf_means {cs : List Component} {all : List Segment}
    (hcs : ∀ c ∈ cs, c.isStep = true) (h : segmentsOf cs = .ok all) :
    List.Forall₂ Component.Means cs all := by
  induction cs generalizing all with
  | nil =>
      cases h
      exact .nil
  | cons c cs ih =>
      obtain ⟨s, rest, hs, hrest, rfl⟩ := segmentsOf_cons h
      obtain ⟨segment, rfl, hmeans⟩ := Segment.ofComponent_means (hcs c List.mem_cons_self) hs
      exact .cons hmeans (ih (fun d hd => hcs d (List.mem_cons_of_mem c hd)) hrest)

/-- Steps without `..` are names. -/
theorem exists_names_of_isStep {cs : List Component} (hcs : ∀ c ∈ cs, c.isStep = true)
    (hup : Component.up ∉ cs) : ∃ names : List Name, cs = names.map .name := by
  induction cs with
  | nil => exact ⟨[], rfl⟩
  | cons c cs ih =>
      obtain ⟨names, rfl⟩ := ih (fun d hd => hcs d (List.mem_cons_of_mem c hd))
        fun hmem => hup (List.mem_cons_of_mem c hmem)
      cases c with
      | root | here => exact absurd (hcs _ List.mem_cons_self) (by simp [Component.isStep])
      | up => exact absurd List.mem_cons_self hup
      | name n => exact ⟨n :: names, rfl⟩

/-- What a path begins with is no wildcard, so it stands in front of the first one. -/
theorem beginning_eq (text : String) :
    beginning text =
      (Path.ofText text).lead ++ (Path.ofText text).steps.takeWhile Component.isPlain := by
  rw [beginning, Path.components_eq,
    List.takeWhile_append_of_pos fun c => Segment.isPlain_of_mem_lead]

theorem components_from_wildcard (text : String) :
    (Path.ofText text).components.dropWhile Component.isPlain =
      (Path.ofText text).steps.dropWhile Component.isPlain := by
  rw [Path.components_eq,
    List.dropWhile_append_of_pos fun c => Segment.isPlain_of_mem_lead]

/-- **A plan covers its pattern.** The base begins with the anchor, which is the base itself for an
absolute pattern. The first segment is a wildcard or `**`. Behind what is left of the origin there
are only names in the base, so each `.` and `..` in it stood in the root. From the first wildcard
on, components and segments stand one to one. Without a `..` in front of it, what is in front of
it, apart from a leading slash or `.`, are the names of the base behind the origin. -/
theorem plan_covers (h : plan text root = .ok p) :
    p.anchor.components <+: p.base.components ∧
    (∀ segment, p.segments.head? = some segment →
      segment = .anyDepth ∨ ∃ g, segment = .matching g) ∧
    ((Path.ofText text).isAbsolute = true → p.anchor = p.base) ∧
    (∃ (kept : List Component) (names : List Name), kept <+: (origin text root).components ∧
      p.base.components = kept ++ names.map .name) ∧
    List.Forall₂ Component.Means
      ((Path.ofText text).components.dropWhile Component.isPlain) p.segments ∧
    (Component.up ∉ beginning text → ∃ names : List Name,
      beginning text = (Path.ofText text).lead ++ names.map .name ∧
      p.base.components = (origin text root).components ++ names.map .name) := by
  obtain ⟨all, hall, habs, hsegments, hbase, hanchor⟩ := plan_spec h
  have hreached : (begun (origin text root) (all.takeWhile Segment.isFixed)).Reached
      (origin text root) := (Start.reached_origin _).foldl_follow _
  refine ⟨?_, ?_, ?_, ?_, ?_, ?_⟩
  · rw [hanchor]
    split
    · exact List.prefix_refl _
    · rw [hbase]
      exact hreached.anchored
  · intro segment hhead
    have hloose := List.head?_dropWhile_not Segment.isFixed all
    rw [← hsegments, hhead] at hloose
    cases segment with
    | named | parent => simp [Segment.isFixed] at hloose
    | matching g => exact .inr ⟨g, rfl⟩
    | anyDepth => exact .inl rfl
  · intro habsolute
    rw [hanchor, habs, habsolute, if_pos rfl]
  · rw [hbase]
    exact hreached.named
  · have hsteps := dropWhile_isFixed hall
    rw [components_from_wildcard] at hsteps ⊢
    rw [hsegments]
    refine segmentsOf_means (fun c hc => ?_) hsteps
    exact Path.isStep_of_mem_steps ((List.dropWhile_sublist _).mem hc)
  · intro hup
    rw [beginning_eq, List.mem_append, not_or] at hup
    obtain ⟨names, hnames⟩ := exists_names_of_isStep
      (fun c hc => Path.isStep_of_mem_steps ((List.takeWhile_sublist _).mem hc)) hup.2
    refine ⟨names, by rw [beginning_eq, hnames], ?_⟩
    have hfixed : all.takeWhile Segment.isFixed = names.map .named := by
      rw [takeWhile_isFixed hall, ← beginning, beginning_eq, hnames, List.filterMap_append,
        Segment.filterMap_ofPlain?_lead, Segment.filterMap_ofPlain?_names, List.nil_append]
    rw [hbase, hfixed, begun, foldl_follow_named, Path.components_descend]

theorem climbing_plan_covers :
    ∃ p, plan "../*/../y" (Path.ofText "./a") = .ok p ∧
      p.anchor.components <+: p.base.components ∧
      List.Forall₂ Component.Means
        [.name ⟨[42], by decide⟩, .up, .name ⟨[121], by decide⟩] p.segments := by
  have hcomponents : (Path.ofText "../*/../y").components =
      [.up, .name ⟨[42], by decide⟩, .up, .name ⟨[121], by decide⟩] := by decide
  have hall : segmentsOf [.up, .name ⟨[42], by decide⟩, .up, .name ⟨[121], by decide⟩] =
      .ok [.parent, .matching [.anyRun], .parent, .named ⟨[121], by decide⟩] := by cbv
  have hrelative : (Path.ofText "../*/../y").isAbsolute = false := by decide
  have hplan := plan_of_relative (Path.ofText "./a") hrelative
  rw [hcomponents, hall, Except.map] at hplan
  obtain ⟨hbegins, _, _, _, hmeans, _⟩ := plan_covers hplan
  rw [hcomponents] at hmeans
  exact ⟨_, hplan, hbegins, hmeans⟩

end Pattern

end ArtifactHarvest
