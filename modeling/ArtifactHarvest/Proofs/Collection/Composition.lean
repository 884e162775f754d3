import ArtifactHarvest.Proofs.Collection.Stages
import ArtifactHarvest.Proofs.Pattern.Declaring

/-!
What declared patterns come to together. A collection that nobody cancels describes the first match
under each reported path, so two settings in one come to what the first comes to, followed by what
the second adds. Main statement: `collect_append`.
-/

namespace ArtifactHarvest

/-- Leaving artifacts out for their paths leaves out the descriptors with these paths. -/
theorem Collection.filterMap_describe?_filter {w : Workspace} (artifacts : List Pending)
    (taken : List String) :
    (artifacts.filter fun a => a.path ∉ taken).filterMap (describe? w) =
      (artifacts.filterMap (describe? w)).filter fun d => d.path ∉ taken := by
  rw [List.filterMap_filter, List.filter_filterMap]
  congr 1
  funext a
  cases hd : describe? w a with
  | none => simp
  | some d => simp [(describe?_eq_some hd).1, Option.filter]

namespace Order

variable {o : Order} {w : Workspace} {useForward : Bool}

theorem described_append {front : List String} (back : List String)
    (hread : ∀ pattern ∈ front, ∀ a ∈ o.matchedBy w useForward pattern,
      w.Readable a.absolutePath) :
    o.described w useForward (front ++ back) = o.described w useForward front ++
      (o.described w useForward back).filter fun d =>
        d.path ∉ (o.described w useForward front).map Descriptor.path := by
  rw [map_path_described hread, described, List.flatMap_append, firsts_append,
    List.filterMap_append, Collection.filterMap_describe?_filter]
  rfl

/-- A descriptor belongs to the first pattern that has a match under its path. -/
theorem owner_of_mem_described {patterns : List String} {d : Descriptor}
    (h : d ∈ o.described w useForward patterns) :
    ∃ earlier later, patterns = earlier ++ d.pattern :: later ∧
      (∃ a ∈ o.matchedBy w useForward d.pattern, a.path = d.path) ∧
      ∀ other ∈ earlier, ∀ a ∈ o.matchedBy w useForward other, a.path ≠ d.path := by
  obtain ⟨a, ha, hd⟩ := List.mem_filterMap.mp h
  obtain ⟨hpath, hpattern⟩ := Collection.describe?_eq_some hd
  obtain ⟨earlier, owner, later, rfl, hkept, hfirst⟩ := source_of_mem_firsts ha
  have hgiven := mem_of_mem_firsts hkept
  have howner : d.pattern = owner := hpattern.trans (pattern_of_mem_matchedBy hgiven)
  refine ⟨earlier, later, by rw [howner], ⟨a, howner ▸ hgiven, hpath.symm⟩, ?_⟩
  intro other hother b hb hsame
  exact hfirst other hother (List.mem_map.mpr ⟨b, hb, hsame.trans hpath⟩)

/-- Patterns that cannot be expanded match nothing. -/
theorem flatMap_matchedBy_of_unexpandable {patterns : List String} (useForward : Bool)
    (h : ∀ pattern ∈ patterns, ∀ e,
      (o.ground w).view.expand (o.ground w).root false pattern ≠ .ok e) :
    patterns.flatMap (o.matchedBy w useForward) = [] := by
  rw [List.flatMap_eq_nil_iff]
  intro pattern hpattern
  unfold matchedBy
  split
  · rename_i e he
    exact absurd he (h pattern hpattern e)
  · rfl

end Order

/-- **Settings compose.** When nobody cancels and every match can be read, two settings in one come
to what the first comes to, followed by what the second comes to under paths that the first does not
take. No path stands twice, each is owned by the first pattern that has a match under it, and
patterns that cannot be expanded make no difference. -/
theorem collect_append {o : Order} {w : Workspace} {feature : String → FlagAnswer} {a b : String}
    {first second both : Course}
    (hfeature : (feature Experiments.normalisedUploadPaths).cancels = false)
    (hfirst : first.Quiet) (hsecond : second.Quiet) (hboth : both.Quiet)
    (hread : ∀ pattern ∈ Pattern.declared a ++ Pattern.declared b,
      ∀ m ∈ o.matchedBy w (feature Experiments.normalisedUploadPaths).isOn pattern,
        w.Readable m.absolutePath) :
    ∃ as bs all : List Descriptor,
      (collect { o with paths := a } w feature first).outcome = .ok as ∧
      (collect { o with paths := b } w feature second).outcome = .ok bs ∧
      (collect { o with paths := a ++ ";" ++ b } w feature both).outcome = .ok all ∧
      all = as ++ bs.filter (fun d => d.path ∉ as.map Descriptor.path) ∧
      (all.map Descriptor.path).Nodup ∧
      (∀ d ∈ all, ∃ earlier later,
        Pattern.declared (a ++ ";" ++ b) = earlier ++ d.pattern :: later ∧
        (∃ m ∈ o.matchedBy w (feature Experiments.normalisedUploadPaths).isOn d.pattern,
          m.path = d.path) ∧
        ∀ other ∈ earlier,
          ∀ m ∈ o.matchedBy w (feature Experiments.normalisedUploadPaths).isOn other,
            m.path ≠ d.path) ∧
      ∀ (idle : String) (third : Course), third.Quiet →
        (∀ pattern ∈ Pattern.declared idle, ∀ e,
          (o.ground w).view.expand (o.ground w).root false pattern ≠ .ok e) →
        (collect { o with paths := a ++ ";" ++ idle ++ ";" ++ b } w feature third).outcome =
          .ok all := by
  have hcollect : ∀ (text : String) (course : Course), course.Quiet →
      (∀ pattern ∈ Pattern.declared text,
        ∀ m ∈ o.matchedBy w (feature Experiments.normalisedUploadPaths).isOn pattern,
          w.Readable m.absolutePath) →
      (collect { o with paths := text } w feature course).outcome = .ok (o.described w
        (feature Experiments.normalisedUploadPaths).isOn (Pattern.declared text)) :=
    fun text course hcourse hreadable =>
      collect_of_readable (o := { o with paths := text }) hfeature hcourse hreadable
  have hreadFirst := fun pattern hp => hread pattern (List.mem_append_left _ hp)
  have hreadSecond := fun pattern hp => hread pattern (List.mem_append_right _ hp)
  refine ⟨_, _, _, hcollect a first hfirst hreadFirst, hcollect b second hsecond hreadSecond,
    hcollect _ both hboth ?_, ?_, ?_, ?_, ?_⟩
  · rwa [Pattern.declared_append]
  · rw [Pattern.declared_append]
    exact Order.described_append _ hreadFirst
  · exact Order.nodup_paths_described o w _ _
  · exact fun d hd => Order.owner_of_mem_described hd
  · intro idle third hthird hidle
    have hnothing := Order.flatMap_matchedBy_of_unexpandable
      (feature Experiments.normalisedUploadPaths).isOn hidle
    rw [hcollect _ third hthird ?_]
    · simp only [Pattern.declared_append, Order.described, List.flatMap_append, hnothing,
        List.append_nil]
    · intro pattern hpattern m hm
      rw [Pattern.declared_append, Pattern.declared_append, List.mem_append, List.mem_append]
        at hpattern
      rcases hpattern with (hp | hp) | hp
      · exact hreadFirst pattern hp m hm
      · have hnone := List.flatMap_eq_nil_iff.mp hnothing pattern hp
        rw [hnone] at hm
        cases hm
      · exact hreadSecond pattern hp m hm

theorem star_and_file_compose :
    let o : Order := ⟨"", false, some (Path.ofText "/r"), .abort⟩
    let feature : String → FlagAnswer := fun _ => ⟨false, false⟩
    let course := Course.inOrder false
    course.Quiet ∧
      (∀ pattern ∈ Pattern.declared "*" ++ Pattern.declared "x",
        ∀ m ∈ o.matchedBy .small false pattern, Workspace.small.Readable m.absolutePath) ∧
      ∃ as bs, (collect { o with paths := "*" } .small feature course).outcome = .ok as ∧
        (collect { o with paths := "x" } .small feature course).outcome = .ok bs ∧
        (collect { o with paths := "*" ++ ";" ++ "x" } .small feature course).outcome =
          .ok (as ++ bs.filter fun d => d.path ∉ as.map Descriptor.path) := by
  intro o feature course
  have hfeature : (feature Experiments.normalisedUploadPaths).cancels = false := rfl
  have hquiet : course.Quiet := Course.inOrder_quiet
  have hread : ∀ pattern ∈ Pattern.declared "*" ++ Pattern.declared "x",
      ∀ m ∈ o.matchedBy .small false pattern, Workspace.small.Readable m.absolutePath := by
    have hdeclared : Pattern.declared "*" ++ Pattern.declared "x" = ["*", "x"] := by decide
    have hstar : o.matchedBy .small false "*" = [⟨"x", Path.ofText "/r/x", "*"⟩] := by cbv
    have hfile : o.matchedBy .small false "x" = [⟨"x", Path.ofText "/r/x", "x"⟩] := by cbv
    have hlook : Workspace.small.Readable (Path.ofText "/r/x") := ⟨_, _, by cbv⟩
    rw [hdeclared]
    intro pattern hpattern m hm
    rcases List.mem_cons.mp hpattern with rfl | hpattern
    · rw [hstar] at hm
      rwa [List.mem_singleton.mp hm]
    · rw [List.mem_singleton.mp hpattern, hfile] at hm
      rwa [List.mem_singleton.mp hm]
  obtain ⟨as, bs, all, has, hbs, hall, rfl, _⟩ :=
    collect_append hfeature hquiet hquiet hquiet hread
  exact ⟨hquiet, hread, as, bs, has, hbs, hall⟩

end ArtifactHarvest
