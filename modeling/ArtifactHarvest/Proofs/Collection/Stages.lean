import ArtifactHarvest.Collection
import ArtifactHarvest.Proofs.Artifact.Keeping
import ArtifactHarvest.Proofs.Collection.Describing

/-!
A collection as its two stages (`collect_outcome`). Where nobody cancels the search, the second
stage goes on with what each pattern yields by itself (`collect_of_search`), and where nobody
cancels that one either, it comes to what describing the first match under each path comes to
(`collect_outcome_of_quiet`). Where every match can be read, that is a descriptor for each of them
(`collect_of_readable`).
-/

namespace ArtifactHarvest

/-- Nobody cancels the collection, neither beforehand nor on its course. -/
structure Course.Quiet (c : Course) : Prop where
  cancelled : c.cancelled = false
  search : .cancel ∉ c.search
  checking : .cancel ∉ c.checking

theorem Course.inOrder_quiet : (Course.inOrder false).Quiet :=
  ⟨rfl, List.not_mem_nil, List.not_mem_nil⟩

theorem Course.Quiet.fresh {c : Course} {answer : FlagAnswer} (hc : c.Quiet)
    (hanswer : answer.cancels = false) : (c.cancelled || answer.cancels) = false := by
  rw [hc.cancelled, hanswer, Bool.or_self]

theorem View.pattern_of_expand {v : View} {root : Option Path} {cancelled : Bool} {pattern : String}
    {e : Expansion} (h : v.expand root cancelled pattern = .ok e) : e.pattern = pattern := by
  unfold expand at h
  repeat' split at h
  all_goals cases h
  rfl

namespace Order

/-- What the patterns of an order are expanded against. -/
def ground (o : Order) (w : Workspace) : Collection.Ground :=
  ⟨⟨w, o.followsLinks⟩, (o.resolveRoot w).toOption⟩

/-- The matches of one pattern, under the paths they are reported by. -/
def matchedBy (o : Order) (w : Workspace) (useForward : Bool) (pattern : String) : List Pending :=
  match (o.ground w).view.expand (o.ground w).root false pattern with
  | .ok e => Collection.pending (o.ground w).root useForward e
  | .error _ => []

/-- The artifacts that are kept over all patterns: the first match under each path. -/
def kept (o : Order) (w : Workspace) (useForward : Bool) : List Pending :=
  firsts ((Pattern.declared o.paths).flatMap (o.matchedBy w useForward))

/-- The descriptors of the first match under each path. -/
def described (o : Order) (w : Workspace) (useForward : Bool) (patterns : List String) :
    List Descriptor :=
  (firsts (patterns.flatMap (o.matchedBy w useForward))).filterMap (Collection.describe? w)

variable {o : Order} {w : Workspace} {useForward : Bool} {patterns : List String}

theorem pattern_of_mem_matchedBy {pattern : String} {a : Pending}
    (h : a ∈ o.matchedBy w useForward pattern) : a.pattern = pattern := by
  unfold matchedBy at h
  split at h
  · rename_i e he
    obtain ⟨file, _, rfl⟩ := List.mem_map.mp h
    exact View.pattern_of_expand he
  · cases h

theorem readable_of_mem_firsts (hread : ∀ pattern ∈ patterns,
      ∀ a ∈ o.matchedBy w useForward pattern, w.Readable a.absolutePath) :
    ∀ a ∈ firsts (patterns.flatMap (o.matchedBy w useForward)), w.Readable a.absolutePath := by
  intro a ha
  obtain ⟨pattern, hpattern, ha⟩ := List.mem_flatMap.mp (mem_of_mem_firsts ha)
  exact hread pattern hpattern a ha

/-- Where every match can be read, no path is lost. -/
theorem map_path_described (hread : ∀ pattern ∈ patterns,
      ∀ a ∈ o.matchedBy w useForward pattern, w.Readable a.absolutePath) :
    (o.described w useForward patterns).map Descriptor.path =
      (firsts (patterns.flatMap (o.matchedBy w useForward))).map Pending.path :=
  Collection.paths_filterMap_describe? (readable_of_mem_firsts hread)

theorem nodup_paths_described (o : Order) (w : Workspace) (useForward : Bool)
    (patterns : List String) :
    ((o.described w useForward patterns).map Descriptor.path).Nodup :=
  (nodup_paths_firsts _).sublist (Collection.sublist_paths_filterMap_describe? _)

theorem flatMap_matchedBy (o : Order) (w : Workspace) (useForward : Bool)
    (patterns : List String) :
    patterns.flatMap (o.matchedBy w useForward) = ((o.ground w).expansions patterns).flatMap
      (Collection.pending (o.ground w).root useForward) := by
  induction patterns with
  | nil => rfl
  | cons pattern patterns ih =>
      simp only [List.flatMap_cons, ih, Collection.Ground.expansions, List.filterMap_cons,
        matchedBy]
      cases (o.ground w).view.expand (o.ground w).root false pattern <;> simp [Except.toOption]

end Order

namespace Collection

/-- What the second stage makes of the outcome of the first. -/
def goOn (o : Order) (w : Workspace) (useForward : Bool) (events : List CheckEvent) :
    Except CollectionFault (List Expansion) → Except CollectionFault (List Descriptor)
  | .error fault => .error fault
  | .ok expansions => (finish w o.onReadError
      (Roster.ofList (expansions.flatMap (pending (o.ground w).root useForward))) events).outcome

/-- Without artifacts the second stage would come to nothing too. -/
theorem finish_of_quiet (w : Workspace) (policy : ReadErrorPolicy) (roster : Roster)
    {events : List CheckEvent} (hevents : .cancel ∉ events) :
    (finish w policy roster events).outcome =
      (describeAll w policy roster.toList events).outcome := by
  unfold finish
  split
  · rename_i hempty
    have hnil : roster.newestFirst = [] := List.isEmpty_iff.mp hempty
    rw [describeAll_of_readable hevents (by simp [Roster.toList, hnil])]
    simp [Roster.toList, hnil]
  · cases houtcome : (describeAll w policy roster.toList events).outcome with
    | error fault => simp only [houtcome]
    | ok ds => simp only [houtcome]

end Collection

open Collection

variable {o : Order} {w : Workspace} {feature : String → FlagAnswer} {course : Course}

theorem collect_of_no_pattern (h : Pattern.declared o.paths = []) :
    (collect o w feature course).outcome = .ok [] := by
  simp only [collect, h, if_true]

/-- A collection with at least one pattern is its two stages one after the other. -/
theorem collect_outcome (hpatterns : Pattern.declared o.paths ≠ []) :
    (collect o w feature course).outcome =
      goOn o w (feature Experiments.normalisedUploadPaths).isOn course.checking
        (expandAll (o.ground w)
          (course.cancelled || (feature Experiments.normalisedUploadPaths).cancels)
          (Pattern.declared o.paths) course.search).outcome := by
  simp only [collect, hpatterns, if_false, Order.ground]
  split
  · rename_i fault hexpand
    rw [hexpand, goOn]
  · rename_i expansions hexpand
    rw [hexpand, goOn]
    rfl

/-- A collection whose search nobody cancels goes on with what each pattern yields by itself. -/
theorem collect_of_search (hpatterns : Pattern.declared o.paths ≠ [])
    (hfresh : (course.cancelled || (feature Experiments.normalisedUploadPaths).cancels) = false)
    (hsearch : .cancel ∉ course.search) :
    (collect o w feature course).outcome =
      goOn o w (feature Experiments.normalisedUploadPaths).isOn course.checking
        (.ok ((o.ground w).expansions (Pattern.declared o.paths))) := by
  rw [collect_outcome hpatterns, hfresh, expandAll_of_quiet _ _ hsearch]

/-- A collection that nobody cancels describes what is kept. -/
theorem collect_outcome_of_quiet
    (hfeature : (feature Experiments.normalisedUploadPaths).cancels = false)
    (hcourse : course.Quiet) :
    (collect o w feature course).outcome = (describeAll w o.onReadError
      (o.kept w (feature Experiments.normalisedUploadPaths).isOn) course.checking).outcome := by
  by_cases hpatterns : Pattern.declared o.paths = []
  · rw [collect_of_no_pattern hpatterns, Order.kept, hpatterns, List.flatMap_nil,
      describeAll_of_readable hcourse.checking (by simp [firsts])]
    rfl
  · rw [collect_of_search hpatterns (hcourse.fresh hfeature) hcourse.search, goOn,
      ← Order.flatMap_matchedBy, finish_of_quiet _ _ _ hcourse.checking, Roster.toList_ofList,
      Order.kept]

/-- A collection that nobody cancels and whose matches can all be read describes the first match
under each path. -/
theorem collect_of_readable
    (hfeature : (feature Experiments.normalisedUploadPaths).cancels = false)
    (hcourse : course.Quiet)
    (hread : ∀ pattern ∈ Pattern.declared o.paths,
      ∀ a ∈ o.matchedBy w (feature Experiments.normalisedUploadPaths).isOn pattern,
        w.Readable a.absolutePath) :
    (collect o w feature course).outcome = .ok (o.described w
      (feature Experiments.normalisedUploadPaths).isOn (Pattern.declared o.paths)) := by
  rw [collect_outcome_of_quiet hfeature hcourse]
  exact describeAll_of_readable hcourse.checking (Order.readable_of_mem_firsts hread)

/-- Where all that is kept can be read, there is a descriptor for each. -/
theorem exists_collect_of_kept
    (hfeature : (feature Experiments.normalisedUploadPaths).cancels = false)
    (hcourse : course.Quiet)
    (hread : ∀ a ∈ o.kept w (feature Experiments.normalisedUploadPaths).isOn,
      w.Readable a.absolutePath) :
    ∃ ds, (collect o w feature course).outcome = .ok ds ∧
      ds.length = (o.kept w (feature Experiments.normalisedUploadPaths).isOn).length := by
  rw [collect_outcome_of_quiet hfeature hcourse]
  refine ⟨_, describeAll_of_readable hcourse.checking hread, ?_⟩
  rw [← List.length_map (f := Descriptor.path), paths_filterMap_describe? hread, List.length_map]

end ArtifactHarvest
