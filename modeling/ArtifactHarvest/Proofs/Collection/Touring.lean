import ArtifactHarvest.Collection.Search
import ArtifactHarvest.Proofs.Collection.Searching
import ArtifactHarvest.Proofs.Expansion.Turns

/-!
The search with its walks taken step by step. Each worker goes on its own tour and looks at every
stand whether the collection is cancelled, so a cancellation may fall between any two steps of any
walk. Such a search comes to what some course of the search with whole walks comes to
(`outcome_of_ended`): a walk that is broken off is never taken for one that has found less.
-/

namespace ArtifactHarvest.Collection

/-- What the worker on one pattern is doing, step by step. -/
inductive Walker where
  | waiting
  | touring (plan : Plan) (tour : Tour)
  | over (result : Expanded)

namespace Ground

/-- The plan of a pattern whose segments have to be walked, and the directory that the walk starts
in. The others are settled without a walk. -/
def walk? (g : Ground) (pattern : String) : Option (Plan × Location) :=
  match Pattern.plan pattern (g.root.getD Path.empty) with
  | .error _ => none
  | .ok plan =>
      if (!plan.isAbsolute && g.root.isNone) || g.view.refusesBase plan || plan.segments = [] then
        none
      else
        match g.view.workspace.lookup false plan.base, g.view.workspace.list plan.base with
        | .ok (loc, .directory), .ok _ => some (plan, loc)
        | _, _ => none

/-- The stand at which the walk begins. -/
def firstStand (g : Ground) (plan : Plan) (loc : Location) : Stand :=
  ⟨plan.segments, plan.base, g.view.firstBranch plan.base loc⟩

/-- A walker after a step. It looks whether it is to stop wherever it stands, but not when it finds
a file, and not at all for a pattern that needs no walk. -/
def stride (g : Ground) (cancelled : Bool) (pattern : String) : Walker → Walker
  | .waiting =>
      match g.walk? pattern with
      | some (plan, loc) => .touring plan (.start (g.firstStand plan loc))
      | none => .over (g.view.expand g.root false pattern)
  | .touring plan ⟨[], found⟩ => .over (.ok ⟨pattern, plan.isAbsolute, Path.distinct found⟩)
  | .touring plan ⟨.find p :: todo, found⟩ => .touring plan ⟨todo, found ++ [p]⟩
  | .touring plan ⟨.onward s :: todo, found⟩ =>
      if cancelled then .over (.error (.cancelled pattern))
      else .touring plan ⟨g.view.turns s ++ todo, found⟩
  | .over result => .over result

variable {g : Ground} {pattern : String} {plan : Plan} {loc : Location}

theorem expand_of_walk (h : g.walk? pattern = some (plan, loc)) :
    g.view.expand g.root false pattern = .ok ⟨pattern, plan.isAbsolute, Path.distinct
      (g.view.matchesBelow plan.segments plan.base (g.view.firstBranch plan.base loc))⟩ := by
  unfold walk? at h
  split at h
  · cases h
  · rename_i plan' hplan
    split at h
    · cases h
    · rename_i hwalked
      split at h
      · rename_i loc' names hlook hlist
        cases h
        simp only [Bool.or_eq_true, decide_eq_true_eq, not_or, Bool.not_eq_true] at hwalked
        obtain ⟨⟨hroot, hrefused⟩, hsegments⟩ := hwalked
        simp only [View.expand, hplan, hroot, View.carryOut, hrefused, hsegments, hlook,
          hlist, Bool.false_eq_true, if_false]
      · cases h

end Ground

/-- What goes on during a search that is taken step by step. -/
inductive StrideEvent where
  | step (worker : Nat)
  /-- The collection is cancelled, for good. -/
  | cancel
deriving DecidableEq

/-- The state of a search that is taken step by step. -/
structure Hike where
  walkers : List (String × Walker)
  cancelled : Bool

namespace Hike

def start (cancelled : Bool) (patterns : List String) : Hike :=
  ⟨patterns.map (·, .waiting), cancelled⟩

def step (g : Ground) (h : Hike) : StrideEvent → Hike
  | .step worker =>
      { h with walkers := h.walkers.modify worker fun (pattern, state) =>
          (pattern, g.stride h.cancelled pattern state) }
  | .cancel => { h with cancelled := true }

def after (g : Ground) (h : Hike) (events : List StrideEvent) : Hike :=
  events.foldl (step g) h

/-- Nobody waits any longer: the collection is cancelled, or all workers have ended. -/
def Ended (h : Hike) : Prop :=
  h.cancelled = true ∨ ∀ walker ∈ h.walkers, ∃ result, walker.2 = .over result

/-- The results that are there, in the order of the patterns. -/
def results (h : Hike) : List (String × Expanded) :=
  h.walkers.filterMap fun (pattern, state) =>
    match state with
    | .over result => some (pattern, result)
    | .waiting | .touring .. => none

/-- The outcome once the search has ended. -/
def outcome (h : Hike) : Except CollectionFault (List Expansion) :=
  if h.cancelled || h.results.any (wasBrokenOff ·.2) then .error .cancelled
  else .ok (expansions h.results)

end Hike

/-- The walker is on its way to what its pattern comes to by itself. -/
def Walker.Due (g : Ground) (pattern : String) : Walker → Prop
  | .waiting => True
  | .touring plan tour => ∃ loc, g.walk? pattern = some (plan, loc) ∧
      g.view.total tour =
        g.view.matchesBelow plan.segments plan.base (g.view.firstBranch plan.base loc)
  | .over result => result = g.view.expand g.root false pattern

theorem Ground.stride_due {g : Ground} {pattern : String} {state : Walker}
    (h : state.Due g pattern) : (g.stride false pattern state).Due g pattern := by
  rcases state with _ | ⟨plan, tour⟩ | result
  · unfold stride
    cases hwalk : g.walk? pattern with
    | none => rfl
    | some walk =>
        obtain ⟨plan, loc⟩ := walk
        refine ⟨loc, hwalk, ?_⟩
        simp [View.total, Tour.start, View.outcome, firstStand]
  · obtain ⟨loc, hwalk, htotal⟩ := h
    obtain ⟨todo, found⟩ := tour
    cases todo with
    | nil =>
        have hfound : found =
            g.view.matchesBelow plan.segments plan.base (g.view.firstBranch plan.base loc) := by
          simpa [View.total] using htotal
        simp only [stride, Walker.Due, expand_of_walk hwalk, hfound]
    | cons turn todo =>
        cases turn with
        | find p => exact ⟨loc, hwalk, (View.step_total (.find p todo found)).trans htotal⟩
        | onward s => exact ⟨loc, hwalk, (View.step_total (.onward s todo found)).trans htotal⟩
  · exact h

namespace Hike

variable {g : Ground} {patterns : List String}

/-- A search that nobody has cancelled: each walker is on its way to what its pattern comes to. -/
structure Sound (g : Ground) (patterns : List String) (h : Hike) : Prop where
  patterns : h.walkers.map Prod.fst = patterns
  cancelled : h.cancelled = false
  due : ∀ walker ∈ h.walkers, walker.2.Due g walker.1

theorem start_sound (g : Ground) (patterns : List String) :
    (start false patterns).Sound g patterns where
  patterns := by simp [start, Function.comp_def]
  cancelled := rfl
  due walker hwalker := by
    obtain ⟨pattern, _, rfl⟩ := List.mem_map.mp hwalker
    trivial

theorem step_sound {h : Hike} {event : StrideEvent} (hevent : event ≠ .cancel)
    (hh : h.Sound g patterns) : (h.step g event).Sound g patterns := by
  cases event with
  | cancel => exact absurd rfl hevent
  | step worker =>
      constructor
      · refine (map_modify_of_unseen ?_ worker).trans hh.patterns
        exact fun _ _ => rfl
      · exact hh.cancelled
      · simp only [step, hh.cancelled]
        refine forall_mem_modify hh.due ?_ worker
        exact fun walker hwalker => Ground.stride_due (hh.due walker hwalker)

theorem after_sound {h : Hike} {events : List StrideEvent} (hevents : .cancel ∉ events)
    (hh : h.Sound g patterns) : (h.after g events).Sound g patterns :=
  List.foldlRecOn events _ hh fun _ hlater _ hevent =>
    step_sound (ne_of_mem_of_not_mem hevent hevents) hlater

theorem cancelled_after (g : Ground) (h : Hike) (events : List StrideEvent) :
    (h.after g events).cancelled = true ↔ h.cancelled = true ∨ .cancel ∈ events :=
  raised_foldl_iff (fun h event => by cases event <;> simp [step]) h events

/-- Once all walkers have ended, each has what its pattern comes to by itself. -/
theorem results_of_sound {h : Hike} (hh : h.Sound g patterns)
    (hover : ∀ walker ∈ h.walkers, ∃ result, walker.2 = .over result) :
    h.results = g.yields patterns := by
  rw [results, Ground.yields, ← hh.patterns, List.map_map, ← List.filterMap_eq_map]
  refine List.filterMap_congr fun walker hwalker => ?_
  obtain ⟨pattern, state⟩ := walker
  obtain ⟨result, rfl⟩ := hover _ hwalker
  exact congrArg (fun r => some (pattern, r)) (hh.due _ hwalker)

/-- **Steps of walks and whole walks** come to the same. However the steps of the walks and a
cancellation fall, a search that has ended has an outcome that some search with whole walks has. -/
theorem outcome_of_ended {cancelled : Bool} {events : List StrideEvent}
    (h : ((start cancelled patterns).after g events).Ended) :
    ∃ search : List SearchEvent, (expandAll g cancelled patterns search).outcome =
      ((start cancelled patterns).after g events).outcome := by
  by_cases hcancelled : cancelled = true ∨ .cancel ∈ events
  · have hafter : ((start cancelled patterns).after g events).cancelled = true :=
      (cancelled_after g _ events).mpr hcancelled
    refine ⟨[.cancel], ?_⟩
    rw [expandAll_of_cancelled g patterns (.inr List.mem_cons_self)]
    simp only [outcome, hafter, Bool.true_or, if_true]
  · obtain ⟨hfresh, hevents⟩ := not_or.mp hcancelled
    obtain rfl : cancelled = false := Bool.eq_false_of_not_eq_true hfresh
    have hsound := after_sound hevents (start_sound g patterns)
    have hover := h.resolve_left (by rw [hsound.cancelled]; nofun)
    have hresults := results_of_sound hsound hover
    refine ⟨[], ?_⟩
    rw [expandAll_of_quiet g patterns List.not_mem_nil]
    simp only [outcome, hsound.cancelled, hresults, g.not_any_wasBrokenOff_yields patterns,
      Bool.or_self, Bool.false_eq_true, if_false, g.expansions_yields patterns]

end Hike

end ArtifactHarvest.Collection
