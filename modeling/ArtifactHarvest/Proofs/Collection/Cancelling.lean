import ArtifactHarvest.Proofs.Collection.Stages
import ArtifactHarvest.Proofs.Collection.Touring

/-!
Cancelling a collection. Whenever it happens, the collection says that it was cancelled or comes to
what it could have come to without (`collect_all_or_nothing`). Each stage looks for a cancellation
once more when its workers have ended, so the results that broken-off workers leave are never taken
for all there is.
-/

namespace ArtifactHarvest

/-- The same course without the cancellations. -/
def Course.undisturbed (c : Course) : Course :=
  ⟨false, c.search.filter (· ≠ .cancel), c.checking.filter (· ≠ .cancel)⟩

theorem Course.undisturbed_quiet (c : Course) : c.undisturbed.Quiet where
  cancelled := rfl
  search := by simp [undisturbed]
  checking := by simp [undisturbed]

/-- The same answer from a question that does not cancel the collection. -/
def FlagAnswer.undisturbed (answer : FlagAnswer) : FlagAnswer := { answer with cancels := false }

theorem filter_ne_of_notMem {α : Type} [DecidableEq α] {xs : List α} {a : α} (h : a ∉ xs) :
    xs.filter (· ≠ a) = xs :=
  List.filter_eq_self.mpr fun _ hx => decide_eq_true (ne_of_mem_of_not_mem hx h)

namespace Collection

theorem describeAll_of_cancelled (w : Workspace) (policy : ReadErrorPolicy)
    (artifacts : List Pending) {events : List CheckEvent} (h : .cancel ∈ events) :
    (describeAll w policy artifacts events).outcome = .error .cancelled := by
  have hafter : ((Check.start artifacts).after w policy events).cancelled = true :=
    (Check.cancelled_after _ events).mpr (.inr h)
  simp only [describeAll, hafter, if_true]

/-- The second stage says that it was cancelled or comes to what it would have come to without. With
no artifact there is nothing to cancel. -/
theorem finish_all_or_nothing (w : Workspace) (policy : ReadErrorPolicy) (roster : Roster)
    (events : List CheckEvent) :
    (finish w policy roster events).outcome = .error .cancelled ∨
      (finish w policy roster events).outcome =
        (finish w policy roster (events.filter (· ≠ .cancel))).outcome := by
  by_cases hcancel : .cancel ∈ events
  · cases hempty : roster.isEmpty with
    | true => exact .inr (by simp only [finish, hempty, if_true])
    | false =>
        have hdescribed := describeAll_of_cancelled w policy roster.toList hcancel
        exact .inl (by simp only [finish, hempty, Bool.false_eq_true, if_false, hdescribed])
  · exact .inr (by rw [filter_ne_of_notMem hcancel])

end Collection

open Collection

/-- A collection that nobody cancels does not say that it was cancelled. -/
theorem collect_ne_cancelled {o : Order} {w : Workspace} {feature : String → FlagAnswer}
    {course : Course} (hcourse : course.Quiet)
    (hfeature : (feature Experiments.normalisedUploadPaths).cancels = false) :
    (collect o w feature course).outcome ≠ .error .cancelled := by
  rw [collect_outcome_of_quiet hfeature hcourse]
  exact describeAll_ne_cancelled w o.onReadError _ hcourse.checking

/-- **All or nothing.** Whenever a collection is cancelled, it says so or comes to what the same
collection comes to on a course without cancellation, and on such a course it never says so. One
that is cancelled before its search, by the question about the feature if not earlier, always says
so if there is a pattern at all. A cancellation may also fall between any two steps of a walk: a
search whose walks are taken step by step comes to what some search with whole walks comes to. -/
theorem collect_all_or_nothing (o : Order) (w : Workspace) (feature : String → FlagAnswer)
    (course : Course) :
    ((collect o w feature course).outcome = .error .cancelled ∨
      ∃ quiet : Course, quiet.Quiet ∧ (collect o w feature course).outcome =
        (collect o w (fun name => (feature name).undisturbed) quiet).outcome) ∧
    (course.Quiet → (feature Experiments.normalisedUploadPaths).cancels = false →
      (collect o w feature course).outcome ≠ .error .cancelled) ∧
    (Pattern.declared o.paths ≠ [] →
      course.cancelled = true ∨ (feature Experiments.normalisedUploadPaths).cancels = true →
      (collect o w feature course).outcome = .error .cancelled) ∧
    ∀ (cancelled : Bool) (patterns : List String) (events : List StrideEvent),
      ((Hike.start cancelled patterns).after (o.ground w) events).Ended →
      ∃ search : List SearchEvent, (expandAll (o.ground w) cancelled patterns search).outcome =
        ((Hike.start cancelled patterns).after (o.ground w) events).outcome := by
  have hbefore : Pattern.declared o.paths ≠ [] →
      (course.cancelled || (feature Experiments.normalisedUploadPaths).cancels) = true ∨
        .cancel ∈ course.search →
      (collect o w feature course).outcome = .error .cancelled := by
    intro hpatterns hcancelled
    rw [collect_outcome hpatterns, expandAll_of_cancelled _ _ hcancelled, goOn]
  refine ⟨?_, collect_ne_cancelled, fun hpatterns hcancelled => hbefore hpatterns (.inl ?_), ?_⟩
  · by_cases hpatterns : Pattern.declared o.paths = []
    · exact .inr ⟨_, course.undisturbed_quiet, by simp only [collect_of_no_pattern hpatterns]⟩
    · by_cases hcancelled :
        (course.cancelled || (feature Experiments.normalisedUploadPaths).cancels) = true ∨
          .cancel ∈ course.search
      · exact .inl (hbefore hpatterns hcancelled)
      · obtain ⟨hfresh, hsearch⟩ := not_or.mp hcancelled
        rw [collect_of_search hpatterns (Bool.eq_false_of_not_eq_true hfresh) hsearch]
        refine (finish_all_or_nothing w o.onReadError _ course.checking).imp_right fun hfinish => ?_
        refine ⟨_, course.undisturbed_quiet, ?_⟩
        rw [collect_of_search hpatterns rfl course.undisturbed_quiet.search]
        exact hfinish
  · simpa using hcancelled
  · exact fun cancelled patterns events hended => Hike.outcome_of_ended hended

theorem small_cancelled_by_question :
    let o : Order := ⟨"x", false, some (Path.ofText "/r"), .abort⟩
    let course := Course.inOrder false
    Pattern.declared o.paths ≠ [] ∧ course.Quiet ∧
      (collect o .small (fun _ => ⟨false, true⟩) course).outcome = .error .cancelled ∧
      (collect o .small (fun _ => ⟨false, false⟩) course).outcome ≠ .error .cancelled := by
  intro o course
  have hpatterns : Pattern.declared o.paths ≠ [] := by decide
  have hquiet : course.Quiet := Course.inOrder_quiet
  exact ⟨hpatterns, hquiet, (collect_all_or_nothing o .small _ _).2.2.1 hpatterns (.inr rfl),
    (collect_all_or_nothing o .small _ _).2.1 hquiet rfl⟩

end ArtifactHarvest
