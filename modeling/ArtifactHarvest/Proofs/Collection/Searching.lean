import ArtifactHarvest.Collection.Search

/-!
What the search comes to. Once it is cancelled it hands out nothing (`expandAll_of_cancelled`).
While nobody cancels it no turn changes what a worker brings back in the end (`results_step`), so
it yields what each pattern would yield by itself (`expandAll_of_quiet`).
-/

namespace ArtifactHarvest

/-- Changing an entry in a way that a function does not see changes none of its values. -/
theorem map_modify_of_unseen {α β : Type} {f : α → α} {seen : α → β} {xs : List α}
    (h : ∀ x ∈ xs, seen (f x) = seen x) (i : Nat) : (xs.modify i f).map seen = xs.map seen := by
  induction xs generalizing i with
  | nil => simp
  | cons x xs ih =>
      cases i with
      | zero => simp [h x List.mem_cons_self]
      | succ i => simp [ih fun y hy => h y (List.mem_cons_of_mem x hy)]

/-- What all entries and the changed one satisfy still holds of all after the change. -/
theorem forall_mem_modify {α : Type} {p : α → Prop} {f : α → α} {xs : List α}
    (h : ∀ x ∈ xs, p x) (hf : ∀ x ∈ xs, p (f x)) (i : Nat) : ∀ y ∈ xs.modify i f, p y := by
  induction xs generalizing i with
  | nil => simp
  | cons x xs ih =>
      have hx := List.mem_cons_self (a := x) (l := xs)
      have hxs := fun y hy => h y (List.mem_cons_of_mem x hy)
      have hfxs := fun y hy => hf y (List.mem_cons_of_mem x hy)
      cases i with
      | zero => simpa using ⟨hf x hx, hxs⟩
      | succ i => simpa using ⟨h x hx, ih hxs hfxs i⟩

/-- An alarm that one event raises, and that nothing else raises or lowers, is raised once the event
has come. -/
theorem raised_foldl_iff {σ ε : Type} {step : σ → ε → σ} {raised : σ → Bool} {alarm : ε}
    (h : ∀ s event, raised (step s event) = true ↔ raised s = true ∨ event = alarm) (s : σ)
    (events : List ε) :
    raised (events.foldl step s) = true ↔ raised s = true ∨ alarm ∈ events := by
  induction events generalizing s with
  | nil => simp
  | cons event events ih =>
      rw [List.foldl_cons, ih, h, List.mem_cons, or_assoc, eq_comm (a := event)]

/-- A walk is never broken off unless the collection is cancelled. -/
theorem View.expand_ne_cancelled {v : View} {root : Option Path} {pattern other : String} :
    v.expand root false pattern ≠ .error (.cancelled other) := by
  have hcarry : ∀ plan, v.carryOut false pattern plan ≠ .error (.cancelled other) := by
    intro plan
    unfold carryOut
    repeat' split
    all_goals simp_all
  intro h
  unfold expand at h
  split at h
  · cases h
  · rename_i plan _
    split at h
    · cases h
    · split at h
      · rename_i fault hfault
        cases h
        exact hcarry plan hfault
      · cases h

namespace Collection

theorem Ground.complete_advance (g : Ground) (notices : Bool) (pattern : String) (s : Searcher) :
    g.complete false pattern (g.advance false notices pattern s) = g.complete false pattern s := by
  rcases s with _ | late | result
  · rfl
  · cases late <;> rfl
  · rfl

namespace Ground

/-- What each pattern comes to by itself. -/
def yields (g : Ground) (patterns : List String) : List (String × Expanded) :=
  patterns.map fun pattern => (pattern, g.view.expand g.root false pattern)

/-- What the patterns yield, each by itself. Those that cannot be expanded yield nothing. -/
def expansions (g : Ground) (patterns : List String) : List Expansion :=
  patterns.filterMap fun pattern => (g.view.expand g.root false pattern).toOption

theorem expansions_yields (g : Ground) (patterns : List String) :
    Collection.expansions (g.yields patterns) = g.expansions patterns := by
  simp only [Collection.expansions, yields, List.filterMap_map, expansions]
  rfl

theorem not_any_wasBrokenOff_yields (g : Ground) (patterns : List String) :
    (g.yields patterns).any (wasBrokenOff ·.2) = false := by
  rw [yields, List.any_map, List.any_eq_false]
  intro pattern _
  cases hexpand : g.view.expand g.root false pattern with
  | ok e => simp [hexpand, wasBrokenOff]
  | error fault =>
      cases fault with
      | cancelled other => exact absurd hexpand View.expand_ne_cancelled
      | invalid | unreadable => simp [hexpand, wasBrokenOff]

end Ground

namespace Search

/-- A turn brings a worker on, but not to another result. -/
theorem results_step {g : Ground} {s : Search} {event : SearchEvent} (hevent : event ≠ .cancel)
    (hs : s.cancelled = false) :
    (s.step g event).cancelled = false ∧ (s.step g event).results g = s.results g := by
  cases event with
  | cancel => exact absurd rfl hevent
  | turn worker notices =>
      refine ⟨hs, ?_⟩
      simp only [results, step, hs]
      refine map_modify_of_unseen ?_ worker
      rintro ⟨pattern, state⟩ _
      exact congrArg (pattern, ·) (g.complete_advance notices pattern state)

theorem results_after {g : Ground} {s : Search} {events : List SearchEvent}
    (hevents : .cancel ∉ events) (hs : s.cancelled = false) :
    (s.after g events).cancelled = false ∧ (s.after g events).results g = s.results g := by
  refine List.foldlRecOn (motive := fun later : Search =>
    later.cancelled = false ∧ later.results g = s.results g) events _ ⟨hs, rfl⟩ ?_
  intro later hlater event hevent
  obtain ⟨hstep, hresults⟩ :=
    results_step (g := g) (ne_of_mem_of_not_mem hevent hevents) hlater.1
  exact ⟨hstep, hresults.trans hlater.2⟩

theorem cancelled_after (g : Ground) (s : Search) (events : List SearchEvent) :
    (s.after g events).cancelled = true ↔ s.cancelled = true ∨ .cancel ∈ events :=
  raised_foldl_iff (fun s event => by cases event <;> simp [step]) s events

theorem results_start (g : Ground) (patterns : List String) :
    (start false patterns).results g = g.yields patterns := by
  simp [start, results, Ground.complete, Ground.yields]

end Search

/-- A search that is cancelled before its end hands out nothing. -/
theorem expandAll_of_cancelled (g : Ground) {cancelled : Bool} (patterns : List String)
    {events : List SearchEvent} (h : cancelled = true ∨ .cancel ∈ events) :
    (expandAll g cancelled patterns events).outcome = .error .cancelled := by
  have hafter : ((Search.start cancelled patterns).after g events).cancelled = true :=
    (Search.cancelled_after g _ events).mpr h
  simp only [expandAll, hafter, Bool.true_or, if_true]

/-- Whatever turns the workers take, the patterns yield what each yields by itself. -/
theorem expandAll_of_quiet (g : Ground) (patterns : List String) {events : List SearchEvent}
    (hevents : .cancel ∉ events) :
    (expandAll g false patterns events).outcome = .ok (g.expansions patterns) := by
  obtain ⟨hcancelled, hresults⟩ :=
    Search.results_after (g := g) (s := .start false patterns) hevents rfl
  rw [Search.results_start] at hresults
  simp only [expandAll, hcancelled, hresults, g.not_any_wasBrokenOff_yields patterns, Bool.or_self,
    Bool.false_eq_true, if_false, g.expansions_yields patterns]

end Collection

end ArtifactHarvest
