import ArtifactHarvest.Collection.Order
import ArtifactHarvest.Expansion

/-!
The first stage of a collection: every declared pattern is expanded by a worker of its own, and the
expansions are kept in the order of the patterns, whatever turns the workers took. A pattern that
cannot be expanded is skipped.
-/

namespace ArtifactHarvest.Collection

/-- What expanding a pattern gives. -/
abbrev Expanded := Except ExpansionFault Expansion

/-- What the worker on one pattern is doing. -/
inductive Searcher where
  | waiting
  /-- On its walk. `late` says that it set out after the collection was cancelled. -/
  | walking (late : Bool)
  | over (result : Expanded)

/-- What goes on during the search. -/
inductive SearchEvent where
  /-- A worker's turn: it sets out, or it comes back from its walk. `notices` says whether it has
  noticed a cancellation on the way. -/
  | turn (worker : Nat) (notices : Bool)
  /-- The collection is cancelled, for good. -/
  | cancel
deriving DecidableEq

/-- The state of the search: the patterns with their workers. -/
structure Search where
  workers : List (String × Searcher)
  cancelled : Bool

/-- What the patterns are expanded against. -/
structure Ground where
  view : View
  root : Option Path

namespace Ground

/-- A worker after its turn. -/
def advance (g : Ground) (cancelled notices : Bool) (pattern : String) : Searcher → Searcher
  | .waiting => .walking cancelled
  | .walking late => .over (g.view.expand g.root (late || (cancelled && notices)) pattern)
  | .over result => .over result

/-- What a worker brings back if it is left to itself from here. -/
def complete (g : Ground) (cancelled : Bool) (pattern : String) : Searcher → Expanded
  | .waiting => g.view.expand g.root cancelled pattern
  | .walking late => g.view.expand g.root late pattern
  | .over result => result

end Ground

namespace Search

/-- The search before any worker has set out. -/
def start (cancelled : Bool) (patterns : List String) : Search :=
  ⟨patterns.map (·, .waiting), cancelled⟩

def step (g : Ground) (s : Search) : SearchEvent → Search
  | .turn worker notices =>
      { s with workers := s.workers.modify worker fun (pattern, state) =>
          (pattern, g.advance s.cancelled notices pattern state) }
  | .cancel => { s with cancelled := true }

/-- The search after the events. -/
def after (g : Ground) (s : Search) (events : List SearchEvent) : Search :=
  events.foldl (step g) s

/-- The results in the order of the patterns. Workers that are still on their way end it in turn. -/
def results (g : Ground) (s : Search) : List (String × Expanded) :=
  s.workers.map fun (pattern, state) => (pattern, g.complete s.cancelled pattern state)

end Search

/-- Whether a walk was broken off. -/
def wasBrokenOff : Expanded → Bool
  | .error (.cancelled _) => true
  | _ => false

/-- The expansions among the results. -/
def expansions (results : List (String × Expanded)) : List Expansion :=
  results.filterMap fun (_, result) => result.toOption

/-- The warnings about the patterns that are skipped. -/
def skippedPatterns (results : List (String × Expanded)) : List Log.Record :=
  results.filterMap fun (pattern, result) =>
    match result with
    | .ok _ => none
    | .error fault =>
        some (.warn ("Skipping pattern " ++ Text.quoted pattern ++ ": " ++ fault.message))

/-- The outcome of the search: no expansions at all if it was cancelled before its end. -/
def expandAll (g : Ground) (cancelled : Bool) (patterns : List String)
    (events : List SearchEvent) : Logged (List Expansion) :=
  let search := (Search.start cancelled patterns).after g events
  let results := search.results g
  if search.cancelled || results.any (wasBrokenOff ·.2) then ⟨[], .error .cancelled⟩
  else ⟨skippedPatterns results, .ok (expansions results)⟩

end ArtifactHarvest.Collection
