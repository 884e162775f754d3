import ArtifactHarvest.Artifact.Basic
import ArtifactHarvest.Collection.Order

/-!
The second stage of a collection: every artifact is read by a worker of its own, and the descriptors
are kept in the order of the artifacts, whatever turns the workers took. Where an unreadable file is
to fail the collection, the first worker that says so stops the others at their next read.
-/

namespace ArtifactHarvest.Collection

/-- What reading an artifact gives. -/
abbrev Checked := Except CollectionFault Checksum

/-- What a pass over a file means to the collection. -/
def checkedAs (file : Path) : Except ChecksumFault Checksum → Checked
  | .ok c => .ok c
  | .error (.failed fault) => .error (.unreadable file fault)
  | .error .cancelled => .error .cancelled

/-- The checksum of a file, or why there is none. -/
def checksum (w : Workspace) (cancelled : Bool) (file : Path) : Checked :=
  checkedAs file (Checksum.ofFile w cancelled file)

/-- What the worker on one artifact is doing. -/
inductive Reader where
  | waiting
  | reading (tally : Tally) (rest : List Read)
  /-- It has a result, which it has not handed over. -/
  | done (result : Checked)
  | over (result : Checked)

namespace Reader

/-- A worker after its turn: it opens its file, makes one read or hands over its result. Only before
a read does it notice that it is to stop. -/
def advance (w : Workspace) (stopped : Bool) (file : Path) : Reader → Reader
  | .waiting =>
      match Checksum.readsOf w file with
      | .error fault => .done (.error (.unreadable file fault))
      | .ok reads => .reading .start reads
  | .reading tally rest =>
      if stopped then .done (.error .cancelled)
      else
        match rest with
        | [] => .done (.ok tally.finish)
        | read :: rest =>
            match tally.after read.result with
            | .going tally => .reading tally rest
            | .ended outcome => .done (checkedAs file outcome)
  | .done result => .over result
  | .over result => .over result

/-- What a worker hands over if it is left to itself from here. -/
def complete (w : Workspace) (stopped : Bool) (file : Path) : Reader → Checked
  | .waiting => checksum w stopped file
  | .reading tally rest => checkedAs file (Checksum.pass stopped tally rest).1
  | .done result => result
  | .over result => result

end Reader

/-- What goes on during the second stage. -/
inductive CheckEvent where
  | turn (worker : Nat)
  /-- The collection is cancelled, for good. -/
  | cancel
deriving DecidableEq

/-- Whether a result stops the other workers once it is handed over. -/
def stops (policy : ReadErrorPolicy) : Checked → Bool
  | .error fault => policy = .abort && fault.isUnreadable
  | .ok _ => false

/-- The state of the second stage: the artifacts with their workers. -/
structure Check where
  workers : List (Pending × Reader)
  /-- Whether a result has stopped the workers. -/
  aborted : Bool
  cancelled : Bool

namespace Check

/-- The stage before any worker has begun. -/
def start (artifacts : List Pending) : Check :=
  ⟨artifacts.map (·, .waiting), false, false⟩

def stopped (c : Check) : Bool := c.aborted || c.cancelled

/-- Whether the result that a worker would hand over next stops the others. -/
def handsOverStop (policy : ReadErrorPolicy) (c : Check) (worker : Nat) : Bool :=
  match c.workers[worker]? with
  | some (_, .done result) => stops policy result
  | _ => false

def step (w : Workspace) (policy : ReadErrorPolicy) (c : Check) : CheckEvent → Check
  | .turn worker =>
      { c with
        workers := c.workers.modify worker fun (a, state) =>
          (a, state.advance w c.stopped a.absolutePath)
        aborted := c.aborted || c.handsOverStop policy worker }
  | .cancel => { c with cancelled := true }

/-- The stage after the events. -/
def after (w : Workspace) (policy : ReadErrorPolicy) (c : Check) (events : List CheckEvent) :
    Check :=
  events.foldl (step w policy) c

/-- The results of workers that end their work in turn. -/
def complete (w : Workspace) (policy : ReadErrorPolicy) (stopped : Bool) :
    List (Pending × Reader) → List (Pending × Checked)
  | [] => []
  | (a, state) :: rest =>
      let result := state.complete w stopped a.absolutePath
      (a, result) :: complete w policy (stopped || stops policy result) rest

/-- The results in the order of the artifacts. -/
def results (w : Workspace) (policy : ReadErrorPolicy) (c : Check) : List (Pending × Checked) :=
  complete w policy c.stopped c.workers

end Check

/-- The descriptors among the results. -/
def descriptors (results : List (Pending × Checked)) : List Descriptor :=
  results.filterMap fun (a, result) => result.toOption.map a.describe

/-- The results that are no checksums. -/
def faults (results : List (Pending × Checked)) : List (Pending × CollectionFault) :=
  results.filterMap fun (a, result) =>
    match result with
    | .ok _ => none
    | .error fault => some (a, fault)

/-- What the results come to. Where unreadable files are skipped there is a warning for each; where
they are not, the first of them in the order of the artifacts is the fault. A worker that was
stopped leaves nothing to hand out. -/
def merged (policy : ReadErrorPolicy) (results : List (Pending × Checked)) :
    Logged (List Descriptor) :=
  let (unreadable, brokenOff) := (faults results).partition (·.2.isUnreadable)
  match policy, unreadable, brokenOff with
  | .abort, (_, fault) :: _, _ => ⟨[], .error fault⟩
  | _, _, _ :: _ => ⟨[], .error .cancelled⟩
  | _, _, [] =>
      { log := unreadable.map fun (a, fault) =>
          .warn ("Skipping unreadable artifact " ++ a.path ++ ": " ++ fault.message)
        outcome := .ok (descriptors results) }

/-- The outcome of the second stage. -/
def describeAll (w : Workspace) (policy : ReadErrorPolicy) (artifacts : List Pending)
    (events : List CheckEvent) : Logged (List Descriptor) :=
  let check := (Check.start artifacts).after w policy events
  if check.cancelled then ⟨[], .error .cancelled⟩ else merged policy (check.results w policy)

end ArtifactHarvest.Collection
