import ArtifactHarvest.Artifact.Roster
import ArtifactHarvest.Collection.Checking
import ArtifactHarvest.Collection.Search
import ArtifactHarvest.Experiments
import ArtifactHarvest.Path.Logical
import ArtifactHarvest.Pattern.Declared

/-!
Collecting artifacts: expanding the declared patterns, keeping one match for each reported path, and
taking the checksums.

Any number of workers may be at work at once; the bound on their number is left out. So is a worker
that breaks down without a result.
-/

namespace ArtifactHarvest

/-- The answer to the question whether a feature is on. Asking may cancel the collection. -/
structure FlagAnswer where
  isOn : Bool
  cancels : Bool

/-- The course of a collection: whether it is cancelled beforehand, and what goes on in its two
stages. Workers that have not ended when the events run out go on one after the other. -/
structure Course where
  cancelled : Bool
  search : List Collection.SearchEvent
  checking : List Collection.CheckEvent

/-- The course on which the workers follow one another. -/
def Course.inOrder (cancelled : Bool) : Course := ⟨cancelled, [], []⟩

namespace Collection

/-- The matches of an expansion, under the paths they are reported by. -/
def pending (root : Option Path) (useForward : Bool) (e : Expansion) : List Pending :=
  e.found.map fun file => {
    path := (file.logical root e.isAbsolute).normalized useForward
    absolutePath := file
    pattern := e.pattern }

/-- The artifacts that the roster keeps, described. -/
def finish (w : Workspace) (policy : ReadErrorPolicy) (roster : Roster)
    (events : List CheckEvent) : Logged (List Descriptor) :=
  if roster.isEmpty then ⟨[.info "No artifacts matched"], .ok []⟩
  else
    let found := Log.Record.info
      ("Found " ++ toString roster.size ++ " artifact(s), calculating checksums")
    let described := describeAll w policy roster.toList events
    match described.outcome with
    | .error fault => ⟨found :: described.log, .error fault⟩
    | .ok descriptors =>
        { log := found :: described.log ++
            [.info ("Prepared " ++ toString descriptors.length ++ " artifact(s) for upload")]
          outcome := .ok descriptors }

end Collection

/-- Collects the artifacts that an order asks for. -/
def collect (order : Order) (w : Workspace) (feature : String → FlagAnswer) (course : Course) :
    Logged (List Descriptor) :=
  let patterns := Pattern.declared order.paths
  if patterns = [] then ⟨[], .ok []⟩
  else
    let root := order.resolveRoot w
    let rootLog : List Log.Record :=
      match root with
      | .ok _ => []
      | .error fault => [.warn ("Failed to resolve collection root: " ++ fault.message)]
    let answer := feature Experiments.normalisedUploadPaths
    let searching := Log.Record.info
      ("Searching for artifacts matching " ++ toString patterns.length ++
        " pattern(s) (follow symlinks: " ++ (if order.followsLinks then "true" else "false") ++ ")")
    let ground : Collection.Ground := ⟨⟨w, order.followsLinks⟩, root.toOption⟩
    let expanded :=
      Collection.expandAll ground (course.cancelled || answer.cancels) patterns course.search
    let log := rootLog ++ searching :: expanded.log
    match expanded.outcome with
    | .error fault => ⟨log, .error fault⟩
    | .ok expansions =>
        let roster := Roster.ofList
          (expansions.flatMap (Collection.pending root.toOption answer.isOn))
        let finished := Collection.finish w order.onReadError roster course.checking
        ⟨log ++ finished.log, finished.outcome⟩

end ArtifactHarvest
