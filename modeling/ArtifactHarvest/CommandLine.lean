import ArtifactHarvest.Options.Help
import ArtifactHarvest.Summary.Saving

/-!
One run of the command: what it prints, what it writes and how it exits.

What is printed is taken in full, the log is set up without a fault, and no signal ends the run.
-/

namespace ArtifactHarvest.CommandLine

/-- What a run takes from its surroundings, besides the files. -/
structure Surroundings where
  /-- The name of the terminal, if one is set. -/
  terminal : Option String
  hostname : String
  /-- The identifier and the time that a summary is stamped with. -/
  identifier : String
  time : String
  /-- How the writing of a summary goes. -/
  writing : Writing := .through

/-- A part of what is printed. -/
inductive Printed where
  /-- A record of the log, which is printed behind the time of day. -/
  | record (line : String)
  | text (s : String)
deriving DecidableEq

/-- What a run leaves behind. -/
structure Result where
  exit : Nat
  printed : List Printed
  errors : String
  workspace : Workspace

/-- A text as a numbered cause: lines after its first are indented. -/
def cause (number : Nat) (text : String) : String :=
  let lines := text.toList.map fun c => if c = '\n' then "\n       " else String.singleton c
  "    " ++ toString number ++ ": " ++ String.join lines ++ "\n"

/-- How a failed collection is reported. -/
def failureReport (fault : CollectionFault) : String :=
  let heading := "Error: Artifact collection failed\n\nCaused by:\n"
  match fault with
  | .unreadable _ source => heading ++ cause 0 fault.message ++ cause 1 source.message
  | .cancelled => heading ++ "    " ++ fault.message ++ "\n"

/-- The records that are shown under the settings in force. -/
def shown (settings : Log.Settings) (terminal : Option String) (log : List Log.Record) :
    List Printed :=
  let coloured := settings.colour = .auto && Log.terminalShowsColour terminal
  (log.filter fun r => settings.resolved.1.shows r.severity).map fun r =>
    .record (r.line coloured)

/-- What is logged before the collection begins. -/
def opening (settings : Log.Settings) : List Log.Record :=
  let problem : List Log.Record :=
    match settings.resolved.2 with
    | some e => [.warn ("Error when setting log level: " ++ e.message ++
        ". Defaulting log level to info")]
    | none => []
  problem ++ [.info "Starting artifact collection"]

/-- The descriptors as they are printed. -/
def listing (descriptors : List Descriptor) : String :=
  (Json.Value.array (descriptors.map Descriptor.toJson)).toPretty ++ "\n"

def completed : Log.Record := .info "Artifact collection completed successfully"

/-- The summary of the artifacts. -/
def Surroundings.summary (around : Surroundings) (descriptors : List Descriptor) : Summary :=
  ⟨around.identifier, around.hostname, around.time, descriptors⟩

/-- The end of a run that has collected its artifacts. -/
def conclude (around : Surroundings) (w : Workspace) (config : Config) (summaryFile : Option Path)
    (log : List Log.Record) (descriptors : List Descriptor) : Result :=
  let lines := shown config.logging around.terminal
  let printed := lines log ++ [.text (listing descriptors)]
  match summaryFile with
  | none => ⟨0, printed ++ lines [completed], "", w⟩
  | some file =>
      match (around.summary descriptors).save w file around.writing with
      | .ok w =>
          let written := Log.Record.info ("Collection summary written to " ++ file.text)
          ⟨0, printed ++ lines [written, completed], "", w⟩
      | .error e => ⟨1, printed, "Error: " ++ e.message ++ "\n", e.left⟩

/-- A run under a configuration. Nothing cancels it. -/
def collectArtifacts (around : Surroundings) (w : Workspace) (config : Config)
    (summaryFile : Option Path) : Result :=
  let feature name : FlagAnswer := ⟨config.experiments.isEnabled name, false⟩
  let collected := collect config.artifacts w feature (.inOrder false)
  let log := opening config.logging ++ collected.log
  match collected.outcome with
  | .error fault =>
      ⟨1, shown config.logging around.terminal log, failureReport fault, w⟩
  | .ok descriptors => conclude around w config summaryFile log descriptors

/-- A run with the given arguments. -/
def run (around : Surroundings) (w : Workspace) (arguments : List String) : Result :=
  match Options.read arguments with
  | .error (.help long) => ⟨0, [.text (UsageFault.help long).report], "", w⟩
  | .error fault => ⟨2, [], fault.report, w⟩
  | .ok options =>
      match options.configuration w with
      | .error fault => ⟨1, [], "Error: " ++ fault.message ++ "\n", w⟩
      | .ok config => collectArtifacts around w config options.summary

end ArtifactHarvest.CommandLine
