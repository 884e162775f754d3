import ArtifactHarvest.CommandLine
import ArtifactHarvest.Summary.Stamp
import Std.Time.DateTime.Timestamp

/-!
The command itself. It takes in the part of the disk that a run looks at, lets the run happen on
that picture, and carries out what the run has decided.
-/

namespace ArtifactHarvest.Command

/-- The picture of the disk so far, and the directories whose entries are all in it. -/
structure Picture where
  workspace : Workspace
  listed : List Location

/-- Where an absolute path without links and `..` leads. -/
def locationOf (path : String) : Location :=
  ((Path.ofText path).components.filterMap Component.name?).reverse

/-- The path without links, if it leads anywhere. -/
def resolved (path : String) : IO (Option String) := do
  try return some (← IO.FS.realPath path).toString
  catch _ => return none

/-- A target that no link on the disk can have. -/
def nowhere : Path := ⟨[slash, 0]⟩

/-- What is at a path, with the content of a file only where it is asked for. -/
def objectAt (path : String) (withContent : Bool) : IO (Option Object) := do
  try
    let here ← IO.currentDir
    match (← (here / path).symlinkMetadata).type with
    | .dir => return some .directory
    | .symlink => return some (.link ((← resolved path).elim nowhere Path.ofText))
    | .file =>
        if withContent then
          try return some (.file (← IO.FS.readBinFile path).toList)
          catch _ => return some (.unreadable [])
        else return some (.file [])
    | .other => return some .special
  catch _ => return none

/-- The picture with what is on the way to a path, and with what the links on it lead to. -/
partial def takePath (picture : Picture) (path : String) (withContent : Bool) : IO Picture := do
  let cs := (Path.ofText path).components
  let mut picture := picture
  for k in List.range cs.length do
    let step := Path.ofComponents (cs.take (k + 1))
    match cs[k]?, ← resolved step.up.text with
    | some (.name n), some outer =>
        let loc := n :: locationOf outer
        let withContent := withContent && k + 1 = cs.length
        if withContent || (picture.workspace.files.objectAt loc).isNone then
          if let some o ← objectAt step.text withContent then
            picture := { picture with
              workspace.files := picture.workspace.files.put loc o }
            if let .link target := o then
              if target ≠ nowhere then picture ← takePath picture target.text withContent
    | _, _ => pure ()
  return picture

/-- The picture with all that is below a path. Directories that links lead to are taken in too. -/
partial def takeTree (picture : Picture) (path : String) : IO Picture := do
  let picture ← takePath picture path false
  let some real ← resolved path | return picture
  let loc := locationOf real
  if loc ∈ picture.listed then return picture
  let here ← IO.currentDir
  let mut picture := { picture with listed := loc :: picture.listed }
  let entries ← try (here / real).readDir catch _ =>
    picture := { picture with
      workspace.files.unlisted := loc :: picture.workspace.files.unlisted }
    pure #[]
  for entry in entries do
    picture ← takeTree picture ((Path.ofText real).join (Path.ofText entry.fileName)).text
  return picture

/-- The plans of the patterns that a configuration declares. -/
def plans (config : Config) (w : Workspace) : List Plan :=
  let root := (config.artifacts.resolveRoot w).toOption
  (Pattern.declared config.artifacts.paths).filterMap fun pattern =>
    (Pattern.plan pattern (root.getD Path.empty)).toOption

/-- The files that the patterns of a configuration match. -/
def matchedFiles (config : Config) (w : Workspace) : List Path :=
  let root := (config.artifacts.resolveRoot w).toOption
  (Pattern.declared config.artifacts.paths).flatMap fun pattern =>
    ((View.mk w config.artifacts.followsLinks).expand root false pattern).toOption.elim []
      Expansion.found

/-- The picture of all that a run under the options looks at. -/
def takeIn (picture : Picture) (options : Options) : IO Picture := do
  let absolute (p : Path) : String :=
    ((picture.workspace.currentDirectory.toOption.getD ⟨[slash]⟩).join p).text
  let mut picture := picture
  if let some file := options.config then picture ← takePath picture (absolute file) true
  if let some file := options.summary then picture ← takePath picture (absolute file) false
  if let .ok config := options.configuration picture.workspace then
    for plan in plans config picture.workspace do
      picture ← takePath picture plan.anchor.text false
      picture ← takeTree picture plan.base.text
    for file in matchedFiles config picture.workspace do
      picture ← takePath picture file.text true
  return picture

/-- The host's name, as far as it can be told. -/
def hostname : IO String := do
  try return Text.trimmed (← IO.FS.readFile "/proc/sys/kernel/hostname")
  catch _ => return "unknown"

/-- The time of day at a moment. -/
def timeOfDay (m : Summary.Moment) : String :=
  let second := m.seconds % 86400
  Summary.padded 2 (second / 3600) ++ ":" ++ Summary.padded 2 (second / 60 % 60) ++ ":" ++
    Summary.padded 2 (second % 60)

def now : IO Summary.Moment := do
  let elapsed := (← Std.Time.Timestamp.now).toNanosecondsSinceUnixEpoch.toInt.toNat
  return ⟨elapsed / 1000000000, elapsed % 1000000000⟩

/-- The artifacts that a run has printed. -/
def artifacts (result : CommandLine.Result) : List Descriptor :=
  (result.printed.findSome? fun printed =>
    match printed with
    | .text s => Descriptor.parseAll? s
    | .record _ => none).getD []

/-- Writes all of a text to a file, whatever kind of file it is. -/
def write (file : Path) (text : String) : IO Unit :=
  IO.FS.withFile file.text .write fun handle => do
    handle.putStr text
    handle.flush

end ArtifactHarvest.Command

open ArtifactHarvest in
def main (arguments : List String) : IO UInt32 := do
  let here ← Command.resolved "."
  let mut picture : Command.Picture := ⟨⟨FileSystem.empty, here.map Command.locationOf⟩, []⟩
  if let some directory := here then picture ← Command.takePath picture directory false
  let options := (Options.read arguments).toOption.getD Options.none
  picture ← Command.takeIn picture options
  let moment ← Command.now
  let around : CommandLine.Surroundings := {
    terminal := ← IO.getEnv "TERM"
    hostname := ← Command.hostname
    identifier := Summary.identifier (← IO.getRandomBytes 16).toList
    time := Summary.timestamp moment }
  let mut result := CommandLine.run around picture.workspace arguments
  -- whether the summary can be written decides what is printed
  if let (0, some file) := (result.exit, options.summary) then
    try Command.write file (around.summary (Command.artifacts result)).text
    catch _ =>
      let refused := { around with writing := .refused .denied }
      result := CommandLine.run refused picture.workspace arguments
  for printed in result.printed do
    match printed with
    | .record line => IO.println (Command.timeOfDay moment ++ " " ++ line)
    | .text s => IO.print s
  IO.eprint result.errors
  return UInt32.ofNat result.exit
