import ArtifactHarvest.Options.Reading

/-!
The help of the command, in a short form with a line for each option and in a long form.
-/

namespace ArtifactHarvest

namespace Options

/-- The options in the order in which help lists them. -/
def listed : List Key :=
  [.setting .paths, .switch .followSymlinks, .setting .root, .setting .experiment,
    .switch .skipUnreadable, .setting .config, .setting .summary, .setting .logLevel,
    .switch .debug, .switch .noColor, .switch .help]

namespace Key

def label : Key → String
  | .switch s => s.label
  | .setting s => s.label

/-- The letter that stands for the option, with the comma behind it, or as many blanks. -/
def letter : Key → String
  | .setting .config => "-c, "
  | .switch .debug => "-d, "
  | .switch .help => "-h, "
  | _ => "    "

def description (long : Bool) : Key → String
  | .setting .paths => "Semicolon-delimited glob patterns, e.g. \"dist/**/*;logs/*.log\""
  | .switch .followSymlinks => "Follow symlinked directories while expanding `**`"
  | .setting .root =>
      "Directory relative patterns are resolved against (default: working directory)"
  | .setting .experiment => "Enable an experiment, e.g. normalised-upload-paths (repeatable)"
  | .switch .skipUnreadable => "Leave out unreadable matches instead of failing the collection"
  | .setting .config => "YAML configuration file"
  | .setting .summary => "Write a JSON collection summary to this file"
  | .setting .logLevel => "Log level: debug, info, warn, error"
  | .switch .debug => "Enable debug logging. Takes precedence over --log-level"
  | .switch .noColor => "Don't show colors in logging"
  | .switch .help =>
      if long then "Print help (see a summary with '-h')" else "Print help (see more with '--help')"

end Key

def usage : String := "Usage: artifact-collect [OPTIONS]"

/-- The width of the longest label. -/
def labelWidth : Nat := (listed.map (·.label.length)).foldr max 0

def shortHelp : String :=
  let line (o : Key) : String :=
    "  " ++ o.letter ++ o.label ++
      String.ofList (List.replicate (labelWidth + 2 - o.label.length) ' ') ++
      o.description false ++ "\n"
  "Find, deduplicate and checksum build artifacts\n\n" ++ usage ++ "\n\nOptions:\n" ++
    String.join (listed.map line)

def longHelp : String :=
  let paragraph (o : Key) : String :=
    "  " ++ o.letter ++ o.label ++ "\n          " ++ o.description true ++ "\n"
  "Command-line arguments for the artifact-collect tool.\n\n" ++
    "Flags given here override the matching values from `--config`.\n\n" ++ usage ++
    "\n\nOptions:\n" ++ "\n".intercalate (listed.map paragraph)

/-- The help text in its long or its short form. -/
def help (long : Bool) : String := if long then longHelp else shortHelp

end Options

namespace UsageFault

/-- All that is reported. -/
def report : UsageFault → String
  | .help long => Options.help long
  | fault => fault.message ++ "\n\n" ++ Options.usage ++ "\n\nFor more information, try '--help'.\n"

end UsageFault

end ArtifactHarvest
