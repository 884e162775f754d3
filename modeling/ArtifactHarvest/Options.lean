import ArtifactHarvest.Config

/-!
The options of the command line, and what they change in a configuration.
-/

namespace ArtifactHarvest

/-- An option that is on or off. -/
inductive Switch where
  | followSymlinks
  | skipUnreadable
  | debug
  | noColor
  | help
deriving DecidableEq

/-- An option that takes a value. -/
inductive Setting where
  | paths
  | root
  | experiment
  | config
  | summary
  | logLevel
deriving DecidableEq

/-- What a command line asks for. -/
structure Options where
  paths : Option String
  followSymlinks : Bool
  root : Option Path
  /-- In the order given. -/
  experiments : List String
  skipUnreadable : Bool
  config : Option Path
  summary : Option Path
  logLevel : Option String
  debug : Bool
  noColor : Bool
deriving DecidableEq

namespace Switch

/-- The name behind two dashes. -/
def name : Switch → String
  | .followSymlinks => "follow-symlinks"
  | .skipUnreadable => "skip-unreadable"
  | .debug => "debug"
  | .noColor => "no-color"
  | .help => "help"

def label (s : Switch) : String := "--" ++ s.name

end Switch

namespace Setting

/-- The name behind two dashes. -/
def name : Setting → String
  | .paths => "paths"
  | .root => "root"
  | .experiment => "experiment"
  | .config => "config"
  | .summary => "summary"
  | .logLevel => "log-level"

/-- What the value is called. -/
def valueName : Setting → String
  | .paths => "PATHS"
  | .root => "ROOT"
  | .experiment => "EXPERIMENTS"
  | .config => "CONFIG"
  | .summary => "SUMMARY"
  | .logLevel => "LOG_LEVEL"

def label (s : Setting) : String := "--" ++ s.name ++ " <" ++ s.valueName ++ ">"

/-- Whether the value is a path, which must not be empty. -/
def isPath : Setting → Bool
  | .root | .config | .summary => true
  | .paths | .experiment | .logLevel => false

end Setting

namespace Options

def none : Options :=
  { paths := .none, followSymlinks := false, root := .none, experiments := [],
    skipUnreadable := false, config := .none, summary := .none, logLevel := .none, debug := false,
    noColor := false }

/-- Whether a setting that may be given once has been given. -/
def gives (o : Options) : Setting → Bool
  | .paths => o.paths.isSome
  | .root => o.root.isSome
  | .experiment => false
  | .config => o.config.isSome
  | .summary => o.summary.isSome
  | .logLevel => o.logLevel.isSome

/-- The options with a value that is given as bytes. A value that is a text has to be UTF-8. -/
def give? (o : Options) (s : Setting) (value : Bytes) : Option Options :=
  match s with
  | .paths => (Text.Utf8.decode? value).map fun text => { o with paths := some text }
  | .root => some { o with root := some ⟨value⟩ }
  | .experiment =>
      (Text.Utf8.decode? value).map fun text => { o with experiments := o.experiments ++ [text] }
  | .config => some { o with config := some ⟨value⟩ }
  | .summary => some { o with summary := some ⟨value⟩ }
  | .logLevel => (Text.Utf8.decode? value).map fun text => { o with logLevel := some text }

def isOn (o : Options) : Switch → Bool
  | .followSymlinks => o.followSymlinks
  | .skipUnreadable => o.skipUnreadable
  | .debug => o.debug
  | .noColor => o.noColor
  | .help => false

def turnOn (o : Options) : Switch → Options
  | .followSymlinks => { o with followSymlinks := true }
  | .skipUnreadable => { o with skipUnreadable := true }
  | .debug => { o with debug := true }
  | .noColor => { o with noColor := true }
  | .help => o

/-- The configuration with the options laid over it. -/
def applyTo (o : Options) (c : Config) : Config where
  logging := {
    level := o.logLevel.getD c.logging.level
    debug := o.debug || c.logging.debug
    noColour := o.noColor || c.logging.noColour }
  experiments := o.experiments.foldl Experiments.enable c.experiments
  artifacts := {
    paths := o.paths.getD c.artifacts.paths
    followsLinks := o.followSymlinks || c.artifacts.followsLinks
    root := o.root.or c.artifacts.root
    onReadError := if o.skipUnreadable then .skip else c.artifacts.onReadError }

/-- The configuration in force: from the file that is named, if one is, with the options over it. -/
def configuration (o : Options) (w : Workspace) : Except Config.LoadFault Config :=
  match o.config with
  | some file => (Config.load w file).map o.applyTo
  | .none => .ok (o.applyTo .default)

end Options

end ArtifactHarvest
