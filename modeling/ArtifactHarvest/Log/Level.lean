import ArtifactHarvest.Text.Blank

/-!
Levels of the log, and how the configured one is chosen.
-/

namespace ArtifactHarvest.Log

/-- How grave a record is, gravest first. -/
inductive Severity where
  | error
  | warn
  | info
  | debug
  | trace
deriving DecidableEq

namespace Severity

def rank : Severity → Nat
  | .error => 1
  | .warn => 2
  | .info => 3
  | .debug => 4
  | .trace => 5

def name : Severity → String
  | .error => "ERROR"
  | .warn => "WARN"
  | .info => "INFO"
  | .debug => "DEBUG"
  | .trace => "TRACE"

end Severity

/-- The least grave records that are shown, if any are. -/
abbrev Level := Option Severity

namespace Level

def name : Level → String
  | some s => s.name
  | none => "OFF"

def shows (level : Level) (s : Severity) : Bool :=
  match level with
  | some least => s.rank ≤ least.rank
  | none => false

end Level

/-- A level that no name stands for. -/
structure UnknownLevel where
  name : String
deriving DecidableEq

def UnknownLevel.message (e : UnknownLevel) : String := "Unknown log level: " ++ e.name

/-- The level that a setting names, in either case and with blanks around it. -/
def Level.ofSetting (setting : String) : Except UnknownLevel Level :=
  let name := (Text.trimmed setting).map Char.toLower
  if name = "debug" then .ok (some .debug)
  else if name = "trace" then .ok (some .trace)
  else if name = "info" ∨ name = "notice" ∨ name = "" then .ok (some .info)
  else if name = "warn" ∨ name = "warning" then .ok (some .warn)
  else if name = "error" ∨ name = "fatal" then .ok (some .error)
  else if name = "off" then .ok none
  else .error ⟨name⟩

/-- When messages are coloured. -/
inductive Colour where
  /-- Where the terminal shows colours. -/
  | auto
  | never
deriving DecidableEq

/-- Logging as it is configured. -/
structure Settings where
  level : String
  debug : Bool
  noColour : Bool
deriving DecidableEq

namespace Settings

def default : Settings := ⟨"info", false, false⟩

/-- The level in force, and the problem that stood in the way of the one asked for. The debug switch
wins over the named level. -/
def resolved (s : Settings) : Level × Option UnknownLevel :=
  if s.debug then (some .debug, none)
  else
    match Level.ofSetting s.level with
    | .ok level => (level, none)
    | .error problem => (some .info, some problem)

def colour (s : Settings) : Colour := if s.noColour then .never else .auto

end Settings

end ArtifactHarvest.Log
