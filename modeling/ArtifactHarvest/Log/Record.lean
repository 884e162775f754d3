import ArtifactHarvest.Log.Level

/-!
Log records and the lines they are shown as.
-/

namespace ArtifactHarvest.Log

structure Record where
  severity : Severity
  text : String
deriving DecidableEq

namespace Record

def info (text : String) : Record := ⟨.info, text⟩

def warn (text : String) : Record := ⟨.warn, text⟩

/-- The number of the terminal colour for a severity. -/
def colourNumber : Severity → String
  | .error => "31"
  | .warn => "33"
  | .info => "34"
  | .debug => "36"
  | .trace => "37"

/-- The record as a line of text, after the time. -/
def line (r : Record) (coloured : Bool) : String :=
  let label := "[" ++ r.severity.name ++ "] "
  if coloured then
    "\x1b[0m\x1b[" ++ colourNumber r.severity ++ "m" ++ label ++ "\x1b[0m" ++ r.text
  else label ++ r.text

end Record

/-- Whether a terminal of this name shows colours. -/
def terminalShowsColour (terminal : Option String) : Bool :=
  match terminal with
  | some name => name ≠ "dumb"
  | none => false

end ArtifactHarvest.Log
