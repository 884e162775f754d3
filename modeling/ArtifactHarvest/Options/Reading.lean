import ArtifactHarvest.Options

/-!
Reading the options from the arguments of a command, which are byte sequences. A value may be
attached to its option or follow it; one that follows is taken up only when the next option, or the
end, shows that it is complete.
-/

namespace ArtifactHarvest

/-- Why a command line is not carried out. -/
inductive UsageFault where
  | unknown (argument : String)
  | missingValue (s : Setting)
  | settingRepeated (s : Setting)
  | switchRepeated (s : Switch)
  | unneededValue (value : String) (s : Switch)
  /-- A value that has to be a text is not UTF-8. -/
  | notText
  /-- Help was asked for, in its long or its short form. -/
  | help (long : Bool)
deriving DecidableEq

namespace UsageFault

/-- What is reported first. Help has a text of its own. -/
def message : UsageFault → String
  | .unknown argument => "error: unexpected argument '" ++ argument ++ "' found"
  | .missingValue s => "error: a value is required for '" ++ s.label ++ "' but none was supplied"
  | .settingRepeated s => "error: the argument '" ++ s.label ++ "' cannot be used multiple times"
  | .switchRepeated s => "error: the argument '" ++ s.label ++ "' cannot be used multiple times"
  | .unneededValue value s =>
      "error: unexpected value '" ++ value ++ "' for '" ++ s.label ++
        "' found; no more were expected"
  | .notText => "error: invalid UTF-8 was detected in one or more arguments"
  | .help _ => ""

end UsageFault

namespace Options

/-- What an argument may name. -/
inductive Key where
  | switch (s : Switch)
  | setting (s : Setting)
deriving DecidableEq

def switches : List Switch := [.followSymlinks, .skipUnreadable, .debug, .noColor, .help]

def settings : List Setting := [.paths, .root, .experiment, .config, .summary, .logLevel]

/-- The option of a long name. One name is another word for the debug switch. -/
def long? (name : Bytes) : Option Key :=
  if name = Text.Utf8.encode "verbose" then some (.switch .debug)
  else
    ((switches.find? fun s => Text.Utf8.encode s.name = name).map Key.switch).or
      ((settings.find? fun s => Text.Utf8.encode s.name = name).map Key.setting)

/-- The option of a letter: `c`, `d` or `h`. -/
def short? (letter : UInt8) : Option Key :=
  if letter = 99 then some (.setting .config)
  else if letter = 100 then some (.switch .debug)
  else if letter = 104 then some (.switch .help)
  else .none

/-- The first character of the bytes, or all of them where they do not begin with one. -/
def leading (bytes : Bytes) : String :=
  match Text.Utf8.scan .none bytes with
  | some c :: _ => String.singleton c
  | _ => Text.Utf8.decodeLossy bytes

/-- How far the arguments are read. -/
structure Reading where
  options : Options
  /-- The last setting, when its value is not taken up yet. -/
  open? : Option (Setting × Option Bytes)
  /-- Whether a lone `--` came, behind which nothing is an option. -/
  closed : Bool

namespace Reading

def start : Reading := ⟨Options.none, .none, false⟩

/-- Takes a value up. -/
def give (r : Reading) (s : Setting) (value : Bytes) : Except UsageFault Reading :=
  if r.options.gives s then .error (.settingRepeated s)
  else if s.isPath && value = [] then .error (.missingValue s)
  else
    match r.options.give? s value with
    | some options => .ok { r with options, open? := .none }
    | .none => .error .notText

/-- Takes the open value up, if there is one to take. -/
def settle (r : Reading) : Except UsageFault Reading :=
  match r.open? with
  | .none => .ok r
  | some (s, .none) => .error (.missingValue s)
  | some (s, some value) => r.give s value

def turnOn (r : Reading) (s : Switch) (long : Bool) : Except UsageFault Reading := do
  let r ← r.settle
  if s = .help then throw (.help long)
  else if r.options.isOn s then throw (.switchRepeated s)
  else return { r with options := r.options.turnOn s }

/-- A setting with the value attached to it, or open for one. -/
def set (r : Reading) (s : Setting) (attached : Option Bytes) : Except UsageFault Reading := do
  let r ← r.settle
  match attached with
  | some value => r.give s value
  | .none => return { r with open? := some (s, .none) }

/-- An argument behind two dashes: a name, and a value behind the first `=`. -/
def long (r : Reading) (bytes : Bytes) : Except UsageFault Reading :=
  let name := bytes.takeWhile (· ≠ 61)
  let attached : Option Bytes := (bytes.dropWhile (· ≠ 61)).tail?
  match long? name, attached with
  | .none, _ => .error (.unknown ("--" ++ Text.Utf8.decodeLossy name))
  | some (.switch s), some value => .error (.unneededValue (Text.Utf8.decodeLossy value) s)
  | some (.switch s), .none => r.turnOn s true
  | some (.setting s), attached => r.set s attached

/-- Letters behind one dash. What follows the letter of a setting is its value, with or without a
`=` in front. -/
def short (r : Reading) : Bytes → Except UsageFault Reading
  | [] => .ok r
  | letter :: rest =>
      match short? letter with
      | .none => .error (.unknown ("-" ++ leading (letter :: rest)))
      | some (.switch s) =>
          match r.turnOn s false with
          | .ok r => r.short rest
          | .error fault => .error fault
      | some (.setting s) =>
          match rest with
          | [] => r.set s .none
          | 61 :: value => r.set s (some value)
          | value => r.set s (some value)

/-- One more argument. Options begin with a dash. -/
def argument (r : Reading) (bytes : Bytes) : Except UsageFault Reading :=
  match r.closed, bytes with
  | true, _ => .error (.unknown (Text.Utf8.decodeLossy bytes))
  | false, [45, 45] => .ok { r with closed := true }
  | false, 45 :: 45 :: rest => r.long rest
  | false, 45 :: letter :: rest => r.short (letter :: rest)
  | false, _ =>
      match r.open? with
      | some (s, .none) => .ok { r with open? := some (s, some bytes) }
      | _ => .error (.unknown (Text.Utf8.decodeLossy bytes))

end Reading

/-- The options that the arguments give. -/
def readBytes (arguments : List Bytes) : Except UsageFault Options := do
  let r ← arguments.foldlM Reading.argument Reading.start
  return (← r.settle).options

/-- The options that arguments give which are texts. -/
def read (arguments : List String) : Except UsageFault Options :=
  readBytes (arguments.map Text.Utf8.encode)

end Options

end ArtifactHarvest
