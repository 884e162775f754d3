import ArtifactHarvest.Collection
import ArtifactHarvest.Yaml.Node

/-!
The configuration of the command, and how it is read from a YAML document. Every part may be left
out.
-/

namespace ArtifactHarvest

structure Config where
  logging : Log.Settings
  experiments : Experiments
  artifacts : Order
deriving DecidableEq

namespace Config

def default : Config := ⟨.default, .none, .default⟩

/-- Why there is no configuration. -/
inductive LoadFault where
  | unreadable (file : Path)
  | malformed
deriving DecidableEq

def LoadFault.message : LoadFault → String
  | .unreadable file => "Failed to read config file: " ++ file.text
  | .malformed => "Failed to parse YAML config"

open Yaml (Node)

/-- The node itself, or the one that an alias leads to. -/
def target (root node : Node) : Option Node :=
  match node with
  | .alias number => Yaml.findAnchor number root
  | node => some node

/-- A text: what any scalar holds. -/
def text? (root node : Node) : Option String :=
  match target root node with
  | some (.scalar _ _ _ text) => some (String.ofList text)
  | _ => none

/-- The words for yes and no. -/
def bool? (text : List Char) : Option Bool :=
  let word := String.ofList text
  if word = "true" ∨ word = "True" ∨ word = "TRUE" then some true
  else if word = "false" ∨ word = "False" ∨ word = "FALSE" then some false
  else none

/-- A tag of the standard YAML types. -/
def standardTag (name : String) : Bytes := Text.Utf8.encode ("tag:yaml.org,2002:" ++ name)

/-- A switch: a plain scalar, or a literal one that is tagged as such. -/
def switch? (root node : Node) : Option Bool :=
  match target root node with
  | some (.scalar _ tag style text) =>
      if style = .plain ∨ (style = .literal ∧ tag = some (standardTag "bool")) then bool? text
      else none
  | _ => none

/-- Whether a text stands for the absence of a value. -/
def isNull (text : List Char) : Bool :=
  let word := String.ofList text
  word = "null" ∨ word = "Null" ∨ word = "NULL" ∨ word = "~"

/-- A path that may be absent. -/
def path? (root node : Node) : Option (Option Path) :=
  match target root node with
  | some (.scalar _ tag style text) =>
      let here := some (Path.ofText (String.ofList text))
      if style = .plain then
        match tag with
        | none => some (if text = [] ∨ isNull text then none else here)
        | some tag =>
            if tag = standardTag "null" then (if isNull text then some none else none)
            else some here
      else some here
  | _ => none

def policyNamed? (name : Bytes) : Option ReadErrorPolicy :=
  if name = Text.Utf8.encode "abort" then some .abort
  else if name = Text.Utf8.encode "skip" then some .skip
  else none

/-- A policy, named by a scalar or by a local tag on an absent one. -/
def policy? (root node : Node) : Option ReadErrorPolicy :=
  match target root node with
  | some (.scalar _ tag style text) =>
      match tag with
      | some (33 :: name) =>
          if style = .plain ∧ (text = [] ∨ isNull text) then policyNamed? name else none
      | _ => policyNamed? (Text.Utf8.encode (String.ofList text))
  | _ => none

/-- A list of texts. -/
def texts? (root node : Node) : Option (List String) :=
  match target root node with
  | some (.sequence _ _ items) => items.mapM (text? root)
  | some (.scalar _ _ .plain []) => some []
  | _ => none

/-- The members of a mapping by the texts of their keys. An absent mapping has none. -/
def members? (root node : Node) : Option (List (String × Node)) :=
  match target root node with
  | some (.mapping _ _ members) => members.mapM fun (key, v) => (text? root key).map (·, v)
  | some (.scalar _ _ .plain []) => some []
  | _ => none

/-- The value of a key, or another where the key is missing. A key may not stand twice. -/
def field? {α : Type} (members : List (String × Node)) (key : String) (missing : α)
    (read : Node → Option α) : Option α :=
  match members.filter (·.1 = key) with
  | [] => some missing
  | [(_, v)] => read v
  | _ => none

def logging? (root node : Node) : Option Log.Settings := do
  let members ← members? root node
  return {
    level := ← field? members "log_level" Log.Settings.default.level (text? root)
    debug := ← field? members "debug" false (switch? root)
    noColour := ← field? members "no_color" false (switch? root) }

def order? (root node : Node) : Option Order := do
  let members ← members? root node
  return {
    paths := ← field? members "paths" "" (text? root)
    followsLinks := ← field? members "follow_symlinks" false (switch? root)
    root := ← field? members "root" none (path? root)
    onReadError := ← field? members "read_error_policy" .abort (policy? root) }

/-- The configuration that a document holds. Names of experiments are taken as they stand. -/
def ofDocument? : Yaml.Document → Option Config
  | .void => some default
  | .root root => do
      let members ← members? root root
      return {
        logging := ← field? members "logging" .default (logging? root)
        experiments :=
          .ofExact (← field? members "experiments" [] (texts? root))
        artifacts := ← field? members "artifacts" .default (order? root) }

def parse? (text : String) : Option Config :=
  (Yaml.Document.parse? text).bind ofDocument?

/-- The configuration in the file that a path leads to. -/
def load (w : Workspace) (p : Path) : Except LoadFault Config :=
  match (w.read p).toOption.bind Text.Utf8.decode? with
  | none => .error (.unreadable p)
  | some text =>
      match parse? text with
      | some config => .ok config
      | none => .error .malformed

end Config

end ArtifactHarvest
