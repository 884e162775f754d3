import ArtifactHarvest.Json.Token

/-!
Reading a JSON value from its tokens, with a stack of the arrays and objects that are open.
-/

namespace ArtifactHarvest.Json

/-- An array or object that is open. What it holds so far stands newest first. -/
inductive Frame where
  | items (soFar : List Value)
  | members (soFar : List (Content × Value))
  /-- An object whose next member has a key but no value yet. -/
  | member (key : Content) (soFar : List (Content × Value))

/-- What must come next. -/
inductive Awaiting where
  | value
  /-- A value, or the end of the array just opened. -/
  | firstItem
  /-- A key, or the end of the object just opened. -/
  | firstKey
  | key
  | colon (key : Content)
  /-- A comma, or the end of what is open. -/
  | comma
  /-- Nothing: the value is complete. -/
  | nothing (v : Value)

structure Reader where
  frames : List Frame
  awaiting : Awaiting

namespace Reader

def start : Reader := ⟨[], .value⟩

/-- A complete value goes into what is open, or is the result. -/
def deliver (frames : List Frame) (v : Value) : Option Reader :=
  match frames with
  | [] => some ⟨[], .nothing v⟩
  | .items soFar :: outer => some ⟨.items (v :: soFar) :: outer, .comma⟩
  | .member key soFar :: outer => some ⟨.members ((key, v) :: soFar) :: outer, .comma⟩
  | .members _ :: _ => none

/-- A token where a value may begin. -/
def beginValue (frames : List Frame) : Token → Option Reader
  | .null => deliver frames .null
  | .bool b => deliver frames (.bool b)
  | .number n => deliver frames (.number n)
  | .string s => deliver frames (.string s)
  | .mark .openArray => some ⟨.items [] :: frames, .firstItem⟩
  | .mark .openObject => some ⟨.members [] :: frames, .firstKey⟩
  | .mark _ => none

/-- The end of what is open, when the token is the one that ends it. -/
def close (frames : List Frame) (token : Token) : Option Reader :=
  match frames, token with
  | .items soFar :: outer, .mark .closeArray => deliver outer (.array soFar.reverse)
  | .members soFar :: outer, .mark .closeObject => deliver outer (.object soFar.reverse)
  | _, _ => none

def step (r : Reader) (token : Token) : Option Reader :=
  match r.awaiting, token with
  | .value, token => beginValue r.frames token
  | .firstItem, token =>
      if token = .mark .closeArray then close r.frames token else beginValue r.frames token
  | .firstKey, .string key => some ⟨r.frames, .colon key⟩
  | .firstKey, token => close r.frames token
  | .key, .string key => some ⟨r.frames, .colon key⟩
  | .colon key, .mark .colon =>
      match r.frames with
      | .members soFar :: outer => some ⟨.member key soFar :: outer, .value⟩
      | _ => none
  | .comma, .mark .comma =>
      match r.frames with
      | .items _ :: _ => some ⟨r.frames, .value⟩
      | .members _ :: _ => some ⟨r.frames, .key⟩
      | _ => none
  | .comma, token => close r.frames token
  | _, _ => none

def result? (r : Reader) : Option Value :=
  match r.awaiting with
  | .nothing v => some v
  | _ => none

end Reader

/-- The value that tokens spell. -/
def Value.ofTokens? (tokens : List Token) : Option Value :=
  (tokens.foldlM Reader.step .start).bind Reader.result?

/-- The value that a text spells. -/
def Value.parse? (text : String) : Option Value :=
  (tokens? text.toList).bind ofTokens?

end ArtifactHarvest.Json
