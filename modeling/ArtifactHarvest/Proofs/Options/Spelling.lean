import ArtifactHarvest.Options.Reading
import ArtifactHarvest.Proofs.Text.Encoding
import Mathlib.Data.List.TakeWhile

/-!
The ways in which one argument gives an option, with the value attached. Each of them is read as
that option whatever the value is, and a second time it is refused (`argument_spelled`). So reading
arguments that are spelled in these ways is taking up the options one after another
(`readBytes_spelled`).
-/

namespace ArtifactHarvest.Options

open Text.Utf8 (encode decode?)

/-- An option as a command line gives it. -/
inductive Given where
  | setting (s : Setting) (value : Bytes)
  | switch (s : Switch)
deriving DecidableEq

namespace Given

def key : Given → Key
  | setting s _ => .setting s
  | switch s => .switch s

/-- The arguments that give an option by themselves. -/
inductive Spells : Given → Bytes → Prop
  | named (s : Setting) (value : Bytes) :
      Spells (.setting s value) (encode ("--" ++ s.name ++ "=") ++ value)
  | config (value : Bytes) : Spells (.setting .config value) (encode "-c=" ++ value)
  | switched (s : Switch) : Spells (.switch s) (encode ("--" ++ s.name))
  | debug : Spells (.switch .debug) (encode "-d")
  | verbose : Spells (.switch .debug) (encode "--verbose")

/-- Help is no part of what a command line sets, a path holds something, and other values are
texts. -/
def Proper : Given → Prop
  | setting s value => if s.isPath then value ≠ [] else ∃ text, value = encode text
  | switch s => s ≠ .help

end Given

/-- How an option is refused that has been given before. -/
def Key.conflict : Key → UsageFault
  | setting s => .settingRepeated s
  | switch s => .switchRepeated s

/-- Whether an option has been given that may be given once. -/
def holds (o : Options) : Key → Bool
  | .setting s => o.gives s
  | .switch s => o.isOn s

def put (o : Options) : Given → Options
  | .setting s value => (o.give? s value).getD o
  | .switch s => o.turnOn s

/-- Takes up one option more. -/
def accept (o : Options) (g : Given) : Except UsageFault Options :=
  if o.holds g.key then .error g.key.conflict else .ok (o.put g)

/-- The options so far, with no value that waits to be taken up. -/
def settled (o : Options) : Reading := ⟨o, .none, false⟩

/-! ### One argument -/

theorem long?_setting (s : Setting) : long? (encode s.name) = some (.setting s) := by
  cases s <;> decide

theorem long?_switch (s : Switch) : long? (encode s.name) = some (.switch s) := by
  cases s <;> decide

theorem equals_notMem_setting (s : Setting) : 61 ∉ encode s.name := by
  cases s <;> decide

theorem equals_notMem_switch (s : Switch) : 61 ∉ encode s.name := by
  cases s <;> decide

/-- A name and a value with the first `=` between them. -/
theorem split_at_equals {name : Bytes} (hname : 61 ∉ name) (value : Bytes) :
    (name ++ 61 :: value).takeWhile (· ≠ 61) = name ∧
      (name ++ 61 :: value).dropWhile (· ≠ 61) = 61 :: value := by
  have hall : ∀ b ∈ name, decide (b ≠ 61) = true := fun b hb =>
    decide_eq_true (ne_of_mem_of_not_mem hb hname)
  rw [List.takeWhile_append_of_pos hall, List.dropWhile_append_of_pos hall]
  simp

theorem split_without_equals {name : Bytes} (hname : 61 ∉ name) :
    name.takeWhile (· ≠ 61) = name ∧ name.dropWhile (· ≠ 61) = [] := by
  have hall : ∀ b ∈ name, decide (b ≠ 61) = true := fun b hb =>
    decide_eq_true (ne_of_mem_of_not_mem hb hname)
  exact ⟨List.takeWhile_eq_self_iff.mpr hall, List.dropWhile_eq_nil_iff.mpr hall⟩

theorem give?_of_proper {o : Options} {s : Setting} {value : Bytes}
    (h : (Given.setting s value).Proper) : o.give? s value = some (o.put (.setting s value)) := by
  cases s <;> simp only [Given.Proper, Setting.isPath, if_true, Bool.false_eq_true, if_false] at h
  case root | config | summary => rfl
  case paths | experiment | logLevel =>
    obtain ⟨text, rfl⟩ := h
    simp [put, give?, Text.Utf8.decode?_encode]

theorem give_settled {o : Options} {s : Setting} {value : Bytes}
    (h : (Given.setting s value).Proper) :
    o.settled.give s value = (o.accept (.setting s value)).map settled := by
  have hfilled : (s.isPath && decide (value = [])) = false := by
    simp only [Given.Proper] at h
    cases hpath : s.isPath with
    | false => rfl
    | true =>
        rw [hpath, if_pos rfl] at h
        rw [decide_eq_false h, Bool.and_false]
  unfold Reading.give accept holds Given.key
  by_cases hgiven : o.gives s = true
  · simp [settled, hgiven, Key.conflict, Except.map]
  · simp [settled, hgiven, hfilled, give?_of_proper h, Except.map]

theorem set_settled (o : Options) (s : Setting) (value : Bytes) :
    o.settled.set s (some value) = o.settled.give s value := rfl

theorem turnOn_settled {o : Options} {s : Switch} (h : (Given.switch s).Proper) (long : Bool) :
    o.settled.turnOn s long = (o.accept (.switch s)).map settled := by
  have hhelp : s ≠ .help := h
  have hsettle : o.settled.settle = .ok o.settled := rfl
  unfold Reading.turnOn accept holds Given.key
  rw [hsettle]
  by_cases hon : o.isOn s = true
  · simp [settled, hhelp, hon, Key.conflict, Except.map, bind, Except.bind, throw, throwThe,
      MonadExceptOf.throw]
  · simp [settled, hhelp, hon, put, Except.map, bind, Except.bind, pure, Except.pure]

theorem long_setting (r : Reading) (s : Setting) (value : Bytes) :
    r.long (encode s.name ++ 61 :: value) = r.set s (some value) := by
  obtain ⟨hname, hvalue⟩ := split_at_equals (equals_notMem_setting s) value
  simp only [Reading.long, hname, hvalue, long?_setting, List.tail?]

theorem long_switch (r : Reading) (s : Switch) : r.long (encode s.name) = r.turnOn s true := by
  obtain ⟨hname, hvalue⟩ := split_without_equals (equals_notMem_switch s)
  simp only [Reading.long, hname, hvalue, long?_switch, List.tail?]

theorem long_verbose (r : Reading) : r.long (encode "verbose") = r.turnOn .debug true := by
  have hfree : 61 ∉ encode "verbose" := by decide
  obtain ⟨hname, hvalue⟩ := split_without_equals hfree
  simp only [Reading.long, hname, hvalue, List.tail?]
  rfl

theorem argument_long {r : Reading} (hopen : r.closed = false) {name : Bytes} (hname : name ≠ []) :
    r.argument (encode "--" ++ name) = r.long name := by
  obtain ⟨b, rest, rfl⟩ := List.exists_cons_of_ne_nil hname
  simp only [Reading.argument, hopen]
  rfl

theorem argument_debug {r : Reading} (hopen : r.closed = false) :
    r.argument [45, 100] = r.turnOn .debug false := by
  have hshort : r.argument [45, 100] = r.short [100] := by
    simp only [Reading.argument, hopen]
    rfl
  have hletter : short? 100 = some (.switch .debug) := by decide
  rw [hshort, Reading.short]
  simp only [hletter]
  cases r.turnOn .debug false <;> rfl

/-- **An argument that spells an option** is read as that option, and refused where it has been
given. -/
theorem argument_spelled {g : Given} {argument : Bytes} (h : g.Spells argument) (hg : g.Proper)
    (o : Options) : o.settled.argument argument = (o.accept g).map settled := by
  cases h with
  | named s value =>
      have hequals : encode "=" = [61] := by decide
      have hbytes : encode ("--" ++ s.name ++ "=") ++ value =
          encode "--" ++ (encode s.name ++ 61 :: value) := by
        rw [Text.Utf8.encode_append, Text.Utf8.encode_append, hequals]
        simp only [List.append_assoc, List.singleton_append]
      rw [hbytes, argument_long rfl (by simp), long_setting, set_settled, give_settled hg]
  | config value =>
      have hbytes : encode "-c=" ++ value = 45 :: 99 :: 61 :: value := by
        have hletter : encode "-c=" = [45, 99, 61] := by decide
        rw [hletter]
        rfl
      rw [hbytes]
      exact give_settled hg
  | switched s =>
      have hname : encode s.name ≠ [] := by cases s <;> decide
      rw [Text.Utf8.encode_append, argument_long rfl hname, long_switch, turnOn_settled hg]
  | debug =>
      have hletter : encode "-d" = [45, 100] := by decide
      rw [hletter, argument_debug rfl, turnOn_settled hg]
  | verbose =>
      have hname : encode "verbose" ≠ [] := by decide
      have hbytes : encode "--verbose" = encode "--" ++ encode "verbose" :=
        Text.Utf8.encode_append "--" "verbose"
      rw [hbytes, argument_long rfl hname, long_verbose, turnOn_settled hg]

theorem foldlM_argument_spelled {givens : List Given} {arguments : List Bytes}
    (h : List.Forall₂ Given.Spells givens arguments) (hgivens : ∀ g ∈ givens, g.Proper)
    (o : Options) :
    arguments.foldlM Reading.argument o.settled = (givens.foldlM accept o).map settled := by
  induction h generalizing o with
  | nil => rfl
  | @cons g argument givens arguments hspells _ ih =>
      obtain ⟨hg, hrest⟩ := List.forall_mem_cons.mp hgivens
      rw [List.foldlM_cons, List.foldlM_cons, argument_spelled hspells hg]
      cases o.accept g with
      | error fault => rfl
      | ok next => exact ih hrest next

/-- Arguments that spell options are read as these, one after another. -/
theorem readBytes_spelled {givens : List Given} {arguments : List Bytes}
    (h : List.Forall₂ Given.Spells givens arguments) (hgivens : ∀ g ∈ givens, g.Proper) :
    readBytes arguments = givens.foldlM accept Options.none := by
  have hfold : arguments.foldlM Reading.argument Reading.start =
      (givens.foldlM accept Options.none).map settled :=
    foldlM_argument_spelled h hgivens Options.none
  unfold readBytes
  rw [hfold]
  cases givens.foldlM accept Options.none <;> rfl

end ArtifactHarvest.Options
