import ArtifactHarvest.Options
import ArtifactHarvest.Proofs.Experiments.Members
import Mathlib

/-!
What decides whether an experiment is enabled. The changes to a configuration come to toggles, one
after another (`experiments_after`). A toggle goes by the trimmed name, so the last one decides for
a name that trimming leaves (`isEnabled_foldl_toggle`), and none reaches a name with blanks around
it. Such a name can only come from a file, whose names are taken as they stand (`listed_of_load`),
and there it stays. Main statement: `experiments_decided`.
-/

namespace ArtifactHarvest

open Text (Neat trimmed)

/-- Enabling or disabling a name. -/
inductive Toggle where
  | on (name : String)
  | off (name : String)
deriving DecidableEq

namespace Toggle

def name : Toggle → String
  | on name | off name => name

def isOn : Toggle → Bool
  | on _ => true
  | off _ => false

end Toggle

/-- A change to a configuration. -/
inductive Change where
  | toggle (t : Toggle)
  /-- The options of a command line are laid over it. -/
  | options (o : Options)

namespace Change

/-- The names that a change enables or disables, in order. -/
def toggles : Change → List Toggle
  | toggle t => [t]
  | options o => o.experiments.map .on

end Change

/-- The last toggle for a name, if there is one. -/
def lastToggle (toggles : List Toggle) (name : String) : Option Toggle :=
  (toggles.filter fun t => trimmed t.name = name).getLast?

theorem lastToggle_concat (toggles : List Toggle) (t : Toggle) (name : String) :
    lastToggle (toggles ++ [t]) name =
      if trimmed t.name = name then some t else lastToggle toggles name := by
  unfold lastToggle
  by_cases h : trimmed t.name = name <;> simp [h]

namespace Experiments

def toggle (e : Experiments) : Toggle → Experiments
  | .on name => e.enable name
  | .off name => e.disable name

theorem isEnabled_toggle (e : Experiments) (t : Toggle) {name : String} (hname : name ≠ "") :
    (e.toggle t).isEnabled name =
      if trimmed t.name = name then t.isOn else e.isEnabled name := by
  rw [Bool.eq_iff_iff]
  cases t with
  | on n =>
      rw [toggle, isEnabled_enable]
      by_cases h : trimmed n = name
      · simp [Toggle.name, Toggle.isOn, h, hname]
      · simp [Toggle.name, h, Ne.symm h]
  | off n =>
      rw [toggle, isEnabled_disable]
      by_cases h : trimmed n = name
      · simp [Toggle.name, Toggle.isOn, h]
      · simp [Toggle.name, h, Ne.symm h]

/-- The empty name is never enabled, and disabling any blank name takes it away. -/
theorem isEnabled_toggle_blank (e : Experiments) (t : Toggle) :
    (e.toggle t).isEnabled "" = (e.isEnabled "" && (t.isOn || trimmed t.name ≠ "")) := by
  rw [Bool.eq_iff_iff]
  cases t with
  | on n => simp [toggle, isEnabled_enable, Toggle.isOn]
  | off n =>
      rw [toggle, isEnabled_disable, ne_comm, and_comm, Bool.and_eq_true, Toggle.isOn,
        Bool.false_or, decide_eq_true_iff, Toggle.name]

variable (e : Experiments) (toggles : List Toggle)

/-- The last toggle for a name decides, and where there is none, the set that was there. -/
theorem isEnabled_foldl_toggle {name : String} (hname : name ≠ "") :
    (toggles.foldl toggle e).isEnabled name =
      ((lastToggle toggles name).map Toggle.isOn).getD (e.isEnabled name) := by
  induction toggles using List.reverseRecOn with
  | nil => rfl
  | append_singleton front t ih =>
      rw [List.foldl_append, List.foldl_cons, List.foldl_nil, isEnabled_toggle _ t hname, ih,
        lastToggle_concat]
      split <;> rfl

theorem isEnabled_foldl_toggle_blank :
    (toggles.foldl toggle e).isEnabled "" =
      (e.isEnabled "" && toggles.all fun t => t.isOn || trimmed t.name ≠ "") := by
  induction toggles generalizing e with
  | nil => simp
  | cons t rest ih =>
      rw [List.foldl_cons, ih, isEnabled_toggle_blank, List.all_cons, Bool.and_assoc]

/-- Toggles reach neat names only. -/
theorem isEnabled_foldl_toggle_of_not_neat {name : String} (hname : name ≠ "")
    (h : ¬ Neat name) : (toggles.foldl toggle e).isEnabled name = e.isEnabled name := by
  have hnone : lastToggle toggles name = Option.none := by
    rw [lastToggle, List.getLast?_eq_none_iff, List.filter_eq_nil_iff]
    intro t _ hsame
    have htrimmed : trimmed t.name = name := of_decide_eq_true hsame
    exact h (htrimmed ▸ Text.neat_trimmed (htrimmed ▸ hname))
  rw [isEnabled_foldl_toggle e toggles hname, hnone]
  rfl

end Experiments

namespace Config

def change (c : Config) : Change → Config
  | .toggle t => { c with experiments := c.experiments.toggle t }
  | .options o => o.applyTo c

/-- The configuration after changes, one after another. -/
def after (c : Config) (changes : List Change) : Config := changes.foldl change c

theorem experiments_after (c : Config) (changes : List Change) :
    (c.after changes).experiments =
      (changes.flatMap Change.toggles).foldl Experiments.toggle c.experiments := by
  unfold after
  induction changes generalizing c with
  | nil => rfl
  | cons change changes ih =>
      rw [List.foldl_cons, ih, List.flatMap_cons, List.foldl_append]
      cases change with
      | toggle t => rfl
      | options o =>
          rw [Change.toggles, List.foldl_map]
          rfl

/-- The experiments go by the names they begin with and by the last toggle for each name, as far as
names are neat. -/
structure GoesBy (c : Config) (first : List String) : Prop where
  decided : ∀ changes name, name ≠ "" → (c.after changes).experiments.isEnabled name =
    ((lastToggle (changes.flatMap Change.toggles) name).map Toggle.isOn).getD
      (decide (name ∈ first))
  blank : ∀ changes, (c.after changes).experiments.isEnabled "" =
    (decide ("" ∈ first) &&
      (changes.flatMap Change.toggles).all fun t => t.isOn || trimmed t.name ≠ "")
  disabled : ∀ changes name,
    (c.after (changes ++ [.toggle (.off name)])).experiments.isEnabled name =
      decide (name ∈ first ∧ trimmed name ≠ name)
  neat_iff : (∀ changes, ∀ name ∈ (c.after changes).experiments.names, Neat name) ↔
    ∀ name ∈ first, Neat name

/-- The configuration with names enabled one after another, and no others. -/
def enabling (c : Config) (names : List String) : Config :=
  { c with experiments := .ofNames names }

theorem after_concat (c : Config) (changes : List Change) (last : Change) :
    c.after (changes ++ [last]) = (c.after changes).change last := by
  rw [after, List.foldl_append]
  rfl

section

variable {c : Config} {first : List String} (h : c.experiments = .ofExact first)
include h

theorem isEnabled_of_ofExact (name : String) :
    c.experiments.isEnabled name = decide (name ∈ first) := by
  rw [Bool.eq_iff_iff, h, Experiments.isEnabled_ofExact, decide_eq_true_iff]

theorem isEnabled_after_of_not_neat (changes : List Change) {name : String} (hname : name ≠ "")
    (hrough : ¬ Neat name) :
    (c.after changes).experiments.isEnabled name = decide (name ∈ first) := by
  rw [experiments_after, Experiments.isEnabled_foldl_toggle_of_not_neat _ _ hname hrough,
    isEnabled_of_ofExact h]

theorem isEnabled_after_blank (changes : List Change) :
    (c.after changes).experiments.isEnabled "" = (decide ("" ∈ first) &&
      (changes.flatMap Change.toggles).all fun t => t.isOn || trimmed t.name ≠ "") := by
  rw [experiments_after, Experiments.isEnabled_foldl_toggle_blank, isEnabled_of_ofExact h]

/-- A name stays enabled behind its own back just where trimming changes it. -/
theorem isEnabled_after_off (changes : List Change) (name : String) :
    (c.after (changes ++ [.toggle (.off name)])).experiments.isEnabled name =
      decide (name ∈ first ∧ trimmed name ≠ name) := by
  have hoff : (c.after (changes ++ [.toggle (.off name)])).experiments =
      (c.after changes).experiments.disable name := by
    rw [after_concat]
    rfl
  rw [Bool.eq_iff_iff, hoff, Experiments.isEnabled_disable, decide_eq_true_iff, ne_comm]
  by_cases hsame : trimmed name = name
  · exact ⟨fun hon => absurd hsame hon.1, fun hon => absurd hsame hon.2⟩
  · have hname : name ≠ "" := fun hblank => hsame (hblank ▸ rfl)
    have hrough : ¬ Neat name := fun hneat => hsame (Text.neat_iff.mp hneat).2
    rw [isEnabled_after_of_not_neat h changes hname hrough, decide_eq_true_iff]
    exact and_comm

theorem neat_after_iff :
    (∀ changes, ∀ name ∈ (c.after changes).experiments.names, Neat name) ↔
      ∀ name ∈ first, Neat name := by
  constructor
  · intro hafter name hmem
    apply hafter [] name
    have hon : c.experiments.isEnabled name = true := by
      rw [isEnabled_of_ofExact h, decide_eq_true hmem]
    exact of_decide_eq_true hon
  · intro hfirst changes name hmem
    have hon : (c.after changes).experiments.isEnabled name = true := decide_eq_true hmem
    by_contra hrough
    by_cases hname : name = ""
    · subst hname
      rw [isEnabled_after_blank h, Bool.and_eq_true] at hon
      exact hrough (hfirst "" (of_decide_eq_true hon.1))
    · rw [isEnabled_after_of_not_neat h changes hname hrough] at hon
      exact hrough (hfirst name (of_decide_eq_true hon))

theorem goesBy_of_ofExact : c.GoesBy first where
  decided changes name hname := by
    rw [experiments_after, Experiments.isEnabled_foldl_toggle _ _ hname, isEnabled_of_ofExact h]
  blank := isEnabled_after_blank h
  disabled := isEnabled_after_off h
  neat_iff := neat_after_iff h

end

/-- The names that a file lists as experiments, as they stand. -/
def listed? (w : Workspace) (p : Path) : Option (List String) := do
  let text ← (w.read p).toOption.bind Text.Utf8.decode?
  match ← Yaml.Document.parse? text with
  | .void => some []
  | .root root => field? (← members? root root) "experiments" [] (texts? root)

theorem listed_of_load {w : Workspace} {p : Path} {c : Config} (h : load w p = .ok c) :
    ∃ names, listed? w p = some names ∧ c.experiments = .ofExact names := by
  unfold load at h
  unfold listed?
  cases htext : (w.read p).toOption.bind Text.Utf8.decode? with
  | none => simp [htext] at h
  | some text =>
      have hparse : parse? text = some c := by
        simp only [htext] at h
        split at h
        · cases h
          assumption
        · cases h
      obtain ⟨document, hdocument, hconfig⟩ := Option.bind_eq_some_iff.mp hparse
      cases document with
      | void =>
          cases hconfig
          exact ⟨[], by simp [hdocument], rfl⟩
      | root root =>
          simp only [ofDocument?, Option.bind_eq_bind, Option.bind_eq_some_iff] at hconfig
          obtain ⟨members, hmembers, logging, -, names, hnames, order, -, hmade⟩ := hconfig
          cases hmade
          exact ⟨names, by simp [hdocument, hmembers, hnames], rfl⟩

/-- **What decides about an experiment.** Where names are enabled one after another, only neat ones
are ever in the set, a name is off after it is disabled, and the last toggle for a name decides, or
whether the names to begin with had it. Where a file lists the names, the last toggle decides in the
same way; but names are in the set as they are listed, so all are neat just where all those are that
the file lists, and a listed name that trimming changes stays on when it is disabled. -/
theorem experiments_decided (c : Config) (names : List String) (w : Workspace) (p : Path) :
    ((c.enabling names).GoesBy (Experiments.trimmedNames names) ∧
      (∀ changes, ∀ name ∈ ((c.enabling names).after changes).experiments.names, Neat name) ∧
      ∀ changes name, ((c.enabling names).after
        (changes ++ [.toggle (.off name)])).experiments.isEnabled name = false) ∧
    (load w p = .ok c → ∃ listed, listed? w p = some listed ∧ c.GoesBy listed) := by
  constructor
  · have hgoes : (c.enabling names).GoesBy (Experiments.trimmedNames names) :=
      goesBy_of_ofExact (Experiments.ofNames_eq names)
    have hneat : ∀ name ∈ Experiments.trimmedNames names, Neat name :=
      fun name => Experiments.neat_of_mem_trimmedNames
    refine ⟨hgoes, hgoes.neat_iff.mpr hneat, fun changes name => ?_⟩
    rw [hgoes.disabled]
    exact decide_eq_false fun h => h.2 (Text.neat_iff.mp (hneat name h.1)).2
  · intro hload
    obtain ⟨listed, hlisted, hnames⟩ := listed_of_load hload
    exact ⟨listed, hlisted, goesBy_of_ofExact hnames⟩

/-- A workspace with a configuration that lists a name with blanks around it. -/
def padding : Workspace where
  files := {
    objects := [([⟨[99], by decide⟩], .file (Text.Utf8.encode "experiments: [' a ']"))]
    distinct := by decide }
  here := some []

/-- Disabling a name as it is listed leaves it enabled where there are blanks around it. -/
theorem padded_name_stays :
    ∃ c, load padding (Path.ofText "/c") = .ok c ∧
      (∃ name ∈ c.experiments.names, ¬ Neat name) ∧
      (c.after [.toggle (.off " a ")]).experiments.isEnabled " a " = true := by
  let c : Config := { default with experiments := .ofExact [" a "] }
  have hload : load padding (Path.ofText "/c") = .ok c := by cbv
  have hrough : ¬ Neat " a " := fun h => Bool.noConfusion (h.tight.first ' ' rfl)
  have hlisted : c.experiments = .ofExact [" a "] := rfl
  have hstays := isEnabled_after_off hlisted [] " a "
  refine ⟨c, hload, ⟨" a ", by decide, hrough⟩, hstays.trans ?_⟩
  decide

end Config

end ArtifactHarvest
