import ArtifactHarvest.Proofs.Experiments.Members
import ArtifactHarvest.Proofs.Options.Gathering
import Mathlib.Data.List.Flatten
import Mathlib.Data.List.Perm.Basic

/-!
Options written out as arguments, one for each value that is set and one for each switch that is on.
They are read back whatever the values are and in whatever order they stand, as long as the
experiments stay in sequence; in another sequence these make no difference to the configuration
(`configuration_perm`); and one argument too many is refused. Main statement: `read_rendered`.
-/

namespace ArtifactHarvest.Options

open Text.Utf8 (encode encode_injective)

/-- The paths that are set hold something. -/
structure Filled (o : Options) : Prop where
  root : o.root ≠ some Path.empty
  config : o.config ≠ some Path.empty
  summary : o.summary ≠ some Path.empty

/-- What gives the options: each value that is set, and each switch that is on. -/
def given (o : Options) : List Given :=
  (settings.flatMap fun s => (o.values s).map (.setting s)) ++
    (switches.filter o.isOn).map .switch

/-- The arguments that give each of the options once, in any order that keeps the experiments in
sequence, each in any of its spellings with the value attached. -/
def RenderedBy (o : Options) (arguments : List Bytes) : Prop :=
  ∃ givens : List Given, givens.Perm o.given ∧
    givens.flatMap (·.valuesFor .experiment) = o.values .experiment ∧
    List.Forall₂ Given.Spells givens arguments

/-! ### What gives the options -/

theorem mem_given_setting {o : Options} {s : Setting} {value : Bytes} :
    .setting s value ∈ o.given ↔ value ∈ o.values s := by
  have hall : s ∈ settings := by cases s <;> decide
  simp [given, hall]

theorem mem_given_switch {o : Options} {s : Switch} : .switch s ∈ o.given ↔ o.isOn s = true := by
  have hall : s ∈ switches := by cases s <;> decide
  simp [given, hall]

theorem flatMap_valuesFor_setting (s t : Setting) (values : List Bytes) :
    (values.map (Given.setting s)).flatMap (·.valuesFor t) = if s = t then values else [] := by
  by_cases h : s = t <;> simp [List.flatMap_map, Given.valuesFor, h]

theorem flatMap_valuesFor_given (o : Options) (t : Setting) :
    o.given.flatMap (·.valuesFor t) = o.values t := by
  have hswitches : ((switches.filter o.isOn).map Given.switch).flatMap (·.valuesFor t) = [] := by
    simp [List.flatMap_map, Given.valuesFor]
  rw [given, List.flatMap_append, hswitches, List.append_nil, List.flatMap_assoc]
  simp only [flatMap_valuesFor_setting]
  cases t <;> simp [settings]

theorem once_values_sublist (o : Options) (s : Setting) :
    (once ((o.values s).map (.setting s))).Sublist [.setting s] := by
  by_cases hs : s = .experiment
  · simp [once, hs, Given.key]
  · rcases values_nil_or_single hs o with hnone | ⟨value, hone⟩
    · rw [hnone]
      exact List.nil_sublist _
    · rw [hone]
      exact List.filter_sublist

/-- Nothing is given twice that may be given once. -/
theorem once_given_nodup (o : Options) : (once o.given).Nodup := by
  have hsettings : (once (settings.flatMap fun s => (o.values s).map (.setting s))).Sublist
      (settings.map .setting) := by
    unfold once
    rw [List.map_flatMap, List.filter_flatMap, List.map_eq_flatMap]
    exact List.Sublist.flatMap_right settings fun s _ => once_values_sublist o s
  have hswitches : (once ((switches.filter o.isOn).map .switch)).Sublist
      (switches.map .switch) := by
    unfold once
    rw [List.map_map]
    exact List.filter_sublist.trans (List.filter_sublist.map Key.switch)
  have hdistinct : (settings.map Key.setting ++ switches.map Key.switch).Nodup := by decide
  rw [given, once_append]
  exact hdistinct.sublist (hsettings.append hswitches)

theorem ne_nil_of_mem_bytes {path : Option Path} (h : path ≠ some Path.empty) {value : Bytes}
    (hvalue : value ∈ (path.map Path.bytes).toList) : value ≠ [] := by
  obtain ⟨p, rfl, rfl⟩ := Option.map_eq_some_iff.mp (Option.mem_toList.mp hvalue)
  intro hempty
  exact h (congrArg some (Path.eq_of_bytes hempty))

theorem exists_text_of_mem_encode {text : Option String} {value : Bytes}
    (hvalue : value ∈ (text.map encode).toList) : ∃ text, value = encode text := by
  obtain ⟨text, -, rfl⟩ := Option.map_eq_some_iff.mp (Option.mem_toList.mp hvalue)
  exact ⟨text, rfl⟩

theorem proper_of_mem_given {o : Options} (ho : o.Filled) {g : Given} (hg : g ∈ o.given) :
    g.Proper := by
  cases g with
  | switch s =>
      have hon := mem_given_switch.mp hg
      rintro rfl
      cases hon
  | setting s value =>
      have hvalue := mem_given_setting.mp hg
      cases s with
      | root => exact ne_nil_of_mem_bytes ho.root hvalue
      | config => exact ne_nil_of_mem_bytes ho.config hvalue
      | summary => exact ne_nil_of_mem_bytes ho.summary hvalue
      | paths | logLevel => exact exists_text_of_mem_encode hvalue
      | experiment =>
          obtain ⟨text, -, rfl⟩ := List.mem_map.mp hvalue
          exact ⟨text, rfl⟩

/-! ### Another order -/

theorem values_eq_of_perm {s : Setting} (hs : s ≠ .experiment) {o : Options} {values : List Bytes}
    (h : values.Perm (o.values s)) : values = o.values s := by
  rcases values_nil_or_single hs o with hnone | ⟨value, hone⟩
  · rw [hnone] at h ⊢
    exact h.eq_nil
  · rw [hone] at h ⊢
    exact h.eq_singleton

/-- What gives the options gives them in any order, but for the sequence of the experiments. -/
theorem exists_accepted {o : Options} (ho : o.Filled) {givens : List Given}
    (hperm : givens.Perm o.given) :
    ∃ experiments : List String, experiments.Perm o.experiments ∧
      experiments.map encode = givens.flatMap (·.valuesFor .experiment) ∧
      givens.foldlM accept Options.none = .ok { o with experiments } := by
  have hproper : ∀ g ∈ givens, g.Proper := fun g hg =>
    proper_of_mem_given ho (hperm.mem_iff.mp hg)
  have hnodup : (once givens).Nodup := (once_perm hperm).nodup_iff.mpr (once_given_nodup o)
  obtain ⟨o', hrun, hgathers⟩ := exists_gathered hproper hnodup fun k _ => holds_none k
  have hvalues : ∀ t, o'.values t = givens.flatMap (·.valuesFor t) := by
    intro t
    rw [hgathers.values]
    cases t <;> rfl
  have hmoved : ∀ t, (o'.values t).Perm (o.values t) := by
    intro t
    rw [hvalues, ← flatMap_valuesFor_given o t]
    exact hperm.flatMap_right _
  -- only experiments have several values, so the values of any other setting cannot have moved
  refine ⟨o'.experiments, (List.map_perm_map_iff encode_injective).mp (hmoved .experiment),
    hvalues .experiment, ?_⟩
  rw [hrun]
  congr 1
  apply eq_of_values
  · intro t
    by_cases ht : t = .experiment
    · subst ht
      rfl
    · have hsame : ({ o with experiments := o'.experiments } : Options).values t = o.values t := by
        cases t <;> first | rfl | exact absurd rfl ht
      rw [hsame]
      exact values_eq_of_perm ht (hmoved t)
  · intro s
    have hsame : ({ o with experiments := o'.experiments } : Options).isOn s = o.isOn s := by
      cases s <;> rfl
    rw [hsame, hgathers.isOn, Bool.eq_iff_iff, ← mem_given_switch, ← hperm.mem_iff]
    cases s <;> simp [Options.none, isOn]

theorem applyTo_perm {o : Options} {experiments : List String}
    (h : experiments.Perm o.experiments) (c : Config) :
    ({ o with experiments } : Options).applyTo c = o.applyTo c := by
  unfold applyTo
  rw [Experiments.foldl_enable_perm c.experiments h]

/-- The sequence of the experiments makes no difference to the configuration. -/
theorem configuration_perm {o : Options} {experiments : List String}
    (h : experiments.Perm o.experiments) (w : Workspace) :
    ({ o with experiments } : Options).configuration w = o.configuration w := by
  unfold configuration
  have happly : ({ o with experiments } : Options).applyTo = o.applyTo :=
    funext fun c => applyTo_perm h c
  rw [happly]

/-! ### Arguments -/

/-- Arguments in another order spell what they spelled, in that order. -/
theorem exists_spelled_of_perm {givens : List Given} {arguments permuted : List Bytes}
    (h : List.Forall₂ Given.Spells givens arguments) (hperm : permuted.Perm arguments) :
    ∃ others : List Given, others.Perm givens ∧ List.Forall₂ Given.Spells others permuted := by
  obtain ⟨others, hspells, hothers⟩ := List.perm_comp_forall₂ hperm h.flip
  exact ⟨others, hothers, hspells.flip⟩

theorem readBytes_eq_of_perm {o : Options} (ho : o.Filled) {givens : List Given}
    (hperm : givens.Perm o.given) {arguments : List Bytes}
    (h : List.Forall₂ Given.Spells givens arguments) :
    readBytes arguments = givens.foldlM accept Options.none :=
  readBytes_spelled h fun _ hg => proper_of_mem_given ho (hperm.mem_iff.mp hg)

theorem readBytes_rendered {o : Options} (ho : o.Filled) {arguments : List Bytes}
    (h : o.RenderedBy arguments) : readBytes arguments = .ok o := by
  obtain ⟨givens, hperm, hsequence, hspells⟩ := h
  obtain ⟨experiments, -, hexperiments, hrun⟩ := exists_accepted ho hperm
  have hsame : experiments = o.experiments := by
    apply List.map_injective_iff.mpr encode_injective
    rw [hexperiments, hsequence]
    rfl
  rw [readBytes_eq_of_perm ho hperm hspells, hrun, hsame]

theorem readBytes_repeated {o : Options} (ho : o.Filled) {givens : List Given}
    (hperm : givens.Perm o.given) {front back : List Bytes}
    (h : List.Forall₂ Given.Spells givens (front ++ back)) {again : Given} (hagain : again.Proper)
    (hkey : again.key ∈ once o.given) {argument : Bytes} (hargument : again.Spells argument) :
    readBytes (front ++ argument :: back) = .error again.key.conflict := by
  have hbefore := List.forall₂_take_append givens front back h
  have hbehind := List.forall₂_drop_append givens front back h
  have hsplit := List.take_append_drop front.length givens
  generalize givens.take front.length = before at hbefore hsplit
  generalize givens.drop front.length = behind at hbehind hsplit
  subst hsplit
  have hspells : List.Forall₂ Given.Spells (before ++ again :: behind)
      (front ++ argument :: back) := List.rel_append hbefore (.cons hargument hbehind)
  have hproper : ∀ g ∈ before ++ behind, g.Proper := fun g hg =>
    proper_of_mem_given ho (hperm.mem_iff.mp hg)
  rw [readBytes_spelled hspells (Given.forall_proper_insert hproper hagain)]
  apply foldlM_accept_inserted hproper _ hagain
  · exact (once_perm hperm).mem_iff.mpr hkey
  · exact (once_perm hperm).nodup_iff.mpr (once_given_nodup o)

/-- **Options are read back** from every way of writing them out as one argument each, whatever the
values are. In any other order the arguments come to the same configuration, and with one argument
more, for an option that may be given once, they are refused. -/
theorem read_rendered {o : Options} (ho : o.Filled) {arguments : List Bytes}
    (h : o.RenderedBy arguments) :
    readBytes arguments = .ok o ∧
      (∀ permuted : List Bytes, permuted.Perm arguments →
        ∃ o', readBytes permuted = .ok o' ∧ (∀ c, o'.applyTo c = o.applyTo c) ∧
          ∀ w, o'.configuration w = o.configuration w) ∧
      ∀ (front back : List Bytes) (again : Given) (argument : Bytes),
        (front ++ back).Perm arguments → again.Proper → again.key ∈ o.given.map Given.key →
          again.key ≠ .setting .experiment → again.Spells argument →
            readBytes (front ++ argument :: back) = .error again.key.conflict := by
  have hread := readBytes_rendered ho h
  obtain ⟨givens, hgivens, -, hspells⟩ := h
  refine ⟨hread, ?_, ?_⟩
  · intro permuted hpermuted
    obtain ⟨others, hothers, hspelled⟩ := exists_spelled_of_perm hspells hpermuted
    have hperm : others.Perm o.given := hothers.trans hgivens
    obtain ⟨experiments, hexperiments, -, hrun⟩ := exists_accepted ho hperm
    exact ⟨{ o with experiments }, (readBytes_eq_of_perm ho hperm hspelled).trans hrun,
      applyTo_perm hexperiments, configuration_perm hexperiments⟩
  · intro front back again argument hpermuted hagain hkey honce hargument
    obtain ⟨others, hothers, hspelled⟩ := exists_spelled_of_perm hspells hpermuted
    have hmem : again.key ∈ once o.given := List.mem_filter.mpr ⟨hkey, decide_eq_true honce⟩
    exact readBytes_repeated ho (hothers.trans hgivens) hspelled hagain hmem hargument

/-- Options with values that look like options, that hold nothing and that are no text. -/
def confusing : Options :=
  { Options.none with
    paths := some "--", followSymlinks := true, root := some ⟨[0xFF, 61]⟩,
    experiments := ["", "-x=y"], config := some (Path.ofText "-c"), logLevel := some "",
    debug := true }

def confusingArguments : List Bytes :=
  [encode "--log-level=", encode "--experiment=", encode "-c=-c", encode "--verbose",
    encode "--experiment=-x=y", encode "--root=" ++ [0xFF, 61], encode "--follow-symlinks",
    encode "--paths=--"]

theorem confusing_renderedBy : confusing.RenderedBy confusingArguments := by
  refine ⟨[.setting .logLevel [], .setting .experiment [], .setting .config (encode "-c"),
    .switch .debug, .setting .experiment (encode "-x=y"), .setting .root [0xFF, 61],
    .switch .followSymlinks, .setting .paths (encode "--")], by decide, by decide, ?_⟩
  have hpieces : confusingArguments =
      [encode ("--" ++ Setting.logLevel.name ++ "=") ++ [],
        encode ("--" ++ Setting.experiment.name ++ "=") ++ [],
        encode "-c=" ++ encode "-c",
        encode "--verbose",
        encode ("--" ++ Setting.experiment.name ++ "=") ++ encode "-x=y",
        encode ("--" ++ Setting.root.name ++ "=") ++ [0xFF, 61],
        encode ("--" ++ Switch.followSymlinks.name),
        encode ("--" ++ Setting.paths.name ++ "=") ++ encode "--"] := by decide
  rw [hpieces]
  exact .cons (.named _ _) (.cons (.named _ _) (.cons (.config _) (.cons .verbose
    (.cons (.named _ _) (.cons (.named _ _) (.cons (.switched _) (.cons (.named _ _) .nil)))))))

/-- Read back, in reverse too, and refused with the switch for debugging once more at the end. -/
theorem read_confusing :
    readBytes confusingArguments = .ok confusing ∧
      (∃ o, readBytes confusingArguments.reverse = .ok o ∧
        ∀ c, o.applyTo c = confusing.applyTo c) ∧
      readBytes (confusingArguments ++ [encode "-d"]) = .error (.switchRepeated .debug) := by
  have ho : confusing.Filled := ⟨by decide, by decide, by decide⟩
  obtain ⟨hread, hmoved, hrepeated⟩ := read_rendered ho confusing_renderedBy
  obtain ⟨o, hreverse, happly, -⟩ := hmoved confusingArguments.reverse (List.reverse_perm _)
  have hfront : (confusingArguments ++ []).Perm confusingArguments := by simp
  have hproper : (Given.switch .debug).Proper := fun hhelp => by cases hhelp
  have hrefused := hrepeated confusingArguments [] (.switch .debug) (encode "-d") hfront hproper
    (by decide) (by decide) .debug
  exact ⟨hread, ⟨o, hreverse, happly⟩, hrefused⟩

end ArtifactHarvest.Options
