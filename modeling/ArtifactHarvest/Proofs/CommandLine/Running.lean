import Mathlib
import ArtifactHarvest.CommandLine
import ArtifactHarvest.Proofs.Collection.Failing
import ArtifactHarvest.Proofs.Collection.Stages
import ArtifactHarvest.Proofs.Summary.Reading

/-!
A run of the command. Where nothing cancels a collection, its course decides neither whether it
succeeds nor what it then comes to (`collect_ok_iff_of_quiet`), and what is printed gives back what
it comes to (`parseAll?_listing`).

Main statement: `run_consistent`.
-/

namespace ArtifactHarvest

open Collection

variable {w : Workspace}

/-- All courses on which nothing cancels a collection have the same success, if any. -/
theorem collect_ok_iff_of_quiet {o : Order} {feature : String → FlagAnswer}
    {course course' : Course}
    (hfeature : (feature Experiments.normalisedUploadPaths).cancels = false)
    (hcourse : course.Quiet) (hcourse' : course'.Quiet) {ds : List Descriptor} :
    (collect o w feature course).outcome = .ok ds ↔
      (collect o w feature course').outcome = .ok ds := by
  rw [collect_outcome_of_quiet hfeature hcourse, collect_outcome_of_quiet hfeature hcourse']
  cases o.onReadError with
  | skip => rw [describeAll_skip_eq w _ hcourse.checking hcourse'.checking]
  | abort =>
      exact ⟨describeAll_ok_of_ok hcourse.checking hcourse'.checking,
        describeAll_ok_of_ok hcourse'.checking hcourse.checking⟩

namespace Config

/-- The answers about features: the experiments say which are on, and asking cancels nothing. -/
def feature (config : Config) (name : String) : FlagAnswer :=
  ⟨config.experiments.isEnabled name, false⟩

/-- Whether a collection under a configuration comes to an outcome on a course on which nothing
cancels it. -/
def CanComeTo (config : Config) (w : Workspace)
    (outcome : Except CollectionFault (List Descriptor)) : Prop :=
  ∃ course : Course, course.Quiet ∧
    (collect config.artifacts w config.feature course).outcome = outcome

variable {config : Config} {ds : List Descriptor}

theorem canComeTo_ok_iff : config.CanComeTo w (.ok ds) ↔
    (collect config.artifacts w config.feature (.inOrder false)).outcome = .ok ds := by
  constructor
  · rintro ⟨course, hcourse, houtcome⟩
    exact (collect_ok_iff_of_quiet rfl hcourse Course.inOrder_quiet).mp houtcome
  · exact fun houtcome => ⟨_, Course.inOrder_quiet, houtcome⟩

/-- A collection that can fail fails when the workers follow one another. -/
theorem exists_fault_of_canComeTo {fault : CollectionFault}
    (h : config.CanComeTo w (.error fault)) : ∃ fault',
      (collect config.artifacts w config.feature (.inOrder false)).outcome = .error fault' := by
  obtain ⟨course, hcourse, houtcome⟩ := h
  cases hin : (collect config.artifacts w config.feature (.inOrder false)).outcome with
  | error fault' => exact ⟨fault', rfl⟩
  | ok ds =>
      rw [(collect_ok_iff_of_quiet rfl Course.inOrder_quiet hcourse).mp hin] at houtcome
      cases houtcome

end Config

namespace CommandLine

/-- What is printed, unless it is a record of the log. -/
def Printed.text? : Printed → Option String
  | .text s => some s
  | .record _ => none

/-- What is printed besides the log. -/
def Result.texts (r : Result) : List String := r.printed.filterMap Printed.text?

/-- A run that fails before anything is collected: it prints no artifacts and changes no file. -/
structure Result.Refuses (r : Result) (w : Workspace) : Prop where
  exit : r.exit ≠ 0
  texts : r.texts = []
  workspace : r.workspace = w

/-- A summary of the artifacts is written to the file without a fault. -/
def Surroundings.Saves (around : Surroundings) (w : Workspace) (file : Path)
    (ds : List Descriptor) : Prop :=
  ∃ w', (around.summary ds).save w file around.writing = .ok w'

/-- A run that has collected its artifacts: it prints them, and it fails only if there is a summary
to write and this fails. -/
structure Result.Delivers (r : Result) (around : Surroundings) (w : Workspace)
    (summaryFile : Option Path) (ds : List Descriptor) : Prop where
  texts : ∃ text, r.texts = [text] ∧ Descriptor.parseAll? text = some ds
  exit_iff : r.exit = 0 ↔ ∀ file, summaryFile = some file → around.Saves w file ds
  kept : ∀ file, summaryFile = some file → around.Saves w file ds → ¬ w.LeadsToSpecial file →
    r.workspace.HoldsSummary file ds
  /-- What fails to be written leaves all as it was, or a beginning of the summary in the file. -/
  cutShort : ∀ file, summaryFile = some file → ¬ around.Saves w file ds →
    r.workspace = w ∨ ∃ taken, r.workspace.read file =
      .ok ((Text.Utf8.encode (around.summary ds).text).take taken)
  /-- Without a summary nothing changes, and a special file keeps nothing of one. -/
  unchanged : (∀ file, summaryFile = some file → w.LeadsToSpecial file) → r.workspace = w

variable {around : Surroundings} {options : Options} {arguments : List String}

/-- Writing succeeds where the file is one that can be written and the writing goes through. -/
theorem saves_iff {file : Path} {ds : List Descriptor} :
    around.Saves w file ds ↔ w.Writable file ∧ around.writing = .through := by
  simp only [Surroundings.Saves, Summary.save_eq_ok_iff]
  exact Workspace.write_ok_iff

theorem parseAll?_listing (ds : List Descriptor) :
    Descriptor.parseAll? (listing ds) = some ds := by
  have hblank : Json.Blank ['\n'] := fun c hc =>
    .inr (.inr (.inl (List.mem_singleton.mp hc)))
  have hlayout := (Json.layout_pretty 0 _ (Descriptor.spellable_array ds)).append
    (Json.Layout.nil hblank)
  apply Descriptor.parseAll?_of_eq
  apply Json.Value.parse?_of_layout
  rw [List.append_nil] at hlayout
  rwa [listing, String.toList_append, Json.Value.toPretty, String.toList_ofList]

/-- Records of the log are no text. -/
theorem texts_shown (settings : Log.Settings) (terminal : Option String) (log : List Log.Record) :
    (shown settings terminal log).filterMap Printed.text? = [] := by
  rw [shown, List.filterMap_map]
  exact List.filterMap_eq_nil_iff.mpr fun _ _ => rfl

/-- Printed are the artifacts once, whatever is logged before and after them. -/
theorem texts_conclude (config : Config) (summaryFile : Option Path) (log : List Log.Record)
    (ds : List Descriptor) :
    (conclude around w config summaryFile log ds).texts = [listing ds] := by
  have htext : [Printed.text (listing ds)].filterMap Printed.text? = [listing ds] := rfl
  unfold conclude Result.texts
  cases summaryFile with
  | none => simp only [List.filterMap_append, texts_shown, htext, List.nil_append, List.append_nil]
  | some file =>
      dsimp only
      split <;>
        simp only [List.filterMap_append, texts_shown, htext, List.nil_append, List.append_nil]

theorem parses_conclude (config : Config) (summaryFile : Option Path) (log : List Log.Record)
    (ds : List Descriptor) :
    ∃ text, (conclude around w config summaryFile log ds).texts = [text] ∧
      Descriptor.parseAll? text = some ds :=
  ⟨_, texts_conclude config summaryFile log ds, parseAll?_listing ds⟩

section Summaries

variable {w' : Workspace} {config : Config} {file : Path} {log : List Log.Record}
  {ds : List Descriptor}

theorem conclude_of_saved (hsave : (around.summary ds).save w file around.writing = .ok w') :
    (conclude around w config (some file) log ds).Delivers around w (some file) ds := by
  have hexit : (conclude around w config (some file) log ds).exit = 0 := by
    simp only [conclude, hsave]
  have hworkspace : (conclude around w config (some file) log ds).workspace = w' := by
    simp only [conclude, hsave]
  refine ⟨parses_conclude config (some file) log ds, ⟨?_, fun _ => hexit⟩, ?_, ?_, ?_⟩
  · rintro - _ ⟨⟩
    exact ⟨w', hsave⟩
  · rintro _ ⟨⟩ - hspecial
    rw [hworkspace]
    exact Summary.holdsSummary_of_save hsave hspecial
  · rintro _ ⟨⟩ hunsaved
    exact absurd ⟨w', hsave⟩ hunsaved
  · intro hspecial
    rw [hworkspace]
    exact (Workspace.left_of_special (hspecial file rfl)).1 w' (Summary.save_eq_ok_iff.mp hsave)

theorem conclude_of_unsaved {e : Summary.SaveFault}
    (hsave : (around.summary ds).save w file around.writing = .error e) :
    (conclude around w config (some file) log ds).Delivers around w (some file) ds := by
  have hexit : (conclude around w config (some file) log ds).exit ≠ 0 := by
    simp only [conclude, hsave]
    exact Nat.one_ne_zero
  have hworkspace : (conclude around w config (some file) log ds).workspace = e.left := by
    simp only [conclude, hsave]
  have hunsaved : ¬ around.Saves w file ds := by
    rintro ⟨w', hsaved⟩
    cases hsave.symm.trans hsaved
  have hwrite := Summary.write_of_save_error hsave
  refine ⟨parses_conclude config (some file) log ds, ?_, ?_, ?_, ?_⟩
  · exact ⟨fun hzero => absurd hzero hexit, fun hall => absurd (hall file rfl) hunsaved⟩
  · rintro _ ⟨⟩ hsaved
    exact absurd hsaved hunsaved
  · rintro _ ⟨⟩ -
    rw [hworkspace]
    exact Workspace.left_of_write hwrite
  · intro hspecial
    rw [hworkspace]
    exact (Workspace.left_of_special (hspecial file rfl)).2 _ hwrite

end Summaries

/-- The end of a run prints the artifacts, and fails only where a summary is not written. -/
theorem conclude_delivers (config : Config) (summaryFile : Option Path) (log : List Log.Record)
    (ds : List Descriptor) :
    (conclude around w config summaryFile log ds).Delivers around w summaryFile ds := by
  cases summaryFile with
  | none =>
      exact ⟨parses_conclude config none log ds, ⟨nofun, fun _ => rfl⟩, nofun, nofun, fun _ => rfl⟩
  | some file =>
      cases hsave : (around.summary ds).save w file around.writing with
      | ok w' => exact conclude_of_saved hsave
      | error e => exact conclude_of_unsaved hsave

theorem collectArtifacts_eq (around : Surroundings) (w : Workspace) (config : Config)
    (summaryFile : Option Path) :
    collectArtifacts around w config summaryFile =
      let collected := collect config.artifacts w config.feature (.inOrder false)
      let log := opening config.logging ++ collected.log
      match collected.outcome with
      | .error fault => ⟨1, shown config.logging around.terminal log, failureReport fault, w⟩
      | .ok ds => conclude around w config summaryFile log ds :=
  rfl

theorem collectArtifacts_refuses {config : Config} (summaryFile : Option Path)
    {fault : CollectionFault}
    (h : (collect config.artifacts w config.feature (.inOrder false)).outcome = .error fault) :
    (collectArtifacts around w config summaryFile).Refuses w := by
  rw [collectArtifacts_eq]
  simp only [h]
  exact ⟨Nat.one_ne_zero, texts_shown _ _ _, rfl⟩

theorem collectArtifacts_delivers {config : Config} (summaryFile : Option Path)
    {ds : List Descriptor}
    (h : (collect config.artifacts w config.feature (.inOrder false)).outcome = .ok ds) :
    (collectArtifacts around w config summaryFile).Delivers around w summaryFile ds := by
  rw [collectArtifacts_eq]
  simp only [h]
  exact conclude_delivers config summaryFile _ ds

/-- **A run.** If there is no configuration or the collection can fail, the run fails, prints no
artifacts and leaves all files as they are. Else what it prints gives back the artifacts that the
collection comes to on any course. It fails then only if there is a summary to write and writing it
fails, and a summary that is written, unless to a special file, gives the same artifacts back and
says how many they are. -/
theorem run_consistent (around : Surroundings) (w : Workspace)
    (h : Options.read arguments = .ok options) :
    ((∃ fault, options.configuration w = .error fault) ∨
        (∃ config fault, options.configuration w = .ok config ∧
          config.CanComeTo w (.error fault)) →
      (run around w arguments).Refuses w) ∧
    ∀ config ds, options.configuration w = .ok config → config.CanComeTo w (.ok ds) →
      (run around w arguments).Delivers around w options.summary ds := by
  constructor
  · rintro (⟨fault, hconfig⟩ | ⟨config, fault, hconfig, hfault⟩)
    · simp only [run, h, hconfig]
      exact ⟨Nat.one_ne_zero, rfl, rfl⟩
    · obtain ⟨fault', hfailed⟩ := Config.exists_fault_of_canComeTo hfault
      simp only [run, h, hconfig]
      exact collectArtifacts_refuses options.summary hfailed
  · intro config ds hconfig hcollected
    simp only [run, h, hconfig]
    exact collectArtifacts_delivers options.summary (Config.canComeTo_ok_iff.mp hcollected)

/-- A run that writes a summary beside the file it lists, and one that finds no configuration. -/
theorem small_runs :
    let around : Surroundings := ⟨none, "host", "id", "time", .through⟩
    (∃ options config ds,
      Options.read ["--root", "/r", "--paths=*", "--summary", "/s"] = .ok options ∧
        options.configuration .small = .ok config ∧ config.CanComeTo .small (.ok ds) ∧
        ds.length = 1 ∧
        let r := run around .small ["--root", "/r", "--paths=*", "--summary", "/s"]
        r.exit = 0 ∧ r.workspace.HoldsSummary (Path.ofText "/s") ds) ∧
      (run around .small ["-c", "/c"]).Refuses .small := by
  intro around
  constructor
  · let options : Options := { Options.none with
      paths := some "*", root := some (Path.ofText "/r"), summary := some (Path.ofText "/s") }
    let config : Config := options.applyTo .default
    have hread : Options.read ["--root", "/r", "--paths=*", "--summary", "/s"] = .ok options := by
      decide +kernel
    have hkept : config.artifacts.kept .small false = [⟨"x", Path.ofText "/r/x", "*"⟩] := by cbv
    have hreadable : ∀ a ∈ config.artifacts.kept .small false,
        Workspace.small.Readable a.absolutePath := by
      rw [hkept]
      intro a ha
      rw [List.mem_singleton.mp ha]
      exact ⟨_, _, by cbv⟩
    have hcollect : ∃ ds,
        (collect config.artifacts .small config.feature (.inOrder false)).outcome = .ok ds ∧
          ds.length = (config.artifacts.kept .small false).length :=
      exists_collect_of_kept rfl Course.inOrder_quiet hreadable
    obtain ⟨ds, hds, hlength⟩ := hcollect
    have hcollected : config.CanComeTo .small (.ok ds) := ⟨_, Course.inOrder_quiet, hds⟩
    have hdelivers := (run_consistent around .small hread).2 config ds rfl hcollected
    have hwritable : Workspace.small.Writable (Path.ofText "/s") := .inl ⟨_, .inl ⟨_, by cbv⟩⟩
    have hsaves : around.Saves .small (Path.ofText "/s") ds := saves_iff.mpr ⟨hwritable, rfl⟩
    have hspecial : ¬ Workspace.small.LeadsToSpecial (Path.ofText "/s") := by
      rintro ⟨loc, hlookup⟩
      have hmissing : Workspace.small.lookup false (Path.ofText "/s") = .error .missing := by cbv
      rw [hmissing] at hlookup
      cases hlookup
    refine ⟨options, config, ds, hread, rfl, hcollected, ?_, ?_, ?_⟩
    · rw [hlength, hkept]
      rfl
    · exact hdelivers.exit_iff.mpr fun file hfile => Option.some.inj hfile ▸ hsaves
    · exact hdelivers.kept _ rfl hsaves hspecial
  · have hread : Options.read ["-c", "/c"] =
        .ok { Options.none with config := some (Path.ofText "/c") } := by decide +kernel
    exact (run_consistent around .small hread).1 (.inl ⟨.unreadable (Path.ofText "/c"), by cbv⟩)

end CommandLine

open CommandLine

/-- A workspace with a device `/dev/null`. -/
def Workspace.withDevice : Workspace where
  files := {
    objects := [
      ([⟨[110, 117, 108, 108], by decide⟩, ⟨[100, 101, 118], by decide⟩], .special),
      ([⟨[100, 101, 118], by decide⟩], .directory)]
    distinct := by decide }
  here := some []

/-- A summary that is written to a device is lost. -/
theorem device_keeps_no_summary :
    let around : Surroundings := ⟨none, "host", "id", "time", .through⟩
    let w := Workspace.withDevice
    let file := Path.ofText "/dev/null"
    let arguments := ["--summary", "/dev/null"]
    ∃ options config, Options.read arguments = .ok options ∧ options.configuration w = .ok config ∧
      config.CanComeTo w (.ok []) ∧ options.summary = some file ∧ around.Saves w file [] ∧
      (run around w arguments).exit = 0 ∧
      ¬ (run around w arguments).workspace.HoldsSummary file [] := by
  intro around w file arguments
  let options : Options := { Options.none with summary := some file }
  let config : Config := options.applyTo .default
  have hread : Options.read arguments = .ok options := by decide +kernel
  have hspecial : Workspace.withDevice.LeadsToSpecial (Path.ofText "/dev/null") := ⟨_, by cbv⟩
  have hsaves : around.Saves w file [] := saves_iff.mpr ⟨.inr hspecial, rfl⟩
  have hcollected : (collect config.artifacts w config.feature (.inOrder false)).outcome = .ok [] :=
    collect_of_no_pattern (by decide)
  have hrun : run around w arguments = collectArtifacts around w config options.summary := by
    simp only [run, hread]
    rfl
  have hdelivers : (run around w arguments).Delivers around w options.summary [] :=
    hrun ▸ collectArtifacts_delivers options.summary hcollected
  have hcome : config.CanComeTo w (.ok []) := ⟨_, Course.inOrder_quiet, hcollected⟩
  refine ⟨options, config, hread, rfl, hcome, rfl, hsaves, ?_, ?_⟩
  · exact hdelivers.exit_iff.mpr fun _ hfile => Option.some.inj hfile ▸ hsaves
  · rw [hdelivers.unchanged fun _ hfile => Option.some.inj hfile ▸ hspecial]
    rintro ⟨content, text, hcontent, htext, ⟨s, hs, -⟩, -⟩
    have hempty : Workspace.withDevice.read (Path.ofText "/dev/null") = .ok [] := by cbv
    obtain rfl := Except.ok.inj (hcontent.symm.trans hempty)
    obtain rfl : "" = text := Option.some.inj (htext ▸ (by cbv : Text.Utf8.decode? [] = some ""))
    have hnone : Summary.parse? "" = none := by cbv
    rw [hnone] at hs
    cases hs

end ArtifactHarvest
