import ArtifactHarvest.Proofs.Collection.Reading
import ArtifactHarvest.Proofs.FileSystem.Resolution
import Mathlib

/-!
What the second stage comes to when nobody cancels it, whatever turns the workers take. Where
unreadable files are left out, the others are described in their order; where they are not, the
stage succeeds exactly if every file can be read, and else a file that cannot be read is named. A
worker that was stopped is never what is reported. Main statement: `describeAll_uncancelled`.
-/

namespace ArtifactHarvest.Collection

/-- Nothing is left out where the function has a value for each entry. -/
theorem map_some_filterMap {α β : Type} {f : α → Option β} {xs : List α}
    (h : ∀ x ∈ xs, f x ≠ none) : (xs.filterMap f).map some = xs.map f := by
  induction xs with
  | nil => rfl
  | cons x xs ih =>
      obtain ⟨y, hy⟩ := Option.ne_none_iff_exists'.mp (h x List.mem_cons_self)
      rw [List.filterMap_cons_some hy, List.map_cons, List.map_cons, hy,
        ih fun z hz => h z (List.mem_cons_of_mem x hz)]

variable {w : Workspace} {policy : ReadErrorPolicy} {artifacts : List Pending}
  {results : List (Pending × Checked)} {events : List CheckEvent}

/-- The descriptor of an artifact, if its file has a checksum. -/
def describe? (w : Workspace) (a : Pending) : Option Descriptor :=
  (checksum w false a.absolutePath).toOption.map a.describe

/-- It has the size and the digests of the file's content. -/
theorem describe?_eq (w : Workspace) (a : Pending) :
    describe? w a = (w.content? a.absolutePath).map fun content =>
      a.describe (.ofContent content) := by
  rw [describe?]
  cases hcontent : w.content? a.absolutePath with
  | some content =>
      rw [checksum_of_content hcontent]
      rfl
  | none =>
      obtain ⟨fault, hfault⟩ := checksum_of_no_content hcontent
      rw [hfault]
      rfl

theorem describe?_eq_some {a : Pending} {d : Descriptor}
    (h : describe? w a = some d) : d.path = a.path ∧ d.pattern = a.pattern := by
  simp only [describe?, Option.map_eq_some_iff] at h
  obtain ⟨sum, _, rfl⟩ := h
  exact ⟨rfl, rfl⟩

theorem paths_filterMap_describe? {artifacts : List Pending}
    (hread : ∀ a ∈ artifacts, w.Readable a.absolutePath) :
    (artifacts.filterMap (describe? w)).map Descriptor.path = artifacts.map Pending.path := by
  induction artifacts with
  | nil => rfl
  | cons a artifacts ih =>
      obtain ⟨sum, hsum⟩ := checksum_of_readable (hread a List.mem_cons_self)
      have hsome : describe? w a = some (a.describe sum) := by
        simp [describe?, hsum, Except.toOption]
      rw [List.filterMap_cons_some hsome, List.map_cons, List.map_cons,
        ih fun b hb => hread b (List.mem_cons_of_mem a hb)]
      rfl

theorem sublist_paths_filterMap_describe? (artifacts : List Pending) :
    ((artifacts.filterMap (describe? w)).map Descriptor.path).Sublist
      (artifacts.map Pending.path) := by
  induction artifacts with
  | nil => exact .slnil
  | cons a artifacts ih =>
      cases hd : describe? w a with
      | none =>
          rw [List.filterMap_cons_none hd]
          exact ih.cons _
      | some d =>
          rw [List.filterMap_cons_some hd, List.map_cons, List.map_cons,
            (describe?_eq_some hd).1]
          exact ih.cons_cons _

/-! ### Results that are merged -/

theorem stops_iff {result : Checked} :
    stops policy result = true ↔ policy = .abort ∧
      ∃ file fault, result = .error (.unreadable file fault) := by
  cases result with
  | ok sum => simp [stops]
  | error fault => cases fault <;> simp [stops, CollectionFault.isUnreadable]

theorem mem_faults_iff {a : Pending} {fault : CollectionFault} :
    (a, fault) ∈ faults results ↔ (a, .error fault) ∈ results := by
  rw [faults, List.mem_filterMap]
  constructor
  · rintro ⟨⟨a', result⟩, hmem, hfault⟩
    cases result with
    | ok sum => cases hfault
    | error fault' =>
        cases hfault
        exact hmem
  · intro hmem
    exact ⟨_, hmem, rfl⟩

/-- Where nobody was stopped, unreadable files may be left out. -/
theorem merged_skip (h : ∀ r ∈ results, r.2 ≠ .error .cancelled) :
    (merged .skip results).outcome = .ok (descriptors results) := by
  have hnone : (faults results).filter (fun r => !r.2.isUnreadable) = [] := by
    rw [List.filter_eq_nil_iff]
    rintro ⟨a, fault⟩ hmem
    cases fault with
    | unreadable file fault => simp [CollectionFault.isUnreadable]
    | cancelled => exact absurd rfl (h _ (mem_faults_iff.mp hmem))
  simp [merged, List.partition_eq_filter_filter, Function.comp_def, hnone]

/-- Results that are all checksums come to their descriptors. -/
theorem merged_of_ok (hok : ∀ r ∈ results, ∃ sum, r.2 = .ok sum) :
    merged policy results = ⟨[], .ok (descriptors results)⟩ := by
  have hfaults : faults results = [] := by
    rw [List.eq_nil_iff_forall_not_mem]
    rintro ⟨a, fault⟩ hmem
    obtain ⟨sum, hsum⟩ := hok _ (mem_faults_iff.mp hmem)
    cases hsum
  cases policy <;> simp [merged, hfaults]

/-- Where an unreadable file is to fail the collection, one that a worker reported does. -/
theorem merged_abort (h : ∃ r ∈ results, stops .abort r.2 = true) :
    ∃ r ∈ results, stops .abort r.2 = true ∧
      ∃ fault, r.2 = .error fault ∧ (merged .abort results).outcome = .error fault := by
  obtain ⟨⟨a, result⟩, hmem, hstops⟩ := h
  obtain ⟨_, file, cause, rfl⟩ := stops_iff.mp hstops
  have hsome : (faults results).filter (fun r => r.2.isUnreadable) ≠ [] :=
    List.ne_nil_of_mem (List.mem_filter.mpr ⟨mem_faults_iff.mpr hmem, rfl⟩)
  obtain ⟨⟨b, fault⟩, rest, hfirst⟩ := List.exists_cons_of_ne_nil hsome
  have hb : (b, fault) ∈ (faults results).filter fun r => r.2.isUnreadable :=
    hfirst ▸ List.mem_cons_self
  obtain ⟨hfault, hunreadable⟩ := List.mem_filter.mp hb
  refine ⟨(b, .error fault), mem_faults_iff.mp hfault, ?_, fault, rfl, ?_⟩
  · simpa [stops] using hunreadable
  · simp [merged, List.partition_eq_filter_filter, hfirst]

/-! ### Results of workers that nobody cancels -/

/-- Where no result stops the others, each artifact has the result of its own file. -/
theorem Settled.eq_map (h : Settled w policy artifacts results)
    (hnone : ∀ r ∈ results, stops policy r.2 = false) :
    results = artifacts.map fun a => (a, checksum w false a.absolutePath) := by
  rw [← h.artifacts, List.map_map]
  refine (List.map_id results).symm.trans (List.map_congr_left fun r hr => ?_)
  rcases h.own r hr with hown | hcancelled
  · exact Prod.ext rfl hown
  · obtain ⟨other, hother, hstops⟩ := h.blamed ⟨r, hr, hcancelled⟩
    rw [hnone other hother] at hstops
    cases hstops

/-- A result that stops the others names the file that its worker could not read. -/
theorem Settled.named_of_stops (h : Settled w policy artifacts results) {r : Pending × Checked}
    (hr : r ∈ results) (hstops : stops policy r.2 = true) :
    r.1 ∈ artifacts ∧ w.content? r.1.absolutePath = none ∧
      ∃ cause, r.2 = .error (.unreadable r.1.absolutePath cause) := by
  have hmem : r.1 ∈ artifacts := h.artifacts ▸ List.mem_map_of_mem hr
  obtain ⟨_, file, cause, hfault⟩ := stops_iff.mp hstops
  rcases h.own r hr with hown | hcancelled
  · cases hcontent : w.content? r.1.absolutePath with
    | some content => simp [hown, checksum_of_content hcontent] at hfault
    | none =>
        obtain ⟨cause, hcause⟩ := checksum_of_no_content hcontent
        exact ⟨hmem, rfl, cause, hown.trans hcause⟩
  · rw [hcancelled] at hfault
    cases hfault

/-- Where a file cannot be read, some result stops the others. -/
theorem Settled.exists_stops (h : Settled w .abort artifacts results)
    (hunreadable : ∃ a ∈ artifacts, ¬ w.Readable a.absolutePath) :
    ∃ r ∈ results, stops .abort r.2 = true := by
  obtain ⟨a, ha, hnot⟩ := hunreadable
  rw [← h.artifacts] at ha
  obtain ⟨r, hr, rfl⟩ := List.mem_map.mp ha
  rcases h.own r hr with hown | hcancelled
  · obtain ⟨fault, hfault⟩ := checksum_of_no_content (Workspace.not_readable_iff.mp hnot)
    exact ⟨r, hr, stops_iff.mpr ⟨rfl, _, fault, hown.trans hfault⟩⟩
  · exact h.blamed ⟨r, hr, hcancelled⟩

theorem describeAll_eq_merged (w : Workspace) (policy : ReadErrorPolicy) (artifacts : List Pending)
    (hevents : .cancel ∉ events) : ∃ results, Settled w policy artifacts results ∧
      describeAll w policy artifacts events = merged policy results := by
  have hsound := Check.after_sound hevents (Check.start_sound w policy artifacts)
  refine ⟨_, Check.results_settled hsound, ?_⟩
  simp only [describeAll, hsound.cancelled, Bool.false_eq_true, if_false]

theorem describeAll_skip (w : Workspace) (artifacts : List Pending) (hevents : .cancel ∉ events) :
    (describeAll w .skip artifacts events).outcome = .ok (artifacts.filterMap (describe? w)) := by
  obtain ⟨results, hsettled, hmerged⟩ := describeAll_eq_merged w .skip artifacts hevents
  have hresults := hsettled.eq_map fun r _ =>
    Bool.eq_false_iff.mpr fun hstops => by cases (stops_iff.mp hstops).1
  rw [hmerged, merged_skip, hresults, descriptors, List.filterMap_map]
  · rfl
  · intro r hr hcancelled
    rw [hresults] at hr
    obtain ⟨a, _, rfl⟩ := List.mem_map.mp hr
    exact checksum_ne_cancelled w _ hcancelled

/-- Whatever turns the workers take, readable artifacts are described in their order. -/
theorem describeAll_of_readable (hevents : .cancel ∉ events)
    (hread : ∀ a ∈ artifacts, w.Readable a.absolutePath) :
    (describeAll w policy artifacts events).outcome =
      .ok (artifacts.filterMap (describe? w)) := by
  obtain ⟨results, hsettled, hmerged⟩ := describeAll_eq_merged w policy artifacts hevents
  have hresults := hsettled.eq_map fun r hr => Bool.eq_false_iff.mpr fun hstops => by
    obtain ⟨hmem, hnone, _⟩ := hsettled.named_of_stops hr hstops
    exact Workspace.not_readable_iff.mpr hnone (hread _ hmem)
  rw [hmerged, merged_of_ok, hresults, descriptors, List.filterMap_map]
  · rfl
  · intro r hr
    rw [hresults] at hr
    obtain ⟨a, ha, rfl⟩ := List.mem_map.mp hr
    exact checksum_of_readable (hread a ha)

/-- Where an unreadable file is to fail the collection, one of those is named. -/
theorem describeAll_of_unreadable (hevents : .cancel ∉ events)
    (h : ∃ a ∈ artifacts, ¬ w.Readable a.absolutePath) :
    ∃ a ∈ artifacts, ¬ w.Readable a.absolutePath ∧ ∃ cause,
      (describeAll w .abort artifacts events).outcome =
        .error (.unreadable a.absolutePath cause) := by
  obtain ⟨results, hsettled, hmerged⟩ := describeAll_eq_merged w .abort artifacts hevents
  obtain ⟨r, hr, hstops, fault, hfault, houtcome⟩ := merged_abort (hsettled.exists_stops h)
  obtain ⟨hmem, hnone, cause, hcause⟩ := hsettled.named_of_stops hr hstops
  refine ⟨r.1, hmem, Workspace.not_readable_iff.mpr hnone, cause, ?_⟩
  rw [hmerged, houtcome, ← Except.error.inj (hfault.symm.trans hcause)]

/-- A stage that nobody cancels fails for an artifact that cannot be read. -/
theorem exists_unreadable_of_failed {fault : CollectionFault} (hevents : .cancel ∉ events)
    (h : (describeAll w policy artifacts events).outcome = .error fault) :
    ∃ a ∈ artifacts, ¬ w.Readable a.absolutePath ∧ ∃ cause,
      fault = .unreadable a.absolutePath cause := by
  by_cases hall : ∀ a ∈ artifacts, w.Readable a.absolutePath
  · rw [describeAll_of_readable hevents hall] at h
    cases h
  · cases policy with
    | skip =>
        rw [describeAll_skip w artifacts hevents] at h
        cases h
    | abort =>
        simp only [not_forall, exists_prop] at hall
        obtain ⟨a, ha, hnone, cause, hfault⟩ := describeAll_of_unreadable hevents hall
        rw [h] at hfault
        exact ⟨a, ha, hnone, cause, Except.error.inj hfault⟩

/-- A worker that another one stopped is not reported as a cancellation. -/
theorem describeAll_ne_cancelled (w : Workspace) (policy : ReadErrorPolicy)
    (artifacts : List Pending) (hevents : .cancel ∉ events) :
    (describeAll w policy artifacts events).outcome ≠ .error .cancelled := by
  intro h
  obtain ⟨_, _, _, _, hcause⟩ := exists_unreadable_of_failed hevents h
  cases hcause

/-- **The second stage, when nobody cancels it.** Whatever turns the workers take, where unreadable
files are left out the stage comes to the readable artifacts in their order, each with size and
digests of its own file's content. Where they are not, it succeeds exactly if every file can be
read, then with all artifacts in their order, and else it names a file that cannot be read. A worker
that another one stopped is never reported as a cancellation. -/
theorem describeAll_uncancelled (w : Workspace) (artifacts : List Pending)
    (hevents : .cancel ∉ events) :
    (describeAll w .skip artifacts events).outcome = .ok (artifacts.filterMap fun a =>
      (w.content? a.absolutePath).map fun content => a.describe (.ofContent content)) ∧
    ((∃ ds, (describeAll w .abort artifacts events).outcome = .ok ds) ↔
      ∀ a ∈ artifacts, w.Readable a.absolutePath) ∧
    (∀ ds, (describeAll w .abort artifacts events).outcome = .ok ds →
      ds.map some = artifacts.map fun a =>
        (w.content? a.absolutePath).map fun content => a.describe (.ofContent content)) ∧
    (∀ fault, (describeAll w .abort artifacts events).outcome = .error fault →
      ∃ a ∈ artifacts, ¬ w.Readable a.absolutePath ∧
        ∃ cause, fault = .unreadable a.absolutePath cause) ∧
    ∀ policy, (describeAll w policy artifacts events).outcome ≠ .error .cancelled := by
  have hskip := describeAll_skip w artifacts hevents
  have hreadable : (∀ a ∈ artifacts, w.Readable a.absolutePath) →
      (describeAll w .abort artifacts events).outcome = .ok (artifacts.filterMap (describe? w)) :=
    describeAll_of_readable hevents
  have hsuccess : (∃ ds, (describeAll w .abort artifacts events).outcome = .ok ds) →
      ∀ a ∈ artifacts, w.Readable a.absolutePath := by
    rintro ⟨ds, hds⟩ a ha
    by_contra hunreadable
    obtain ⟨_, _, _, cause, hfault⟩ := describeAll_of_unreadable hevents ⟨a, ha, hunreadable⟩
    rw [hds] at hfault
    cases hfault
  have hfailure : ∀ fault, (describeAll w .abort artifacts events).outcome = .error fault →
      ∃ a ∈ artifacts, ¬ w.Readable a.absolutePath ∧
        ∃ cause, fault = .unreadable a.absolutePath cause := by
    intro fault hfault
    have hsome : ∃ a ∈ artifacts, ¬ w.Readable a.absolutePath := by
      by_contra hnone
      simp only [not_exists, not_and, not_not] at hnone
      rw [hreadable hnone] at hfault
      cases hfault
    obtain ⟨a, ha, hunreadable, cause, houtcome⟩ := describeAll_of_unreadable hevents hsome
    exact ⟨a, ha, hunreadable, cause, Except.error.inj (hfault.symm.trans houtcome)⟩
  refine ⟨?_, ⟨hsuccess, fun hall => ⟨_, hreadable hall⟩⟩, ?_, hfailure, ?_⟩
  · rw [hskip]
    exact congrArg _ (List.filterMap_congr fun a _ => describe?_eq w a)
  · intro ds hds
    have hall := hsuccess ⟨ds, hds⟩
    obtain rfl := Except.ok.inj ((hreadable hall).symm.trans hds)
    rw [map_some_filterMap]
    · exact List.map_congr_left fun a _ => describe?_eq w a
    · intro a ha hnone
      obtain ⟨content, hcontent⟩ := Workspace.readable_iff.mp (hall a ha)
      rw [describe?_eq, hcontent] at hnone
      cases hnone
  · exact fun policy => describeAll_ne_cancelled w policy artifacts hevents

/-- A reader that is stopped by another one's unreadable file. -/
theorem stopped_reader_unreported :
    let x : Pending := ⟨"x", Path.ofText "/r/x", "*"⟩
    let y : Pending := ⟨"y", Path.ofText "/r/y", "*"⟩
    let events : List CheckEvent := [.turn 0, .turn 1, .turn 1, .turn 0]
    .cancel ∉ events ∧
      ((Check.start [x, y]).after .small .abort events).results .small .abort =
        [(x, .error .cancelled), (y, .error (.unreadable (Path.ofText "/r/y") .missing))] ∧
      (describeAll .small .abort [x, y] events).outcome ≠ .error .cancelled ∧
      (describeAll .small .skip [x, y] events).outcome = .ok [x.describe (.ofContent [])] := by
  intro x y events
  have hevents : .cancel ∉ events := by decide
  have hfound : Workspace.small.content? (Path.ofText "/r/x") = some [] := by cbv
  have hmissing : Workspace.small.content? (Path.ofText "/r/y") = none := by cbv
  obtain ⟨hskip, _, _, _, hnever⟩ := describeAll_uncancelled .small [x, y] hevents
  refine ⟨hevents, by cbv, hnever .abort, hskip.trans ?_⟩
  simp [x, y, hfound, hmissing]

end ArtifactHarvest.Collection
