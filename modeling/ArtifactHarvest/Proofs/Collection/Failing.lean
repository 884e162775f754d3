import ArtifactHarvest.Proofs.Collection.Describing

/-!
Which fault the second stage fails with. A worker whose file cannot be opened finds that out even
where it is to stop (`Check.after_barring`), and the first fault in the order of the artifacts is
reported (`merged_of_first`), so every file in front of the one that is named can be opened. Which
of the files that open is named depends on the turns: a worker that goes ahead alone stops the
others (`exists_events_alone`). Main statement: `describeAll_over_schedules`.
-/

namespace ArtifactHarvest

theorem modify_append_cons {α : Type} (f : α → α) (front : List α) (x : α) (back : List α) :
    (front ++ x :: back).modify front.length f = front ++ f x :: back := by
  induction front with
  | nil => rfl
  | cons y front ih => simp [ih]

/-- The path leads to a file that can be opened. Reading it may still fail. -/
def Checksum.Opens (w : Workspace) (file : Path) : Prop :=
  ∃ reads, readsOf w file = .ok reads

namespace Collection

variable {w : Workspace} {file : Path} {cause : Fault} {policy : ReadErrorPolicy}
  {artifacts : List Pending} {results : List (Pending × Checked)}

/-- What the stage can fail with: the fault of an artifact that cannot be read, where all artifacts
in front of it can be opened. -/
def CanFailWith (w : Workspace) (artifacts : List Pending) (fault : CollectionFault) : Prop :=
  ∃ front a back, artifacts = front ++ a :: back ∧
    (∀ b ∈ front, Checksum.Opens w b.absolutePath) ∧ checksum w false a.absolutePath = .error fault

theorem opens_of_readable (h : w.Readable file) : Checksum.Opens w file := by
  obtain ⟨loc, content, hlook⟩ := h
  refine ⟨Read.ofBytes content false, ?_⟩
  simp only [Checksum.readsOf, hlook]

/-- A worker that is stopped notices it once its file is open. -/
theorem checksum_of_stopped (h : Checksum.Opens w file) :
    checksum w true file = .error .cancelled := by
  obtain ⟨reads, hreads⟩ := h
  simp only [checksum, Checksum.ofFile, hreads, Checksum.ofReads]
  cases reads <;> rfl

theorem checksum_of_unopened (h : Checksum.readsOf w file = .error cause) (stopped : Bool) :
    checksum w stopped file = .error (.unreadable file cause) := by
  simp only [checksum, Checksum.ofFile, h, checkedAs]

/-! ### Files that cannot be opened -/

namespace Reader

/-- The worker has not begun, or has found that its file cannot be opened. -/
def Barred (file : Path) (cause : Fault) (r : Reader) : Prop :=
  r = .waiting ∨ r = .done (.error (.unreadable file cause)) ∨
    r = .over (.error (.unreadable file cause))

theorem advance_barred (h : Checksum.readsOf w file = .error cause) (stopped : Bool) {r : Reader}
    (hr : r.Barred file cause) : (r.advance w stopped file).Barred file cause := by
  rcases hr with rfl | rfl | rfl
  · exact .inr (.inl (by simp only [advance, h]))
  · exact .inr (.inr rfl)
  · exact .inr (.inr rfl)

theorem complete_of_barred (h : Checksum.readsOf w file = .error cause) (stopped : Bool)
    {r : Reader} (hr : r.Barred file cause) :
    r.complete w stopped file = .error (.unreadable file cause) := by
  rcases hr with rfl | rfl | rfl
  · exact checksum_of_unopened h stopped
  · rfl
  · rfl

end Reader

namespace Check

/-- No worker is past a file that cannot be opened. -/
def Barring (w : Workspace) (c : Check) : Prop :=
  ∀ worker ∈ c.workers, ∀ cause, Checksum.readsOf w worker.1.absolutePath = .error cause →
    worker.2.Barred worker.1.absolutePath cause

theorem start_barring (w : Workspace) (artifacts : List Pending) :
    (start artifacts).Barring w := by
  intro worker hworker cause _
  obtain ⟨a, _, rfl⟩ := List.mem_map.mp hworker
  exact .inl rfl

theorem step_barring {c : Check} (event : CheckEvent) (hc : c.Barring w) :
    (c.step w policy event).Barring w := by
  cases event with
  | cancel => exact hc
  | turn worker =>
      refine forall_mem_modify hc ?_ worker
      exact fun worker hworker cause hcause =>
        Reader.advance_barred hcause c.stopped (hc worker hworker cause hcause)

theorem after_barring (policy : ReadErrorPolicy) {c : Check} (events : List CheckEvent)
    (hc : c.Barring w) : (c.after w policy events).Barring w :=
  List.foldlRecOn events _ hc fun _ hlater event _ => step_barring event hlater

theorem complete_of_unopened {workers : List (Pending × Reader)} {stopped : Bool}
    (h : ∀ worker ∈ workers, ∀ cause, Checksum.readsOf w worker.1.absolutePath = .error cause →
      worker.2.Barred worker.1.absolutePath cause) :
    ∀ r ∈ complete w policy stopped workers, ∀ cause,
      Checksum.readsOf w r.1.absolutePath = .error cause →
        r.2 = .error (.unreadable r.1.absolutePath cause) := by
  induction workers generalizing stopped with
  | nil => nofun
  | cons worker workers ih =>
      rw [complete, List.forall_mem_cons]
      refine ⟨fun cause hcause => ?_,
        ih fun later hlater => h later (List.mem_cons_of_mem _ hlater)⟩
      exact Reader.complete_of_barred hcause stopped (h worker List.mem_cons_self cause hcause)

/-- Whoever stops a worker, a file that cannot be opened has its own fault. -/
theorem results_of_unopened (w : Workspace) (policy : ReadErrorPolicy) (artifacts : List Pending)
    (events : List CheckEvent) :
    ∀ r ∈ ((start artifacts).after w policy events).results w policy, ∀ cause,
      Checksum.readsOf w r.1.absolutePath = .error cause →
        r.2 = .error (.unreadable r.1.absolutePath cause) :=
  complete_of_unopened (after_barring policy events (start_barring w artifacts))

end Check

/-! ### The first fault is reported -/

theorem faults_append (front back : List (Pending × Checked)) :
    faults (front ++ back) = faults front ++ faults back :=
  List.filterMap_append

/-- The first result in order that names an unreadable file fails the collection. -/
theorem merged_of_first {front back : List (Pending × Checked)} {a : Pending}
    {fault : CollectionFault} (hfault : fault.isUnreadable = true)
    (hfront : ∀ r ∈ front, stops .abort r.2 = false) :
    (merged .abort (front ++ (a, .error fault) :: back)).outcome = .error fault := by
  have hnone : (faults front).filter (fun r => r.2.isUnreadable) = [] := by
    rw [List.filter_eq_nil_iff]
    rintro ⟨b, other⟩ hmem
    simpa [stops] using hfront _ (mem_faults_iff.mp hmem)
  have hhere : faults ((a, .error fault) :: back) = (a, fault) :: faults back := rfl
  simp [merged, List.partition_eq_filter_filter, faults_append, hhere, hnone, hfault]

/-- Of the results that stop the others one comes first. -/
theorem exists_first_stop (h : ∃ r ∈ results, stops policy r.2 = true) :
    ∃ front r back, results = front ++ r :: back ∧ stops policy r.2 = true ∧
      ∀ other ∈ front, stops policy other.2 = false := by
  obtain ⟨r, hr⟩ := Option.isSome_iff_exists.mp (List.find?_isSome.mpr h)
  obtain ⟨hstops, front, back, hsplit, hfront⟩ := List.find?_eq_some_iff_append.mp hr
  exact ⟨front, r, back, hsplit, hstops, fun other hother => by simpa using hfront other hother⟩

/-- The stage fails with the fault of an artifact in front of which all can be opened. -/
theorem canFailWith_of_failed {events : List CheckEvent} {fault : CollectionFault}
    (hevents : .cancel ∉ events)
    (h : (describeAll w .abort artifacts events).outcome = .error fault) :
    CanFailWith w artifacts fault := by
  have hsound := Check.after_sound hevents (Check.start_sound w .abort artifacts)
  have hsettled := Check.results_settled hsound
  have hunopened := Check.results_of_unopened w .abort artifacts events
  have hunreadable : ∃ a ∈ artifacts, ¬ w.Readable a.absolutePath := by
    obtain ⟨a, ha, hnone, _⟩ := exists_unreadable_of_failed hevents h
    exact ⟨a, ha, hnone⟩
  simp only [describeAll, hsound.cancelled, Bool.false_eq_true, if_false] at h
  obtain ⟨front, r, back, hsplit, hstops, hfront⟩ :=
    exists_first_stop (hsettled.exists_stops hunreadable)
  have hr : r ∈ ((Check.start artifacts).after w .abort events).results w .abort := by
    rw [hsplit]
    exact List.mem_append_right _ List.mem_cons_self
  obtain ⟨_, _, cause, hcause⟩ := hsettled.named_of_stops hr hstops
  have hown : r.2 = checksum w false r.1.absolutePath :=
    (hsettled.own r hr).resolve_right (by simp [hcause])
  have hreported : fault = .unreadable r.1.absolutePath cause := by
    have hhere : r = (r.1, .error (.unreadable r.1.absolutePath cause)) := Prod.ext rfl hcause
    rw [hsplit, hhere, merged_of_first rfl hfront] at h
    exact (Except.error.inj h).symm
  refine ⟨front.map Prod.fst, r.1, back.map Prod.fst, ?_, ?_, ?_⟩
  · rw [← hsettled.artifacts, hsplit, List.map_append, List.map_cons]
  · intro b hb
    obtain ⟨other, hother, rfl⟩ := List.mem_map.mp hb
    cases hopens : Checksum.readsOf w other.1.absolutePath with
    | ok reads => exact ⟨reads, hopens⟩
    | error cause =>
        have hmem := hsplit ▸ List.mem_append_left (r :: back) hother
        have hnot := hfront other hother
        rw [hunopened other hmem cause hopens] at hnot
        cases hnot
  · rw [← hown, hcause, hreported]

/-! ### A worker that goes ahead alone -/

namespace Check

variable {front back : List (Pending × Reader)} {a : Pending} {r : Reader}

/-- A turn of one worker changes its entry only, and stops the others only if it hands over a result
that does. -/
theorem step_turn (w : Workspace) (policy : ReadErrorPolicy) (aborted : Bool) {k : Nat}
    (hk : front.length = k) :
    (Check.mk (front ++ (a, r) :: back) aborted false).step w policy (.turn k) =
      ⟨front ++ (a, r.advance w aborted a.absolutePath) :: back,
        aborted || (match r with | .done result => stops policy result | _ => false), false⟩ := by
  subst hk
  have hworker : (front ++ (a, r) :: back)[front.length]? = some (a, r) := by simp
  simp only [step, stopped, Bool.or_false, handsOverStop, hworker, modify_append_cons]
  cases r <;> rfl

theorem after_cons (c : Check) (event : CheckEvent) (events : List CheckEvent) :
    c.after w policy (event :: events) = (c.step w policy event).after w policy events :=
  rfl

theorem after_concat (c : Check) (events : List CheckEvent) (event : CheckEvent) :
    c.after w policy (events ++ [event]) = (c.after w policy events).step w policy event := by
  simp [after]

/-- A worker that goes ahead alone, and that no read stops, comes to its result. -/
theorem exists_events_reading (policy : ReadErrorPolicy) (rest : List Read) (tally : Tally)
    (hrest : ∀ read ∈ rest, read.cancels = false) :
    ∃ events, .cancel ∉ events ∧
      (Check.mk (front ++ (a, .reading tally rest) :: back) false false).after w policy events =
        ⟨front ++ (a, .done (checkedAs a.absolutePath (Checksum.pass false tally rest).1)) :: back,
          false, false⟩ := by
  induction rest generalizing tally with
  | nil =>
      refine ⟨[.turn front.length], by simp, ?_⟩
      rw [after_cons, step_turn w policy false rfl]
      rfl
  | cons read rest ih =>
      have hread := hrest read List.mem_cons_self
      cases hafter : tally.after read.result with
      | ended outcome =>
          refine ⟨[.turn front.length], by simp, ?_⟩
          rw [after_cons, step_turn w policy false rfl]
          simp only [Reader.advance, Bool.false_eq_true, if_false, hafter, Checksum.pass]
          rfl
      | going next =>
          obtain ⟨events, hevents, hdone⟩ :=
            ih next fun later hlater => hrest later (List.mem_cons_of_mem read hlater)
          refine ⟨.turn front.length :: events, by simpa using hevents, ?_⟩
          rw [after_cons, step_turn w policy false rfl]
          simp only [Reader.advance, Bool.false_eq_true, if_false, hafter, Checksum.pass, hread]
          exact hdone

theorem exists_events_alone (w : Workspace) (policy : ReadErrorPolicy) (a : Pending)
    (front back : List (Pending × Reader)) :
    ∃ events, .cancel ∉ events ∧
      (Check.mk (front ++ (a, .waiting) :: back) false false).after w policy events =
        ⟨front ++ (a, .done (checksum w false a.absolutePath)) :: back, false, false⟩ := by
  cases hreads : Checksum.readsOf w a.absolutePath with
  | error cause =>
      refine ⟨[.turn front.length], by simp, ?_⟩
      rw [after_cons, step_turn w policy false rfl]
      simp only [Reader.advance, hreads, checksum_of_unopened hreads]
      rfl
  | ok reads =>
      obtain ⟨events, hevents, hdone⟩ := exists_events_reading (w := w) (a := a) policy reads .start
        (Checksum.cancels_of_readsOf hreads)
      refine ⟨.turn front.length :: events, by simpa using hevents, ?_⟩
      rw [after_cons, step_turn w policy false rfl]
      simp only [Reader.advance, hreads, checksum, Checksum.ofFile, Checksum.ofReads]
      exact hdone

theorem complete_append_stopped (w : Workspace) (policy : ReadErrorPolicy)
    (xs ys : List (Pending × Reader)) :
    complete w policy true (xs ++ ys) = complete w policy true xs ++ complete w policy true ys := by
  induction xs with
  | nil => rfl
  | cons worker xs ih => simp only [List.cons_append, complete, Bool.true_or, ih]

/-- Where all is stopped, workers that have not begun come to nothing if their files can be
opened. -/
theorem complete_waiting_stopped (hopens : ∀ b ∈ artifacts, Checksum.Opens w b.absolutePath) :
    complete w policy true (artifacts.map (·, .waiting)) =
      artifacts.map fun b => (b, .error .cancelled) := by
  induction artifacts with
  | nil => rfl
  | cons b artifacts ih =>
      have hb := checksum_of_stopped (hopens b List.mem_cons_self)
      simp only [List.map_cons, complete, Reader.complete, Bool.true_or, hb,
        ih fun c hc => hopens c (List.mem_cons_of_mem b hc)]

end Check

/-- Whatever the stage can fail with, on some course it does: the artifact's worker goes ahead
alone. -/
theorem exists_events_of_canFailWith {fault : CollectionFault}
    (h : CanFailWith w artifacts fault) : ∃ events, .cancel ∉ events ∧
      (describeAll w .abort artifacts events).outcome = .error fault := by
  obtain ⟨front, a, back, rfl, hopens, hfault⟩ := h
  have hunreadable : fault.isUnreadable = true := by
    cases fault with
    | unreadable file cause => rfl
    | cancelled => exact absurd hfault (checksum_ne_cancelled w a.absolutePath)
  obtain ⟨events, hevents, hdone⟩ := Check.exists_events_alone w .abort a
    (front.map (·, .waiting)) (back.map (·, .waiting))
  refine ⟨events ++ [.turn front.length], by simpa using hevents, ?_⟩
  have hstart : Check.start (front ++ a :: back) =
      ⟨front.map (·, .waiting) ++ (a, .waiting) :: back.map (·, .waiting), false, false⟩ := by
    simp [Check.start]
  have hafter : (Check.start (front ++ a :: back)).after w .abort (events ++ [.turn front.length]) =
      ⟨front.map (·, .waiting) ++ (a, .over (.error fault)) :: back.map (·, .waiting), true,
        false⟩ := by
    rw [Check.after_concat, hstart, hdone, hfault,
      Check.step_turn w .abort false (List.length_map _)]
    simp [Reader.advance, stops, hunreadable]
  have hfront : ∀ r ∈ front.map fun b => (b, (.error .cancelled : Checked)),
      stops .abort r.2 = false := by
    intro r hr
    obtain ⟨b, _, rfl⟩ := List.mem_map.mp hr
    rfl
  simp only [describeAll, hafter, Bool.false_eq_true, if_false, Check.results, Check.stopped,
    Bool.or_false, Check.complete_append_stopped, Check.complete_waiting_stopped hopens]
  exact merged_of_first hunreadable hfront

/-! ### One course and another -/

theorem not_readable_of_unopened (h : Checksum.readsOf w file = .error cause) :
    ¬ w.Readable file := by
  intro hread
  obtain ⟨reads, hreads⟩ := opens_of_readable hread
  rw [h] at hreads
  cases hreads

/-- Behind readable files, one that cannot be opened is the one to be named. -/
theorem CanFailWith.eq_of_unopened {front back : List Pending} {a : Pending}
    {fault : CollectionFault} (h : CanFailWith w (front ++ a :: back) fault)
    (hfront : ∀ b ∈ front, w.Readable b.absolutePath)
    (hcause : Checksum.readsOf w a.absolutePath = .error cause) :
    fault = .unreadable a.absolutePath cause := by
  obtain ⟨front', named, back', hsplit, hopens, hfault⟩ := h
  have hsame : named = a → fault = .unreadable a.absolutePath cause := by
    rintro rfl
    exact Except.error.inj (hfault.symm.trans (checksum_of_unopened hcause false))
  rcases List.append_eq_append_iff.mp hsplit with ⟨between, rfl, hrest⟩ | ⟨between, rfl, hrest⟩
  · cases between with
    | nil => exact hsame (List.cons.inj hrest).1.symm
    | cons b between =>
        -- the file that cannot be opened would stand in front of the one that is named
        obtain ⟨rfl, -⟩ := List.cons.inj hrest
        obtain ⟨reads, hreads⟩ := hopens a (List.mem_append_right _ List.mem_cons_self)
        rw [hcause] at hreads
        cases hreads
  · cases between with
    | nil => exact hsame (List.cons.inj hrest).1
    | cons b between =>
        -- the one that is named would stand among the readable ones
        obtain ⟨rfl, -⟩ := List.cons.inj hrest
        obtain ⟨sum, hsum⟩ :=
          checksum_of_readable (hfront named (List.mem_append_right _ List.mem_cons_self))
        rw [hfault] at hsum
        cases hsum

variable {events events' : List CheckEvent}

/-- What is left out of a collection, and what is warned of, does not depend on the course. -/
theorem describeAll_skip_eq (w : Workspace) (artifacts : List Pending) (hevents : .cancel ∉ events)
    (hevents' : .cancel ∉ events') :
    describeAll w .skip artifacts events = describeAll w .skip artifacts events' := by
  obtain ⟨results, hsettled, hmerged⟩ := describeAll_eq_merged w .skip artifacts hevents
  obtain ⟨results', hsettled', hmerged'⟩ := describeAll_eq_merged w .skip artifacts hevents'
  have hnone : ∀ result : Checked, stops .skip result = false := fun result =>
    Bool.eq_false_iff.mpr fun hstops => by cases (stops_iff.mp hstops).1
  rw [hmerged, hmerged', hsettled.eq_map fun r _ => hnone r.2,
    hsettled'.eq_map fun r _ => hnone r.2]

theorem describeAll_ok_of_ok {ds : List Descriptor} (hevents : .cancel ∉ events)
    (hevents' : .cancel ∉ events')
    (h : (describeAll w .abort artifacts events).outcome = .ok ds) :
    (describeAll w .abort artifacts events').outcome = .ok ds := by
  have hall : ∀ a ∈ artifacts, w.Readable a.absolutePath := by
    by_contra hsome
    simp only [not_forall, exists_prop] at hsome
    obtain ⟨_, _, _, _, hfault⟩ := describeAll_of_unreadable hevents hsome
    rw [h] at hfault
    cases hfault
  rw [← h, describeAll_of_readable hevents hall, describeAll_of_readable hevents' hall]

/-- **Courses.** As long as nobody cancels the second stage, the course decides nothing where
unreadable files are left out, and where they are not, neither whether the stage succeeds nor what
it then comes to. What it can fail with, on one course or another, are the faults of the unreadable
artifacts in front of which all files can be opened. So the first unreadable artifact is named on
every course if its file cannot be opened at all. -/
theorem describeAll_over_schedules (w : Workspace) (artifacts : List Pending)
    (hevents : .cancel ∉ events) (hevents' : .cancel ∉ events') :
    describeAll w .skip artifacts events = describeAll w .skip artifacts events' ∧
    (∀ ds, (describeAll w .abort artifacts events).outcome = .ok ds ↔
      (describeAll w .abort artifacts events').outcome = .ok ds) ∧
    (∀ fault, (∃ schedule, .cancel ∉ schedule ∧
        (describeAll w .abort artifacts schedule).outcome = .error fault) ↔
      CanFailWith w artifacts fault) ∧
    ∀ front a back cause, artifacts = front ++ a :: back →
      (∀ b ∈ front, w.Readable b.absolutePath) →
      Checksum.readsOf w a.absolutePath = .error cause →
        (describeAll w .abort artifacts events).outcome =
          .error (.unreadable a.absolutePath cause) := by
  refine ⟨describeAll_skip_eq w artifacts hevents hevents', fun ds => ?_, fun fault => ?_, ?_⟩
  · exact ⟨describeAll_ok_of_ok hevents hevents', describeAll_ok_of_ok hevents' hevents⟩
  · constructor
    · rintro ⟨schedule, hschedule, hfailed⟩
      exact canFailWith_of_failed hschedule hfailed
    · exact exists_events_of_canFailWith
  · rintro front a back cause rfl hfront hcause
    obtain ⟨_, _, _, _, hfailed⟩ := describeAll_of_unreadable hevents
      ⟨a, List.mem_append_right _ List.mem_cons_self, not_readable_of_unopened hcause⟩
    rw [hfailed, (canFailWith_of_failed hevents hfailed).eq_of_unopened hfront hcause]

theorem missing_named_always :
    let x : Pending := ⟨"x", Path.ofText "/r/x", "*"⟩
    let y : Pending := ⟨"y", Path.ofText "/r/y", "*"⟩
    let events : List CheckEvent := [.turn 1, .turn 1, .turn 0]
    .cancel ∉ events ∧ .cancel ∉ ([] : List CheckEvent) ∧
      describeAll .small .skip [x, y] events = describeAll .small .skip [x, y] [] ∧
      Workspace.small.Readable (Path.ofText "/r/x") ∧
      (describeAll .small .abort [x, y] events).outcome =
        .error (.unreadable (Path.ofText "/r/y") .missing) := by
  intro x y events
  have hevents : .cancel ∉ events := by decide
  have hread : Workspace.small.Readable (Path.ofText "/r/x") := ⟨_, _, by cbv⟩
  have hcause : Checksum.readsOf .small (Path.ofText "/r/y") = .error .missing := by cbv
  obtain ⟨hskip, _, _, hnamed⟩ :=
    describeAll_over_schedules .small [x, y] hevents List.not_mem_nil
  exact ⟨hevents, List.not_mem_nil, hskip, hread,
    hnamed [x] y [] .missing rfl (by simpa using hread) hcause⟩

end Collection

/-- A workspace with a directory `/bad` that holds two files, `one` and `two`. Both can be opened,
and neither can be read. -/
def Workspace.failing : Workspace where
  files := {
    objects := [
      ([⟨[98, 97, 100], by decide⟩], .directory),
      ([⟨[111, 110, 101], by decide⟩, ⟨[98, 97, 100], by decide⟩], .unreadable []),
      ([⟨[116, 119, 111], by decide⟩, ⟨[98, 97, 100], by decide⟩], .unreadable [])]
    distinct := by decide }
  here := none

/-- Of two files that open and cannot be read, the one that is read first is named. -/
theorem Collection.failing_named_by_turns :
    let one : Pending := ⟨"one", Path.ofText "/bad/one", "*"⟩
    let two : Pending := ⟨"two", Path.ofText "/bad/two", "*"⟩
    let events : List CheckEvent := [.turn 0, .turn 1, .turn 1, .turn 1]
    .cancel ∉ events ∧
      (describeAll .failing .abort [one, two] []).outcome =
        .error (.unreadable (Path.ofText "/bad/one") .readFailed) ∧
      (describeAll .failing .abort [one, two] events).outcome =
        .error (.unreadable (Path.ofText "/bad/two") .readFailed) := by
  intro one two events
  exact ⟨by decide, by cbv, by cbv⟩

end ArtifactHarvest
