import ArtifactHarvest.Collection.Checking
import ArtifactHarvest.Proofs.Checksum.Passing
import ArtifactHarvest.Proofs.Collection.Searching

/-!
The workers of the second stage when nobody cancels it. A worker that is not stopped comes to the
checksum of its own file, whatever turns it took, and a worker that is stopped has another to blame:
one that could not read its file and said so (`Check.Sound`). A turn keeps this (`step_sound`), and
so do the workers that end their work in turn (`results_settled`).
-/

namespace ArtifactHarvest

/-- An entry that the change leaves as it is stays. -/
theorem mem_modify_of_fixed {α : Type} {f : α → α} {xs : List α} {x : α} (h : x ∈ xs)
    (hf : f x = x) (i : Nat) : x ∈ xs.modify i f := by
  obtain ⟨k, hk⟩ := List.mem_iff_getElem?.mp h
  refine List.mem_iff_getElem?.mpr ⟨k, ?_⟩
  rw [List.getElem?_modify, hk]
  split <;> simp [hf]

/-- The path leads to a regular file whose bytes can be read. -/
def Workspace.Readable (w : Workspace) (file : Path) : Prop :=
  ∃ loc content, w.lookup false file = .ok (loc, .file content)

theorem Workspace.readable_iff {w : Workspace} {file : Path} :
    w.Readable file ↔ ∃ content, w.content? file = some content := by
  simp only [Readable, content?_eq_some_iff]
  exact exists_comm

theorem Workspace.not_readable_iff {w : Workspace} {file : Path} :
    ¬ w.Readable file ↔ w.content? file = none := by
  rw [readable_iff, Option.eq_none_iff_forall_ne_some, not_exists]

namespace Checksum

theorem cancels_of_mem_continued {bytes : Bytes} {read : Read} (h : read ∈ Read.continued bytes) :
    read.cancels = false := by
  induction bytes using Read.continued.induct with
  | case1 => simp [Read.continued] at h
  | case2 bytes hbytes ih =>
      rw [Read.continued, dif_neg hbytes] at h
      rcases List.mem_cons.mp h with rfl | h
      · rfl
      · exact ih h

/-- No read of a file cancels the collection. -/
theorem cancels_of_readsOf {w : Workspace} {file : Path} {reads : List Read}
    (h : readsOf w file = .ok reads) : ∀ read ∈ reads, read.cancels = false := by
  intro read hread
  simp only [readsOf] at h
  split at h
  · cases h
  · cases h
    rcases List.mem_cons.mp hread with rfl | hread
    · rfl
    · exact cancels_of_mem_continued hread
  · cases h
    rcases List.mem_append.mp hread with hread | hread
    · exact cancels_of_mem_continued hread
    · rw [List.mem_singleton.mp hread]
  · cases h

end Checksum

namespace Collection

variable {w : Workspace} {file : Path}

/-- A file that can be read has the checksum of its content. -/
theorem checksum_of_content {content : Bytes} (h : w.content? file = some content) :
    checksum w false file = .ok (.ofContent content) := by
  rw [checksum, Checksum.ofFile_of_content h, checkedAs]

/-- A file that cannot be read is named in the fault. -/
theorem checksum_of_no_content (h : w.content? file = none) :
    ∃ fault, checksum w false file = .error (.unreadable file fault) := by
  obtain ⟨fault, hfault⟩ := Checksum.ofFile_of_no_content h
  exact ⟨fault, by rw [checksum, hfault, checkedAs]⟩

theorem checksum_of_readable (h : w.Readable file) : ∃ sum, checksum w false file = .ok sum := by
  obtain ⟨content, hcontent⟩ := Workspace.readable_iff.mp h
  exact ⟨_, checksum_of_content hcontent⟩

theorem checksum_ne_cancelled (w : Workspace) (file : Path) :
    checksum w false file ≠ .error .cancelled := by
  cases hcontent : w.content? file with
  | some content =>
      rw [checksum_of_content hcontent]
      nofun
  | none =>
      obtain ⟨fault, hfault⟩ := checksum_of_no_content hcontent
      rw [hfault]
      nofun

namespace Reader

/-- No read that is left cancels the collection. -/
def Calm : Reader → Prop
  | .reading _ rest => ∀ read ∈ rest, read.cancels = false
  | .waiting | .done _ | .over _ => True

/-- A turn brings a worker on, but not to another result. -/
theorem complete_advance (w : Workspace) (file : Path) {r : Reader} (h : r.Calm) :
    (r.advance w false file).Calm ∧
      (r.advance w false file).complete w false file = r.complete w false file := by
  rcases r with _ | ⟨tally, rest⟩ | result | result
  · simp only [advance, complete, checksum, Checksum.ofFile]
    cases hreads : Checksum.readsOf w file with
    | error fault => exact ⟨trivial, rfl⟩
    | ok reads => exact ⟨Checksum.cancels_of_readsOf hreads, rfl⟩
  · cases rest with
    | nil => exact ⟨trivial, rfl⟩
    | cons read rest =>
        have hread := h read List.mem_cons_self
        simp only [advance, Bool.false_eq_true, if_false, complete, Checksum.pass, hread]
        cases tally.after read.result with
        | going tally => exact ⟨fun later hlater => h later (List.mem_cons_of_mem _ hlater), rfl⟩
        | ended outcome => exact ⟨trivial, rfl⟩
  · exact ⟨trivial, rfl⟩
  · exact ⟨trivial, rfl⟩

/-- The worker has noticed that it is to stop. -/
def BrokenOff (r : Reader) : Prop :=
  r = .done (.error .cancelled) ∨ r = .over (.error .cancelled)

/-- The worker is on its way to the checksum of its own file, unless it was stopped. -/
structure Faithful (w : Workspace) (stopped : Bool) (file : Path) (r : Reader) : Prop where
  calm : r.Calm
  own : r.complete w false file = checksum w false file ∨ stopped = true ∧ r.BrokenOff

theorem waiting_faithful (stopped : Bool) : waiting.Faithful w stopped file :=
  ⟨trivial, .inl rfl⟩

theorem Faithful.mono {stopped later : Bool} {r : Reader} (h : r.Faithful w stopped file)
    (hstopped : stopped = true → later = true) : r.Faithful w later file :=
  ⟨h.calm, h.own.imp_right (And.imp_left hstopped)⟩

/-- A worker on its way either makes its turn as if nobody had stopped it, or notices that it is to
stop. -/
theorem advance_cases (w : Workspace) (file : Path) (stopped : Bool) (r : Reader) :
    r.advance w stopped file = r.advance w false file ∨
      stopped = true ∧ r.advance w stopped file = .done (.error .cancelled) := by
  cases stopped with
  | false => exact .inl rfl
  | true =>
      rcases r with _ | ⟨tally, rest⟩ | result | result
      · exact .inl rfl
      · exact .inr ⟨rfl, rfl⟩
      · exact .inl rfl
      · exact .inl rfl

theorem advance_faithful {stopped : Bool} {r : Reader} (h : r.Faithful w stopped file) :
    (r.advance w stopped file).Faithful w stopped file := by
  rcases advance_cases w file stopped r with hsame | ⟨hstopped, hbroken⟩
  · obtain ⟨hcalm, hcomplete⟩ := complete_advance w file h.calm
    rw [hsame]
    refine ⟨hcalm, ?_⟩
    rcases h.own with hown | ⟨hstopped, rfl | rfl⟩
    · exact .inl (hcomplete.trans hown)
    · exact .inr ⟨hstopped, .inr rfl⟩
    · exact .inr ⟨hstopped, .inr rfl⟩
  · rw [hbroken]
    exact ⟨trivial, .inr ⟨hstopped, .inl rfl⟩⟩

/-- A worker that is left to itself comes to the checksum of its own file, or it was stopped or is
stopped by then. -/
theorem complete_cases {stopped : Bool} {r : Reader} (h : r.Faithful w stopped file)
    (now : Bool) : r.complete w now file = checksum w false file ∨
      (stopped = true ∨ now = true) ∧ r.complete w now file = .error .cancelled := by
  rcases h.own with hown | ⟨hstopped, rfl | rfl⟩
  · cases now with
    | false => exact .inl hown
    | true =>
        rcases r with _ | ⟨tally, rest⟩ | result | result
        · cases hreads : Checksum.readsOf w file with
          | error fault => exact .inl (by simp [complete, checksum, Checksum.ofFile, hreads])
          | ok reads =>
              refine .inr ⟨.inr rfl, ?_⟩
              simp only [complete, checksum, Checksum.ofFile, hreads]
              cases reads <;> rfl
        · refine .inr ⟨.inr rfl, ?_⟩
          cases rest <;> rfl
        · exact .inl hown
        · exact .inl hown
  · exact .inr ⟨.inl hstopped, rfl⟩
  · exact .inr ⟨.inl hstopped, rfl⟩

end Reader

/-- Results of workers none of which was stopped without cause: each is the checksum of its own file
or what a stopped worker hands over, and then there is a result that stops the workers. -/
structure Settled (w : Workspace) (policy : ReadErrorPolicy) (artifacts : List Pending)
    (results : List (Pending × Checked)) : Prop where
  artifacts : results.map Prod.fst = artifacts
  own : ∀ r ∈ results, r.2 = checksum w false r.1.absolutePath ∨ r.2 = .error .cancelled
  blamed : (∃ r ∈ results, r.2 = .error .cancelled) → ∃ r ∈ results, stops policy r.2 = true

namespace Check

variable {policy : ReadErrorPolicy} {artifacts : List Pending}

/-- The stage without cancellation: each worker is on its way to its own checksum or was stopped,
and only a result that was handed over stops the workers. -/
structure Sound (w : Workspace) (policy : ReadErrorPolicy) (artifacts : List Pending) (c : Check) :
    Prop where
  artifacts : c.workers.map Prod.fst = artifacts
  cancelled : c.cancelled = false
  faithful : ∀ worker ∈ c.workers, worker.2.Faithful w c.aborted worker.1.absolutePath
  blamed : c.aborted = true →
    ∃ a result, (a, .over result) ∈ c.workers ∧ stops policy result = true

theorem start_sound (w : Workspace) (policy : ReadErrorPolicy) (artifacts : List Pending) :
    (start artifacts).Sound w policy artifacts where
  artifacts := by simp [start, Function.comp_def]
  cancelled := rfl
  faithful worker hworker := by
    obtain ⟨a, _, rfl⟩ := List.mem_map.mp hworker
    exact Reader.waiting_faithful _
  blamed := nofun

/-- The result that stops the others is there once it is handed over. -/
theorem exists_of_handsOverStop {c : Check} {worker : Nat} {stopped : Bool}
    (h : c.handsOverStop policy worker = true) :
    ∃ a result, (a, .over result) ∈ c.workers.modify worker (fun (a, state) =>
      (a, state.advance w stopped a.absolutePath)) ∧ stops policy result = true := by
  unfold handsOverStop at h
  split at h
  · rename_i a result hworker
    refine ⟨a, result, List.mem_iff_getElem?.mpr ⟨worker, ?_⟩, h⟩
    simp [hworker, Reader.advance]
  · cases h

theorem step_sound {c : Check} {event : CheckEvent} (hevent : event ≠ .cancel)
    (hc : c.Sound w policy artifacts) : (c.step w policy event).Sound w policy artifacts := by
  cases event with
  | cancel => exact absurd rfl hevent
  | turn worker =>
      have hstopped : c.stopped = c.aborted := by simp [stopped, hc.cancelled]
      have hlater : c.aborted = true → (c.aborted || c.handsOverStop policy worker) = true :=
        fun haborted => by rw [haborted, Bool.true_or]
      constructor
      · refine (map_modify_of_unseen ?_ worker).trans hc.artifacts
        exact fun _ _ => rfl
      · exact hc.cancelled
      · simp only [step, hstopped]
        refine forall_mem_modify ?_ ?_ worker
        · exact fun worker hworker => (hc.faithful worker hworker).mono hlater
        · exact fun worker hworker =>
            (Reader.advance_faithful (hc.faithful worker hworker)).mono hlater
      · intro haborted
        rcases Bool.or_eq_true_iff.mp haborted with hbefore | hnow
        · obtain ⟨a, result, hmem, hstops⟩ := hc.blamed hbefore
          exact ⟨a, result, mem_modify_of_fixed hmem rfl worker, hstops⟩
        · exact exists_of_handsOverStop hnow

theorem after_sound {c : Check} {events : List CheckEvent} (hevents : .cancel ∉ events)
    (hc : c.Sound w policy artifacts) : (c.after w policy events).Sound w policy artifacts :=
  List.foldlRecOn events _ hc fun _ hlater _ hevent =>
    step_sound (ne_of_mem_of_not_mem hevent hevents) hlater

theorem cancelled_after (c : Check) (events : List CheckEvent) :
    (c.after w policy events).cancelled = true ↔ c.cancelled = true ∨ .cancel ∈ events :=
  raised_foldl_iff (fun c event => by cases event <;> simp [step]) c events

/-! ### The results in the end -/

theorem map_fst_complete (stopped : Bool) (workers : List (Pending × Reader)) :
    (complete w policy stopped workers).map Prod.fst = workers.map Prod.fst := by
  induction workers generalizing stopped with
  | nil => rfl
  | cons worker workers ih => simp [complete, ih]

theorem mem_complete_of_over {stopped : Bool} {workers : List (Pending × Reader)} {a : Pending}
    {result : Checked} (h : (a, .over result) ∈ workers) :
    (a, result) ∈ complete w policy stopped workers := by
  induction workers generalizing stopped with
  | nil => cases h
  | cons worker workers ih =>
      rw [complete]
      rcases List.mem_cons.mp h with rfl | hrest
      · exact List.mem_cons_self
      · exact List.mem_cons_of_mem _ (ih hrest)

theorem own_of_mem_complete {aborted : Bool} {workers : List (Pending × Reader)}
    (h : ∀ worker ∈ workers, worker.2.Faithful w aborted worker.1.absolutePath) (stopped : Bool) :
    ∀ r ∈ complete w policy stopped workers,
      r.2 = checksum w false r.1.absolutePath ∨ r.2 = .error .cancelled := by
  induction workers generalizing stopped with
  | nil => nofun
  | cons worker workers ih =>
      rw [complete, List.forall_mem_cons]
      refine ⟨?_, ih (fun later hlater => h later (List.mem_cons_of_mem _ hlater)) _⟩
      exact (Reader.complete_cases (h worker List.mem_cons_self) stopped).imp_right And.right

/-- Where workers end their work in turn, one that is stopped was stopped before or by a result of
one that came before it. -/
theorem blamed_of_mem_complete {workers : List (Pending × Reader)} {aborted stopped : Bool}
    (h : ∀ worker ∈ workers, worker.2.Faithful w aborted worker.1.absolutePath)
    (hcancelled : ∃ r ∈ complete w policy stopped workers, r.2 = .error .cancelled) :
    aborted = true ∨ stopped = true ∨
      ∃ r ∈ complete w policy stopped workers, stops policy r.2 = true := by
  induction workers generalizing stopped with
  | nil =>
      obtain ⟨r, hr, _⟩ := hcancelled
      cases hr
  | cons worker workers ih =>
      have hrest := fun later hlater => h later (List.mem_cons_of_mem worker hlater)
      simp only [complete, List.mem_cons, or_and_right, exists_or, exists_eq_left] at hcancelled ⊢
      rcases hcancelled with hhere | hlater
      · rcases Reader.complete_cases (h worker List.mem_cons_self) stopped with
          hown | ⟨haborted | hstopped, _⟩
        · exact absurd (hown.symm.trans hhere) (checksum_ne_cancelled w _)
        · exact .inl haborted
        · exact .inr (.inl hstopped)
      · rcases ih hrest hlater with haborted | hstopped | hmem
        · exact .inl haborted
        · exact .inr ((Bool.or_eq_true_iff.mp hstopped).imp_right .inl)
        · exact .inr (.inr (.inr hmem))

theorem results_settled {c : Check} (hc : c.Sound w policy artifacts) :
    Settled w policy artifacts (c.results w policy) := by
  have hstopped : c.stopped = c.aborted := by simp [stopped, hc.cancelled]
  rw [results, hstopped]
  refine ⟨(map_fst_complete _ _).trans hc.artifacts, own_of_mem_complete hc.faithful _, ?_⟩
  intro hcancelled
  have hhanded : c.aborted = true →
      ∃ r ∈ complete w policy c.aborted c.workers, stops policy r.2 = true := by
    intro haborted
    obtain ⟨a, result, hmem, hstops⟩ := hc.blamed haborted
    exact ⟨(a, result), mem_complete_of_over hmem, hstops⟩
  rcases blamed_of_mem_complete hc.faithful hcancelled with haborted | haborted | hmem
  · exact hhanded haborted
  · exact hhanded haborted
  · exact hmem

end Check

end Collection

end ArtifactHarvest
