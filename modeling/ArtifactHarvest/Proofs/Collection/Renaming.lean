import ArtifactHarvest.Proofs.Collection.Describing

/-!
The second stage over files that go by other names. Renaming the files in all that the workers know
commutes with every step of theirs, if under its new name each file gives the same reads
(`Check.step_renamed`, `Check.after_renamed`), so the stage comes to the same descriptors, but for
the names, or to the renamed fault (`describeAll_renamed`).
-/

namespace ArtifactHarvest

theorem modify_map_comm {α β : Type} {f : α → β} {change : α → α} {change' : β → β} {xs : List α}
    (h : ∀ x ∈ xs, change' (f x) = f (change x)) (i : Nat) :
    (xs.map f).modify i change' = (xs.modify i change).map f := by
  induction xs generalizing i with
  | nil => simp
  | cons x xs ih =>
      cases i with
      | zero => simp [h x List.mem_cons_self]
      | succ i => simp [ih fun y hy => h y (List.mem_cons_of_mem x hy)]

def Pending.renamed (f : Path → Path) (a : Pending) : Pending :=
  { a with absolutePath := f a.absolutePath }

def CollectionFault.renamed (f : Path → Path) : CollectionFault → CollectionFault
  | .unreadable file cause => .unreadable (f file) cause
  | .cancelled => .cancelled

@[simp] theorem CollectionFault.isUnreadable_renamed (f : Path → Path) (fault : CollectionFault) :
    (fault.renamed f).isUnreadable = fault.isUnreadable := by
  cases fault <;> rfl

/-- Two descriptors say the same, but for where the file is. -/
structure Descriptor.Agrees (d e : Descriptor) : Prop where
  path : d.path = e.path
  pattern : d.pattern = e.pattern
  size : d.size = e.size
  sha1 : d.sha1 = e.sha1
  sha256 : d.sha256 = e.sha256

namespace Collection

variable {w w' : Workspace} {policy : ReadErrorPolicy} {f : Path → Path}

def Checked.renamed (f : Path → Path) (result : Checked) : Checked :=
  result.mapError (·.renamed f)

theorem checkedAs_renamed (file : Path) (outcome : Except ChecksumFault Checksum) :
    checkedAs (f file) outcome = Checked.renamed f (checkedAs file outcome) := by
  rcases outcome with (fault | _) | sum <;> rfl

@[simp] theorem stops_renamed (result : Checked) :
    stops policy (result.renamed f) = stops policy result := by
  cases result with
  | ok sum => rfl
  | error fault => simp [stops, Checked.renamed, Except.mapError]

/-- Under its new name the file gives the same reads. -/
def SameReads (w w' : Workspace) (f : Path → Path) (file : Path) : Prop :=
  Checksum.readsOf w' (f file) = Checksum.readsOf w file

theorem checksum_renamed {file : Path} (h : SameReads w w' f file) (stopped : Bool) :
    checksum w' stopped (f file) = (checksum w stopped file).renamed f := by
  rw [checksum, checksum, checkedAs_renamed, Checksum.ofFile, Checksum.ofFile, h]

namespace Reader

def renamed (f : Path → Path) : Reader → Reader
  | .waiting => .waiting
  | .reading tally rest => .reading tally rest
  | .done result => .done (result.renamed f)
  | .over result => .over (result.renamed f)

theorem advance_renamed {file : Path} (h : SameReads w w' f file) (stopped : Bool) (r : Reader) :
    (r.renamed f).advance w' stopped (f file) = (r.advance w stopped file).renamed f := by
  rcases r with _ | ⟨tally, rest⟩ | result | result
  · have hreads : Checksum.readsOf w' (f file) = Checksum.readsOf w file := h
    simp only [renamed, advance, hreads]
    cases Checksum.readsOf w file <;> rfl
  · cases stopped with
    | true => rfl
    | false =>
        cases rest with
        | nil => rfl
        | cons read rest =>
            simp only [renamed, advance, Bool.false_eq_true, if_false, checkedAs_renamed]
            cases tally.after read.result <;> rfl
  · rfl
  · rfl

theorem complete_renamed {file : Path} (h : SameReads w w' f file) (stopped : Bool) (r : Reader) :
    (r.renamed f).complete w' stopped (f file) = (r.complete w stopped file).renamed f := by
  rcases r with _ | ⟨tally, rest⟩ | result | result
  · exact checksum_renamed h stopped
  · exact checkedAs_renamed file _
  · rfl
  · rfl

end Reader

namespace Check

/-- A worker under the new name of its file. -/
def renamedWorker (f : Path → Path) (worker : Pending × Reader) : Pending × Reader :=
  (worker.1.renamed f, worker.2.renamed f)

def renamed (f : Path → Path) (c : Check) : Check :=
  { c with workers := c.workers.map (renamedWorker f) }

/-- All files give the same reads under their new names. -/
def SameReads (w w' : Workspace) (f : Path → Path) (c : Check) : Prop :=
  ∀ worker ∈ c.workers, Collection.SameReads w w' f worker.1.absolutePath

theorem handsOverStop_renamed (c : Check) (worker : Nat) :
    (c.renamed f).handsOverStop policy worker = c.handsOverStop policy worker := by
  unfold handsOverStop
  rw [renamed, List.getElem?_map]
  rcases c.workers[worker]? with _ | ⟨a, r⟩
  · rfl
  · cases r <;> simp [renamedWorker, Reader.renamed]

theorem step_renamed {c : Check} (h : c.SameReads w w' f) (event : CheckEvent) :
    (c.renamed f).step w' policy event = (c.step w policy event).renamed f := by
  cases event with
  | cancel => rfl
  | turn worker =>
      simp only [step, handsOverStop_renamed]
      simp only [renamed, stopped]
      congr 1
      apply modify_map_comm
      rintro ⟨a, r⟩ hmem
      exact Prod.ext rfl (Reader.advance_renamed (h _ hmem) _ r)

theorem step_sameReads {c : Check} (h : c.SameReads w w' f) (policy : ReadErrorPolicy)
    (event : CheckEvent) : (c.step w policy event).SameReads w w' f := by
  cases event with
  | cancel => exact h
  | turn worker =>
      apply forall_mem_modify h
      intro later hlater
      exact h later hlater

/-- On the same course, the stage over renamed files goes through the renamed states. -/
theorem after_renamed {c : Check} (h : c.SameReads w w' f) (policy : ReadErrorPolicy)
    (events : List CheckEvent) :
    (c.after w policy events).SameReads w w' f ∧
      (c.renamed f).after w' policy events = (c.after w policy events).renamed f := by
  induction events generalizing c with
  | nil => exact ⟨h, rfl⟩
  | cons event events ih =>
      have hrest := ih (step_sameReads h policy event)
      rw [← step_renamed h] at hrest
      exact hrest

/-- A result under the new name of its file. -/
def renamedResult (f : Path → Path) (r : Pending × Checked) : Pending × Checked :=
  (r.1.renamed f, r.2.renamed f)

theorem complete_renamed {workers : List (Pending × Reader)} (stopped : Bool)
    (h : ∀ worker ∈ workers, Collection.SameReads w w' f worker.1.absolutePath) :
    complete w' policy stopped (workers.map (renamedWorker f)) =
      (complete w policy stopped workers).map (renamedResult f) := by
  induction workers generalizing stopped with
  | nil => rfl
  | cons worker workers ih =>
      obtain ⟨a, r⟩ := worker
      have hhere : (r.renamed f).complete w' stopped (f a.absolutePath) =
          (r.complete w stopped a.absolutePath).renamed f :=
        Reader.complete_renamed (h _ List.mem_cons_self) stopped r
      have hrest := ih (stopped || stops policy (r.complete w stopped a.absolutePath))
        fun later hlater => h later (List.mem_cons_of_mem _ hlater)
      simp only [List.map_cons, complete, renamedWorker, Pending.renamed, hhere, stops_renamed]
      exact congrArg _ hrest

theorem results_renamed {c : Check} (h : c.SameReads w w' f) :
    (c.renamed f).results w' policy = (c.results w policy).map (renamedResult f) :=
  complete_renamed c.stopped h

end Check

/-! ### Results that are merged -/

/-- Two outcomes agree: descriptors one by one, or the fault under the new name of the file. -/
inductive Agree (f : Path → Path) :
    Except CollectionFault (List Descriptor) → Except CollectionFault (List Descriptor) → Prop where
  | described {ds es : List Descriptor} (h : List.Forall₂ Descriptor.Agrees ds es) :
      Agree f (.ok ds) (.ok es)
  | failed (fault : CollectionFault) : Agree f (.error fault) (.error (fault.renamed f))

theorem descriptors_renamed (results : List (Pending × Checked)) :
    List.Forall₂ Descriptor.Agrees (descriptors results)
      (descriptors (results.map (Check.renamedResult f))) := by
  induction results with
  | nil => exact .nil
  | cons r results ih =>
      obtain ⟨a, fault | sum⟩ := r
      · exact ih
      · exact .cons ⟨rfl, rfl, rfl, rfl, rfl⟩ ih

theorem faults_renamed (results : List (Pending × Checked)) :
    faults (results.map (Check.renamedResult f)) =
      (faults results).map fun (a, fault) => (a.renamed f, fault.renamed f) := by
  induction results with
  | nil => rfl
  | cons r results ih =>
      obtain ⟨a, fault | sum⟩ := r
      · exact congrArg ((a.renamed f, fault.renamed f) :: ·) ih
      · exact ih

theorem merged_renamed (results : List (Pending × Checked)) :
    Agree f (merged policy results).outcome
      (merged policy (results.map (Check.renamedResult f))).outcome := by
  have hdescribed := descriptors_renamed (f := f) results
  simp only [merged, faults_renamed, List.partition_eq_filter_filter, List.filter_map,
    Function.comp_def, CollectionFault.isUnreadable_renamed]
  generalize (faults results).filter (fun r => r.2.isUnreadable) = unreadable
  generalize (faults results).filter (fun r => !r.2.isUnreadable) = brokenOff
  cases policy with
  | abort =>
      rcases unreadable with _ | ⟨⟨a, fault⟩, unreadable⟩
      · cases brokenOff with
        | nil => exact .described hdescribed
        | cons other brokenOff => exact .failed .cancelled
      · exact .failed fault
  | skip =>
      cases brokenOff with
      | nil => cases unreadable <;> exact .described hdescribed
      | cons other brokenOff => cases unreadable <;> exact .failed .cancelled

/-- **The second stage over renamed files.** Where all files give the same reads under their new
names, it comes to descriptors that agree, or to the same fault of the renamed file. -/
theorem describeAll_renamed {artifacts : List Pending}
    (h : ∀ a ∈ artifacts, SameReads w w' f a.absolutePath) (events : List CheckEvent) :
    Agree f (describeAll w policy artifacts events).outcome
      (describeAll w' policy (artifacts.map (·.renamed f)) events).outcome := by
  have hstart : (Check.start artifacts).SameReads w w' f := by
    intro worker hworker
    obtain ⟨a, ha, rfl⟩ := List.mem_map.mp hworker
    exact h a ha
  have hrenamed : Check.start (artifacts.map (·.renamed f)) =
      (Check.start artifacts).renamed f := by
    simp [Check.start, Check.renamed, Check.renamedWorker, Reader.renamed]
  obtain ⟨hafter, hsame⟩ := Check.after_renamed hstart policy events
  have hcancelled : ∀ c : Check, (c.renamed f).cancelled = c.cancelled := fun _ => rfl
  simp only [describeAll, hrenamed, hsame, hcancelled, Check.results_renamed hafter]
  split
  · exact .failed .cancelled
  · exact merged_renamed _

end Collection

end ArtifactHarvest
