import ArtifactHarvest.Proofs.Checksum.Passing
import ArtifactHarvest.Proofs.Digest.Standard
import Mathlib

/-!
What decides a pass over a source, for reads of any kind and a token that is cancelled at any time.
Each read meets an event or none (`Checksum.eventAt`), and the first event decides
(`Checksum.DecidedBy`). A pass that goes on behind its first read is a pass over the others with a
larger tally (`Checksum.decidedBy_cons_iff`, `Checksum.pass_of_decidedBy`). Main statement:
`Checksum.first_event_decides`.
-/

namespace ArtifactHarvest

/-- The bytes that a read hands out. -/
def Read.bytes (read : Read) : Bytes :=
  match read.result with
  | .data bytes => bytes
  | .interrupted | .failed _ => []

/-- What ends a pass. -/
inductive Event where
  | cancelled
  | ended
  | failed (fault : Fault)
deriving DecidableEq

namespace Event

/-- What a read ends a pass with. Behind some bytes, and where it may be tried again, the pass goes
on. -/
def ofResult? : ReadResult → Option Event
  | .data [] => some .ended
  | .data (_ :: _) | .interrupted => none
  | .failed fault => some (.failed fault)

/-- How many reads it takes to notice the event. Cancellation is noticed before a read. -/
def reads : Event → Nat
  | .cancelled => 0
  | .ended | .failed _ => 1

theorem reads_of_ofResult? {result : ReadResult} {event : Event}
    (h : ofResult? result = some event) : event.reads = 1 := by
  cases result with
  | data bytes =>
      cases bytes <;> cases h
      rfl
  | interrupted => cases h
  | failed fault =>
      cases h
      rfl

/-- What the pass comes to, when so much was handed out before. -/
def outcome (content : Bytes) : Event → Except ChecksumFault Checksum
  | .cancelled => .error .cancelled
  | .ended => .ok (Checksum.ofContent content)
  | .failed fault => .error (.failed fault)

end Event

namespace Checksum

/-- What a pass meets at its read number `i`, when it has come so far. Cancellation, which is for
good, comes before what the read gives, and behind all reads the data ends. -/
def eventAt (cancelled : Bool) (reads : List Read) (i : Nat) : Option Event :=
  if cancelled || (reads.take i).any Read.cancels then some .cancelled
  else
    match reads[i]? with
    | none => some .ended
    | some read => Event.ofResult? read.result

/-- The first event that a pass meets. -/
structure DecidedBy (cancelled : Bool) (reads : List Read) (i : Nat) (event : Event) : Prop where
  meets : eventAt cancelled reads i = some event
  first : ∀ j < i, eventAt cancelled reads j = none

variable {cancelled : Bool} {read : Read} {reads rest : List Read} {i : Nat} {event : Event}

theorem eventAt_of_cancelled (reads : List Read) (i : Nat) :
    eventAt true reads i = some .cancelled := by
  simp [eventAt]

theorem eventAt_cons_zero : eventAt false (read :: rest) 0 = Event.ofResult? read.result := by
  simp [eventAt]

/-- Behind a read, the token is cancelled if it was so in the meantime. -/
theorem eventAt_cons_succ : eventAt false (read :: rest) (i + 1) = eventAt read.cancels rest i := by
  simp [eventAt]

theorem DecidedBy.zero (h : eventAt cancelled reads 0 = some event) :
    DecidedBy cancelled reads 0 event :=
  ⟨h, fun _ hj => absurd hj (Nat.not_lt_zero _)⟩

/-- An event at the first read decides. -/
theorem DecidedBy.eq_of_zero {first : Event} (h : DecidedBy cancelled reads i event)
    (hfirst : eventAt cancelled reads 0 = some first) : i = 0 ∧ event = first := by
  obtain rfl : i = 0 := by
    by_contra hi
    have hnone := h.first 0 (Nat.pos_of_ne_zero hi)
    rw [hfirst] at hnone
    cases hnone
  exact ⟨rfl, Option.some.inj (h.meets.symm.trans hfirst)⟩

/-- Behind a read that the pass goes on from, what decides is found in the others. -/
theorem decidedBy_cons_iff (hon : Event.ofResult? read.result = none) :
    DecidedBy false (read :: rest) i event ↔
      ∃ j, i = j + 1 ∧ DecidedBy read.cancels rest j event := by
  constructor
  · rintro ⟨hmeets, hfirst⟩
    cases i with
    | zero =>
        rw [eventAt_cons_zero, hon] at hmeets
        cases hmeets
    | succ j =>
        refine ⟨j, rfl, eventAt_cons_succ ▸ hmeets, fun k hk => ?_⟩
        exact eventAt_cons_succ.symm.trans (hfirst (k + 1) (Nat.succ_lt_succ hk))
  · rintro ⟨j, rfl, hmeets, hfirst⟩
    refine ⟨eventAt_cons_succ.trans hmeets, fun k hk => ?_⟩
    cases k with
    | zero => exact eventAt_cons_zero.trans hon
    | succ k => exact eventAt_cons_succ.trans (hfirst k (Nat.lt_of_succ_lt_succ hk))

/-- Something decides each pass. -/
theorem exists_decidedBy (cancelled : Bool) (reads : List Read) :
    ∃ i event, DecidedBy cancelled reads i event := by
  induction reads generalizing cancelled with
  | nil => cases cancelled <;> exact ⟨0, _, .zero rfl⟩
  | cons read rest ih =>
      cases cancelled with
      | true => exact ⟨0, _, .zero (eventAt_of_cancelled _ 0)⟩
      | false =>
          cases hresult : Event.ofResult? read.result with
          | some event => exact ⟨0, event, .zero (eventAt_cons_zero.trans hresult)⟩
          | none =>
              obtain ⟨i, event, h⟩ := ih read.cancels
              exact ⟨i + 1, event, (decidedBy_cons_iff hresult).mpr ⟨i, rfl, h⟩⟩

/-! ### The pass -/

/-- A read that ends the pass ends it with the checksum of what the tally has seen, or with a
fault. -/
theorem after_of_event {message : Bytes} {t : Tally} (ht : t.Holds message)
    (h : Event.ofResult? read.result = some event) :
    t.after read.result = .ended (event.outcome message) := by
  cases hresult : read.result with
  | data bytes =>
      cases bytes with
      | nil =>
          rw [hresult] at h
          cases h
          rw [Tally.after, Event.outcome, ht.finish_eq]
      | cons byte bytes =>
          rw [hresult] at h
          cases h
  | interrupted =>
      rw [hresult] at h
      cases h
  | failed fault =>
      rw [hresult] at h
      cases h
      rfl

/-- Behind any other read the tally has seen what it handed out. -/
theorem after_of_no_event {message : Bytes} {t : Tally} (ht : t.Holds message)
    (h : Event.ofResult? read.result = none) :
    ∃ t', t.after read.result = .going t' ∧ t'.Holds (message ++ read.bytes) := by
  cases hresult : read.result with
  | data bytes =>
      cases bytes with
      | nil =>
          rw [hresult] at h
          cases h
      | cons byte bytes =>
          refine ⟨t.feed (byte :: bytes), rfl, ?_⟩
          rw [Read.bytes, hresult]
          exact Tally.feed_holds _ ht
  | interrupted =>
      refine ⟨t, rfl, ?_⟩
      rwa [Read.bytes, hresult, List.append_nil]
  | failed fault =>
      rw [hresult] at h
      cases h

theorem pass_of_cancelled (t : Tally) (reads : List Read) :
    pass true t reads = (.error .cancelled, 0) := by
  cases reads <;> rfl

theorem pass_cons_of_ended {t : Tally} {outcome : Except ChecksumFault Checksum}
    (h : t.after read.result = .ended outcome) (rest : List Read) :
    pass false t (read :: rest) = (outcome, [read].countP Read.fresh) := by
  simp [pass, h, List.countP_cons]

theorem pass_cons_of_going {t t' : Tally} (h : t.after read.result = .going t')
    (rest : List Read) :
    pass false t (read :: rest) = ((pass read.cancels t' rest).1,
      [read].countP Read.fresh + (pass read.cancels t' rest).2) := by
  simp [pass, h, List.countP_cons]

/-- What the first event decides, and how many fresh reads it takes to come upon it. No read behind
them matters. -/
theorem pass_of_decidedBy {message : Bytes} {t : Tally} (ht : t.Holds message)
    (h : DecidedBy cancelled reads i event) :
    pass cancelled t reads = (event.outcome (message ++ (reads.take i).flatMap Read.bytes),
        (reads.take (i + event.reads)).countP Read.fresh) ∧
      (i + event.reads ≤ reads.length → ∀ others,
        pass cancelled t (reads.take (i + event.reads) ++ others) = pass cancelled t reads) := by
  induction reads generalizing cancelled message t i with
  | nil =>
      cases cancelled with
      | true =>
          obtain ⟨rfl, rfl⟩ := h.eq_of_zero (eventAt_of_cancelled _ 0)
          simp [pass_of_cancelled, Event.outcome]
      | false =>
          have hended : eventAt false [] 0 = some .ended := rfl
          obtain ⟨rfl, rfl⟩ := h.eq_of_zero hended
          simp [pass, Event.outcome, Event.reads, ht.finish_eq]
  | cons read rest ih =>
      cases cancelled with
      | true =>
          obtain ⟨rfl, rfl⟩ := h.eq_of_zero (eventAt_of_cancelled _ 0)
          simp [pass_of_cancelled, Event.outcome, Event.reads]
      | false =>
          cases hresult : Event.ofResult? read.result with
          | some first =>
              obtain ⟨rfl, rfl⟩ := h.eq_of_zero (eventAt_cons_zero.trans hresult)
              have hafter := after_of_event ht hresult
              rw [Event.reads_of_ofResult? hresult]
              refine ⟨?_, fun _ others => ?_⟩
              · rw [pass_cons_of_ended hafter]
                simp
              · rw [pass_cons_of_ended hafter]
                exact pass_cons_of_ended hafter others
          | none =>
              obtain ⟨j, rfl, hj⟩ := (decidedBy_cons_iff hresult).mp h
              obtain ⟨t', hafter, ht'⟩ := after_of_no_event ht hresult
              obtain ⟨hpass, hothers⟩ := ih ht' hj
              rw [Nat.add_right_comm, List.take_succ_cons, List.take_succ_cons]
              refine ⟨?_, fun hlength others => ?_⟩
              · rw [pass_cons_of_going hafter, hpass, List.flatMap_cons, ← List.append_assoc,
                  ← List.countP_append]
                rfl
              · rw [List.cons_append, pass_cons_of_going hafter, pass_cons_of_going hafter,
                  hothers (Nat.le_of_succ_le_succ hlength)]

/-- **The first event decides a pass.** There always is one: the token is cancelled before a read,
or else the data ends, or else the read fails for good. The pass comes to what the event says, with
the checksum of all that was handed out before where the data ended, and no further read is made.
The size in that checksum is how much was handed out, and its digests are those of the concatenated
bytes, in lower-case digits. So the pieces in which they came, and the reads that were tried again,
do not matter. -/
theorem first_event_decides (cancelled : Bool) (reads : List Read) :
    ∃ i event, DecidedBy cancelled reads i event ∧
      pass cancelled .start reads = (event.outcome ((reads.take i).flatMap Read.bytes),
        (reads.take (i + event.reads)).countP Read.fresh) ∧
      (i + event.reads ≤ reads.length → ∀ others,
        pass cancelled .start (reads.take (i + event.reads) ++ others) =
          pass cancelled .start reads) ∧
      ∀ content, content = (reads.take i).flatMap Read.bytes → event = .ended →
        ∃ checksum, ofReads cancelled reads = .ok checksum ∧
          checksum.size = UInt64.ofNat content.length ∧
          (content.length < UInt64.size → checksum.size.toNat = content.length) ∧
          checksum.sha1 = Digest.sha1.ofMessage content ∧ Digest.IsHex 40 checksum.sha1 ∧
          checksum.sha256 = Digest.sha256.ofMessage content ∧ Digest.IsHex 64 checksum.sha256 ∧
          ∀ cancelled' reads' i', DecidedBy cancelled' reads' i' .ended →
            (reads'.take i').flatMap Read.bytes = content →
              ofReads cancelled' reads' = .ok checksum := by
  obtain ⟨i, event, h⟩ := exists_decidedBy cancelled reads
  obtain ⟨hpass, hothers⟩ := pass_of_decidedBy Tally.start_holds h
  refine ⟨i, event, h, hpass, hothers, ?_⟩
  rintro content rfl rfl
  refine ⟨_, congrArg Prod.fst hpass, rfl, fun hsize => UInt64.toNat_ofNat_of_lt' hsize, rfl,
    Digest.sha1_isHex _, rfl, Digest.sha256_isHex _, fun cancelled' reads' i' h' hsame => ?_⟩
  have hpass' := (pass_of_decidedBy Tally.start_holds h').1
  rw [ofReads, hpass', hsame]
  rfl

/-- A read that is tried again, and then one that fails. What comes behind is not read. -/
example : pass false .start [⟨.data [97], false, true⟩, ⟨.interrupted, false, true⟩,
    ⟨.failed .readFailed, false, true⟩, ⟨.data [], false, true⟩] =
    (.error (.failed .readFailed), 3) := by
  decide +kernel

end Checksum

end ArtifactHarvest
