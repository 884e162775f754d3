import ArtifactHarvest.Digest.Sha1
import ArtifactHarvest.Digest.Sha256

/-!
A digest taken while the bytes come in is the digest of the whole message, however the bytes were
cut (`Stream.Holds.finish_eq`). What carries it: the stream has compressed the full blocks of what
it has seen, and what is left does not fill a block (`Stream.Holds`).
-/

namespace ArtifactHarvest.Digest

variable {Chain : Type} {d : Digest Chain}

/-- Full blocks in front are cut off one by one. -/
theorem blocks_flatten_append {full : List Bytes} (h : ∀ block ∈ full, block.length = blockSize)
    (rest : Bytes) : blocks (full.flatten ++ rest) = full ++ blocks rest := by
  induction full with
  | nil => rfl
  | cons block full ih =>
      have hblock := h block List.mem_cons_self
      rw [List.flatten_cons, List.append_assoc, blocks, if_pos]
      · rw [List.take_left' hblock, List.drop_left' hblock,
          ih fun other hother => h other (List.mem_cons_of_mem block hother), List.cons_append]
      · rw [List.length_append, hblock]
        exact Nat.le_add_right _ _

namespace Stream

/-- The stream has seen the message: its full blocks are in the chaining value, and the rest
waits. -/
structure Holds (d : Digest Chain) (message : Bytes) (s : Stream Chain) : Prop where
  whole : ∃ full : List Bytes, (∀ block ∈ full, block.length = blockSize) ∧
    message = full.flatten ++ s.waiting.reverse ∧ s.chain = full.foldl d.compress d.start
  count : s.waitingCount = s.waiting.length
  length : s.length = message.length

theorem begin_holds (d : Digest Chain) : (begin d).Holds d [] where
  whole := ⟨[], nofun, rfl, rfl⟩
  count := rfl
  length := rfl

theorem push_holds {message : Bytes} {s : Stream Chain} (b : UInt8) (h : s.Holds d message) :
    (s.push d b).Holds d (message ++ [b]) := by
  obtain ⟨⟨full, hfull, hmessage, hchain⟩, hcount, hlength⟩ := h
  unfold push
  split
  · rename_i hfills
    refine ⟨⟨full ++ [(b :: s.waiting).reverse], ?_, ?_, ?_⟩, rfl, ?_⟩
    · intro block hblock
      rcases List.mem_append.mp hblock with hold | hnew
      · exact hfull block hold
      · rw [List.mem_singleton.mp hnew, List.length_reverse, List.length_cons, ← hcount, hfills]
    · simp [hmessage]
    · simp [hchain]
    · simp [hlength]
  · refine ⟨⟨full, hfull, ?_, hchain⟩, ?_, ?_⟩
    · simp [hmessage]
    · simp [hcount]
    · simp [hlength]

theorem feed_holds {message : Bytes} {s : Stream Chain} (bytes : Bytes) (h : s.Holds d message) :
    (s.feed d bytes).Holds d (message ++ bytes) := by
  induction bytes generalizing message s with
  | nil => rwa [List.append_nil]
  | cons b bytes ih =>
      rw [List.append_cons]
      exact ih (push_holds b h)

/-- **Taken while the bytes come in or in one go**, the digest is the same. -/
theorem Holds.finish_eq {message : Bytes} {s : Stream Chain} (h : s.Holds d message) :
    s.finish d = d.ofMessage message := by
  obtain ⟨⟨full, hfull, hmessage, hchain⟩, _, hlength⟩ := h
  have hpadded : message ++ padding message.length =
      full.flatten ++ (s.waiting.reverse ++ padding message.length) := by
    rw [← List.append_assoc, ← hmessage]
  rw [finish, ofMessage, hlength, hchain, hpadded, blocks_flatten_append hfull, List.foldl_append]

end Stream

end ArtifactHarvest.Digest
