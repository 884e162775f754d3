import ArtifactHarvest.Proofs.Summary.Reading

/-!
What the text of a summary tells besides the artifacts. The number of bytes is added up as words of
64 bits, so it is what is left of the exact sum within a word (`toNat_totalBytes`). Main statement:
`text_tells`.
-/

namespace ArtifactHarvest.Summary

open Json (Value)

/-- The sizes added up without a limit. -/
def exactBytes (s : Summary) : Nat :=
  (s.artifacts.map fun d => d.size.toNat).sum

/-- Words are added up as numbers are, up to what a word can hold. -/
theorem toNat_foldl_size (ds : List Descriptor) (sum : UInt64) :
    (ds.foldl (fun sum d => sum + d.size) sum).toNat =
      (sum.toNat + (ds.map fun d => d.size.toNat).sum) % UInt64.size := by
  induction ds generalizing sum with
  | nil => exact (Nat.mod_eq_of_lt sum.toNat_lt).symm
  | cons d ds ih =>
      rw [List.foldl_cons, ih, UInt64.toNat_add, List.map_cons, List.sum_cons, ← Nat.add_assoc,
        Nat.mod_add_mod]

theorem toNat_totalBytes (s : Summary) : s.totalBytes.toNat = s.exactBytes % UInt64.size := by
  rw [totalBytes, toNat_foldl_size, exactBytes]
  exact congrArg (· % UInt64.size) (Nat.zero_add _)

theorem toNat_totalBytes_eq_iff (s : Summary) :
    s.totalBytes.toNat = s.exactBytes ↔ s.exactBytes < UInt64.size := by
  rw [toNat_totalBytes]
  constructor
  · intro h
    rw [← h]
    exact Nat.mod_lt _ (by decide)
  · exact Nat.mod_eq_of_lt

/-- **What the text of a summary tells.** It is read back as the summary. Its record has the host
name, the artifacts in order and their number, and of the sum of their sizes what is left within 64
bits. So it has the exact sum just where that is a number of 64 bits. -/
theorem text_tells (s : Summary) :
    parse? s.text = some s ∧
    ∃ members, Value.parse? s.text = some (.record members) ∧
      Descriptor.single? members "hostname" = some (.text s.hostname) ∧
      (∃ items, Descriptor.single? members "artifacts" = some (.array items) ∧
        items.mapM Descriptor.ofJson? = some s.artifacts) ∧
      Descriptor.single? members "artifact_count" = some (.natural s.artifacts.length) ∧
      Descriptor.single? members "total_bytes" =
        some (.natural (s.exactBytes % UInt64.size)) ∧
      (Descriptor.single? members "total_bytes" = some (.natural s.exactBytes) ↔
        s.exactBytes < UInt64.size) := by
  refine ⟨s.parse?_text, _, s.parse?_text_eq, ?_,
    ⟨_, ?_, mapM_ofJson?_describe s.artifacts⟩, ?_, ?_, ?_⟩
  · simp [Descriptor.single?]
  · simp [Descriptor.single?]
  · simp [Descriptor.single?]
  · simp [Descriptor.single?, toNat_totalBytes]
  · simp [Descriptor.single?, Value.natural, toNat_totalBytes_eq_iff]

/-- A summary of two artifacts whose sizes add up to one more than a word can hold. -/
def overflowing : Summary where
  id := ""
  hostname := "host"
  time := ""
  artifacts := [⟨"a", "/a", "*", 18446744073709551615, "", ""⟩, ⟨"b", "/b", "*", 1, "", ""⟩]

/-- The text of such a summary says that there are no bytes. -/
theorem overflowing_tells_nothing :
    overflowing.exactBytes = 18446744073709551616 ∧
      ∃ members, Value.parse? overflowing.text = some (.record members) ∧
        Descriptor.single? members "total_bytes" = some (.natural 0) ∧
        Descriptor.single? members "total_bytes" ≠ some (.natural overflowing.exactBytes) := by
  have hexact : overflowing.exactBytes = 18446744073709551616 := by decide
  have htotal : overflowing.totalBytes.toNat = 0 := by decide
  refine ⟨hexact, _, overflowing.parse?_text_eq, ?_, ?_⟩
  · simp [Descriptor.single?, htotal]
  · simp [Descriptor.single?, htotal, hexact, Value.natural]

end ArtifactHarvest.Summary
