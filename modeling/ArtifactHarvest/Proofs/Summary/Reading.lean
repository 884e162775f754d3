import ArtifactHarvest.Proofs.Artifact.Record
import ArtifactHarvest.Proofs.FileSystem.Writing
import ArtifactHarvest.Proofs.Text.Encoding
import ArtifactHarvest.Summary.Saving

/-!
A summary and its text. The text spells the record of the summary (`parse?_text_eq`), whose
artifacts are read back although their keys stand in another order than where they are listed alone
(`ofJson?_describe`). So the text gives the summary back (`parse?_text`) and says how many
artifacts there are (`lists_text`), and so does a file that keeps what is written
(`holdsSummary_of_save`).
-/

namespace ArtifactHarvest

namespace Summary

open Json (Value Content Spellable)

theorem spellable_describe (d : Descriptor) : Spellable (describe d).tokens := by
  rw [describe, Json.spellable_record_iff]
  simp [Json.spellable_text, Json.spellable_natural]

theorem ofJson?_describe (d : Descriptor) : Descriptor.ofJson? (describe d) = some d :=
  Descriptor.ofJson?_record (by simp [Descriptor.fields])

theorem mapM_ofJson?_describe (ds : List Descriptor) :
    (ds.map describe).mapM Descriptor.ofJson? = some ds := by
  rw [mapM_map_eq_some fun d _ => ofJson?_describe d, List.map_id']

theorem spellable_toJson (s : Summary) : Spellable s.toJson.tokens := by
  rw [toJson, Json.spellable_record_iff]
  simp [Json.spellable_text, Json.spellable_natural, Json.spellable_array_iff, spellable_describe]

theorem parse?_text_eq (s : Summary) : Value.parse? s.text = some s.toJson :=
  Value.parse?_toPretty s.spellable_toJson

/-- **A summary is read back from its text.** -/
theorem parse?_text (s : Summary) : parse? s.text = some s := by
  have hartifacts := mapM_ofJson?_describe s.artifacts
  simp only [parse?, parse?_text_eq, toJson, Value.record, Descriptor.keys_record,
    Option.bind_eq_bind, Option.bind_some]
  simp [Descriptor.single?, hartifacts, Value.text?_text]

/-- Whether a text is a summary of these artifacts that says how many they are. -/
def Lists (text : String) (artifacts : List Descriptor) : Prop :=
  (∃ s, parse? text = some s ∧ s.artifacts = artifacts) ∧
    ∃ members, Value.parse? text = some (.record members) ∧
      Descriptor.single? members "artifact_count" = some (.natural artifacts.length)

theorem lists_text (s : Summary) : Lists s.text s.artifacts := by
  refine ⟨⟨s, s.parse?_text, rfl⟩, _, s.parse?_text_eq, ?_⟩
  simp [Descriptor.single?]

end Summary

/-- Whether the file that a path leads to holds a summary of these artifacts, with their number. -/
def Workspace.HoldsSummary (w : Workspace) (p : Path) (ds : List Descriptor) : Prop :=
  ∃ content text, w.read p = .ok content ∧ Text.Utf8.decode? content = some text ∧
    Summary.Lists text ds

namespace Summary

variable {s : Summary} {w w' : Workspace} {p : Path} {writing : Writing}

theorem save_eq_ok_iff : s.save w p writing = .ok w' ↔
    w.write p (Text.Utf8.encode s.text) writing = .ok w' := by
  unfold save
  cases w.write p (Text.Utf8.encode s.text) writing <;> simp

theorem write_of_save_error {e : SaveFault} (h : s.save w p writing = .error e) :
    w.write p (Text.Utf8.encode s.text) writing = .error ⟨e.fault, e.left⟩ := by
  unfold save at h
  split at h
  · cases h
  · rename_i hwrite
    rw [← Except.error.inj h, hwrite]

theorem holdsSummary_of_save (h : s.save w p writing = .ok w') (hspecial : ¬ w.LeadsToSpecial p) :
    w'.HoldsSummary p s.artifacts := by
  have hread := Workspace.read_of_write (save_eq_ok_iff.mp h) hspecial
  exact ⟨_, s.text, hread, Text.Utf8.decode?_encode s.text, s.lists_text⟩

end Summary

end ArtifactHarvest
