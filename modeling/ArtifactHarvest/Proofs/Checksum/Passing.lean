import ArtifactHarvest.Checksum
import ArtifactHarvest.Proofs.Digest.Streaming

/-!
A pass over a file that nobody stops. The tally always has size and digests of what it has seen
(`Tally.Holds`), so a file that can be read comes to the checksum of its content
(`ofFile_of_content`), and any other comes to a fault (`ofFile_of_no_content`).
-/

namespace ArtifactHarvest

/-- The bytes of the regular file that a path leads to, if they can be read. -/
def Workspace.content? (w : Workspace) (file : Path) : Option Bytes :=
  match w.lookup false file with
  | .ok (_, .file content) => some content
  | _ => none

theorem Workspace.content?_eq_some_iff {w : Workspace} {file : Path} {content : Bytes} :
    w.content? file = some content ↔ ∃ loc, w.lookup false file = .ok (loc, .file content) := by
  unfold content?
  split
  · rename_i loc other hlook
    simp [hlook]
  · rename_i hother
    constructor
    · nofun
    · rintro ⟨loc, hlook⟩
      exact absurd hlook (hother loc content)

/-- The tally has seen the message. -/
structure Tally.Holds (message : Bytes) (t : Tally) : Prop where
  size : t.size = UInt64.ofNat message.length
  sha1 : t.sha1.Holds Digest.sha1 message
  sha256 : t.sha256.Holds Digest.sha256 message

namespace Tally

theorem start_holds : start.Holds [] where
  size := rfl
  sha1 := Digest.Stream.begin_holds Digest.sha1
  sha256 := Digest.Stream.begin_holds Digest.sha256

theorem feed_holds {message : Bytes} {t : Tally} (bytes : Bytes) (h : t.Holds message) :
    (t.feed bytes).Holds (message ++ bytes) where
  size := by rw [feed, h.size, List.length_append, UInt64.ofNat_add]
  sha1 := Digest.Stream.feed_holds bytes h.sha1
  sha256 := Digest.Stream.feed_holds bytes h.sha256

theorem Holds.finish_eq {message : Bytes} {t : Tally} (h : t.Holds message) :
    t.finish = Checksum.ofContent message := by
  rw [finish, Checksum.ofContent, h.size, h.sha1.finish_eq, h.sha256.finish_eq]

end Tally

/-- A read of what is left gives at least one byte. -/
theorem Read.exists_cons_take {bytes : Bytes} (h : bytes ≠ []) :
    ∃ byte part, bytes.take bufferSize = byte :: part := by
  refine List.exists_cons_of_ne_nil fun hnone => ?_
  simp [bufferSize, h] at hnone

namespace Checksum

theorem pass_continued {message : Bytes} {t : Tally} (bytes : Bytes) (h : t.Holds message) :
    (pass false t (Read.continued bytes)).1 = .ok (ofContent (message ++ bytes)) := by
  induction bytes using Read.continued.induct generalizing message t with
  | case1 => simp [Read.continued, pass, h.finish_eq]
  | case2 bytes hbytes ih =>
      obtain ⟨byte, part, hpart⟩ := Read.exists_cons_take hbytes
      have hrest := ih (Tally.feed_holds (byte :: part) h)
      rw [List.append_assoc, ← hpart, List.take_append_drop] at hrest
      rw [Read.continued, dif_neg hbytes, ← hrest, hpart]
      rfl

/-- **A file that can be read** comes to the checksum of its content, however many reads it
takes. -/
theorem pass_ofBytes (content : Bytes) :
    (pass false .start (Read.ofBytes content false)).1 = .ok (ofContent content) := by
  by_cases hcontent : content = []
  · subst hcontent
    simp [Read.ofBytes, pass, Tally.after, Tally.start_holds.finish_eq]
  · have hsame : (pass false .start (Read.ofBytes content false)).1 =
        (pass false .start (Read.continued content)).1 := by
      rw [Read.continued, dif_neg hcontent, Read.ofBytes, pass, pass]
      cases Tally.start.after (.data (content.take Read.bufferSize)) <;> rfl
    rw [hsame, pass_continued content Tally.start_holds, List.nil_append]

/-- A read that fails ends the pass, whatever was handed out before. -/
theorem pass_failing (t : Tally) (given : Bytes) (fault : Fault) :
    (pass false t (Read.continued given ++ [⟨.failed fault, false, true⟩])).1 =
      .error (.failed fault) := by
  induction given using Read.continued.induct generalizing t with
  | case1 => simp [Read.continued, pass, Tally.after]
  | case2 bytes hbytes ih =>
      obtain ⟨byte, part, hpart⟩ := Read.exists_cons_take hbytes
      rw [Read.continued, dif_neg hbytes, ← ih (t.feed (byte :: part)), hpart]
      rfl

variable {w : Workspace} {file : Path}

theorem ofFile_of_content {content : Bytes} (h : w.content? file = some content) :
    ofFile w false file = .ok (ofContent content) := by
  obtain ⟨loc, hlook⟩ := Workspace.content?_eq_some_iff.mp h
  simp only [ofFile, readsOf, hlook, ofReads, pass_ofBytes]

theorem ofFile_of_no_content (h : w.content? file = none) :
    ∃ fault, ofFile w false file = .error (.failed fault) := by
  unfold Workspace.content? at h
  simp only [ofFile, readsOf]
  cases hlook : w.lookup false file with
  | error fault => exact ⟨fault, rfl⟩
  | ok found =>
      obtain ⟨loc, o⟩ := found
      cases o with
      | file content => simp [hlook] at h
      | unreadable given => exact ⟨.readFailed, by simp only [ofReads, pass_failing]⟩
      | directory | link _ | special => exact ⟨.notRegular, rfl⟩

end Checksum

end ArtifactHarvest
