import ArtifactHarvest.Artifact.Record

/-!
The summary of a collection: who collected what and when, with the totals.
-/

namespace ArtifactHarvest

structure Summary where
  /-- A random identifier. -/
  id : String
  hostname : String
  /-- When the collection was made. -/
  time : String
  artifacts : List Descriptor
deriving DecidableEq

namespace Summary

open Json (Value)

/-- The sizes added up as words of 64 bits. -/
def totalBytes (s : Summary) : UInt64 :=
  s.artifacts.foldl (fun sum d => sum + d.size) 0

/-- A descriptor with its keys in order of name. -/
def describe (d : Descriptor) : Value :=
  .record [("absolute_path", .text d.absolutePath), ("file_size", .natural d.size.toNat),
    ("glob_path", .text d.pattern), ("path", .text d.path), ("sha1sum", .text d.sha1),
    ("sha256sum", .text d.sha256)]

/-- The summary with its keys in order of name. -/
def toJson (s : Summary) : Value :=
  .record [("artifact_count", .natural s.artifacts.length),
    ("artifacts", .array (s.artifacts.map describe)), ("collection_id", .text s.id),
    ("collection_timestamp", .text s.time), ("hostname", .text s.hostname),
    ("total_bytes", .natural s.totalBytes.toNat)]

def text (s : Summary) : String := s.toJson.toPretty

/-- The summary that a text holds. The totals follow from the artifacts and are not read. -/
def parse? (text : String) : Option Summary :=
  match Value.parse? text with
  | some (.object members) => do
      let named ← members.mapM fun (key, v) => key.text?.map (·, v)
      let artifacts ←
        match Descriptor.single? named "artifacts" with
        | some (.array items) => items.mapM Descriptor.ofJson?
        | _ => none
      return {
        id := ← (Descriptor.single? named "collection_id").bind Value.text?
        hostname := ← (Descriptor.single? named "hostname").bind Value.text?
        time := ← (Descriptor.single? named "collection_timestamp").bind Value.text?
        artifacts := artifacts }
  | _ => none

end Summary

end ArtifactHarvest
