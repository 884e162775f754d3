import ArtifactHarvest.Digest.Sha1
import ArtifactHarvest.Digest.Sha256
import ArtifactHarvest.FileSystem.Workspace

/-!
Size and digests of a source of bytes, from one pass over it. The source is a sequence of reads, and
cancellation is looked for before each of them.
-/

namespace ArtifactHarvest

/-- Size and digests of one file. -/
structure Checksum where
  size : UInt64
  sha1 : String
  sha256 : String
deriving DecidableEq

/-- What one read gives. -/
inductive ReadResult where
  /-- Bytes; none of them means that the data ends here. -/
  | data (bytes : Bytes)
  /-- Nothing, but the read may be tried again. -/
  | interrupted
  | failed (fault : Fault)

/-- One read. `cancels` says that the collection is cancelled while it is under way, and `fresh`
that it does not merely go on handing out what an earlier one began. -/
structure Read where
  result : ReadResult
  cancels : Bool
  fresh : Bool

namespace Read

/-- No read gives more bytes than this. -/
def bufferSize : Nat := 1024 * 1024

/-- The later reads that hand out what one of them could not. -/
def continued (bytes : Bytes) : List Read :=
  if _h : bytes = [] then []
  else ⟨.data (bytes.take bufferSize), false, false⟩ :: continued (bytes.drop bufferSize)
termination_by bytes.length
decreasing_by
  have := List.length_pos_iff.mpr ‹_›
  simp only [bufferSize, List.length_drop]
  omega

/-- The reads that it takes to get some bytes that are ready at once. -/
def ofBytes (bytes : Bytes) (cancels : Bool) : List Read :=
  ⟨.data (bytes.take bufferSize), cancels, true⟩ :: continued (bytes.drop bufferSize)

end Read

/-- How far a pass over a source has come. -/
structure Tally where
  size : UInt64
  sha1 : Digest.Stream Digest.Sha1.Chain
  sha256 : Digest.Stream Digest.Sha256.Chain

namespace Tally

def start : Tally := ⟨0, .begin Digest.sha1, .begin Digest.sha256⟩

def feed (t : Tally) (bytes : Bytes) : Tally :=
  ⟨t.size + UInt64.ofNat bytes.length, t.sha1.feed Digest.sha1 bytes,
    t.sha256.feed Digest.sha256 bytes⟩

def finish (t : Tally) : Checksum :=
  ⟨t.size, t.sha1.finish Digest.sha1, t.sha256.finish Digest.sha256⟩

end Tally

/-- Why a pass over a source gave no checksum. -/
inductive ChecksumFault where
  | failed (fault : Fault)
  | cancelled
deriving DecidableEq

/-- Where a pass stands after a read. -/
inductive Progress where
  | going (tally : Tally)
  | ended (outcome : Except ChecksumFault Checksum)

/-- What a read does to a pass. -/
def Tally.after (t : Tally) : ReadResult → Progress
  | .data [] => .ended (.ok t.finish)
  | .data bytes => .going (t.feed bytes)
  | .interrupted => .going t
  | .failed fault => .ended (.error (.failed fault))

namespace Checksum

/-- The checksum of a file's content. -/
def ofContent (content : Bytes) : Checksum :=
  ⟨UInt64.ofNat content.length, Digest.sha1.ofMessage content, Digest.sha256.ofMessage content⟩

/-- A pass over the reads, with the number of fresh ones that were made. -/
def pass (cancelled : Bool) (tally : Tally) : List Read → Except ChecksumFault Checksum × Nat
  | [] => (if cancelled then .error .cancelled else .ok tally.finish, 0)
  | read :: rest =>
      if cancelled then (.error .cancelled, 0)
      else
        let used := if read.fresh then 1 else 0
        match tally.after read.result with
        | .ended outcome => (outcome, used)
        | .going tally =>
            let (outcome, more) := pass read.cancels tally rest
            (outcome, used + more)

/-- The checksum of what the reads give. -/
def ofReads (cancelled : Bool) (reads : List Read) : Except ChecksumFault Checksum :=
  (pass cancelled .start reads).1

/-- The reads of the file that a path leads to. Whatever is no regular file is refused. -/
def readsOf (w : Workspace) (p : Path) : Except Fault (List Read) :=
  match w.lookup false p with
  | .error fault => .error fault
  | .ok (_, .file content) => .ok (Read.ofBytes content false)
  | .ok (_, .unreadable given) =>
      .ok (Read.continued given ++ [⟨.failed .readFailed, false, true⟩])
  | .ok _ => .error .notRegular

/-- The checksum of the file that a path leads to. Opening it does not look for cancellation. -/
def ofFile (w : Workspace) (cancelled : Bool) (p : Path) : Except ChecksumFault Checksum :=
  match readsOf w p with
  | .error fault => .error (.failed fault)
  | .ok reads => ofReads cancelled reads

end Checksum

end ArtifactHarvest
