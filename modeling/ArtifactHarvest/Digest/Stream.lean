import ArtifactHarvest.Text.Utf8

/-!
Digests over blocks of 64 bytes, taken in one go or while the bytes come in.
-/

namespace ArtifactHarvest

/-- A digest is fixed by its first chaining value, by how a block changes the chaining value, and by
the words of the last chaining value. -/
structure Digest (Chain : Type) where
  start : Chain
  compress : Chain → Bytes → Chain
  words : Chain → List UInt32

namespace Digest

def blockSize : Nat := 64

/-- The bytes in blocks; a rest shorter than a block is left out. -/
def blocks (bytes : Bytes) : List Bytes :=
  if blockSize ≤ bytes.length then bytes.take blockSize :: blocks (bytes.drop blockSize) else []
termination_by bytes.length
decreasing_by
  simp only [blockSize, List.length_drop] at *
  omega

/-- The lowest bytes of a number, the highest of them first. -/
def bigEndian (count n : Nat) : Bytes :=
  (List.range count).reverse.map fun i => UInt8.ofNat (n / Nat.pow 256 i)

/-- What is put behind a message of so many bytes: a one bit, zeros up to eight bytes before the end
of a block, and the length in bits. -/
def padding (length : Nat) : Bytes :=
  0x80 :: List.replicate ((119 - length % 64) % 64) 0 ++ bigEndian 8 (8 * length)

/-- A big-endian word of four bytes. -/
def word (a b c d : UInt8) : UInt32 :=
  a.toUInt32 <<< 24 ||| b.toUInt32 <<< 16 ||| c.toUInt32 <<< 8 ||| d.toUInt32

/-- The words of a block. -/
def wordsOf : Bytes → List UInt32
  | a :: b :: c :: d :: rest => word a b c d :: wordsOf rest
  | _ => []

def rotateLeft (x n : UInt32) : UInt32 := x <<< n ||| x >>> (32 - n)

def rotateRight (x n : UInt32) : UInt32 := x >>> n ||| x <<< (32 - n)

/-- One digit in base sixteen, lower case. -/
def hexDigit (n : Nat) : Char :=
  Char.ofNat (if n < 10 then 48 + n else 87 + n)

/-- A word as eight digits in base sixteen. -/
def hexWord (w : UInt32) : List Char :=
  (List.range 8).reverse.map fun i => hexDigit (w.toNat / Nat.pow 16 i % 16)

def hex {Chain : Type} (d : Digest Chain) (chain : Chain) : String :=
  String.ofList ((d.words chain).flatMap hexWord)

/-- The digest of a whole message. -/
def ofMessage {Chain : Type} (d : Digest Chain) (message : Bytes) : String :=
  d.hex ((blocks (message ++ padding message.length)).foldl d.compress d.start)

/-- A digest in the making. The bytes that do not fill a block yet stand newest first. -/
structure Stream (Chain : Type) where
  chain : Chain
  waiting : Bytes
  waitingCount : Nat
  length : Nat

namespace Stream

def begin {Chain : Type} (d : Digest Chain) : Stream Chain := ⟨d.start, [], 0, 0⟩

def push {Chain : Type} (d : Digest Chain) (s : Stream Chain) (b : UInt8) : Stream Chain :=
  if s.waitingCount + 1 = blockSize then
    ⟨d.compress s.chain (b :: s.waiting).reverse, [], 0, s.length + 1⟩
  else ⟨s.chain, b :: s.waiting, s.waitingCount + 1, s.length + 1⟩

def feed {Chain : Type} (d : Digest Chain) (s : Stream Chain) (bytes : Bytes) : Stream Chain :=
  bytes.foldl (push d) s

/-- The digest of all bytes fed in. -/
def finish {Chain : Type} (d : Digest Chain) (s : Stream Chain) : String :=
  d.hex ((blocks (s.waiting.reverse ++ padding s.length)).foldl d.compress s.chain)

end Stream

end Digest

end ArtifactHarvest
