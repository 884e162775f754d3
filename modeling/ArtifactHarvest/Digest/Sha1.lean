import ArtifactHarvest.Digest.Stream

/-!
SHA-1.
-/

namespace ArtifactHarvest.Digest.Sha1

structure Chain where
  a : UInt32
  b : UInt32
  c : UInt32
  d : UInt32
  e : UInt32
deriving DecidableEq

def start : Chain := ⟨0x67452301, 0xEFCDAB89, 0x98BADCFE, 0x10325476, 0xC3D2E1F0⟩

/-- The eighty words that the rounds use, grown from the sixteen of a block. -/
def schedule (block : Bytes) : Array UInt32 :=
  (List.range 64).foldl
    (fun w i => w.push (rotateLeft
      (w.getD (i + 13) 0 ^^^ w.getD (i + 8) 0 ^^^ w.getD (i + 2) 0 ^^^ w.getD i 0) 1))
    (wordsOf block).toArray

/-- What a round mixes from the three middle words, and the constant that it adds. -/
def mixed (t : Nat) (b c d : UInt32) : UInt32 :=
  if t < 20 then ((b &&& c) ||| (~~~b &&& d)) + 0x5A827999
  else if t < 40 then (b ^^^ c ^^^ d) + 0x6ED9EBA1
  else if t < 60 then ((b &&& c) ||| (b &&& d) ||| (c &&& d)) + 0x8F1BBCDC
  else (b ^^^ c ^^^ d) + 0xCA62C1D6

def round (w : Array UInt32) (s : Chain) (t : Nat) : Chain :=
  ⟨rotateLeft s.a 5 + mixed t s.b s.c s.d + s.e + w.getD t 0, s.a, rotateLeft s.b 30, s.c, s.d⟩

def compress (s : Chain) (block : Bytes) : Chain :=
  let r := (List.range 80).foldl (round (schedule block)) s
  ⟨s.a + r.a, s.b + r.b, s.c + r.c, s.d + r.d, s.e + r.e⟩

end Sha1

/-- SHA-1. -/
def sha1 : Digest Sha1.Chain where
  start := Sha1.start
  compress := Sha1.compress
  words s := [s.a, s.b, s.c, s.d, s.e]

end ArtifactHarvest.Digest
