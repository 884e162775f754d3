import ArtifactHarvest.Glob.Basic

/-!
Reading a glob from its text. The first fault from the left is the one reported.
-/

namespace ArtifactHarvest

/-- Why a text is no glob. -/
inductive GlobFault where
  /-- Three stars or more in a row. -/
  | longStar
  /-- Two stars in a row beside something else. -/
  | partialDoubleStar
  /-- A bracket that opens no class. -/
  | openClass
deriving DecidableEq

def GlobFault.message : GlobFault → String
  | .longStar => "wildcards are either regular `*` or recursive `**`"
  | .partialDoubleStar => "recursive wildcards must form a single path component"
  | .openClass => "invalid range pattern"

namespace Glob

/-- Whether the text asks for matching at all. -/
def isMeant (text : String) : Bool :=
  text.toList.any fun c => c == '*' || c == '?' || c == '['

/-- The entries of a class, from left to right: `x-y` is a range wherever it can be read. -/
def classItems : List Char → List ClassItem
  | a :: '-' :: b :: rest => .range a b :: classItems rest
  | a :: rest => .single a :: classItems rest
  | [] => []

/-- The class that follows an opening bracket, and the text after it. The first character belongs
to the class even if it is a closing bracket. -/
def readClass? (cs : List Char) : Option (GlobToken × List Char) :=
  let negated := cs.head? == some '!'
  match if negated then cs.tail else cs with
  | [] => none
  | first :: more =>
      match more.dropWhile (· != ']') with
      | [] => none
      | _ :: rest => some (.oneOf negated (classItems (first :: more.takeWhile (· != ']'))), rest)

theorem readClass?_length {cs rest : List Char} {t : GlobToken}
    (h : readClass? cs = some (t, rest)) : rest.length < cs.length := by
  have step : ∀ more : List Char, (more.dropWhile (· != ']')).length ≤ more.length := fun more =>
    (List.dropWhile_sublist _).length_le
  simp only [readClass?] at h
  split at h
  · cases h
  · rename_i first more hcs
    have hm := step more
    have hl : more.length < cs.length := by
      split at hcs
      · have := congrArg List.length hcs
        simp at this; omega
      · simp [hcs]
    split at h
    · cases h
    · rename_i hd
      rw [hd] at hm
      simp at h hm
      obtain ⟨_, rfl⟩ := h
      omega

def readChars : List Char → Except GlobFault Glob
  | [] => .ok []
  | '*' :: '*' :: '*' :: _ => .error .longStar
  | '*' :: '*' :: _ => .error .partialDoubleStar
  | '*' :: rest => (readChars rest).map (.anyRun :: ·)
  | '?' :: rest => (readChars rest).map (.anyChar :: ·)
  | '[' :: rest =>
      match h : readClass? rest with
      | none => .error .openClass
      | some (token, after) =>
          have : after.length < rest.length := readClass?_length h
          (readChars after).map (token :: ·)
  | c :: rest => (readChars rest).map (.char c :: ·)
termination_by cs => cs.length

@[simp] theorem readChars_nil : readChars [] = .ok [] := by
  rw [readChars]

/-- The glob that a text is read as. -/
def read (text : String) : Except GlobFault Glob :=
  readChars text.toList

end Glob

end ArtifactHarvest
