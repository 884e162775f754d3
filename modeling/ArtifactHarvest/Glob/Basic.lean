/-!
Globs for single names: `*`, `?` and bracket classes. No part of a glob reaches over a slash.
Here are the parts, the text that a glob is written as, and the names that it stands for.
-/

namespace ArtifactHarvest

/-- One entry of a bracket class. -/
inductive ClassItem where
  | single (c : Char)
  /-- Every code point from the first to the last. -/
  | range (first last : Char)
deriving DecidableEq

namespace ClassItem

def holds (c : Char) : ClassItem → Bool
  | .single d => c == d
  | .range first last => first ≤ c && c ≤ last

def written : ClassItem → List Char
  | .single c => [c]
  | .range first last => [first, '-', last]

end ClassItem

inductive GlobToken where
  | char (c : Char)
  /-- `?` -/
  | anyChar
  /-- `*` -/
  | anyRun
  /-- `[…]`, or `[!…]` when negated. -/
  | oneOf (negated : Bool) (items : List ClassItem)
deriving DecidableEq

namespace GlobToken

/-- Whether a token that takes one character takes this one. -/
def takes (c : Char) : GlobToken → Bool
  | .char d => c == d
  | .anyChar => c != '/'
  | .anyRun => false
  | .oneOf negated items => c != '/' && (items.any (·.holds c) != negated)

def written : GlobToken → List Char
  | .char c => [c]
  | .anyChar => ['?']
  | .anyRun => ['*']
  | .oneOf negated items =>
      '[' :: (if negated then ['!'] else []) ++ items.flatMap ClassItem.written ++ [']']

end GlobToken

abbrev Glob := List GlobToken

namespace Glob

/-- The text that a glob is written as. -/
def text (g : Glob) : String :=
  String.ofList (g.flatMap GlobToken.written)

/-- The names a glob stands for. -/
inductive Matches : Glob → List Char → Prop where
  | done : Matches [] []
  | one {t : GlobToken} {c : Char} {g : Glob} {cs : List Char} :
      t.takes c = true → Matches g cs → Matches (t :: g) (c :: cs)
  | runEmpty {g : Glob} {cs : List Char} : Matches g cs → Matches (.anyRun :: g) cs
  | runLonger {g : Glob} {c : Char} {cs : List Char} :
      c ≠ '/' → Matches (.anyRun :: g) cs → Matches (.anyRun :: g) (c :: cs)

end Glob

end ArtifactHarvest
