import Outline.Pattern.Search

/-!
An estimate of cyclomatic complexity: one more than the number of words and
operators in a body that choose between ways to go on.

An `else if` counts through its `if`.
-/

namespace Outline

/-- How often a body branches, by kind of branch. -/
structure BranchCounts where
  keywords : Nat
  ternaries : Nat
  ands : Nat
  ors : Nat
  deriving DecidableEq, Repr

namespace BranchCounts

def keyword : Pattern :=
  .boundary ++ .oneOf ["if", "while", "for", "do", "switch", "case", "catch"] ++ .boundary

/-- Whether a question mark is a wildcard of a generic type, from the nearest
character before it and the text after it, blanks aside. -/
def isWildcard (previous : Option Char) (rest : List Char) : Bool :=
  let rest := Text.trimStart rest
  previous == some '<' || previous == some ','
    || [">", ",", "extends ", "super "].any fun word => Text.startsWith rest word.toList

/-- The question marks that are not wildcards; `previous` is the nearest
character before the text that is not blank. -/
def countTernaries : Option Char → List Char → Nat
  | _, [] => 0
  | previous, c :: rest =>
    let others := countTernaries (if Text.isAsciiBlank c then previous else some c) rest
    if c = '?' ∧ isWildcard previous rest = false then others + 1 else others

def ofBody (body : List Char) : BranchCounts :=
  { keywords := (keyword.findAll body).length
    ternaries := countTernaries none body
    ands := Text.count ['&', '&'] body
    ors := Text.count ['|', '|'] body }

def points (counts : BranchCounts) : Nat :=
  counts.keywords + counts.ternaries + counts.ands + counts.ors

/-- The branches of two bodies together. -/
instance : Add BranchCounts where
  add a b := ⟨a.keywords + b.keywords, a.ternaries + b.ternaries, a.ands + b.ands, a.ors + b.ors⟩

end BranchCounts

/-- The complexity of a body. -/
def complexity (body : List Char) : Nat := 1 + (BranchCounts.ofBody body).points

/-- The complexity of a body, added up in 32 bits. -/
def complexityWord (body : List Char) : UInt32 :=
  1 + UInt32.ofNat (BranchCounts.ofBody body).points

end Outline
