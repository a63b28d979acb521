/-
A range: comparators that a version has to satisfy all at once.

A range text is a list of clauses between commas, and empty segments are
passed over. Each segment is read and expanded before the next is looked
at, so the first one that fails decides the error.
-/
import Versioning.Range.Clause

namespace Versioning

/-- A conjunction of comparators, in the order of their clauses. -/
structure Range where
  comparators : List Comparator := []
deriving DecidableEq

namespace Range

/-- The range that every version satisfies. -/
def empty : Range := {}

instance : EmptyCollection Range := ⟨empty⟩

/-- How many comparators the range has. -/
def size (r : Range) : Nat := r.comparators.length

/-- A range without comparators. -/
def isEmpty (r : Range) : Bool := r.comparators.isEmpty

/-- Whether a version satisfies every comparator. -/
def accepts (r : Range) (v : Version) : Bool :=
  r.comparators.all fun c => c.accepts v

/-- The comparators of one range followed by those of another. -/
def append (r s : Range) : Range :=
  ⟨r.comparators ++ s.comparators⟩

instance : Append Range := ⟨append⟩

/-- What equality and hashing see of a range. -/
def key (r : Range) : List (Relation × Rank) :=
  r.comparators.map Comparator.key

/-- A range feeds its comparators. -/
def feed (r : Range) : List HashItem :=
  .length r.comparators.length :: r.comparators.flatMap Comparator.feed

instance : BEq Range := ⟨fun r s => r.comparators == s.comparators⟩

-- ============================================================= reading

/-- The pieces between the commas, without the empty ones. -/
def segments (text : String) : List String :=
  ((text.toList.splitOn ',').filter fun cs => !cs.isEmpty).map String.ofList

/-- The comparators of clause texts, in order; the first text that is
malformed or has no comparators decides the error. -/
def expandAll : List String → Except Error (List Comparator)
  | [] => .ok []
  | clause :: clauses => do
    let clause ← Clause.parse clause
    let comparators ← clause.comparators
    let others ← expandAll clauses
    return comparators ++ others

/-- Reads a range. -/
def parse (text : String) : Except Error Range := do
  return ⟨← expandAll (segments text)⟩

-- ============================================================= writing

/-- The comparators, with a comma and a blank between them. -/
def text (r : Range) : String :=
  ", ".intercalate (r.comparators.map Comparator.text)

instance : ToString Range := ⟨text⟩

end Range

end Versioning
