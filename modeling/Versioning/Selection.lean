/-
Choosing among versions given as texts.

Each function answers with texts as they were given, blanks and all, and
passes over what is no version. Ties in precedence are settled by
position: sorted lists keep the given order, and the newest is the last of
its tie.
-/
import Versioning.Range.Basic

namespace Versioning.Selection

variable {texts : List String}

/-- A version among the texts: what the text at a place is read as. -/
structure Candidate (texts : List String) where
  version : Version
  index : Fin texts.length
  parsed : Version.parse texts[index] = .ok version

/-- The text that a candidate was read from, as it was given. -/
def Candidate.text (c : Candidate texts) : String := texts[c.index]

/-- The candidate at a place, if the text there is a version. -/
def candidate? (texts : List String) (index : Fin texts.length) :
    Option (Candidate texts) :=
  match parsed : Version.parse texts[index] with
  | .ok version => some { version, index, parsed }
  | .error _ => none

/-- The candidates at all places, in order. -/
def candidates (texts : List String) : List (Candidate texts) :=
  (List.finRange texts.length).filterMap (candidate? texts)

-- ======================================================== satisfaction

/-- Whether a version satisfies a range. -/
def satisfies (version range : String) : Except Error Bool := do
  let version ← Version.parse version
  let range ← Range.parse range
  return range.accepts version

/-- The answer for two texts, if both are read. -/
theorem satisfies_eq_ok_iff {version range : String} {answer : Bool} :
    satisfies version range = .ok answer ↔
      ∃ v r, Version.parse version = .ok v ∧ Range.parse range = .ok r ∧
        r.accepts v = answer := by
  exact Error.map₂_eq_ok_iff

/-- The candidates that a range accepts, in order. -/
def accepted (range : Range) (texts : List String) : List (Candidate texts) :=
  (candidates texts).filter fun c => range.accepts c.version

/-- The texts whose versions satisfy a range, in order. -/
def satisfying (texts : List String) (range : String) :
    Except Error (List String) := do
  let range ← Range.parse range
  return (accepted range texts).map (·.text)

/-- What has the version of highest precedence, the last one of a tie. -/
def newest? {α : Type} (version : α → Version) : List α → Option α
  | [] => none
  | a :: as =>
    match newest? version as with
    | none => some a
    | some best =>
      if (version a).isNewer (version best) then some a else some best

/-- The text of the newest version that satisfies a range. -/
def newestSatisfying? (texts : List String) (range : String) :
    Except Error (Option String) := do
  let range ← Range.parse range
  return (newest? (·.version) (accepted range texts)).map (·.text)

-- ============================================================= sorting

/-- The texts that are versions, the lowest precedence first and ties in
the given order. -/
def ascending (texts : List String) : List String :=
  ((candidates texts).mergeSort fun a b =>
    a.version.isAtMost b.version).map (·.text)

/-- The texts that are versions, the highest precedence first and ties in
the given order. -/
def descending (texts : List String) : List String :=
  ((candidates texts).mergeSort fun a b =>
    a.version.isAtLeast b.version).map (·.text)

end Versioning.Selection
