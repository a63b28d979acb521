/-
Precedence: which of two versions comes first.

It sees the three numbers and the prerelease identifiers, the version's
`Rank`. Equality is equality in precedence and hashing sees the rank too.
-/
import Std.Data.HashSet
import Versioning.Version.Basic

namespace Versioning

-- ============================================================= the rank

/-- The part of a version that precedence sees. -/
structure Rank where
  major : Component
  minor : Component
  patch : Component
  prerelease : List PrereleaseId
deriving DecidableEq, Hashable

namespace Rank

/-- The order of two prerelease lists under equal numbers: no list at
all, a release, is above every other, and otherwise the first difference
decides, with the end of a list before any identifier. -/
def prereleasePrecedence : List PrereleaseId → List PrereleaseId → Ordering
  | [], [] => .eq
  | [], _ :: _ => .gt
  | _ :: _, [] => .lt
  | a :: as, b :: bs => compare (a :: as) (b :: bs)

/-- The order of two ranks. -/
def precedence (a b : Rank) : Ordering :=
  (compare a.major b.major).then <|
    (compare a.minor b.minor).then <|
      (compare a.patch b.patch).then <|
        prereleasePrecedence a.prerelease b.prerelease

instance : Ord Rank := ⟨precedence⟩

end Rank

-- ====================================================== what is hashed

/-- One item that a hash is fed with. -/
inductive HashItem where
  /-- Which member of an enumeration, counted from zero. -/
  | member (index : Nat)
  /-- A number of a version. -/
  | number (c : Component)
  /-- How many items of a list follow. -/
  | length (n : Nat)
  /-- The text of an identifier. -/
  | text (s : String)

-- ============================================== the order of versions

namespace Version

/-- What precedence sees of a version. -/
def rank (v : Version) : Rank :=
  { major := v.major, minor := v.minor, patch := v.patch,
    prerelease := v.prerelease }

/-- The three-way comparison of two versions. -/
def precedence (a b : Version) : Ordering :=
  a.rank.precedence b.rank

instance : Ord Version := ⟨precedence⟩

instance : LT Version := ltOfOrd

instance : LE Version := leOfOrd

/-- Versions are the same when neither comes before the other. -/
instance : BEq Version := ⟨fun a b => a.precedence b == .eq⟩

instance : Hashable Version := ⟨fun v => hash v.rank⟩

/-- A version feeds its numbers and its prerelease identifiers. -/
def feed (v : Version) : List HashItem :=
  .number v.major :: .number v.minor :: .number v.patch ::
    .length v.prerelease.length ::
      v.prerelease.map fun id => .text id.text

/-- How many versions a hash set makes of a list. -/
def countDistinct (versions : List Version) : Nat :=
  (Std.HashSet.ofList versions).size

theorem beq_iff_precedence_eq {a b : Version} :
    (a == b) = true ↔ a.precedence b = .eq := by
  simp [BEq.beq]

end Version

end Versioning
