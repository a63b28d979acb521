/-
The order of versions, and that every way to compare them is that order.

Transitivity is carried up from the identifiers by the instances of
`Version/Order`. Versions are preordered and any two are comparable; it is
no partial order, since `1.2` and `1.2.0+b` are of one precedence. The
relations, the predicates named after them, `<`, `≤` and `==` are read off
one result, and `comparisons_agree` puts the laws and the agreements
together.
-/
import Versioning.Proofs.Precedence
import Versioning.Version.Relation

namespace Versioning

-- =========================================================== the order

namespace Version

theorem lt_iff {a b : Version} : a < b ↔ a.precedence b = .lt :=
  Iff.rfl

theorem le_iff {a b : Version} : a ≤ b ↔ (a.precedence b).isLE = true :=
  Iff.rfl

/-- Comparing the other way round turns the result round. -/
theorem precedence_swap (a b : Version) :
    b.precedence a = (a.precedence b).swap := by
  have h : compare b a = (compare a b).swap := Std.OrientedOrd.eq_swap
  exact h

theorem le_iff_not_lt {a b : Version} : a ≤ b ↔ ¬b < a := by
  rw [le_iff, lt_iff, precedence_swap a b]
  cases a.precedence b <;> simp

instance : Preorder Version where
  le_refl a := by
    rw [le_iff, precedence_eq_iff.mpr rfl]
    rfl
  le_trans a b c := Std.TransOrd.isLE_trans
  lt_iff_le_not_ge a b := by
    rw [le_iff_not_lt, le_iff_not_lt, not_not, lt_iff, lt_iff,
      precedence_swap a b]
    cases a.precedence b <;> simp

theorem le_or_le (a b : Version) : a ≤ b ∨ b ≤ a := by
  rw [le_iff, le_iff, precedence_swap a b]
  cases a.precedence b <;> simp

/-- Versions are the same when neither is before the other. -/
theorem beq_iff_le_and_le {v w : Version} :
    (v == w) = true ↔ w ≤ v ∧ v ≤ w := by
  rw [beq_iff_precedence_eq, le_iff, le_iff, precedence_swap v w]
  cases v.precedence w <;> simp

/-- Versions of one precedence stand alike to every other. -/
theorem precedence_congr {a b : Version} (h : a.precedence b = .eq)
    (c : Version) : a.precedence c = b.precedence c := by
  unfold precedence
  rw [precedence_eq_iff.mp h]

end Version

-- ======================================================= the relations

namespace Relation

variable {v w : Version}

theorem holds_less_iff : less.holds v w = true ↔ v < w := by
  rw [Version.lt_iff, holds, accepts]
  cases v.precedence w <;> simp

theorem holds_atMost_iff : atMost.holds v w = true ↔ v ≤ w :=
  Iff.rfl

theorem holds_greater_iff : greater.holds v w = true ↔ w < v := by
  rw [Version.lt_iff, Version.precedence_swap v w, holds, accepts]
  cases v.precedence w <;> simp

theorem holds_atLeast_iff : atLeast.holds v w = true ↔ w ≤ v := by
  rw [Version.le_iff, Version.precedence_swap v w, holds, accepts]
  cases v.precedence w <;> simp

theorem holds_equal_iff : equal.holds v w = true ↔ (v == w) = true := by
  rw [Version.beq_iff_precedence_eq, holds, accepts]
  cases v.precedence w <;> simp

end Relation

-- ========================================================== agreement

namespace Version

/-- Of three relations one holds, and only one. -/
theorem count_isOlder_isSame_isNewer (a b : Version) :
    [isOlder a b, isSame a b, isNewer a b].count true = 1 := by
  unfold isOlder isSame isNewer Relation.holds Relation.accepts
  cases a.precedence b <;> rfl

theorem isOlder_eq_isNewer (a b : Version) : isOlder a b = isNewer b a := by
  apply Bool.eq_iff_iff.mpr
  exact Relation.holds_less_iff.trans Relation.holds_greater_iff.symm

theorem isAtMost_eq_not_isNewer (a b : Version) :
    isAtMost a b = !isNewer a b := by
  unfold isAtMost isNewer Relation.holds Relation.accepts
  cases a.precedence b <;> rfl

theorem isAtLeast_eq_not_isOlder (a b : Version) :
    isAtLeast a b = !isOlder a b := by
  unfold isAtLeast isOlder Relation.holds Relation.accepts
  cases a.precedence b <;> rfl

theorem isSame_eq_beq (a b : Version) : isSame a b = (a == b) := by
  apply Bool.eq_iff_iff.mpr
  exact Relation.holds_equal_iff

/-- Precedence is a linear order up to versions of one precedence, and
whatever compares versions goes by it. A version is of its own precedence,
the result turns round with the arguments, the order is transitive and
strictly so if one of its steps is strict, and versions of one precedence
compare alike with any third. Of older, same and newer exactly one is
true; newer is older the other way round, the two weak relations are the
negations of the strict ones, and to differ is not to be the same or
equal. `precedence`, `<` and `≤` go by the result of `compare`. -/
theorem comparisons_agree (a b c : Version) :
    (compare a a = .eq ∧ compare b a = (compare a b).swap ∧
      (a ≤ b → b ≤ c → a ≤ c ∧ (a < b ∨ b < c → a < c)) ∧
      (compare a b = .eq → compare a c = compare b c)) ∧
    ([isOlder a b, isSame a b, isNewer a b].count true = 1 ∧
      isOlder a b = isNewer b a ∧
      isAtMost a b = !isNewer a b ∧ isAtLeast a b = !isOlder a b ∧
      differs a b = !isSame a b ∧ differs a b = !(a == b)) ∧
    (a.precedence b = compare a b ∧
      (a < b ↔ compare a b = .lt) ∧ (a ≤ b ↔ compare a b ≠ .gt) ∧
      (isOlder a b = true ↔ a < b) ∧ (isAtMost a b = true ↔ a ≤ b) ∧
      (isSame a b = true ↔ compare a b = .eq)) := by
  refine ⟨⟨?_, ?_, ?_, ?_⟩, ⟨?_, ?_, ?_, ?_, ?_, ?_⟩, ⟨?_, ?_, ?_, ?_, ?_, ?_⟩⟩
  · exact precedence_eq_iff.mpr rfl
  · exact precedence_swap a b
  · intro hab hbc
    refine ⟨hab.trans hbc, fun h => ?_⟩
    rcases h with h | h
    · exact lt_of_lt_of_le h hbc
    · exact lt_of_le_of_lt hab h
  · intro h
    exact precedence_congr h c
  · exact count_isOlder_isSame_isNewer a b
  · exact isOlder_eq_isNewer a b
  · exact isAtMost_eq_not_isNewer a b
  · exact isAtLeast_eq_not_isOlder a b
  · rfl
  · rw [differs, isSame_eq_beq]
  · rfl
  · exact Iff.rfl
  · exact Ordering.isLE_iff_ne_gt
  · exact Relation.holds_less_iff
  · exact Relation.holds_atMost_iff
  · exact Relation.holds_equal_iff.trans beq_iff_precedence_eq

/-- A number of one digit is below one of two and that is below a word; and
`1.2` stands to `1.2.1` as `1.2.0+b` does. -/
theorem comparisons_agree_numbers_words :
    { release 1 0 0 with prerelease := [⟨"2"⟩] } <
      { release 1 0 0 with prerelease := [⟨"-1"⟩] } ∧
    compare { release 1 2 0 with omission := .patch } (release 1 2 1) =
      compare { release 1 2 0 with build := [⟨"b"⟩] } (release 1 2 1) := by
  constructor
  · have htrans := (comparisons_agree
      { release 1 0 0 with prerelease := [⟨"2"⟩] }
      { release 1 0 0 with prerelease := [⟨"11"⟩] }
      { release 1 0 0 with prerelease := [⟨"-1"⟩] }).1.2.2.1
    have hfirst : { release 1 0 0 with prerelease := [⟨"2"⟩] } <
        { release 1 0 0 with prerelease := [⟨"11"⟩] } := lt_iff.mpr (by rfl)
    have hsecond : { release 1 0 0 with prerelease := [⟨"11"⟩] } <
        { release 1 0 0 with prerelease := [⟨"-1"⟩] } := lt_iff.mpr (by rfl)
    exact (htrans hfirst.le hsecond.le).2 (.inl hfirst)
  · exact (comparisons_agree _ _ _).1.2.2.2 (by rfl)

end Version

end Versioning
