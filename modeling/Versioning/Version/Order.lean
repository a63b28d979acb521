/-
Precedence is a linear order on ranks, and so a total preorder on
versions.

The laws are carried along the way the comparison is built: identifiers,
lists of them, ranks. Turning the empty list round keeps them, because it
is one element moved from the bottom to the top. Two versions that compare
equal need not be equal, they only have equal ranks.
-/
import Versioning.Version.Precedence

namespace Versioning

open Std

-- ========================================================== identifiers

namespace PrereleaseId

/-- Identifiers of one precedence are the same. -/
theorem precedence_eq_iff {a b : PrereleaseId} :
    a.precedence b = .eq ↔ a = b := by
  constructor
  · intro h
    have htext : a.text = b.text := by
      unfold precedence at h
      split at h
      · exact LawfulEqOrd.eq_of_compare (Ordering.then_eq_eq.mp h).2
      · cases h
      · cases h
      · exact LawfulEqOrd.eq_of_compare h
    cases a
    cases b
    cases htext
    rfl
  · rintro rfl
    unfold precedence
    split <;> simp_all

instance : LawfulEqOrd PrereleaseId where
  compare_self := precedence_eq_iff.mpr rfl
  eq_of_compare h := precedence_eq_iff.mp h

instance : TransOrd PrereleaseId where
  eq_swap {a b} := by
    show a.precedence b = (b.precedence a).swap
    unfold precedence
    cases a.isNumeric <;> cases b.isNumeric <;>
      simp [Ordering.swap_then, ← OrientedOrd.eq_swap]
  isLE_trans {a b c} := by
    show (a.precedence b).isLE → (b.precedence c).isLE →
      (a.precedence c).isLE
    have numbers := @TransCmp.isLE_trans PrereleaseId
      (compareLex (compareOn fun id => id.text.length)
        (compareOn fun id => id.text)) _ a b c
    have words := @TransOrd.isLE_trans String _ _ a.text b.text c.text
    unfold precedence
    cases a.isNumeric <;> cases b.isNumeric <;> cases c.isNumeric <;>
      simp_all [compareLex, compareOn]

end PrereleaseId

-- =============================================================== lists

namespace Rank

/-- Prerelease lists of one precedence are the same. -/
theorem prereleasePrecedence_eq_iff {as bs : List PrereleaseId} :
    prereleasePrecedence as bs = .eq ↔ as = bs := by
  unfold prereleasePrecedence
  split <;> simp

instance : LawfulEqCmp prereleasePrecedence where
  compare_self := prereleasePrecedence_eq_iff.mpr rfl
  eq_of_compare h := prereleasePrecedence_eq_iff.mp h

instance : TransCmp prereleasePrecedence where
  eq_swap {as bs} := by
    cases as <;> cases bs <;> try rfl
    exact OrientedOrd.eq_swap
  isLE_trans {as bs cs} := by
    match as, bs, cs with
    | [], _, [] => exact fun _ _ => rfl
    | _ :: _, _, [] => exact fun _ _ => rfl
    | [], _ :: _, _ :: _ => exact fun h _ => (Bool.false_ne_true h).elim
    | _ :: _, [], _ :: _ => exact fun _ h => (Bool.false_ne_true h).elim
    | [], [], _ :: _ => exact fun _ h => (Bool.false_ne_true h).elim
    | a :: as, b :: bs, c :: cs =>
      exact @TransOrd.isLE_trans (List PrereleaseId) _ _
        (a :: as) (b :: bs) (c :: cs)

-- =============================================================== ranks

/-- Ranks are compared by one component after the other. -/
theorem compare_eq_compareLex :
    (compare : Rank → Rank → Ordering) =
      compareLex (compareOn Rank.major)
        (compareLex (compareOn Rank.minor)
          (compareLex (compareOn Rank.patch)
            fun a b => prereleasePrecedence a.prerelease b.prerelease)) :=
  rfl

instance : TransCmp
    (fun a b : Rank => prereleasePrecedence a.prerelease b.prerelease) where
  eq_swap {a b} := @OrientedCmp.eq_swap _ prereleasePrecedence _
    a.prerelease b.prerelease
  isLE_trans {a b c} := @TransCmp.isLE_trans _ prereleasePrecedence _
    a.prerelease b.prerelease c.prerelease

instance : TransOrd Rank := by
  show TransCmp compare
  rw [compare_eq_compareLex]
  infer_instance

/-- Ranks of one precedence are the same. -/
theorem precedence_eq_iff {a b : Rank} : a.precedence b = .eq ↔ a = b := by
  unfold precedence
  simp only [Ordering.then_eq_eq, LawfulEqOrd.compare_eq_iff_eq,
    prereleasePrecedence_eq_iff]
  cases a
  cases b
  simp

instance : LawfulEqOrd Rank where
  compare_self := precedence_eq_iff.mpr rfl
  eq_of_compare h := precedence_eq_iff.mp h

end Rank

-- ============================================================ versions

namespace Version

/-- Versions of one precedence are those of one rank. -/
theorem precedence_eq_iff {a b : Version} :
    a.precedence b = .eq ↔ a.rank = b.rank :=
  Rank.precedence_eq_iff

instance : TransOrd Version where
  eq_swap {a b} := @OrientedOrd.eq_swap Rank _ _ a.rank b.rank
  isLE_trans {a b c} := @TransOrd.isLE_trans Rank _ _ a.rank b.rank c.rank

/-- Versions are the same when their ranks are. -/
theorem beq_iff_rank_eq {a b : Version} : (a == b) = true ↔ a.rank = b.rank :=
  beq_iff_precedence_eq.trans precedence_eq_iff

instance : EquivBEq Version where
  rfl := beq_iff_rank_eq.mpr rfl
  symm h := beq_iff_rank_eq.mpr (beq_iff_rank_eq.mp h).symm
  trans h h' :=
    beq_iff_rank_eq.mpr ((beq_iff_rank_eq.mp h).trans (beq_iff_rank_eq.mp h'))

instance : LawfulHashable Version where
  hash_eq a b h := by
    show hash a.rank = hash b.rank
    rw [beq_iff_rank_eq.mp h]

end Version

end Versioning
