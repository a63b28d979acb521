/-
A ceiling is one number raised.

Every ceiling is found by raising the number at one of three places
(`raise?`); tilde and caret differ in the place they choose
(`caretCeiling?_eq`, `tildeCeiling?_eq`). `Raises` says what raising means
without computing it. What is raised depends on the numbers up to the
place, and so does the caret's place itself (`Raises.of_agrees`,
`caretPlace_eq_of_agrees`).
-/
import Mathlib
import Versioning.Range.Ceiling
import Versioning.Version.WellFormed

namespace Versioning

-- ============================================================= numbers

namespace Component

/-- The next number is one more; it is never a wrapped one. -/
theorem next?_eq_some_iff {c d : Component} :
    next? c = some d ↔ d.toNat = c.toNat + 1 := by
  have hd := d.toNat_lt
  unfold next?
  split
  next h =>
    have hnext : (c + 1).toNat = c.toNat + 1 := by
      rw [UInt64.toNat_add]
      exact Nat.mod_eq_of_lt h
    rw [Option.some.injEq, ← UInt64.toNat_inj, hnext]
    exact eq_comm
  next h =>
    rw [UInt64.size] at h
    exact iff_of_false (by simp) (by omega)

/-- Only the greatest number has no next one. -/
theorem next?_eq_none_iff {c : Component} :
    next? c = none ↔ c.toNat = 2 ^ 64 - 1 := by
  have hc := c.toNat_lt
  unfold next?
  rw [UInt64.size]
  split
  · exact iff_of_false (by simp) (by omega)
  · exact iff_of_true rfl (by omega)

end Component

-- ============================================================== places

/-- One of the three places of a version's numbers. -/
inductive Place where
  | major
  | minor
  | patch
deriving DecidableEq

namespace Place

/-- How many places stand before this one. -/
def index : Place → Nat
  | major => 0
  | minor => 1
  | patch => 2

/-- The places from left to right. -/
def all : List Place := [major, minor, patch]

theorem forall_iff {P : Place → Prop} :
    (∀ p, P p) ↔ P major ∧ P minor ∧ P patch := by
  refine ⟨fun h => ⟨h _, h _, h _⟩, fun ⟨h, h', h''⟩ p => ?_⟩
  cases p <;> assumption

theorem index_injective : Function.Injective index := by
  intro p q h
  cases p <;> cases q <;> first | rfl | cases h

end Place

namespace Version

/-- The number at a place. -/
def number (v : Version) : Place → Component
  | .major => v.major
  | .minor => v.minor
  | .patch => v.patch

/-- The leftmost place whose number is not zero; patch where all are. -/
def caretPlace (v : Version) : Place :=
  (Place.all.find? fun p => v.number p != 0).getD .patch

/-- The last place but patch whose number was written. -/
def tildePlace (v : Version) : Place :=
  if v.omission = .minorAndPatch then .major else .minor

-- ============================================================= raising

/-- The release with the number at `p` raised and those behind it
cleared. -/
def raise? (v : Version) : Place → Option Version
  | .major => v.nextMajor?
  | .minor => v.nextMinor?
  | .patch => v.nextPatch?

/-- `u` is the release whose numbers are those of `v` before `p`, one more
at `p` and zero behind it. -/
structure Raises (p : Place) (v u : Version) : Prop where
  before : ∀ q : Place, q.index < p.index → u.number q = v.number q
  at_place : (u.number p).toNat = (v.number p).toNat + 1
  behind : ∀ q : Place, p.index < q.index → u.number q = 0
  is_release : u = release u.major u.minor u.patch

theorem release_eq_iff {u : Version} {major minor patch : Component} :
    release major minor patch = u ↔
      u.major = major ∧ u.minor = minor ∧ u.patch = patch ∧
        u = release u.major u.minor u.patch := by
  constructor
  · intro h
    subst h
    exact ⟨rfl, rfl, rfl, rfl⟩
  · intro h
    obtain ⟨rfl, rfl, rfl, h⟩ := h
    exact h.symm

/-- Raising, condition by condition. -/
theorem raises_iff {p : Place} {v u : Version} :
    Raises p v u ↔
      (∀ q : Place, q.index < p.index → u.number q = v.number q) ∧
      (u.number p).toNat = (v.number p).toNat + 1 ∧
      (∀ q : Place, p.index < q.index → u.number q = 0) ∧
      u = release u.major u.minor u.patch :=
  ⟨fun h => ⟨h.before, h.at_place, h.behind, h.is_release⟩,
    fun ⟨hbefore, hat, hbehind, hrel⟩ => ⟨hbefore, hat, hbehind, hrel⟩⟩

theorem raise?_eq_some_iff {p : Place} {v u : Version} :
    v.raise? p = some u ↔ Raises p v u := by
  -- place by place the conditions are equations of single numbers
  rw [raises_iff, Place.forall_iff, Place.forall_iff]
  cases p with
  | major =>
    simp only [raise?, nextMajor?, Option.map_eq_some_iff,
      Component.next?_eq_some_iff, release_eq_iff, number, Place.index,
      Nat.lt_irrefl, Nat.not_lt_zero, Nat.zero_lt_succ, false_implies,
      true_implies, true_and]
    constructor
    · intro h
      obtain ⟨major, hnext, rfl, hminor, hpatch, hrel⟩ := h
      exact ⟨hnext, ⟨hminor, hpatch⟩, hrel⟩
    · intro h
      obtain ⟨hnext, ⟨hminor, hpatch⟩, hrel⟩ := h
      exact ⟨u.major, hnext, rfl, hminor, hpatch, hrel⟩
  | minor =>
    simp only [raise?, nextMinor?, Option.map_eq_some_iff,
      Component.next?_eq_some_iff, release_eq_iff, number, Place.index,
      Nat.lt_irrefl, Nat.not_lt_zero, Nat.lt_add_one, Nat.reduceLT,
      false_implies, true_implies, true_and, and_true]
    constructor
    · intro h
      obtain ⟨minor, hnext, hmajor, rfl, hpatch, hrel⟩ := h
      exact ⟨hmajor, hnext, hpatch, hrel⟩
    · intro h
      obtain ⟨hmajor, hnext, hpatch, hrel⟩ := h
      exact ⟨u.minor, hnext, hmajor, rfl, hpatch, hrel⟩
  | patch =>
    simp only [raise?, nextPatch?, Option.map_eq_some_iff,
      Component.next?_eq_some_iff, release_eq_iff, number, Place.index,
      Nat.lt_irrefl, Nat.reduceLT, false_implies, true_implies, true_and,
      and_true]
    constructor
    · intro h
      obtain ⟨patch, hnext, hmajor, hminor, rfl, hrel⟩ := h
      exact ⟨⟨hmajor, hminor⟩, hnext, hrel⟩
    · intro h
      obtain ⟨⟨hmajor, hminor⟩, hnext, hrel⟩ := h
      exact ⟨u.patch, hnext, hmajor, hminor, rfl, hrel⟩

/-- Only the greatest number cannot be raised. -/
theorem raise?_eq_none_iff {p : Place} {v : Version} :
    v.raise? p = none ↔ (v.number p).toNat = 2 ^ 64 - 1 := by
  cases p <;>
    simp [raise?, nextMajor?, nextMinor?, nextPatch?, number,
      Component.next?_eq_none_iff]

/-- The caret's place, decided from left to right. -/
theorem caretPlace_eq (v : Version) :
    v.caretPlace =
      if v.major ≠ 0 then .major else if v.minor ≠ 0 then .minor
      else .patch := by
  unfold caretPlace Place.all
  by_cases hmajor : v.major = 0
  · by_cases hminor : v.minor = 0
    · by_cases hpatch : v.patch = 0 <;> simp [number, hmajor, hminor, hpatch]
    · simp [number, hmajor, hminor]
  · simp [number, hmajor]

/-- The caret raises the leftmost number that is not zero. -/
theorem caretCeiling?_eq (v : Version) :
    v.caretCeiling? = v.raise? v.caretPlace := by
  rw [caretPlace_eq, caretCeiling?]
  split
  · rfl
  · split <;> rfl

/-- The tilde raises the last number but patch that was written. -/
theorem tildeCeiling?_eq (v : Version) :
    v.tildeCeiling? = v.raise? v.tildePlace := by
  unfold tildeCeiling? tildePlace
  cases v.omission <;> rfl

-- ==================================================== versions that agree

theorem Raises.unique {p : Place} {w u u' : Version} (h : Raises p w u)
    (h' : Raises p w u') : u = u' := by
  have hsome := (raise?_eq_some_iff.mpr h).symm.trans
    (raise?_eq_some_iff.mpr h')
  exact Option.some.inj hsome

/-- The numbers behind the place make no difference to what is raised. -/
theorem Raises.of_agrees {p : Place} {v w u : Version}
    (h : Raises p w u)
    (hagrees : ∀ q : Place, q.index ≤ p.index → v.number q = w.number q) :
    Raises p v u where
  before q hq := (h.before q hq).trans (hagrees q hq.le).symm
  at_place := hagrees p le_rfl ▸ h.at_place
  behind := h.behind
  is_release := h.is_release

/-- Versions that agree up to the caret's place of one have it in common. -/
theorem caretPlace_eq_of_agrees {v w : Version}
    (h : ∀ q : Place, q.index ≤ w.caretPlace.index →
      v.number q = w.number q) : v.caretPlace = w.caretPlace := by
  have hmajor : v.major = w.major := h .major (Nat.zero_le _)
  rw [caretPlace_eq v, caretPlace_eq w, hmajor]
  by_cases hzero : w.major = 0
  · have hplace : Place.minor.index ≤ w.caretPlace.index := by
      rw [caretPlace_eq, if_neg (not_not.mpr hzero)]
      split <;> decide
    have hminor : v.minor = w.minor := h .minor hplace
    rw [hminor]
  · rw [if_pos hzero, if_pos hzero]

-- ====================================================== well-formedness

theorem Raises.wellFormed {p : Place} {v u : Version}
    (h : Raises p v u) : u.WellFormed := by
  rw [h.is_release]
  exact wellFormed_release _ _ _

theorem Raises.prerelease_eq_nil {p : Place} {v u : Version}
    (h : Raises p v u) : u.prerelease = [] := by
  rw [h.is_release]
  rfl

end Version

end Versioning
