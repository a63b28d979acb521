/-
Which versions a tilde or a caret clause accepts.

A version that is not below `w` is below the ceiling of `w` exactly when it
agrees with `w` up to the place that was raised, or when it is a prerelease
of the ceiling itself (`Raises.accepts_iff`). The latter is the price of an
exclusive bound that is a release: `^1.2.3` accepts `2.0.0-rc.1`. The two
operators are cases of it (`caret_window`, `tilde_window`), with their
overflows.
-/
import Versioning.Proofs.Comparison
import Versioning.Proofs.Expansion

namespace Versioning

-- =============================================================== order

namespace Version

/-- A version at least as high has numbers at least as high. -/
theorem not_numbers_lt_of_le {w v : Version} (h : w ≤ v) :
    ¬v.numbers < w.numbers := fun hn =>
  le_iff_not_lt.mp h (precedence_eq_lt_iff.mpr (.inl hn))

/-- Below a release are the versions with lower numbers and its own
prereleases. -/
theorem lt_release_iff {v u : Version} (hu : u.prerelease = []) :
    v < u ↔ v.numbers < u.numbers ∨
      v.isPrerelease = true ∧ v.numbers = u.numbers := by
  have hlt : v < u ↔ v.precedence u = .lt := Iff.rfl
  have hpre : Rank.prereleasePrecedence v.prerelease [] = .lt ↔
      v.isPrerelease = true := by
    cases hv : v.prerelease <;>
      simp [isPrerelease, hv, Rank.prereleasePrecedence]
  rw [hlt, precedence_eq_lt_iff, hu, hpre, and_comm (a := _ = _)]

end Version

-- ========================================================= comparators

namespace Comparator

theorem accepts_atLeast_iff {w v : Version} :
    accepts ⟨.atLeast, w⟩ v = true ↔ w ≤ v :=
  Relation.holds_atLeast_iff

theorem accepts_less_iff {u v : Version} :
    accepts ⟨.less, u⟩ v = true ↔ v < u :=
  Relation.holds_less_iff

end Comparator

-- ============================================================= windows

namespace Version

theorem numbers_eq_iff {v u : Version} :
    v.numbers = u.numbers ↔ ∀ q, v.number q = u.number q := by
  simp only [Place.forall_iff, numbers, number, List.cons.injEq, and_true,
    UInt64.toNat_inj]

theorem numbers_lt_iff {v u : Version} :
    v.numbers < u.numbers ↔
      v.major.toNat < u.major.toNat ∨ v.major.toNat = u.major.toNat ∧
        (v.minor.toNat < u.minor.toNat ∨ v.minor.toNat = u.minor.toNat ∧
          v.patch.toNat < u.patch.toNat) := by
  simp only [numbers, List.cons_lt_cons_iff, List.not_lt_nil, and_false,
    or_false]

/-- Numbers that are not below those of `w` are below the raised ones
exactly when they agree with those of `w` up to the place. -/
theorem Raises.numbers_lt_iff {p : Place} {w u v : Version}
    (h : Raises p w u) (hle : ¬v.numbers < w.numbers) :
    v.numbers < u.numbers ↔
      ∀ q : Place, q.index ≤ p.index → v.number q = w.number q := by
  obtain ⟨hbefore, hat, hbehind, -⟩ := raises_iff.mp h
  rw [Version.numbers_lt_iff] at hle ⊢
  simp only [Place.forall_iff, ← UInt64.toNat_inj] at hbefore hbehind ⊢
  -- at each place what is left is linear in the nine numbers
  cases p <;>
    simp only [Place.index, number, UInt64.toNat_zero]
      at hbefore hat hbehind ⊢ <;>
    omega

theorem Raises.lt {p : Place} {w u : Version} (h : Raises p w u) : w < u := by
  refine (lt_release_iff h.prerelease_eq_nil).mpr (.inl ?_)
  have hirrefl : ¬w.numbers < w.numbers := List.lt_irrefl _
  exact (h.numbers_lt_iff hirrefl).mpr fun _ _ => rfl

/-- What the two comparators of a window accept, place by place. -/
theorem Raises.accepts_iff {p : Place} {w u : Version} (h : Raises p w u)
    (v : Version) :
    (Comparator.accepts ⟨.atLeast, w⟩ v = true ∧
      Comparator.accepts ⟨.less, u⟩ v = true) ↔
    w ≤ v ∧ ((∀ q : Place, q.index ≤ p.index → v.number q = w.number q) ∨
      v.isPrerelease = true ∧ ∀ q, v.number q = u.number q) := by
  rw [Comparator.accepts_atLeast_iff, Comparator.accepts_less_iff,
    lt_release_iff h.prerelease_eq_nil, ← numbers_eq_iff]
  refine and_congr_right fun hle => ?_
  rw [h.numbers_lt_iff (not_numbers_lt_of_le hle)]

/-- Which number stands at the tilde's place. -/
theorem number_tildePlace_iff {w : Version} {n : Nat} :
    (w.number w.tildePlace).toNat = n ↔
      w.omission = .minorAndPatch ∧ w.major.toNat = n ∨
      w.omission ≠ .minorAndPatch ∧ w.minor.toNat = n := by
  by_cases ho : w.omission = .minorAndPatch <;>
    simp [tildePlace, ho, number]

/-- The tilde's ceiling opens the next major series where only the major
number was written, and the next minor series otherwise. -/
theorem raises_tildePlace_iff {w u : Version} :
    Raises w.tildePlace w u ↔
      (w.omission = .minorAndPatch → Raises .major w u) ∧
      (w.omission ≠ .minorAndPatch → Raises .minor w u) := by
  by_cases ho : w.omission = .minorAndPatch <;> simp [tildePlace, ho]

/-- Agreeing up to the tilde's place is to be of one series. -/
theorem agrees_tildePlace_iff {w v : Version} :
    (∀ q : Place, q.index ≤ w.tildePlace.index → v.number q = w.number q) ↔
      v.major = w.major ∧
        (w.omission = .minorAndPatch ∨ v.minor = w.minor) := by
  by_cases ho : w.omission = .minorAndPatch <;>
    simp [tildePlace, ho, Place.forall_iff, Place.index, number]

end Version

-- ========================================================= the operators

namespace Clause

open Version (Raises)

/-- Whether a clause has comparators and a version satisfies them all. -/
def Admits (c : Clause) (v : Version) : Prop :=
  ∃ cs, c.comparators = .ok cs ∧ ∀ d ∈ cs, d.accepts v = true

theorem Admits.expanded {c : Clause} {v : Version} (h : c.Admits v) :
    ∃ cs, c.comparators = .ok cs :=
  h.imp fun _ hcs => hcs.1

/-- A clause with the comparators of a window accepts what lies between. -/
theorem admits_iff_of_comparators_eq {c : Clause} {w u v : Version}
    (h : c.comparators = .ok [⟨.atLeast, w⟩, ⟨.less, u⟩]) :
    c.Admits v ↔ w ≤ v ∧ v < u := by
  unfold Admits
  rw [h]
  simp only [Except.ok.injEq, exists_eq_left', List.forall_mem_cons,
    List.not_mem_nil, false_implies, implies_true, and_true,
    Comparator.accepts_atLeast_iff, Comparator.accepts_less_iff]

/-- No window accepts its ceiling. -/
theorem not_admits_ceiling {c : Clause} {w u : Version}
    (h : c.comparators = .ok [⟨.atLeast, w⟩, ⟨.less, u⟩]) : ¬c.Admits u := by
  rw [admits_iff_of_comparators_eq h]
  exact fun hu => lt_irrefl u hu.2

/-- A window that has a ceiling accepts what lies between. -/
theorem window_admits_iff {operator : Operator} {w v : Version}
    {ceiling : Option Version} :
    (∃ cs, window operator w ceiling = .ok cs ∧
        ∀ d ∈ cs, Comparator.accepts d v = true) ↔
      ∃ u, ceiling = some u ∧ w ≤ v ∧ v < u := by
  constructor
  · intro h
    obtain ⟨cs, hcs, hall⟩ := h
    obtain ⟨u, hu, rfl⟩ := window_eq_ok_iff.mp hcs
    exact ⟨u, hu, Comparator.accepts_atLeast_iff.mp (hall _ (by simp)),
      Comparator.accepts_less_iff.mp (hall _ (by simp))⟩
  · intro h
    obtain ⟨u, hu, hle, hlt⟩ := h
    refine ⟨_, window_eq_ok_iff.mpr ⟨u, hu, rfl⟩, ?_⟩
    rw [List.forall_mem_cons, List.forall_mem_singleton]
    exact ⟨Comparator.accepts_atLeast_iff.mpr hle,
      Comparator.accepts_less_iff.mpr hlt⟩

theorem admits_caret_iff {w v : Version} :
    (⟨.caret, w⟩ : Clause).Admits v ↔
      ∃ u, w.caretCeiling? = some u ∧ w ≤ v ∧ v < u :=
  window_admits_iff

theorem caret_eq_error_iff {w : Version} {e : Error} :
    (⟨.caret, w⟩ : Clause).comparators = .error e ↔
      w.caretCeiling? = none ∧ e = .boundOverflow ("^" ++ w.text) :=
  window_eq_error_iff

/-- A clause that raises a number overflows exactly at the greatest one. -/
theorem overflow_iff {o : Operator} {w : Version} {p : Place}
    (hp : o.place? w = some p) :
    (⟨o, w⟩ : Clause).comparators =
        .error (.boundOverflow (o.token ++ w.text)) ↔
      (w.number p).toNat = 2 ^ 64 - 1 := by
  rw [comparators_eq_error_iff]
  constructor
  · intro h
    obtain ⟨q, hq, hmax, -⟩ := h
    obtain rfl := Option.some.inj (hp.symm.trans hq)
    exact hmax
  · intro hmax
    exact ⟨p, hp, hmax, rfl⟩

/-- Below the greatest one it is a window. -/
theorem exists_window {o : Operator} {w : Version} {p : Place}
    (hp : o.place? w = some p) (hmax : (w.number p).toNat ≠ 2 ^ 64 - 1) :
    ∃ u, Raises p w u ∧
      (⟨o, w⟩ : Clause).comparators = .ok [⟨.atLeast, w⟩, ⟨.less, u⟩] := by
  cases hu : w.raise? p with
  | none => exact absurd (Version.raise?_eq_none_iff.mp hu) hmax
  | some u =>
    have hraise := Version.raise?_eq_some_iff.mp hu
    exact ⟨u, hraise,
      comparators_eq_ok_iff.mpr (.inr ⟨p, u, hp, hraise, rfl⟩)⟩

/-- The caret accepts the compatible versions. It overflows exactly where
the leftmost number that is not zero is the greatest one; otherwise its
window reaches from the version up to the release that raises this number,
and accepts, of the versions from there on, those that agree up to this
number and the prereleases of the ceiling. Which numbers of the version
were written makes no difference. -/
theorem caret_window (w : Version) :
    ((⟨.caret, w⟩ : Clause).comparators =
        .error (.boundOverflow ("^" ++ w.text)) ↔
      (w.number w.caretPlace).toNat = 2 ^ 64 - 1) ∧
    ((w.number w.caretPlace).toNat ≠ 2 ^ 64 - 1 →
      ∃ u, Raises w.caretPlace w u ∧ w < u ∧
        (⟨.caret, w⟩ : Clause).comparators =
          .ok [⟨.atLeast, w⟩, ⟨.less, u⟩] ∧
        ∀ v, (Comparator.accepts ⟨.atLeast, w⟩ v = true ∧
            Comparator.accepts ⟨.less, u⟩ v = true) ↔
          w ≤ v ∧
            ((∀ q : Place, q.index ≤ w.caretPlace.index →
                v.number q = w.number q) ∨
              v.isPrerelease = true ∧ ∀ q, v.number q = u.number q)) ∧
    ∀ omission : Omission,
      (∀ e, (⟨.caret, { w with omission := omission }⟩ : Clause).comparators =
          .error e ↔ (⟨.caret, w⟩ : Clause).comparators = .error e) ∧
      ∀ v, (⟨.caret, { w with omission := omission }⟩ : Clause).Admits v ↔
        (⟨.caret, w⟩ : Clause).Admits v := by
  have hplace : Operator.place? .caret w = some w.caretPlace := rfl
  refine ⟨overflow_iff hplace, fun hmax => ?_, fun omission => ⟨?_, ?_⟩⟩
  · obtain ⟨u, hraise, hcs⟩ := exists_window hplace hmax
    exact ⟨u, hraise, hraise.lt, hcs, hraise.accepts_iff⟩
  · intro e
    rw [caret_eq_error_iff, caret_eq_error_iff]
    -- neither the ceiling nor the canonical text looks at the omission
    exact Iff.rfl
  · intro v
    rw [admits_caret_iff, admits_caret_iff]
    exact Iff.rfl

/-- The minor number is raised where the major one is zero. -/
theorem caret_window_zero_major :
    ∃ u, Raises .minor { Version.release 0 2 3 with
        prerelease := [⟨"rc"⟩] } u ∧
      (⟨.caret, { Version.release 0 2 3 with
        prerelease := [⟨"rc"⟩] }⟩ : Clause).comparators =
        .ok [⟨.atLeast, { Version.release 0 2 3 with
          prerelease := [⟨"rc"⟩] }⟩, ⟨.less, u⟩] := by
  obtain ⟨u, hraise, -, hcs, -⟩ := (caret_window
    { Version.release 0 2 3 with prerelease := [⟨"rc"⟩] }).2.1 (by decide)
  exact ⟨u, hraise, hcs⟩

/-- The tilde accepts the versions of one series: of one major number where
no other was written, and of one major and minor number otherwise. It
overflows exactly where the number that opens the next series is beyond the
greatest one; otherwise its window reaches from the version up to the
release that opens the next series, and accepts, of the versions from there
on, those of the series and the prereleases of the ceiling. -/
theorem tilde_window (w : Version) :
    ((⟨.tilde, w⟩ : Clause).comparators =
        .error (.boundOverflow ("~" ++ w.text)) ↔
      w.omission = .minorAndPatch ∧ w.major.toNat = 2 ^ 64 - 1 ∨
      w.omission ≠ .minorAndPatch ∧ w.minor.toNat = 2 ^ 64 - 1) ∧
    (¬(w.omission = .minorAndPatch ∧ w.major.toNat = 2 ^ 64 - 1 ∨
        w.omission ≠ .minorAndPatch ∧ w.minor.toNat = 2 ^ 64 - 1) →
      ∃ u, (w.omission = .minorAndPatch → Raises .major w u) ∧
        (w.omission ≠ .minorAndPatch → Raises .minor w u) ∧ w < u ∧
        (⟨.tilde, w⟩ : Clause).comparators =
          .ok [⟨.atLeast, w⟩, ⟨.less, u⟩] ∧
        ∀ v, (Comparator.accepts ⟨.atLeast, w⟩ v = true ∧
            Comparator.accepts ⟨.less, u⟩ v = true) ↔
          w ≤ v ∧
            (v.major = w.major ∧
                (w.omission = .minorAndPatch ∨ v.minor = w.minor) ∨
              v.isPrerelease = true ∧ ∀ q, v.number q = u.number q)) := by
  have hplace : Operator.place? .tilde w = some w.tildePlace := rfl
  rw [← Version.number_tildePlace_iff]
  refine ⟨overflow_iff hplace, fun hmax => ?_⟩
  obtain ⟨u, hraise, hcs⟩ := exists_window hplace hmax
  obtain ⟨hmajor, hminor⟩ := Version.raises_tildePlace_iff.mp hraise
  refine ⟨u, hmajor, hminor, hraise.lt, hcs, fun v => ?_⟩
  rw [hraise.accepts_iff, Version.agrees_tildePlace_iff]

/-- What is written decides: `~1` runs up to `2.0.0`. -/
theorem tilde_window_major_alone :
    ∃ u, Raises .major { Version.release 1 0 0 with
        omission := .minorAndPatch } u ∧
      (⟨.tilde, { Version.release 1 0 0 with
        omission := .minorAndPatch }⟩ : Clause).comparators =
        .ok [⟨.atLeast, { Version.release 1 0 0 with
          omission := .minorAndPatch }⟩, ⟨.less, u⟩] := by
  obtain ⟨u, hmajor, -, -, hcs, -⟩ := (tilde_window
    { Version.release 1 0 0 with omission := .minorAndPatch }).2 (by decide)
  exact ⟨u, hmajor rfl, hcs⟩

end Clause

end Versioning
