/-
When one window lies inside another.

One window lies inside another when its version is not lower and its
ceiling is not higher (`Clause.Spans.within_of_le`). Raising at an earlier
place goes further (`Version.Raises.lt_of_index_lt`), so the tilde and the
caret of one version are nested, and the ceiling of the smaller tells them
apart.

A release that a window accepts has the numbers of its version up to the
raised place (`Version.Raises.agrees_of_release`), and raising it there
gives the ceiling again. That it is a release cannot be left out:
`2.0.0-alpha` is accepted by `^1.2.3`, and `^2.0.0-alpha` accepts `2.1.0`.
-/
import Versioning.Proofs.Obtainable
import Versioning.Proofs.Window

namespace Versioning

-- ============================================================ ceilings

namespace Version

variable {p q : Place} {v w u u' : Version}

/-- Raising at an earlier place goes further. -/
theorem Raises.lt_of_index_lt (h : Raises p w u) (h' : Raises q w u')
    (hlt : p.index < q.index) : u' < u := by
  apply (lt_release_iff h.prerelease_eq_nil).mpr
  left
  apply (h.numbers_lt_iff (not_numbers_lt_of_le h'.lt.le)).mpr
  intro place hplace
  exact h'.before place (by omega)

theorem Raises.le_of_index_le (h : Raises p w u) (h' : Raises q w u')
    (hle : p.index ≤ q.index) : u' ≤ u := by
  rcases hle.eq_or_lt with heq | hlt
  · obtain rfl := Place.index_injective heq
    rw [h.unique h']
  · exact (h.lt_of_index_lt h' hlt).le

/-- A release below the ceiling, and not below the version, has the numbers
of the version up to the place. -/
theorem Raises.agrees_of_release (h : Raises p w u)
    (hv : v.prerelease = []) (hle : w ≤ v) (hlt : v < u) :
    ∀ q : Place, q.index ≤ p.index → v.number q = w.number q := by
  rcases (lt_release_iff h.prerelease_eq_nil).mp hlt with hlt | ⟨hpre, -⟩
  · exact (h.numbers_lt_iff (not_numbers_lt_of_le hle)).mp hlt
  · simp [isPrerelease, hv] at hpre

/-- The tilde's place is not to the left of another's where it was not
written more to the left. -/
theorem tildePlace_index_le
    (h : v.omission ≠ .minorAndPatch ∨ w.omission = .minorAndPatch) :
    w.tildePlace.index ≤ v.tildePlace.index := by
  unfold tildePlace
  rcases h with h | h
  · rw [if_neg h]
    split <;> decide
  · rw [if_pos h]
    exact Nat.zero_le _

theorem tildePlace_eq_major_iff :
    w.tildePlace = .major ↔ w.omission = .minorAndPatch := by
  unfold tildePlace
  by_cases h : w.omission = .minorAndPatch <;> simp [h]

end Version

-- ============================================================= windows

namespace Clause

open Version (Raises release)

/-- A clause is the window from its version up to `u`, which is found by
raising the number at `p`. -/
structure Spans (c : Clause) (p : Place) (u : Version) : Prop where
  raises : Raises p c.version u
  comparators_eq : c.comparators =
    .ok [⟨.atLeast, c.version⟩, ⟨.less, u⟩]

section Spans

variable {o : Operator} {a b : Clause} {p q : Place} {v w u u' : Version}

/-- A clause that raises a number and is expanded is a window. -/
theorem exists_spans (hp : o.place? w = some p)
    (h : ∃ cs, (⟨o, w⟩ : Clause).comparators = .ok cs) :
    ∃ u, Spans ⟨o, w⟩ p u := by
  obtain ⟨cs, hcs⟩ := h
  have hmax : (w.number p).toNat ≠ 2 ^ 64 - 1 := by
    intro hmax
    rw [(overflow_iff hp).mpr hmax] at hcs
    cases hcs
  obtain ⟨u, hraises, hwindow⟩ := exists_window hp hmax
  exact ⟨u, hraises, hwindow⟩

theorem spans_of_raises (hp : o.place? w = some p) (h : Raises p w u) :
    Spans ⟨o, w⟩ p u where
  raises := h
  comparators_eq := comparators_eq_ok_iff.mpr (.inr ⟨p, u, hp, h, rfl⟩)

theorem Spans.admits_iff (h : Spans a p u) :
    a.Admits v ↔ a.version ≤ v ∧ v < u :=
  admits_iff_of_comparators_eq h.comparators_eq

/-- Every version that satisfies the one clause satisfies the other. -/
def Within (a b : Clause) : Prop :=
  ∀ v, a.Admits v → b.Admits v

theorem Spans.within_of_le (h : Spans a p u) (h' : Spans b q u')
    (hlow : b.version ≤ a.version) (hhigh : u ≤ u') : Within a b := by
  intro v hv
  rw [h.admits_iff] at hv
  rw [h'.admits_iff]
  exact ⟨hlow.trans hv.1, hv.2.trans_le hhigh⟩

end Spans

-- ============================================ two windows of one version

section OneVersion

variable {o o' : Operator} {w u u' : Version} {p q : Place}

/-- The place more to the left has the larger window. -/
theorem Spans.within_of_index_le (h : Spans ⟨o, w⟩ p u)
    (h' : Spans ⟨o', w⟩ q u') (hle : q.index ≤ p.index) :
    Within ⟨o, w⟩ ⟨o', w⟩ :=
  h.within_of_le h' le_rfl (h'.raises.le_of_index_le h.raises hle)

/-- The larger window accepts the ceiling of the smaller one. -/
theorem Spans.admits_ceiling_of_index_lt (h : Spans ⟨o, w⟩ p u)
    (h' : Spans ⟨o', w⟩ q u') (hlt : q.index < p.index) :
    (⟨o', w⟩ : Clause).Admits u ∧ ¬(⟨o, w⟩ : Clause).Admits u := by
  rw [h'.admits_iff]
  exact ⟨⟨h.raises.lt.le, h'.raises.lt_of_index_lt h.raises hlt⟩,
    not_admits_ceiling h.comparators_eq⟩

/-- Windows that are found at different places differ at a release. -/
theorem Spans.exists_release_of_ne (h : Spans ⟨o, w⟩ p u)
    (h' : Spans ⟨o', w⟩ q u') (hne : p ≠ q) :
    ∃ major minor patch,
      ¬((⟨o, w⟩ : Clause).Admits (release major minor patch) ↔
        (⟨o', w⟩ : Clause).Admits (release major minor patch)) := by
  have hindex : p.index ≠ q.index := Place.index_injective.ne hne
  rcases Nat.lt_or_gt_of_ne hindex with hlt | hlt
  · obtain ⟨hadmits, hnot⟩ := h'.admits_ceiling_of_index_lt h hlt
    refine ⟨u'.major, u'.minor, u'.patch, fun hiff => ?_⟩
    rw [← h'.raises.is_release] at hiff
    exact hnot (hiff.mp hadmits)
  · obtain ⟨hadmits, hnot⟩ := h.admits_ceiling_of_index_lt h' hlt
    refine ⟨u.major, u.minor, u.patch, fun hiff => ?_⟩
    rw [← h.raises.is_release] at hiff
    exact hnot (hiff.mpr hadmits)

/-- Windows of one version are the same when they are found at the same
place. -/
theorem Spans.forall_admits_iff_iff (h : Spans ⟨o, w⟩ p u)
    (h' : Spans ⟨o', w⟩ q u') :
    (∀ v, (⟨o, w⟩ : Clause).Admits v ↔ (⟨o', w⟩ : Clause).Admits v) ↔
      p = q := by
  constructor
  · intro hsame
    by_contra hne
    obtain ⟨major, minor, patch, hnot⟩ := h.exists_release_of_ne h' hne
    exact hnot (hsame _)
  · rintro rfl v
    exact ⟨h.within_of_index_le h' le_rfl v, h'.within_of_index_le h le_rfl v⟩

end OneVersion

/-- Of the tilde and the caret of one version one window lies in the other,
and the major number says which. Where it is not zero, what satisfies the
tilde satisfies the caret, and the two are the same exactly when the version
was written with its major number alone. Where it is zero, what satisfies
the caret satisfies the tilde, and the two are the same exactly when the
minor number is not zero. Windows that are not the same differ at a
release. -/
theorem tilde_and_caret_nested {w : Version} (hw : w.Obtainable)
    (htilde : ∃ cs, (⟨.tilde, w⟩ : Clause).comparators = .ok cs)
    (hcaret : ∃ cs, (⟨.caret, w⟩ : Clause).comparators = .ok cs) :
    (w.major ≠ 0 →
      Within ⟨.tilde, w⟩ ⟨.caret, w⟩ ∧
      ((∀ v, (⟨.tilde, w⟩ : Clause).Admits v ↔
          (⟨.caret, w⟩ : Clause).Admits v) ↔
        w.omission = .minorAndPatch)) ∧
    (w.major = 0 →
      Within ⟨.caret, w⟩ ⟨.tilde, w⟩ ∧
      ((∀ v, (⟨.tilde, w⟩ : Clause).Admits v ↔
          (⟨.caret, w⟩ : Clause).Admits v) ↔
        w.minor ≠ 0)) ∧
    ((¬∀ v, (⟨.tilde, w⟩ : Clause).Admits v ↔
        (⟨.caret, w⟩ : Clause).Admits v) →
      ∃ major minor patch,
        ¬((⟨.tilde, w⟩ : Clause).Admits (release major minor patch) ↔
          (⟨.caret, w⟩ : Clause).Admits (release major minor patch))) := by
  obtain ⟨u, ht⟩ := exists_spans (p := w.tildePlace) rfl htilde
  obtain ⟨u', hc⟩ := exists_spans (p := w.caretPlace) rfl hcaret
  have hsame := ht.forall_admits_iff_iff hc
  refine ⟨fun hmajor => ⟨?_, ?_⟩, fun hmajor => ⟨?_, ?_⟩, fun hdiffer => ?_⟩
  · apply ht.within_of_index_le hc
    rw [Version.caretPlace_eq, if_pos hmajor]
    exact Nat.zero_le _
  · rw [hsame, Version.caretPlace_eq, if_pos hmajor,
      Version.tildePlace_eq_major_iff]
  · apply hc.within_of_index_le ht
    rw [Version.caretPlace_eq, if_neg (not_not.mpr hmajor),
      Version.tildePlace]
    split <;> split <;> decide
  · rw [hsame, Version.caretPlace_eq, if_neg (not_not.mpr hmajor),
      Version.tildePlace]
    by_cases ho : w.omission = .minorAndPatch
    · -- what was not written is zero
      have hminor : w.minor = 0 := (hw.wellFormed.minorAndPatch ho).1
      simp [ho, hminor]
    · by_cases hminor : w.minor = 0 <;> simp [ho, hminor]
  · apply ht.exists_release_of_ne hc
    intro hplace
    exact hdiffer (hsame.mpr hplace)

/-- The window of `^0.0.3` lies in that of `~0.0.3` and differs from it at a
release; those of `~1` and `^1` are the same. -/
theorem tilde_and_caret_nested_zero_major :
    Within ⟨.caret, release 0 0 3⟩ ⟨.tilde, release 0 0 3⟩ ∧
    (∃ major minor patch,
      ¬((⟨.tilde, release 0 0 3⟩ : Clause).Admits
          (release major minor patch) ↔
        (⟨.caret, release 0 0 3⟩ : Clause).Admits
          (release major minor patch))) ∧
    ∃ w, Version.parse "1" = .ok w ∧
      ∀ v, (⟨.tilde, w⟩ : Clause).Admits v ↔ (⟨.caret, w⟩ : Clause).Admits v := by
  have hw : Version.parse "1" =
      .ok { release 1 0 0 with omission := .minorAndPatch } := by rfl
  have hsmall := tilde_and_caret_nested (.release 0 0 3)
    ⟨_, by rfl⟩ ⟨_, by rfl⟩
  have hlarge := tilde_and_caret_nested (.parse hw) ⟨_, by rfl⟩ ⟨_, by rfl⟩
  obtain ⟨hwithin, hsame⟩ := hsmall.2.1 rfl
  exact ⟨hwithin, hsmall.2.2 (mt hsame.mp (by decide)),
    _, hw, (hlarge.1 (by decide)).2.mpr rfl⟩

-- =========================================== two windows of one operator

/-- A release in the window of a caret has a window up to the same
ceiling. -/
theorem Spans.caret_of_release {v w u : Version}
    (h : Spans ⟨.caret, w⟩ w.caretPlace u) (hv : v.prerelease = [])
    (hle : w ≤ v) (hlt : v < u) : Spans ⟨.caret, v⟩ w.caretPlace u := by
  have hagrees := h.raises.agrees_of_release hv hle hlt
  apply spans_of_raises
  · exact congrArg some (Version.caretPlace_eq_of_agrees hagrees)
  · exact h.raises.of_agrees hagrees

/-- An upgrade inside a compatible range does not lead out of it. For a
release that satisfies the caret of a version, the caret of the release is
expanded as well and has the same ceiling, so what satisfies it satisfies
the caret of the version. What satisfies the tilde of a release that
satisfies the tilde of a version satisfies the latter, unless the release
was written with its major number alone and the version was not. Build
metadata makes no difference, and for the caret neither does what was
written. -/
theorem upgrade_stays_within {v w : Version} (hv : v.prerelease = []) :
    ((⟨.caret, w⟩ : Clause).Admits v →
      (∃ u, (⟨.caret, w⟩ : Clause).comparators =
          .ok [⟨.atLeast, w⟩, ⟨.less, u⟩] ∧
        (⟨.caret, v⟩ : Clause).comparators =
          .ok [⟨.atLeast, v⟩, ⟨.less, u⟩]) ∧
      Within ⟨.caret, v⟩ ⟨.caret, w⟩) ∧
    ((⟨.tilde, w⟩ : Clause).Admits v →
      v.omission ≠ .minorAndPatch ∨ w.omission = .minorAndPatch →
      Within ⟨.tilde, v⟩ ⟨.tilde, w⟩) := by
  constructor
  · intro hadmits
    obtain ⟨u, hw⟩ := exists_spans (p := w.caretPlace) rfl hadmits.expanded
    obtain ⟨hle, hlt⟩ := hw.admits_iff.mp hadmits
    have hcaret := hw.caret_of_release hv hle hlt
    exact ⟨⟨u, hw.comparators_eq, hcaret.comparators_eq⟩,
      hcaret.within_of_le hw hle le_rfl⟩
  · intro hadmits homission x hx
    obtain ⟨u, hw⟩ := exists_spans (p := w.tildePlace) rfl hadmits.expanded
    obtain ⟨u', hv'⟩ := exists_spans (p := v.tildePlace) rfl hx.expanded
    obtain ⟨hle, hlt⟩ := hw.admits_iff.mp hadmits
    -- both ceilings are found by raising the release
    have hraises : Raises w.tildePlace v u :=
      hw.raises.of_agrees (hw.raises.agrees_of_release hv hle hlt)
    have hhigh : u' ≤ u := hraises.le_of_index_le hv'.raises
      (Version.tildePlace_index_le homission)
    exact hv'.within_of_le hw hle hhigh x hx

/-- `1.9.0+b` is an upgrade in `^1.2.3`, and in `~1` so is `1.5`. -/
theorem upgrade_stays_within_major :
    (⟨.caret, release 1 2 3⟩ : Clause).Admits
      { release 1 9 0 with build := [⟨"b"⟩] } ∧
    Within ⟨.caret, { release 1 9 0 with build := [⟨"b"⟩] }⟩
      ⟨.caret, release 1 2 3⟩ ∧
    Within ⟨.tilde, { release 1 5 0 with omission := .patch }⟩
      ⟨.tilde, { release 1 0 0 with omission := .minorAndPatch }⟩ := by
  have hcaret : (⟨.caret, release 1 2 3⟩ : Clause).Admits
      { release 1 9 0 with build := [⟨"b"⟩] } := ⟨_, by rfl, by decide⟩
  have htilde : (⟨.tilde,
      { release 1 0 0 with omission := .minorAndPatch }⟩ : Clause).Admits
        { release 1 5 0 with omission := .patch } := ⟨_, by rfl, by decide⟩
  exact ⟨hcaret, ((upgrade_stays_within rfl).1 hcaret).2,
    (upgrade_stays_within rfl).2 htilde (.inr rfl)⟩

end Clause

end Versioning
