/-
When an equal clause may stand in for another.

Equality looks at operators and ranks. Expansion looks at one thing more:
the tilde asks which of the numbers were written, so `~1` and `~1.0.0` are
equal and two windows. Equal clauses that raise at the same place, or at
none, expand alike (`Clause.sameExpansion_of_place?_eq`). If the tilde's
places differ, one clause was written with its major number alone, and the
minor zero of the other never overflows (`Clause.windows_of_tildes`).
-/
import Versioning.Proofs.Sameness
import Versioning.Proofs.Window

namespace Versioning

-- ======================================================= what rank decides

namespace Version

variable {v w : Version}

theorem number_congr (h : v.rank = w.rank) (p : Place) :
    v.number p = w.number p := by
  obtain ⟨hmajor, hminor, hpatch, -⟩ := Rank.mk.inj h
  cases p with
  | major => exact hmajor
  | minor => exact hminor
  | patch => exact hpatch

/-- Raising makes the same release of versions of one rank. -/
theorem Raises.congr (h : v.rank = w.rank) {p : Place} {u : Version}
    (hraise : Raises p v u) : Raises p w u :=
  hraise.of_agrees fun q _ => (number_congr h q).symm

theorem caretPlace_congr (h : v.rank = w.rank) :
    v.caretPlace = w.caretPlace :=
  caretPlace_eq_of_agrees fun q _ => number_congr h q

/-- A zero has a next number. -/
theorem raises_minor_zero (h : v.minor = 0) :
    Raises .minor v (release v.major 1 0) := by
  rw [← raise?_eq_some_iff, raise?, nextMinor?, h]
  rfl

/-- The release that opens a major series has zeros behind. -/
theorem Raises.eq_release_major {u : Version} (h : Raises .major v u) :
    u = release u.major 0 0 := by
  have hminor : u.minor = 0 := h.behind .minor (by decide)
  have hpatch : u.patch = 0 := h.behind .patch (by decide)
  rw [h.is_release, hminor, hpatch]
  rfl

end Version

/-- Bounds of one rank make equal comparators. -/
theorem Comparator.beq_of_rank_eq {v w : Version} (h : v.rank = w.rank)
    (relation : Relation) :
    ((⟨relation, v⟩ : Comparator) == ⟨relation, w⟩) = true := by
  rw [beq_iff_key_eq, key, key, h]

-- ========================================================= same expansions

namespace Clause

open Version (Raises release)

/-- Two expansions that `==` does not tell apart: both of them overflow, or
their comparators are equal one by one. -/
inductive SameExpansion :
    Except Error (List Comparator) → Except Error (List Comparator) → Prop
  | overflow (s t : String) :
      SameExpansion (.error (.boundOverflow s)) (.error (.boundOverflow t))
  | comparators {cs ds : List Comparator} (h : (cs == ds) = true) :
      SameExpansion (.ok cs) (.ok ds)

theorem SameExpansion.symm {x y : Except Error (List Comparator)}
    (h : SameExpansion x y) : SameExpansion y x := by
  cases h with
  | overflow s t => exact .overflow t s
  | @comparators cs ds h =>
    have hkey : Range.key ⟨cs⟩ = Range.key ⟨ds⟩ := Range.beq_iff_key_eq.mp h
    exact .comparators (Range.beq_iff_key_eq.mpr hkey.symm)

/-- Equal clauses that raise at the same place expand alike. -/
theorem sameExpansion_of_place?_eq {a b : Clause} (h : (a == b) = true)
    (hplace : a.operator.place? a.version = b.operator.place? b.version) :
    SameExpansion a.comparators b.comparators := by
  obtain ⟨hoperator, hrank⟩ := Prod.mk.inj (beq_iff_key_eq.mp h)
  have hbound := Comparator.beq_of_rank_eq hrank
  cases hcs : a.comparators with
  | error e =>
    obtain ⟨p, hp, hmax, rfl⟩ := comparators_eq_error_iff.mp hcs
    rw [Version.number_congr hrank] at hmax
    rw [comparators_eq_error_iff.mpr ⟨p, hplace ▸ hp, hmax, rfl⟩]
    exact .overflow _ _
  | ok cs =>
    rcases comparators_eq_ok_iff.mp hcs with
      ⟨relation, hplain, rfl⟩ | ⟨p, u, hp, hraise, rfl⟩
    · rw [comparators_eq_ok_iff.mpr
        (.inl ⟨relation, hoperator ▸ hplain, rfl⟩)]
      refine .comparators ?_
      rw [List.cons_beq_cons, hbound relation]
      rfl
    · rw [comparators_eq_ok_iff.mpr
        (.inr ⟨p, u, hplace ▸ hp, hraise.congr hrank, rfl⟩)]
      refine .comparators ?_
      rw [List.cons_beq_cons, hbound .atLeast, List.cons_beq_cons,
        Comparator.beq_of_rank_eq rfl .less]
      rfl

/-- Equal clauses raise at the same place unless they are tildes of which
one was written with its major number alone. -/
theorem place?_eq_iff {a b : Clause} (h : (a == b) = true) :
    a.operator.place? a.version = b.operator.place? b.version ↔
      ¬(a.operator = .tilde ∧
        Xor (a.version.omission = .minorAndPatch)
          (b.version.omission = .minorAndPatch)) := by
  obtain ⟨hoperator, hrank⟩ := Prod.mk.inj (beq_iff_key_eq.mp h)
  rw [← hoperator]
  cases ho : a.operator with
  | plain relation => simp [Operator.place?]
  | caret => simp [Operator.place?, Version.caretPlace_congr hrank]
  | tilde =>
    by_cases ha : a.version.omission = .minorAndPatch <;>
      by_cases hb : b.version.omission = .minorAndPatch <;>
        simp [Operator.place?, Version.tildePlace, ha, hb, Xor]

-- ========================================================= the exception

variable {v w : Version}

/-- What was written as a whole major series is a window up to the next
one. -/
theorem comparators_tilde_major (h : v.omission = .minorAndPatch) :
    v.major.toNat = 2 ^ 64 - 1 ∧
        (⟨.tilde, v⟩ : Clause).comparators =
          .error (.boundOverflow ("~" ++ v.text)) ∨
      ∃ major, major.toNat = v.major.toNat + 1 ∧
        (⟨.tilde, v⟩ : Clause).comparators =
          .ok [⟨.atLeast, v⟩, ⟨.less, release major 0 0⟩] := by
  have hplace : Operator.place? .tilde v = some .major := by
    simp [Operator.place?, Version.tildePlace, h]
  by_cases hmax : v.major.toNat = 2 ^ 64 - 1
  · exact .inl ⟨hmax, (overflow_iff hplace).mpr hmax⟩
  · obtain ⟨u, hraise, hcs⟩ := exists_window hplace hmax
    refine .inr ⟨u.major, hraise.at_place, ?_⟩
    rw [hcs, ← hraise.eq_release_major]

/-- What was written with its minor number is a window up to the next minor
series. -/
theorem comparators_tilde_minor_zero (h : v.omission ≠ .minorAndPatch)
    (hminor : v.minor = 0) :
    (⟨.tilde, v⟩ : Clause).comparators =
      .ok [⟨.atLeast, v⟩, ⟨.less, release v.major 1 0⟩] := by
  have hplace : Operator.place? .tilde v = some .minor := by
    simp [Operator.place?, Version.tildePlace, h]
  exact comparators_eq_ok_iff.mpr
    (.inr ⟨.minor, _, hplace, Version.raises_minor_zero hminor, rfl⟩)

/-- The ceiling of the smaller window is a version of the greater one. -/
theorem admits_first_minor {major : Component} (hminor : v.minor = 0)
    (hmajor : major.toNat = v.major.toNat + 1)
    (h : (⟨.tilde, v⟩ : Clause).comparators =
      .ok [⟨.atLeast, v⟩, ⟨.less, release major 0 0⟩]) :
    (⟨.tilde, v⟩ : Clause).Admits (release v.major 1 0) := by
  have hlt : v.major.toNat < major.toNat := hmajor ▸ Nat.lt_succ_self _
  rw [admits_iff_of_comparators_eq h, Version.lt_release_iff rfl]
  exact ⟨(Version.raises_minor_zero hminor).lt.le,
    .inl (Version.numbers_lt_iff.mpr (.inl hlt))⟩

/-- A tilde over `v`, written as a major number alone, and one over `w`, of
the same rank and with more numbers written. -/
theorem windows_of_tildes (hrank : v.rank = w.rank) (hwf : v.WellFormed)
    (hv : v.omission = .minorAndPatch) (hw : w.omission ≠ .minorAndPatch) :
    (⟨.tilde, w⟩ : Clause).comparators =
        .ok [⟨.atLeast, w⟩, ⟨.less, release w.major 1 0⟩] ∧
      (v.major.toNat = 2 ^ 64 - 1 ∧
          (⟨.tilde, v⟩ : Clause).comparators =
            .error (.boundOverflow ("~" ++ v.text)) ∨
        ∃ major, major.toNat = v.major.toNat + 1 ∧
          (⟨.tilde, v⟩ : Clause).comparators =
            .ok [⟨.atLeast, v⟩, ⟨.less, release major 0 0⟩] ∧
          (⟨.tilde, v⟩ : Clause).Admits (release v.major 1 0) ∧
          ¬(⟨.tilde, w⟩ : Clause).Admits (release v.major 1 0)) := by
  have hmajor : v.major = w.major := Version.number_congr hrank .major
  have hminor : v.minor = w.minor := Version.number_congr hrank .minor
  have hzero : v.minor = 0 := (hwf.minorAndPatch hv).1
  have hsmall := comparators_tilde_minor_zero hw (hminor ▸ hzero)
  refine ⟨hsmall, (comparators_tilde_major hv).imp_right ?_⟩
  intro h
  obtain ⟨major, hnext, hgreat⟩ := h
  rw [hmajor]
  exact ⟨major, hmajor ▸ hnext, hgreat,
    hmajor ▸ admits_first_minor hzero hnext hgreat,
    not_admits_ceiling hsmall⟩

/-- Their windows differ, if there are two. -/
theorem not_sameExpansion_of_tildes (hrank : v.rank = w.rank)
    (hwf : v.WellFormed) (hv : v.omission = .minorAndPatch)
    (hw : w.omission ≠ .minorAndPatch) :
    ¬SameExpansion (⟨.tilde, v⟩ : Clause).comparators
      (⟨.tilde, w⟩ : Clause).comparators := by
  obtain ⟨hsmall, ⟨-, hover⟩ | ⟨major, -, hgreat, -, -⟩⟩ :=
    windows_of_tildes hrank hwf hv hw
  · rw [hsmall, hover]
    intro h
    cases h
  · rw [hsmall, hgreat]
    intro h
    cases h with
    | comparators h =>
      simp only [List.cons_beq_cons, Bool.and_eq_true,
        Comparator.beq_iff_key_eq, Comparator.key, Prod.mk.injEq] at h
      -- the minor numbers of the two ceilings are zero and one
      exact absurd h.2.1.2 (by simp [Version.rank, release])

-- ===================================================== interchangeability

/-- Exactly when an equal clause may stand in for another. Equal clauses
feed a hash alike, and they expand alike unless they are tildes of which one
was written with its major number alone. In that case they never do. The
other one is always expanded, and its window ends with its first minor
series. The one written with its major number alone overflows if that number
is the greatest one; otherwise its window ends with the major series, and
accepts the version that the other window ends at. -/
theorem equal_clauses_interchange {a b : Clause} (ha : a.Obtainable)
    (hb : b.Obtainable) (h : (a == b) = true) :
    a.feed = b.feed ∧
    (SameExpansion a.comparators b.comparators ↔
      ¬(a.operator = .tilde ∧
        Xor (a.version.omission = .minorAndPatch)
          (b.version.omission = .minorAndPatch))) ∧
    ∀ t ∈ [a, b], ∀ p ∈ [a, b], t.operator = .tilde →
      t.version.omission = .minorAndPatch →
      p.version.omission ≠ .minorAndPatch →
      p.comparators = .ok
        [⟨.atLeast, p.version⟩, ⟨.less, release p.version.major 1 0⟩] ∧
      (t.version.major.toNat = 2 ^ 64 - 1 ∧
          t.comparators = .error (.boundOverflow ("~" ++ t.version.text)) ∨
        ∃ major, major.toNat = t.version.major.toNat + 1 ∧
          t.comparators = .ok
            [⟨.atLeast, t.version⟩, ⟨.less, release major 0 0⟩] ∧
          t.Admits (release t.version.major 1 0) ∧
          ¬p.Admits (release t.version.major 1 0)) := by
  have hkey := beq_iff_key_eq.mp h
  obtain ⟨o, v⟩ := a
  obtain ⟨o', w⟩ := b
  obtain rfl : o = o' := (Prod.mk.inj hkey).1
  have hrank : v.rank = w.rank := (Prod.mk.inj hkey).2
  have hv : v.WellFormed := ha.version.wellFormed
  have hw : w.WellFormed := hb.version.wellFormed
  refine ⟨feed_eq_iff.mpr hkey, ⟨fun hsame => ?_, fun hnot => ?_⟩, ?_⟩
  · rintro ⟨ho, hone⟩
    obtain rfl : o = .tilde := ho
    rcases hone with ⟨hvo, hwo⟩ | ⟨hwo, hvo⟩
    · exact not_sameExpansion_of_tildes hrank hv hvo hwo hsame
    · exact not_sameExpansion_of_tildes hrank.symm hw hwo hvo hsame.symm
  · exact sameExpansion_of_place?_eq h ((place?_eq_iff h).mpr hnot)
  · intro t ht p hp ho hto hpo
    simp only [List.mem_cons, List.not_mem_nil, or_false] at ht hp
    rcases ht with rfl | rfl <;> rcases hp with rfl | rfl <;>
      obtain rfl : o = .tilde := ho
    · exact absurd hto hpo
    · exact windows_of_tildes hrank hv hto hpo
    · exact windows_of_tildes hrank.symm hw hto hpo
    · exact absurd hto hpo

/-- `~1` and `~1.0.0+b` hash alike, do not expand alike, and `1.1.0` is in
the window of the first only. Of `~18446744073709551615.0` and
`~18446744073709551615` the second overflows. -/
theorem equal_clauses_interchange_major_alone :
    (∃ a b, parse "~1" = .ok a ∧ parse "~1.0.0+b" = .ok b ∧
      a.feed = b.feed ∧ ¬SameExpansion a.comparators b.comparators ∧
      a.Admits (release 1 1 0) ∧ ¬b.Admits (release 1 1 0)) ∧
    ∃ a b, parse "~18446744073709551615.0" = .ok a ∧
      parse "~18446744073709551615" = .ok b ∧
      ¬SameExpansion a.comparators b.comparators ∧
      b.comparators =
        .error (.boundOverflow "~18446744073709551615.0.0") := by
  constructor
  · have ha : parse "~1" = .ok ⟨.tilde, { release 1 0 0 with
        omission := .minorAndPatch }⟩ := by rfl
    have hb : parse "~1.0.0+b" = .ok ⟨.tilde, { release 1 0 0 with
        build := [⟨"b"⟩] }⟩ := by rfl
    obtain ⟨hfeed, hsame, hwindows⟩ :=
      equal_clauses_interchange (.parse ha) (.parse hb) (by rfl)
    obtain ⟨-, ⟨hmax, -⟩ | ⟨_, -, -, hadmits, hnot⟩⟩ :=
      hwindows _ (.head _) _ (.tail _ (.head _)) rfl rfl (by decide)
    · exact absurd hmax (by decide)
    · exact ⟨_, _, ha, hb, hfeed, mt hsame.mp (by decide), hadmits, hnot⟩
  · have ha : parse "~18446744073709551615.0" = .ok ⟨.tilde,
        { release 18446744073709551615 0 0 with omission := .patch }⟩ := by
      rfl
    have hb : parse "~18446744073709551615" = .ok ⟨.tilde,
        { release 18446744073709551615 0 0 with
          omission := .minorAndPatch }⟩ := by rfl
    obtain ⟨-, hsame, hwindows⟩ :=
      equal_clauses_interchange (.parse ha) (.parse hb) (by rfl)
    obtain ⟨-, ⟨-, hover⟩ | ⟨_, hnext, -⟩⟩ :=
      hwindows _ (.tail _ (.head _)) _ (.head _) rfl rfl (by decide)
    · exact ⟨_, _, ha, hb, mt hsame.mp (by decide), hover⟩
    · exact absurd hnext (UInt64.toNat_lt _).ne

end Clause

end Versioning
