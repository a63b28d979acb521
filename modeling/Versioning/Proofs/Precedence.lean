/-
Precedence is the order by value.

`Version.Below` says of two versions that the first comes before the
second, in the words of the precedence rules. Identifiers of digits only
are compared by what they stand for, natural numbers of any size
(`PrereleaseId.Below`), and the others by the codes of their characters.

The comparison never computes a value. It looks at lengths first, which is
the order of the values only because no identifier of digits has a leading
zero: the step from identifiers to values is the one that needs
well-formedness.
-/
import Versioning.Proofs.Decimal
import Versioning.Proofs.Obtainable
import Versioning.Version.Order

namespace Versioning

-- ========================================================= identifiers

/-- A number has no leading zero. -/
theorem Identifier.WellFormed.isNumeral {id : PrereleaseId}
    (h : id.WellFormed) (hn : id.isNumeric = true) :
    Text.isNumeral id.text.toList = true := by
  have htoken : Text.isPrereleaseToken id.text.toList = true := h
  simp only [Text.isPrereleaseToken, Bool.and_eq_true, Bool.or_eq_true,
    Bool.not_eq_true'] at htoken
  rcases htoken.2 with h | h
  · exact absurd (hn.symm.trans h) (by simp)
  · exact h

namespace PrereleaseId

/-- The number that an identifier of digits stands for. -/
def value (id : PrereleaseId) : Nat :=
  Text.value id.text.toList

/-- The codes of the characters of an identifier. -/
def codes (id : PrereleaseId) : List Nat :=
  id.text.toList.map Char.toNat

/-- The order of identifiers: numbers by value, numbers before words,
words by their codes. -/
inductive Below (a b : PrereleaseId) : Prop where
  | numbers (ha : a.isNumeric = true) (hb : b.isNumeric = true)
      (h : a.value < b.value)
  | numberWord (ha : a.isNumeric = true) (hb : b.isNumeric = false)
  | words (ha : a.isNumeric = false) (hb : b.isNumeric = false)
      (h : a.codes < b.codes)

theorem map_toNat_lt_iff {as bs : List Char} :
    as.map Char.toNat < bs.map Char.toNat ↔ as < bs := by
  induction as generalizing bs with
  | nil => cases bs <;> simp
  | cons a as ih =>
    cases bs with
    | nil => simp
    | cons b bs =>
      have hlt : a.toNat < b.toNat ↔ a < b := Iff.rfl
      rw [List.map_cons, List.map_cons, List.cons_lt_cons_iff,
        List.cons_lt_cons_iff, ih, hlt, Char.toNat_inj]

theorem compare_text_eq_lt_iff {a b : PrereleaseId} :
    compare a.text b.text = .lt ↔ a.text.toList < b.text.toList := by
  rw [← String.lt_iff]
  exact compareOfLessAndEq_eq_lt

/-- Length first and then text is the order of the values. -/
theorem precedence_eq_lt_iff {a b : PrereleaseId} (ha : a.WellFormed)
    (hb : b.WellFormed) : a.precedence b = .lt ↔ a.Below b := by
  unfold precedence
  cases hna : a.isNumeric <;> cases hnb : b.isNumeric
  · -- two words
    rw [compare_text_eq_lt_iff, ← map_toNat_lt_iff]
    constructor
    · intro h
      exact .words hna hnb h
    · intro h
      cases h with
      | numbers h _ _ => simp [hna] at h
      | numberWord h _ => simp [hna] at h
      | words _ _ h => exact h
  · -- a word and a number
    refine iff_of_false (by simp) fun h => ?_
    cases h with
    | numbers h _ _ => simp [hna] at h
    | numberWord h _ => simp [hna] at h
    | words _ h _ => simp [hnb] at h
  · -- a number and a word
    exact iff_of_true rfl (.numberWord hna hnb)
  · -- two numbers
    have hvalue := Text.value_lt_value_iff (ha.isNumeral hna)
      (hb.isNumeral hnb)
    rw [Ordering.then_eq_lt, Nat.compare_eq_lt, Nat.compare_eq_eq,
      compare_text_eq_lt_iff, ← String.length_toList,
      ← String.length_toList, ← hvalue]
    constructor
    · intro h
      exact .numbers hna hnb h
    · intro h
      cases h with
      | numbers _ _ h => exact h
      | numberWord _ h => simp [hnb] at h
      | words h _ _ => simp [hna] at h

/-- Lists are compared at the first place where they differ. -/
theorem compare_list_eq_lt_iff {as bs : List PrereleaseId}
    (ha : ∀ id ∈ as, id.WellFormed) (hb : ∀ id ∈ bs, id.WellFormed) :
    compare as bs = .lt ↔ List.Lex Below as bs := by
  induction as generalizing bs with
  | nil => cases bs <;> simp
  | cons a as ih =>
    cases bs with
    | nil => simp
    | cons b bs =>
      obtain ⟨ha, has⟩ := List.forall_mem_cons.mp ha
      obtain ⟨hb, hbs⟩ := List.forall_mem_cons.mp hb
      have hhead : compare a b = .lt ↔ a.Below b := precedence_eq_lt_iff ha hb
      -- heads that compare equal are equal, so the first difference decides
      rw [List.compare_cons_cons, Ordering.then_eq_lt, hhead, ih has hbs,
        Std.LawfulEqOrd.compare_eq_iff_eq, List.cons_lex_cons_iff]

end PrereleaseId

-- ============================================================ versions

namespace Version

/-- The three numbers of a version. -/
def numbers (v : Version) : List Nat :=
  [v.major.toNat, v.minor.toNat, v.patch.toNat]

/-- The order of versions by value. -/
inductive Below (a b : Version) : Prop where
  | numbers (h : a.numbers < b.numbers)
  | release (hn : a.numbers = b.numbers) (ha : a.prerelease ≠ [])
      (hb : b.prerelease = [])
  | identifiers (hn : a.numbers = b.numbers) (ha : a.prerelease ≠ [])
      (hb : b.prerelease ≠ [])
      (h : a.prerelease.Lex PrereleaseId.Below b.prerelease)

/-- The numbers are compared as natural numbers, one after the other, and
only where they agree are the prerelease identifiers looked at. -/
theorem precedence_eq_lt_iff {a b : Version} :
    a.precedence b = .lt ↔
      a.numbers < b.numbers ∨ a.numbers = b.numbers ∧
        Rank.prereleasePrecedence a.prerelease b.prerelease = .lt := by
  simp only [precedence, Rank.precedence, rank, Ordering.then_eq_lt,
    Std.compare_eq_lt, Std.LawfulEqOrd.compare_eq_iff_eq,
    UInt64.lt_iff_toNat_lt, ← UInt64.toNat_inj, numbers,
    List.cons_lt_cons_iff, List.cons.injEq, List.not_lt_nil, and_true,
    and_false, or_false]
  simp only [and_or_left, or_assoc, and_assoc]

/-- On well-formed versions the comparison is the order by value. -/
theorem WellFormed.precedence_eq_lt_iff_below {a b : Version}
    (ha : a.WellFormed) (hb : b.WellFormed) :
    a.precedence b = .lt ↔ a.Below b := by
  have hlists := PrereleaseId.compare_list_eq_lt_iff ha.prerelease
    hb.prerelease
  rw [precedence_eq_lt_iff]
  constructor
  · intro h
    rcases h with h | ⟨hn, h⟩
    · exact .numbers h
    · cases hpa : a.prerelease <;> cases hpb : b.prerelease <;>
        rw [hpa, hpb] at h hlists
      · cases h
      · cases h
      · exact .release hn (by simp [hpa]) hpb
      · exact .identifiers hn (by simp [hpa]) (by simp [hpb])
          (by rw [hpa, hpb]; exact hlists.mp h)
  · intro h
    cases h with
    | numbers h => exact .inl h
    | release hn hpa hpb =>
      obtain ⟨id, ids, hpa⟩ := List.exists_cons_of_ne_nil hpa
      refine .inr ⟨hn, ?_⟩
      rw [hpa, hpb]
      rfl
    | identifiers hn hpa hpb h =>
      obtain ⟨id, ids, hpa⟩ := List.exists_cons_of_ne_nil hpa
      obtain ⟨id', ids', hpb⟩ := List.exists_cons_of_ne_nil hpb
      refine .inr ⟨hn, ?_⟩
      rw [hpa, hpb] at h hlists ⊢
      exact hlists.mpr h

theorem precedence_eq_gt_iff {a b : Version} :
    a.precedence b = .gt ↔ b.precedence a = .lt := by
  have hswap : compare a b = .gt ↔ compare b a = .lt :=
    Std.OrientedCmp.gt_iff_lt
  exact hswap

/-- Nothing but numbers and prerelease identifiers makes versions
differ. -/
theorem precedence_eq_eq_iff {a b : Version} :
    a.precedence b = .eq ↔
      a.numbers = b.numbers ∧ a.prerelease = b.prerelease := by
  rw [precedence_eq_iff]
  simp only [rank, Rank.mk.injEq, numbers, List.cons.injEq,
    UInt64.toNat_inj, and_true, and_assoc]

/-- The comparison of versions is the order by value: numbers as natural
numbers, releases above their prereleases, and prerelease identifiers by
decimal value or by codes at the first difference. Build metadata and
omitted numbers change nothing. -/
theorem precedence_by_value {a b : Version} (ha : Obtainable a)
    (hb : Obtainable b) :
    (a.precedence b = .lt ↔ a.Below b) ∧
    (a.precedence b = .gt ↔ b.Below a) ∧
    (a.precedence b = .eq ↔
      a.numbers = b.numbers ∧ a.prerelease = b.prerelease) ∧
    ∀ (build build' : List BuildId) (omission omission' : Omission),
      precedence { a with build := build, omission := omission }
        { b with build := build', omission := omission' } =
      a.precedence b := by
  have hlt := ha.wellFormed.precedence_eq_lt_iff_below hb.wellFormed
  have hgt := hb.wellFormed.precedence_eq_lt_iff_below ha.wellFormed
  exact ⟨hlt, precedence_eq_gt_iff.trans hgt, precedence_eq_eq_iff,
    fun _ _ _ _ => rfl⟩

/-- Numbers beyond any machine word are compared by value all the same. -/
theorem precedence_by_value_beyond_words :
    Obtainable { release 1 0 0 with
      prerelease := [⟨"99999999999999999999"⟩] } ∧
    Obtainable { release 1 0 0 with
      prerelease := [⟨"100000000000000000000"⟩], build := [⟨"7"⟩] } ∧
    precedence
      { release 1 0 0 with prerelease := [⟨"99999999999999999999"⟩] }
      { release 1 0 0 with
        prerelease := [⟨"100000000000000000000"⟩], build := [⟨"7"⟩] } =
      .lt := by
  have ha : Obtainable { release 1 0 0 with
      prerelease := [⟨"99999999999999999999"⟩] } :=
    .parse (show parse "1.0.0-99999999999999999999" = .ok _ by rfl)
  have hb : Obtainable { release 1 0 0 with
      prerelease := [⟨"100000000000000000000"⟩], build := [⟨"7"⟩] } :=
    .parse (show parse "1.0.0-100000000000000000000+7" = .ok _ by rfl)
  refine ⟨ha, hb, (precedence_by_value ha hb).1.mpr ?_⟩
  exact .identifiers rfl (by decide) (by decide)
    (.rel (.numbers rfl rfl (by decide)))

end Version

end Versioning
