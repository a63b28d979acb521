/-
The order of numerals by value is their order by length, then by text.

Without a leading zero the longer numeral is the greater one: `n + 1`
digits are at least the `n`-th power of ten and `n` digits are below it.
Within one length the first difference decides, because all that follows
it weighs less than one unit of its place (`value_lt_value_iff`).
-/
import Mathlib
import Versioning.Version.Component

namespace Versioning

namespace Text

-- =============================================================== values

/-- The decimal value of a text of digits, of any length. -/
def value (cs : List Char) : Nat :=
  Nat.ofDigitChars 10 cs 0

theorem value_nil : value [] = 0 := Nat.ofDigitChars_nil

theorem value_cons (c : Char) (cs : List Char) :
    value (c :: cs) = 10 ^ cs.length * (c.toNat - '0'.toNat) + value cs := by
  unfold value
  rw [Nat.ofDigitChars_cons, Nat.ofDigitChars_eq_ofDigitChars_zero,
    Nat.mul_zero, Nat.zero_add]

/-- `n` digits stay below the `n`-th power of ten. -/
theorem value_lt_pow {cs : List Char} (h : ∀ c ∈ cs, c.isDigit = true) :
    value cs < 10 ^ cs.length := by
  induction cs with
  | nil => simp [value_nil]
  | cons c cs ih =>
    obtain ⟨hc, -⟩ := digitChar_sub (h c (by simp))
    have hcs := ih fun d hd => h d (List.mem_cons_of_mem c hd)
    rw [value_cons, List.length_cons, Nat.pow_succ]
    calc 10 ^ cs.length * (c.toNat - '0'.toNat) + value cs
        < 10 ^ cs.length * (c.toNat - '0'.toNat) + 10 ^ cs.length :=
          Nat.add_lt_add_left hcs _
      _ = 10 ^ cs.length * (c.toNat - '0'.toNat + 1) := by
          rw [Nat.mul_add, Nat.mul_one]
      _ ≤ 10 ^ cs.length * 10 := Nat.mul_le_mul_left _ (by omega)

/-- A first digit that is not zero brings the value up to its place. -/
theorem pow_le_value_cons {c : Char} (hc : c.isDigit = true) (h0 : c ≠ '0')
    (cs : List Char) : 10 ^ cs.length ≤ value (c :: cs) := by
  obtain ⟨-, hchar⟩ := digitChar_sub hc
  have hpos : 1 ≤ c.toNat - '0'.toNat := by
    refine Nat.one_le_iff_ne_zero.mpr fun h => h0 ?_
    rw [← hchar, h]
    rfl
  rw [value_cons]
  calc 10 ^ cs.length = 10 ^ cs.length * 1 := (Nat.mul_one _).symm
    _ ≤ 10 ^ cs.length * (c.toNat - '0'.toNat) := Nat.mul_le_mul_left _ hpos
    _ ≤ _ := Nat.le_add_right _ _

-- ================================================================ order

/-- Digits are in the order of what they stand for. -/
theorem digit_lt_digit_iff {c d : Char} (hc : c.isDigit = true)
    (hd : d.isDigit = true) :
    c < d ↔ c.toNat - '0'.toNat < d.toNat - '0'.toNat := by
  simp only [Char.isDigit, Bool.and_eq_true, decide_eq_true_eq] at hc hd
  have hc0 : 48 ≤ c.toNat := hc.1
  have hd0 : 48 ≤ d.toNat := hd.1
  have hlt : c < d ↔ c.toNat < d.toNat := Iff.rfl
  rw [hlt, show '0'.toNat = 48 from rfl]
  omega

theorem digit_inj {c d : Char} (hc : c.isDigit = true)
    (hd : d.isDigit = true)
    (h : c.toNat - '0'.toNat = d.toNat - '0'.toNat) : c = d := by
  rw [← (digitChar_sub hc).2, ← (digitChar_sub hd).2, h]

/-- Texts of equally many digits are in the order of their values. -/
theorem value_lt_value_iff_lt {as bs : List Char}
    (ha : ∀ c ∈ as, c.isDigit = true) (hb : ∀ c ∈ bs, c.isDigit = true)
    (hlen : as.length = bs.length) : value as < value bs ↔ as < bs := by
  induction as generalizing bs with
  | nil =>
    obtain rfl : bs = [] := List.eq_nil_of_length_eq_zero hlen.symm
    simp
  | cons a as ih =>
    obtain ⟨b, bs, rfl⟩ := List.exists_cons_of_length_eq_add_one hlen.symm
    have hlen' : as.length = bs.length := by simpa using hlen
    have hda := ha a (by simp)
    have hdb := hb b (by simp)
    have has := fun c hc => ha c (List.mem_cons_of_mem a hc)
    have hbs := fun c hc => hb c (List.mem_cons_of_mem b hc)
    have hva := value_lt_pow has
    have hvb := value_lt_pow hbs
    rw [List.cons_lt_cons_iff, ← ih has hbs hlen',
      digit_lt_digit_iff hda hdb, value_cons, value_cons, hlen']
    rw [hlen'] at hva
    generalize hi : a.toNat - '0'.toNat = i
    generalize hj : b.toNat - '0'.toNat = j
    -- below the first digit nothing adds up to one unit of its place
    have step : ∀ {m n : Nat}, m < n →
        10 ^ bs.length * m + 10 ^ bs.length ≤ 10 ^ bs.length * n :=
      fun h => by
        rw [← Nat.mul_succ]
        exact Nat.mul_le_mul_left _ h
    rcases Nat.lt_trichotomy i j with h | h | h
    · have := step h
      exact iff_of_true (by omega) (.inl h)
    · obtain rfl : a = b := digit_inj hda hdb (by omega)
      subst h
      simp
    · have := step h
      refine iff_of_false (by omega) fun h' => ?_
      rcases h' with h' | ⟨rfl, -⟩ <;> omega

/-- A numeral with more digits has the greater value. -/
theorem value_lt_value_of_length_lt {as bs : List Char}
    (ha : isNumeral as = true) (hb : isNumeral bs = true)
    (hlen : as.length < bs.length) : value as < value bs := by
  obtain ⟨hane, had, -⟩ := isNumeral_iff.mp ha
  obtain ⟨-, hbd, hb0⟩ := isNumeral_iff.mp hb
  have hpos : 0 < as.length := List.length_pos_iff.mpr hane
  cases bs with
  | nil => simp at hlen
  | cons b bs =>
    have hb0 : b ≠ '0' := by
      intro hzero
      subst hzero
      -- then `bs` is `0` alone, and nothing is shorter but the empty text
      have hone := congrArg List.length (hb0 rfl)
      simp only [List.length_cons, List.length_nil] at hone hlen
      omega
    calc value as < 10 ^ as.length := value_lt_pow had
      _ ≤ 10 ^ bs.length :=
          Nat.pow_le_pow_right (by omega) (Nat.le_of_lt_succ hlen)
      _ ≤ value (b :: bs) := pow_le_value_cons (hbd b (by simp)) hb0 bs

/-- Numerals are in the order of their values exactly when they are in
the order of their lengths, and of their texts where these agree. -/
theorem value_lt_value_iff {as bs : List Char} (ha : isNumeral as = true)
    (hb : isNumeral bs = true) :
    value as < value bs ↔
      as.length < bs.length ∨ as.length = bs.length ∧ as < bs := by
  have had := (isNumeral_iff.mp ha).2.1
  have hbd := (isNumeral_iff.mp hb).2.1
  rcases Nat.lt_trichotomy as.length bs.length with h | h | h
  · exact iff_of_true (value_lt_value_of_length_lt ha hb h) (.inl h)
  · rw [value_lt_value_iff_lt had hbd h]
    simp [h]
  · have := value_lt_value_of_length_lt hb ha h
    exact iff_of_false (by omega) (by omega)

end Text

-- ===================================================== numbers and texts

/-- A number is written as the one numeral of its value. -/
theorem Component.toList_text_eq_iff {c : Component} {cs : List Char} :
    c.text.toList = cs ↔
      Text.isNumeral cs = true ∧ Text.value cs = c.toNat := by
  rw [toList_text]
  constructor
  · intro h
    rw [← h]
    exact ⟨Text.isNumeral_toDigits _, Nat.ofDigitChars_ten_toDigits⟩
  · intro h
    obtain ⟨hn, hv⟩ := h
    rw [← hv]
    exact Text.toDigits_ofDigitChars hn

end Versioning
