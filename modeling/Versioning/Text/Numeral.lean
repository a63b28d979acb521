/-
Numerals are exactly the decimal digits of the natural numbers.

The digits of a number are a numeral (`isNumeral_toDigits`), and a numeral
is the digits of its value (`toDigits_ofDigitChars`): a last digit is what
division by ten leaves over, and the rest is a numeral again.
-/
import Versioning.Text.Token

namespace Versioning.Text

-- ============================================================= digits

/-- A numeral has digits only, at least one, and no leading zero but in
the numeral of zero itself. -/
theorem isNumeral_iff {cs : List Char} :
    isNumeral cs = true ↔
      cs ≠ [] ∧ (∀ c ∈ cs, c.isDigit = true) ∧
        (cs.head? = some '0' → cs = ['0']) := by
  match cs with
  | [] => simp [isNumeral]
  | [c] => simp [isNumeral]
  | c :: d :: cs => simp [isNumeral, and_assoc, and_comm, and_left_comm]

/-- A digit is the character of its own value, which is below ten. -/
theorem digitChar_sub {c : Char} (h : c.isDigit = true) :
    c.toNat - '0'.toNat < 10 ∧ Nat.digitChar (c.toNat - '0'.toNat) = c := by
  simp only [Char.isDigit, Bool.and_eq_true, decide_eq_true_eq] at h
  have h0 : 48 ≤ c.toNat := h.1
  have h9 : c.toNat ≤ 57 := h.2
  rw [show '0'.toNat = 48 from rfl]
  refine ⟨by omega, ?_⟩
  have hc : Char.ofNat c.toNat = c := Char.ofNat_toNat c
  generalize c.toNat = n at *
  have : n = 48 ∨ n = 49 ∨ n = 50 ∨ n = 51 ∨ n = 52 ∨ n = 53 ∨ n = 54 ∨
      n = 55 ∨ n = 56 ∨ n = 57 := by omega
  rcases this with rfl | rfl | rfl | rfl | rfl | rfl | rfl | rfl | rfl | rfl
    <;> rw [← hc] <;> rfl

-- ================================================ from numbers to texts

/-- Every number has a digit. -/
theorem toDigits_ne_nil (n : Nat) : Nat.toDigits 10 n ≠ [] := by
  rw [Nat.toDigits_eq_if (by decide)]
  split <;> simp

/-- The digits of a positive number begin with one that is not zero. -/
theorem head?_toDigits_ne {n : Nat} (h : n ≠ 0) :
    (Nat.toDigits 10 n).head? ≠ some '0' := by
  induction n using Nat.strongRecOn with
  | ind n ih =>
    rw [Nat.toDigits_eq_if (by decide)]
    split
    · next hlt =>
      have : n = 1 ∨ n = 2 ∨ n = 3 ∨ n = 4 ∨ n = 5 ∨ n = 6 ∨ n = 7 ∨ n = 8 ∨
          n = 9 := by omega
      rcases this with rfl | rfl | rfl | rfl | rfl | rfl | rfl | rfl | rfl
        <;> decide
    · next hge =>
      have hhead := ih (n / 10) (by omega) (by omega)
      cases hd : Nat.toDigits 10 (n / 10) with
      | nil => exact absurd hd (toDigits_ne_nil _)
      | cons c cs => simpa [hd] using hhead

/-- The digits of a number are a numeral. -/
theorem isNumeral_toDigits (n : Nat) :
    isNumeral (Nat.toDigits 10 n) = true := by
  refine isNumeral_iff.mpr ⟨toDigits_ne_nil n, fun c h =>
    Nat.isDigit_of_mem_toDigits (by decide) (by decide) h, fun h => ?_⟩
  by_cases hn : n = 0
  · subst hn; rfl
  · exact absurd h (head?_toDigits_ne hn)

-- ================================================ from texts to numbers

/-- One more digit behind makes the value ten times as great and adds the
digit. -/
theorem ofDigitChars_append_singleton (cs : List Char) (d : Char) :
    Nat.ofDigitChars 10 (cs ++ [d]) 0 =
      10 * Nat.ofDigitChars 10 cs 0 + (d.toNat - '0'.toNat) := by
  simp [Nat.ofDigitChars_append, Nat.ofDigitChars_cons]

/-- A numeral is the digits of its value. -/
theorem toDigits_ofDigitChars {cs : List Char} (h : isNumeral cs = true) :
    Nat.toDigits 10 (Nat.ofDigitChars 10 cs 0) = cs := by
  obtain ⟨hne, hd, h0⟩ := isNumeral_iff.mp h
  by_cases hz : cs.head? = some '0'
  · rw [h0 hz]; rfl
  clear h h0
  obtain ⟨ds, rfl⟩ : ∃ ds : List Char, cs = ds.reverse :=
    ⟨cs.reverse, by simp⟩
  induction ds with
  | nil => exact absurd rfl hne
  | cons d ds ih =>
    simp only [List.reverse_cons] at hd hz ⊢
    have ⟨hlt, hchar⟩ := digitChar_sub (hd d (by simp))
    rw [ofDigitChars_append_singleton]
    by_cases hds : ds = []
    · subst hds
      simp only [List.reverse_nil, Nat.ofDigitChars_nil, List.nil_append]
      rw [Nat.toDigits_of_lt_base (by omega)]
      simpa using hchar
    · have hne' : ds.reverse ≠ [] := by simpa using hds
      have hz' : ds.reverse.head? ≠ some '0' := by
        cases hr : ds.reverse with
        | nil => exact absurd hr hne'
        | cons c cs => simpa [hr] using hz
      have ih := ih hne' (fun c h => hd c (by simp [List.mem_reverse.mp h]))
        hz'
      have hpos : Nat.ofDigitChars 10 ds.reverse 0 ≠ 0 := by
        intro h
        rw [h] at ih
        exact hz' (by rw [← ih]; rfl)
      generalize d.toNat - '0'.toNat = v at *
      rw [Nat.toDigits_eq_if (by decide), if_neg (by omega)]
      have hdiv : (10 * Nat.ofDigitChars 10 ds.reverse 0 + v) / 10
          = Nat.ofDigitChars 10 ds.reverse 0 := by omega
      have hmod : (10 * Nat.ofDigitChars 10 ds.reverse 0 + v) % 10 = v := by
        omega
      rw [hdiv, hmod, ih, hchar]

end Versioning.Text
