/-
The numbers of a version, 64-bit words. What is written has to fit, and
what is computed never wraps. A text is read as a number exactly when it
is what that number is written as (`ofNumeral?_eq_some_iff`).
-/
import Versioning.Text.Numeral

namespace Versioning

/-- One of the three numbers of a version. -/
abbrev Component := UInt64

namespace Component

/-- The number that a numeral stands for, if the text is a numeral and
the number fits. -/
def ofNumeral? (cs : List Char) : Option Component :=
  let value := Nat.ofDigitChars 10 cs 0
  if Text.isNumeral cs && value < UInt64.size then
    some (UInt64.ofNat value)
  else
    none

/-- The numeral of a number. -/
def text (c : Component) : String :=
  toString c.toNat

/-- The number after `c`; the greatest one has none. -/
def next? (c : Component) : Option Component :=
  if c.toNat + 1 < UInt64.size then some (c + 1) else none

-- ================================================== reading and writing

theorem toList_text (c : Component) :
    c.text.toList = Nat.toDigits 10 c.toNat := by
  rw [text, Nat.toString_eq_ofList_toDigits, String.toList_ofList]

/-- A number is written with digits only. -/
theorem isDigit_of_mem_text {c : Component} {d : Char}
    (h : d ∈ c.text.toList) : d.isDigit = true := by
  rw [toList_text] at h
  exact Nat.isDigit_of_mem_toDigits (by decide) (by decide) h

/-- The texts that are read as `c` are the one it is written as. -/
theorem ofNumeral?_eq_some_iff {cs : List Char} {c : Component} :
    ofNumeral? cs = some c ↔ c.text.toList = cs := by
  rw [toList_text, ofNumeral?]
  constructor
  · intro h
    simp only [Bool.and_eq_true, decide_eq_true_eq] at h
    split at h
    · next hn =>
      obtain rfl := Option.some.inj h
      rw [UInt64.toNat_ofNat_of_lt' hn.2]
      exact Text.toDigits_ofDigitChars hn.1
    · cases h
  · rintro rfl
    simp only [Nat.ofDigitChars_ten_toDigits]
    rw [Text.isNumeral_toDigits]
    have := c.toNat_lt
    simp [UInt64.size, this]

end Component

end Versioning
