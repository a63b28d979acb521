/-
The tokens of a version text by their shape, alternative by alternative as
a grammar has them, each proved to be what its function decides
(`numeral_iff`, `buildToken_iff`, `prereleaseToken_iff`).
-/
import Versioning.Proofs.Decimal
import Versioning.Text.Blank
import Versioning.Text.Cut

namespace Versioning.Text

-- ========================================================= the classes

/-- A decimal numeral: `0`, or digits of which the first is not `0`. -/
inductive Numeral : List Char → Prop where
  | zero : Numeral ['0']
  | positive {c : Char} {cs : List Char} (hc : c.isDigit = true)
      (h0 : c ≠ '0') (hcs : ∀ d ∈ cs, d.isDigit = true) : Numeral (c :: cs)

/-- A numeral whose value is a number a version can have. -/
structure IsNumber (cs : List Char) : Prop where
  numeral : Numeral cs
  value_le : value cs ≤ 2 ^ 64 - 1

/-- A prerelease token: a numeral, or digits, then a letter or a hyphen,
then any of the three. -/
inductive PrereleaseToken : List Char → Prop where
  | numeral {cs : List Char} (h : Numeral cs) : PrereleaseToken cs
  | word {digits : List Char} {c : Char} {cs : List Char}
      (hdigits : ∀ d ∈ digits, d.isDigit = true)
      (hc : c.isAlpha = true ∨ c = '-')
      (hcs : ∀ d ∈ cs, d.isAlphanum = true ∨ d = '-') :
      PrereleaseToken (digits ++ c :: cs)

/-- A build token: letters, digits and hyphens, at least one of them. -/
structure BuildToken (cs : List Char) : Prop where
  ne_nil : cs ≠ []
  chars : ∀ c ∈ cs, c.isAlphanum = true ∨ c = '-'

-- ============================================ what the functions decide

theorem numeral_iff {cs : List Char} :
    Numeral cs ↔ isNumeral cs = true := by
  rw [isNumeral_iff]
  constructor
  · intro h
    cases h with
    | zero =>
      refine ⟨by simp, fun d hd => ?_, fun _ => rfl⟩
      rw [List.mem_singleton.mp hd]
      rfl
    | positive hc h0 hcs =>
      refine ⟨by simp, fun d hd => ?_, fun h => absurd ?_ h0⟩
      · rcases List.mem_cons.mp hd with rfl | hd
        · exact hc
        · exact hcs d hd
      · simpa using h
  · intro h
    obtain ⟨hne, hd, h0⟩ := h
    cases cs with
    | nil => exact absurd rfl hne
    | cons c cs =>
      by_cases hz : c = '0'
      · rw [h0 (by rw [hz]; rfl)]
        exact .zero
      · exact .positive (hd c (by simp)) hz
          fun d h => hd d (List.mem_cons_of_mem c h)

theorem Numeral.ne_nil {cs : List Char} (h : Numeral cs) : cs ≠ [] :=
  (isNumeral_iff.mp (numeral_iff.mp h)).1

theorem Numeral.isDigit_of_mem {cs : List Char} (h : Numeral cs) {c : Char}
    (hc : c ∈ cs) : c.isDigit = true :=
  (isNumeral_iff.mp (numeral_iff.mp h)).2.1 c hc

theorem isTokenChar_iff {c : Char} :
    isTokenChar c = true ↔ c.isAlphanum = true ∨ c = '-' := by
  simp [isTokenChar]

theorem isTokenChar_of_isDigit {c : Char} (h : c.isDigit = true) :
    isTokenChar c = true :=
  isTokenChar_iff.mpr (.inl (by simp [Char.isAlphanum, h]))

theorem buildToken_iff {cs : List Char} :
    BuildToken cs ↔ isBuildToken cs = true := by
  simp only [isBuildToken, Bool.and_eq_true, Bool.not_eq_true',
    List.isEmpty_eq_false_iff, List.all_eq_true, isTokenChar_iff]
  exact ⟨fun h => ⟨h.ne_nil, h.chars⟩, fun h => ⟨h.1, h.2⟩⟩

/-- A character of a token that is no digit is a letter or a hyphen. -/
theorem isAlpha_or_hyphen {c : Char} (h : isTokenChar c = true)
    (hd : c.isDigit = false) : c.isAlpha = true ∨ c = '-' := by
  rcases isTokenChar_iff.mp h with h | h
  · refine .inl ?_
    simpa [Char.isAlphanum, hd] using h
  · exact .inr h

theorem not_isDigit_of_isAlpha_or_hyphen {c : Char}
    (h : c.isAlpha = true ∨ c = '-') : c.isDigit = false := by
  rcases h with h | rfl
  · simp only [Char.isAlpha, Char.isUpper, Char.isLower, Bool.or_eq_true,
      Bool.and_eq_true, decide_eq_true_eq] at h
    simp only [Char.isDigit, Bool.and_eq_false_iff, decide_eq_false_iff_not]
    -- digits end at 57 and the letters begin at 65
    have key : 65 ≤ c.val.toNat := by
      rcases h with ⟨h, -⟩ | ⟨h, -⟩
      · exact h
      · exact Nat.le_trans (by decide) h
    exact .inr fun h57 : c.val.toNat ≤ 57 => by omega
  · decide

theorem prereleaseToken_iff {cs : List Char} :
    PrereleaseToken cs ↔ isPrereleaseToken cs = true := by
  rw [isPrereleaseToken, Bool.and_eq_true, Bool.or_eq_true,
    Bool.not_eq_true', ← numeral_iff, ← buildToken_iff]
  constructor
  · intro h
    cases h with
    | numeral h =>
      obtain ⟨hne, hd, -⟩ := isNumeral_iff.mp (numeral_iff.mp h)
      refine ⟨⟨hne, fun c hc => .inl ?_⟩, .inr h⟩
      simp [Char.isAlphanum, hd c hc]
    | @word digits c cs hdigits hc hcs =>
      refine ⟨⟨by simp, fun d hd => ?_⟩, .inl ?_⟩
      · rcases List.mem_append.mp hd with hd | hd
        · exact .inl (by simp [Char.isAlphanum, hdigits d hd])
        rcases List.mem_cons.mp hd with rfl | hd
        · exact hc.imp_left fun h => by simp [Char.isAlphanum, h]
        · exact hcs d hd
      · refine List.all_eq_false.mpr ⟨c, by simp, ?_⟩
        simp [not_isDigit_of_isAlpha_or_hyphen hc]
  · intro h
    obtain ⟨htoken, h | h⟩ := h
    · -- the first character that is no digit divides the token
      obtain ⟨d, hmem, hd⟩ := List.all_eq_false.mp h
      have hsome : (cs.find? fun c => !c.isDigit).isSome = true :=
        List.find?_isSome.mpr ⟨d, hmem, by simpa using hd⟩
      obtain ⟨c, hfind⟩ := Option.isSome_iff_exists.mp hsome
      obtain ⟨hc, digits, rest, rfl, hdigits⟩ :=
        List.find?_eq_some_iff_append.mp hfind
      refine .word (fun e he => by simpa using hdigits e he) ?_
        fun e he => htoken.chars e (by simp [he])
      exact isAlpha_or_hyphen
        (isTokenChar_iff.mpr (htoken.chars c (by simp))) (by simpa using hc)
    · exact .numeral h

-- =============================================== numerals between dots

/-- Numerals between dots are digits and dots. -/
theorem mem_intercalate_numerals {numerals : List (List Char)}
    (h : ∀ n ∈ numerals, Numeral n) {c : Char}
    (hc : c ∈ ['.'].intercalate numerals) : c = '.' ∨ c.isDigit = true := by
  refine (mem_intercalate hc).imp_right fun hmem => ?_
  obtain ⟨n, hn, hcn⟩ := hmem
  exact (h n hn).isDigit_of_mem hcn

/-- Numerals between dots are divided at the dots. -/
theorem splitOn_intercalate_numerals {numerals : List (List Char)}
    (hne : numerals ≠ []) (h : ∀ n ∈ numerals, Numeral n) :
    (['.'].intercalate numerals).splitOn '.' = numerals := by
  refine splitOn_eq_iff.mpr ⟨hne, fun n hn hdot => ?_, rfl⟩
  exact absurd ((h n hn).isDigit_of_mem hdot) (by decide)

-- ========================================================== characters

theorem isBlank_eq_false_of_isTokenChar {c : Char}
    (h : isTokenChar c = true) : isBlank c = false := by
  rcases isTokenChar_iff.mp h with h | rfl
  · simp only [Char.isAlphanum, Char.isAlpha, Char.isUpper, Char.isLower,
      Char.isDigit, Bool.or_eq_true, Bool.and_eq_true, decide_eq_true_eq] at h
    -- no range of blanks meets the characters from `0` to `z`
    have key : 48 ≤ c.toNat ∧ c.toNat ≤ 122 := by
      rcases h with (⟨h, h'⟩ | ⟨h, h'⟩) | ⟨h, h'⟩
      · exact ⟨Nat.le_trans (by decide) h, Nat.le_trans h' (by decide)⟩
      · exact ⟨Nat.le_trans (by decide) h, h'⟩
      · exact ⟨h, Nat.le_trans h' (by decide)⟩
    simp only [isBlank, blankRanges, List.any_cons, List.any_nil,
      Bool.or_false, Bool.or_eq_false_iff, Bool.and_eq_false_iff,
      decide_eq_false_iff_not]
    omega
  · decide

end Versioning.Text
