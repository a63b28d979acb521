/-
The tokens of a version text: numerals, the identifiers of a prerelease
and those of build metadata. None is empty, and none holds a dot, a plus,
a comma or a blank, so a text that joins them with these can be taken
apart again.
-/
namespace Versioning.Text

/-- A letter, a digit or a hyphen. -/
def isTokenChar (c : Char) : Bool :=
  c.isAlphanum || c == '-'

/-- A decimal numeral without a leading zero. -/
def isNumeral : List Char → Bool
  | [] => false
  | [c] => c.isDigit
  | c :: cs => c != '0' && c.isDigit && cs.all Char.isDigit

/-- An identifier as build metadata has it. -/
def isBuildToken (cs : List Char) : Bool :=
  !cs.isEmpty && cs.all isTokenChar

/-- An identifier as a prerelease has it: one of digits only has to be a
numeral. -/
def isPrereleaseToken (cs : List Char) : Bool :=
  isBuildToken cs && (!cs.all Char.isDigit || isNumeral cs)

/-- Every character of a build token may stand in a token. -/
theorem isTokenChar_of_mem {cs : List Char} (h : isBuildToken cs = true)
    {c : Char} (hc : c ∈ cs) : isTokenChar c = true := by
  simp only [isBuildToken, Bool.and_eq_true, List.all_eq_true] at h
  exact h.2 c hc

/-- A prerelease token would do as a build token. -/
theorem isBuildToken_of_isPrereleaseToken {cs : List Char}
    (h : isPrereleaseToken cs = true) : isBuildToken cs = true := by
  simp only [isPrereleaseToken, Bool.and_eq_true] at h
  exact h.1

/-- Which tokens are the identifiers of one kind of label; whatever the
kind, they would do as build tokens. -/
structure TokenKind where
  accepts : List Char → Bool
  isBuildToken_of_accepts {cs : List Char} :
    accepts cs = true → isBuildToken cs = true

theorem TokenKind.isTokenChar_of_mem {kind : TokenKind} {cs : List Char}
    (h : kind.accepts cs = true) {c : Char} (hc : c ∈ cs) :
    isTokenChar c = true :=
  Text.isTokenChar_of_mem (kind.isBuildToken_of_accepts h) hc

theorem TokenKind.dot_not_mem {kind : TokenKind} {cs : List Char}
    (h : kind.accepts cs = true) : '.' ∉ cs := fun hmem =>
  absurd (isTokenChar_of_mem h hmem) (by decide)

/-- The identifiers of a prerelease. -/
def TokenKind.prerelease : TokenKind where
  accepts := isPrereleaseToken
  isBuildToken_of_accepts := isBuildToken_of_isPrereleaseToken

/-- The identifiers of build metadata. -/
def TokenKind.build : TokenKind where
  accepts := isBuildToken
  isBuildToken_of_accepts := id

end Versioning.Text
