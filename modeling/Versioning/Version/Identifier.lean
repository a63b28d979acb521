/-
The dot-separated identifiers of prereleases and of build metadata.

An identifier is the text it is written as; the type holds any text, and
`WellFormed` says which ones can be read. Only prerelease identifiers are
ordered.
-/
import Versioning.Error
import Versioning.Text.Token

namespace Versioning

open Text (TokenKind)

-- ======================================================== of any kind

/-- An identifier of one kind. -/
structure Identifier (kind : TokenKind) where
  text : String
deriving DecidableEq, Hashable

namespace Identifier

variable {kind : TokenKind}

/-- The identifier a token stands for. -/
def ofChars? (cs : List Char) : Option (Identifier kind) :=
  if kind.accepts cs then some ⟨String.ofList cs⟩ else none

/-- The text is a token of the kind. -/
def WellFormed (id : Identifier kind) : Prop :=
  kind.accepts id.text.toList = true

instance (id : Identifier kind) : Decidable id.WellFormed :=
  inferInstanceAs (Decidable (_ = true))

/-- Reads an identifier that stands on its own, with no blanks to
forgive. -/
def parse (text : String) : Except Error (Identifier kind) :=
  match ofChars? text.toList with
  | some id => .ok id
  | none => .error (.malformedVersion text)

/-- A token is read as the identifier that holds it. -/
theorem ofChars?_eq_some_iff {cs : List Char} {id : Identifier kind} :
    ofChars? cs = some id ↔ id.WellFormed ∧ id.text.toList = cs := by
  unfold ofChars? WellFormed
  constructor
  · intro h
    split at h
    · next ht => obtain rfl := Option.some.inj h; simp [ht]
    · cases h
  · rintro ⟨ht, rfl⟩
    simp [ht]

theorem parse_eq_ok_iff {text : String} {id : Identifier kind} :
    parse text = .ok id ↔ id.WellFormed ∧ id.text = text := by
  rw [← String.toList_inj, ← ofChars?_eq_some_iff, parse]
  cases (ofChars? text.toList : Option (Identifier kind)) <;> simp

/-- An identifier is well formed when its text is read as it. -/
theorem wellFormed_iff {id : Identifier kind} :
    id.WellFormed ↔ parse id.text = .ok id := by
  rw [parse_eq_ok_iff]
  exact (and_iff_left rfl).symm

variable {id : Identifier kind}

theorem WellFormed.isTokenChar (h : id.WellFormed) {c : Char}
    (hc : c ∈ id.text.toList) : Text.isTokenChar c = true :=
  TokenKind.isTokenChar_of_mem h hc

theorem WellFormed.dot_not_mem (h : id.WellFormed) :
    '.' ∉ id.text.toList :=
  TokenKind.dot_not_mem h

theorem WellFormed.text_ne_empty (h : id.WellFormed) : id.text ≠ "" := by
  intro hempty
  have htoken := kind.isBuildToken_of_accepts h
  rw [hempty] at htoken
  cases htoken

end Identifier

-- ============================================= prerelease identifiers

/-- One identifier of a prerelease, such as `rc` or `1`. -/
abbrev PrereleaseId := Identifier .prerelease

namespace PrereleaseId

/-- Reads a prerelease identifier. -/
abbrev parse (text : String) : Except Error PrereleaseId :=
  Identifier.parse text

/-- An identifier of digits only, hence a number. -/
def isNumeric (id : PrereleaseId) : Bool :=
  id.text.toList.all Char.isDigit

/-- The order of two identifiers in one place: numbers by value and below
everything else, other identifiers by their characters. -/
def precedence (a b : PrereleaseId) : Ordering :=
  match a.isNumeric, b.isNumeric with
  | true, true =>
    -- no leading zeros, so the longer numeral has the greater value
    (compare a.text.length b.text.length).then (compare a.text b.text)
  | true, false => .lt
  | false, true => .gt
  | false, false => compare a.text b.text

instance : Ord PrereleaseId := ⟨precedence⟩

end PrereleaseId

-- ================================================== build identifiers

/-- One identifier of build metadata, such as `exp` or `001`. -/
abbrev BuildId := Identifier .build

/-- Reads a build identifier. -/
abbrev BuildId.parse (text : String) : Except Error BuildId :=
  Identifier.parse text

end Versioning
