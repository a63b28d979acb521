/-
What can go wrong when versions and ranges are read or expanded: a cause
together with the text it is about.
-/
namespace Versioning

/-- Why a text was refused, or why a clause has no comparators. -/
inductive Error where
  /-- A version, or an identifier on its own, does not follow the
  grammar; `text` is what was read, blanks included. -/
  | malformedVersion (text : String)
  /-- A clause is not an operator followed by a version; `clause` is the
  clause without its outer blanks. -/
  | malformedRange (clause : String)
  /-- A token stands for no operator, or for none that compares. -/
  | unknownOperator (token : String)
  /-- The number that the ceiling of `range` would raise is already the
  greatest one. -/
  | boundOverflow (range : String)
deriving DecidableEq

namespace Error

/-- The sentence that reports an error. -/
def message : Error → String
  | malformedVersion text => "Malformed version: " ++ text
  | malformedRange clause => "Malformed version range: " ++ clause
  | unknownOperator token => "Unknown operator: " ++ token
  | boundOverflow range => "Upper bound of range \"" ++ range ++ "\" overflows"

instance : ToString Error := ⟨message⟩

-- ================================================================ steps

variable {α β γ : Type} {x : Except Error α}

theorem bind_eq_ok_iff {f : α → Except Error β} {b : β} :
    x >>= f = .ok b ↔ ∃ a, x = .ok a ∧ f a = .ok b := by
  cases x with
  | error e => simp [bind, Except.bind]
  | ok a => simp [bind, Except.bind]

theorem map₂_eq_ok_iff {y : Except Error β} {f : α → β → γ} {c : γ} :
    (do
      let a ← x
      let b ← y
      return f a b) = .ok c ↔
      ∃ a b, x = .ok a ∧ y = .ok b ∧ f a b = c := by
  rw [bind_eq_ok_iff]
  constructor
  · intro h
    obtain ⟨a, ha, hb⟩ := h
    obtain ⟨b, hb, hc⟩ := bind_eq_ok_iff.mp hb
    exact ⟨a, b, ha, hb, Except.ok.inj hc⟩
  · intro h
    obtain ⟨a, b, ha, hb, rfl⟩ := h
    exact ⟨a, ha, bind_eq_ok_iff.mpr ⟨b, hb, rfl⟩⟩

end Error

end Versioning
