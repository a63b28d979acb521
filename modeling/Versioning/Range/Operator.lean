/-
The operators a clause may open with. On its own a token has to be an
operator's (`Operator.parse`); in front of a version it is recognised by
its first characters (`Operator.strip`).
-/
import Versioning.Error
import Versioning.Version.Relation

namespace Versioning

/-- What a clause asks of a version, relative to the version it names. -/
inductive Operator where
  /-- To stand in one relation to it. -/
  | plain (relation : Relation)
  /-- To keep its leftmost number that is not zero. -/
  | caret
  /-- To keep its major and minor numbers, as far as they are written. -/
  | tilde
deriving DecidableEq

namespace Operator

/-- The token that writes an operator. -/
def token : Operator → String
  | plain relation => relation.token
  | caret => "^"
  | tilde => "~"

/-- Every token, the longer ones first. -/
def tokens : List String :=
  [">=", "<=", ">", "<", "^", "~", "="]

/-- The place of an operator among the seven, the plain ones first. -/
def index : Operator → Nat
  | plain relation => relation.index
  | caret => 5
  | tilde => 6

/-- The relation of a plain operator. -/
def relation? : Operator → Option Relation
  | plain relation => some relation
  | caret => none
  | tilde => none

-- ====================================================== reading tokens

/-- Reads a token that stands on its own; the empty one is equality. -/
def parse (token : String) : Except Error Operator :=
  match token with
  | "" => .ok (plain .equal)
  | "=" => .ok (plain .equal)
  | ">" => .ok (plain .greater)
  | "<" => .ok (plain .less)
  | ">=" => .ok (plain .atLeast)
  | "<=" => .ok (plain .atMost)
  | "^" => .ok caret
  | "~" => .ok tilde
  | _ => .error (.unknownOperator token)

/-- The operator a text begins with and what follows its token; equality
and the whole text where it begins with none. -/
def strip : List Char → Operator × List Char
  | '>' :: '=' :: cs => (plain .atLeast, cs)
  | '<' :: '=' :: cs => (plain .atMost, cs)
  | '>' :: cs => (plain .greater, cs)
  | '<' :: cs => (plain .less, cs)
  | '^' :: cs => (caret, cs)
  | '~' :: cs => (tilde, cs)
  | '=' :: cs => (plain .equal, cs)
  | cs => (plain .equal, cs)

/-- Reading undoes writing. -/
theorem parse_token (operator : Operator) :
    parse operator.token = .ok operator := by
  rcases operator with (_ | _ | _ | _ | _) | _ | _ <;> rfl

/-- The empty token is looked up besides those that operators write, and
no other. -/
theorem parse_eq_ok_iff {token : String} {operator : Operator} :
    parse token = .ok operator ↔
      token = operator.token ∨ token = "" ∧ operator = plain .equal := by
  constructor
  · intro h
    unfold parse at h
    split at h <;> cases h
    case h_1 => exact .inr ⟨rfl, rfl⟩
    all_goals exact .inl rfl
  · intro h
    rcases h with rfl | ⟨rfl, rfl⟩
    · exact parse_token operator
    · rfl

/-- The tokens are those that operators write. -/
theorem mem_tokens_iff {token : String} :
    token ∈ tokens ↔ ∃ operator : Operator, token = operator.token := by
  constructor
  · intro h
    simp only [tokens, List.mem_cons, List.not_mem_nil, or_false] at h
    rcases h with rfl | rfl | rfl | rfl | rfl | rfl | rfl
    · exact ⟨plain .atLeast, rfl⟩
    · exact ⟨plain .atMost, rfl⟩
    · exact ⟨plain .greater, rfl⟩
    · exact ⟨plain .less, rfl⟩
    · exact ⟨caret, rfl⟩
    · exact ⟨tilde, rfl⟩
    · exact ⟨plain .equal, rfl⟩
  · intro h
    obtain ⟨operator, rfl⟩ := h
    rcases operator with (_ | _ | _ | _ | _) | _ | _ <;> decide

/-- The two tables agree: what is looked up is a token of the list or
empty. -/
theorem exists_parse_eq_ok_iff {token : String} :
    (∃ operator, parse token = .ok operator) ↔
      token ∈ tokens ∨ token = "" := by
  simp only [parse_eq_ok_iff, mem_tokens_iff]
  constructor
  · intro h
    obtain ⟨operator, htoken | ⟨hempty, -⟩⟩ := h
    · exact .inl ⟨operator, htoken⟩
    · exact .inr hempty
  · intro h
    rcases h with ⟨operator, htoken⟩ | hempty
    · exact ⟨operator, .inl htoken⟩
    · exact ⟨plain .equal, .inr ⟨hempty, rfl⟩⟩

end Operator

/-- Reads the token of a plain operator as its relation; the tilde and
the caret are no relations. -/
def Relation.parse (token : String) : Except Error Relation := do
  match (← Operator.parse token).relation? with
  | some relation => return relation
  | none => throw (.unknownOperator token)

/-- Reading undoes writing. -/
theorem Relation.parse_token (relation : Relation) :
    Relation.parse relation.token = .ok relation := by
  cases relation <;> rfl

end Versioning
