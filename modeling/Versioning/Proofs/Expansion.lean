/-
What clauses are read as and what they expand to, said once. A clause has
comparators in two cases and none in one, told apart by its operator and
one number of its version (`Clause.comparators_eq_ok_iff`,
`Clause.comparators_eq_error_iff`). Nothing that follows has to open these
functions again.
-/
import Versioning.Proofs.Ceiling
import Versioning.Range.Basic

namespace Versioning

open Text (trim trimStart)

-- ============================================================== clauses

/-- The place whose number the operator raises for a ceiling; the plain
operators have no ceiling. -/
def Operator.place? : Operator → Version → Option Place
  | plain _, _ => none
  | caret, v => some v.caretPlace
  | tilde, v => some v.tildePlace

namespace Clause

/-- A clause is an operator's token and then its version, perhaps behind
blanks. -/
theorem ofChars?_eq_some_iff {cs : List Char} {c : Clause} :
    ofChars? cs = some c ↔
      ∃ rest, Operator.strip cs = (c.operator, rest) ∧
        Version.ofChars? (trimStart rest) = some c.version := by
  rw [ofChars?, Option.map_eq_some_iff]
  constructor
  · intro h
    obtain ⟨v, hv, rfl⟩ := h
    exact ⟨(Operator.strip cs).2, rfl, hv⟩
  · intro h
    obtain ⟨rest, hstrip, hv⟩ := h
    rw [hstrip]
    exact ⟨c.version, hv, rfl⟩

theorem parse_eq_ok_iff {text : String} {c : Clause} :
    parse text = .ok c ↔ ofChars? (trim text.toList) = some c := by
  simp only [parse]
  split <;> simp_all

theorem window_eq_ok_iff {operator : Operator} {v : Version}
    {ceiling : Option Version} {cs : List Comparator} :
    window operator v ceiling = .ok cs ↔
      ∃ u, ceiling = some u ∧ cs = [⟨.atLeast, v⟩, ⟨.less, u⟩] := by
  cases ceiling with
  | none => simp [window]
  | some u => simp [window, eq_comm]

/-- A window without a ceiling is an overflow, and no other window is. -/
theorem window_eq_error_iff {operator : Operator} {v : Version}
    {ceiling : Option Version} {e : Error} :
    window operator v ceiling = .error e ↔
      ceiling = none ∧ e = .boundOverflow (operator.token ++ v.text) := by
  cases ceiling with
  | none => simp [window, eq_comm]
  | some u => simp [window]

/-- What has comparators: a plain clause, one against its version, and a
tilde or caret clause whose number can be raised, the pair of its version
and its ceiling. -/
theorem comparators_eq_ok_iff {c : Clause} {cs : List Comparator} :
    c.comparators = .ok cs ↔
      (∃ relation, c.operator = .plain relation ∧
        cs = [⟨relation, c.version⟩]) ∨
      ∃ p u, c.operator.place? c.version = some p ∧
        Version.Raises p c.version u ∧
        cs = [⟨.atLeast, c.version⟩, ⟨.less, u⟩] := by
  obtain ⟨operator, v⟩ := c
  cases operator with
  | plain relation => simp [comparators, Operator.place?, eq_comm]
  | caret =>
    simp [comparators, Operator.place?, window_eq_ok_iff,
      Version.caretCeiling?_eq, Version.raise?_eq_some_iff]
  | tilde =>
    simp [comparators, Operator.place?, window_eq_ok_iff,
      Version.tildeCeiling?_eq, Version.raise?_eq_some_iff]

/-- What has none: a tilde or caret clause whose number is the greatest
one. -/
theorem comparators_eq_error_iff {c : Clause} {e : Error} :
    c.comparators = .error e ↔
      ∃ p, c.operator.place? c.version = some p ∧
        (c.version.number p).toNat = 2 ^ 64 - 1 ∧
        e = .boundOverflow (c.operator.token ++ c.version.text) := by
  obtain ⟨operator, v⟩ := c
  cases operator with
  | plain relation => simp [comparators, Operator.place?]
  | caret =>
    simp [comparators, Operator.place?, window_eq_error_iff,
      Version.caretCeiling?_eq, Version.raise?_eq_none_iff]
  | tilde =>
    simp [comparators, Operator.place?, window_eq_error_iff,
      Version.tildeCeiling?_eq, Version.raise?_eq_none_iff]

end Clause

-- ====================================================== lists of clauses

namespace Range

/-- The comparators of a single clause text. -/
def readClause (t : String) : Except Error (List Comparator) := do
  let clause ← Clause.parse t
  clause.comparators

theorem readClause_eq_ok_iff {t : String} {cs : List Comparator} :
    readClause t = .ok cs ↔
      ∃ clause, Clause.parse t = .ok clause ∧ clause.comparators = .ok cs := by
  exact Error.bind_eq_ok_iff

/-- One step through a list of clause texts. -/
theorem expandAll_cons (t : String) (ts : List String) :
    expandAll (t :: ts) = do
      let own ← readClause t
      let others ← expandAll ts
      return own ++ others := by
  rw [expandAll, readClause]
  cases Clause.parse t with
  | error e => rfl
  | ok clause => rfl

/-- The comparators of a list are those of its first clause followed by
those of the others. -/
theorem expandAll_cons_eq_ok_iff {text : String} {texts : List String}
    {cs : List Comparator} :
    expandAll (text :: texts) = .ok cs ↔
      ∃ clause own others, Clause.parse text = .ok clause ∧
        clause.comparators = .ok own ∧ expandAll texts = .ok others ∧
        cs = own ++ others := by
  rw [expandAll_cons, Error.map₂_eq_ok_iff]
  constructor
  · intro h
    obtain ⟨own, others, hread, hothers, hcs⟩ := h
    obtain ⟨clause, hclause, hown⟩ := readClause_eq_ok_iff.mp hread
    exact ⟨clause, own, others, hclause, hown, hothers, hcs.symm⟩
  · intro h
    obtain ⟨clause, own, others, hclause, hown, hothers, hcs⟩ := h
    exact ⟨own, others, readClause_eq_ok_iff.mpr ⟨clause, hclause, hown⟩,
      hothers, hcs.symm⟩

/-- A range is made of the comparators of its segments. -/
theorem parse_eq_map (text : String) :
    parse text = (expandAll (segments text)).map .mk := by
  rw [parse]
  cases expandAll (segments text) with
  | error e => rfl
  | ok cs => rfl

/-- A range that is read has the comparators of its segments. -/
theorem parse_eq_ok_iff {text : String} {r : Range} :
    parse text = .ok r ↔ expandAll (segments text) = .ok r.comparators := by
  rw [parse_eq_map]
  obtain ⟨comparators⟩ := r
  cases expandAll (segments text) with
  | error e => simp [Except.map]
  | ok cs => simp [Except.map]

/-- A range that is not read fails as its segments do. -/
theorem parse_eq_error_iff {text : String} {e : Error} :
    parse text = .error e ↔ expandAll (segments text) = .error e := by
  rw [parse_eq_map]
  cases expandAll (segments text) with
  | error e' => simp [Except.map]
  | ok cs => simp [Except.map]

end Range

end Versioning
