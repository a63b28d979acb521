/-
What is wrong with a range text, and which fault is reported.

A segment may be no clause, or a tilde or a caret clause that overflows.
`Fault` says so in the words of the grammar and of the numbers, with the
error. A list of segments fails with the fault of its first segment if
that has one, and otherwise as the rest does
(`expandAll_cons_eq_error_iff`); `first_fault_decides` follows by
induction.
-/
import Versioning.Proofs.Pattern
import Versioning.Proofs.Segments

namespace Versioning.Range

open Text
open Clause (Phrase)

-- =============================================================== faults

/-- What is wrong with a segment, and the error that says so. -/
inductive Fault (t : String) : Error → Prop where
  /-- It is no clause; it is shown without its outer blanks. -/
  | malformed (h : ¬∃ c, Phrase t.toList c) :
      Fault t (.malformedRange (String.ofList (trim t.toList)))
  /-- It is a clause that raises the greatest number; it is shown with all
  three numbers of its version. -/
  | overflow {c : Clause} {p : Place} (h : Phrase t.toList c)
      (hp : c.operator.place? c.version = some p)
      (hmax : (c.version.number p).toNat = 2 ^ 64 - 1) :
      Fault t (.boundOverflow (c.operator.token ++ c.version.text))

/-- Nothing is wrong with a segment. -/
def Faultless (t : String) : Prop :=
  ∀ e, ¬Fault t e

/-- A segment has no comparators because of its fault. -/
theorem readClause_eq_error_iff {t : String} {e : Error} :
    readClause t = .error e ↔ Fault t e := by
  constructor
  · intro h
    unfold readClause at h
    cases hc : Clause.parse t with
    | error e' =>
      rw [hc] at h
      obtain rfl : e' = e := Except.error.inj h
      obtain ⟨hnone, rfl⟩ := Clause.parse_eq_error_iff.mp hc
      exact .malformed hnone
    | ok c =>
      rw [hc] at h
      obtain ⟨p, hp, hmax, rfl⟩ := Clause.comparators_eq_error_iff.mp h
      exact .overflow (Clause.phrase_of_parse_eq_ok hc) hp hmax
  · intro h
    unfold readClause
    cases h with
    | malformed hnone =>
      rw [Clause.parse_eq_error_iff.mpr ⟨hnone, rfl⟩]
      rfl
    | overflow hphrase hp hmax =>
      rw [hphrase.parse_eq_ok]
      exact Clause.comparators_eq_error_iff.mpr ⟨_, hp, hmax, rfl⟩

theorem faultless_of_readClause_eq_ok {t : String} {cs : List Comparator}
    (h : readClause t = .ok cs) : Faultless t := by
  intro e he
  rw [readClause_eq_error_iff.mpr he] at h
  cases h

-- ================================================== the first one decides

/-- A list fails with the fault of its first segment, or if that has none
as the rest of the list does. -/
theorem expandAll_cons_eq_error_iff {t : String} {ts : List String}
    {e : Error} :
    expandAll (t :: ts) = .error e ↔
      Fault t e ∨ Faultless t ∧ expandAll ts = .error e := by
  rw [expandAll_cons]
  cases hown : readClause t with
  | error e' =>
    have hfault : ¬Faultless t := fun h =>
      h e' (readClause_eq_error_iff.mp hown)
    rw [← readClause_eq_error_iff, hown]
    simp only [hfault, false_and, or_false]
    exact Iff.rfl
  | ok own =>
    have hnone := faultless_of_readClause_eq_ok hown
    cases hrest : expandAll ts with
    | error e' =>
      simp only [hnone, hnone e, true_and, false_or]
      exact Iff.rfl
    | ok others => simp [hnone, hnone e, bind, Except.bind, pure, Except.pure]

/-- A list fails exactly if something is wrong with a segment of it. -/
theorem exists_expandAll_eq_error_iff {ts : List String} :
    (∃ e, expandAll ts = .error e) ↔ ∃ t ∈ ts, ∃ e, Fault t e := by
  induction ts with
  | nil => simp [expandAll]
  | cons t ts ih =>
    simp only [expandAll_cons_eq_error_iff, List.exists_mem_cons_iff, ← ih]
    constructor
    · intro h
      obtain ⟨e, h | ⟨-, h⟩⟩ := h
      · exact .inl ⟨e, h⟩
      · exact .inr ⟨e, h⟩
    · intro h
      by_cases hfault : ∃ e, Fault t e
      · obtain ⟨e, he⟩ := hfault
        exact ⟨e, .inl he⟩
      · obtain ⟨e, he⟩ := h.resolve_left hfault
        exact ⟨e, .inr ⟨fun e' he' => hfault ⟨e', he'⟩, he⟩⟩

/-- The error is that of the first segment with a fault, whatever stands
behind it. -/
theorem expandAll_eq_error_iff {ts : List String} {e : Error} :
    expandAll ts = .error e ↔
      ∃ before t after, ts = before ++ t :: after ∧
        (∀ u ∈ before, Faultless u) ∧ Fault t e := by
  induction ts with
  | nil => simp [expandAll]
  | cons t ts ih =>
    rw [expandAll_cons_eq_error_iff, ih]
    constructor
    · intro h
      rcases h with h | ⟨hnone, before, u, after, rfl, hbefore, hu⟩
      · exact ⟨[], t, ts, rfl, by simp, h⟩
      · exact ⟨t :: before, u, after, rfl,
          List.forall_mem_cons.mpr ⟨hnone, hbefore⟩, hu⟩
    · intro h
      obtain ⟨before, u, after, hts, hbefore, hu⟩ := h
      cases before with
      | nil =>
        obtain ⟨rfl, rfl⟩ := List.cons.inj hts
        exact .inl hu
      | cons b before =>
        obtain ⟨rfl, rfl⟩ := List.cons.inj hts
        obtain ⟨hnone, hbefore⟩ := List.forall_mem_cons.mp hbefore
        exact .inr ⟨hnone, before, u, after, rfl, hbefore, hu⟩

/-- A token that the pattern captures can be looked up. -/
theorem exists_operator_of_captured {cs : List Char} {m : Clause.Pattern.Match}
    {token : String} (hm : Clause.Pattern.first cs = some m)
    (htoken : m.token = some token) :
    ∃ o, Operator.parse token = .ok o := by
  obtain ⟨o, -, -, -, -, ho, -⟩ := Clause.Pattern.exists_of_first_eq_some hm
  rw [Clause.Pattern.Match.operator, htoken] at ho
  exact ⟨o, ho⟩

/-- Reading a range fails fast, and with an error that is fully determined.
It fails if and only if some segment has a fault, and the error is that of
the first such segment: the segment itself without its outer blanks where
it is no clause, and its operator and the canonical text of its version
where it overflows. The errors of a version or of an operator that stands
on its own do not occur, since every token captured in front of a version
is known. -/
theorem first_fault_decides (text : String) :
    ((∃ e, parse text = .error e) ↔
      ∃ ts, Segmented text.toList ts ∧ ∃ t ∈ ts, ∃ e, Fault t e) ∧
    (∀ e, parse text = .error e ↔
      ∃ before t after, Segmented text.toList (before ++ t :: after) ∧
        (∀ u ∈ before, Faultless u) ∧ Fault t e) ∧
    (∀ s, parse text ≠ .error (.malformedVersion s) ∧
      parse text ≠ .error (.unknownOperator s)) ∧
    ∀ t m token, Clause.Pattern.first t = some m → m.token = some token →
      ∃ o, Operator.parse token = .ok o := by
  have herror : ∀ e, parse text = .error e ↔
      ∃ before t after, Segmented text.toList (before ++ t :: after) ∧
        (∀ u ∈ before, Faultless u) ∧ Fault t e := fun e => by
    simp only [parse_eq_error_iff, expandAll_eq_error_iff, segments_eq_iff]
  refine ⟨?_, herror, fun s => ⟨?_, ?_⟩, fun _ _ _ =>
    exists_operator_of_captured⟩
  · simp only [parse_eq_error_iff, exists_expandAll_eq_error_iff,
      ← segments_eq_iff, exists_eq_left']
  · -- no fault is reported with this error, nor with the next
    intro h
    obtain ⟨_, _, _, -, -, hfault⟩ := (herror _).mp h
    cases hfault
  · intro h
    obtain ⟨_, _, _, -, -, hfault⟩ := (herror _).mp h
    cases hfault

/-- The second of three segments overflows, so that the third, which is no
clause, is not reported. -/
theorem first_fault_decides_overflow_first :
    parse "~1,,^0.18446744073709551615, 1.x" =
      .error (.boundOverflow "^0.18446744073709551615.0") ∧
    ∃ o, Operator.parse ">=" = .ok o := by
  constructor
  · refine ((first_fault_decides _).2.1 _).mpr ⟨["~1"],
      "^0.18446744073709551615", [" 1.x"], segments_eq_iff.mp (by rfl), ?_,
      readClause_eq_error_iff.mp (by rfl)⟩
    intro u hu
    obtain rfl : u = "~1" := List.mem_singleton.mp hu
    exact faultless_of_readClause_eq_ok (show readClause "~1" = .ok _ by rfl)
  · exact (first_fault_decides "").2.2.2 [' ', '>', '=', '1']
      ⟨some ">=", ['1']⟩ ">=" (by rfl) rfl

end Versioning.Range
