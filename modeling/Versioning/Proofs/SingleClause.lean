/-
What a range of a single clause answers.

`Asks` says which texts are one clause, for an operator and the text of a
version; the range is read as what the clause expands to
(`parse_eq_map_of_phrase`). From there on nothing is left of the text. A
plain clause is one comparison of two versions (`satisfies_plain`), a window
answers about its own version by the number it raises (`satisfies_window`),
and a comma asks both of its sides (`satisfies_comma`). So the laws of
comparisons are laws of range texts.
-/
import Versioning.Proofs.Filtering
import Versioning.Proofs.Phrase
import Versioning.Proofs.Segments
import Versioning.Proofs.Window

namespace Versioning

open Text (Blanks blanks_nil)
open Operator (Spells)

-- ============================================================== tokens

/-- A token is looked up as the operator it spells. -/
theorem Operator.parse_eq_ok_iff_spells {token : String} {o : Operator} :
    parse token = .ok o ↔ Spells token.toList o := by
  rw [parse_eq_ok_iff]
  constructor
  · intro h
    rcases h with rfl | ⟨rfl, rfl⟩
    · exact .token o
    · exact .absent
  · intro h
    generalize hcs : token.toList = cs at h
    cases h with
    | token => exact .inl (String.toList_inj.mp hcs)
    | absent => exact .inr ⟨String.toList_eq_nil_iff.mp hcs, rfl⟩

/-- The token of a plain operator is looked up as its relation. -/
theorem Relation.parse_eq_ok_iff {token : String} {relation : Relation} :
    parse token = .ok relation ↔ Spells token.toList (.plain relation) := by
  rw [parse, Error.bind_eq_ok_iff, ← Operator.parse_eq_ok_iff_spells]
  constructor
  · intro h
    obtain ⟨o, ho, hrelation⟩ := h
    cases o with
    | plain relation' =>
      obtain rfl := Except.ok.inj hrelation
      exact ho
    | caret => cases hrelation
    | tilde => cases hrelation
  · intro h
    exact ⟨.plain relation, h, rfl⟩

-- =========================================================== relations

namespace Relation

/-- A version stands to itself as to what is the same. -/
theorem holds_self (relation : Relation) (v : Version) :
    relation.holds v v = relation.accepts .eq := by
  rw [holds, Version.precedence_eq_iff.mpr rfl]

/-- To be the same is to be neither below nor above. -/
theorem holds_equal_eq (v w : Version) :
    equal.holds v w = (atLeast.holds v w && atMost.holds v w) := by
  apply Bool.eq_iff_iff.mpr
  rw [Bool.and_eq_true, holds_equal_iff, holds_atLeast_iff, holds_atMost_iff]
  exact Version.beq_iff_le_and_le

end Relation

-- ============================================================ the text

/-- A phrase has a version at least. -/
theorem Clause.Phrase.ne_nil {cs : List Char} {c : Clause}
    (h : Phrase cs c) : cs ≠ [] := by
  obtain ⟨-, lead, mark, gap, trail, -, -, -, -, rfl⟩ := phrase_iff.mp h
  apply List.append_ne_nil_of_left_ne_nil
  apply List.append_ne_nil_of_right_ne_nil
  exact c.version.written_ne_nil

namespace Range

/-- A phrase is a range by itself. -/
theorem parse_eq_map_of_phrase {t : String} {c : Clause}
    (h : Clause.Phrase t.toList c) :
    parse t = c.comparators.map .mk := by
  have hne : t ≠ "" := fun hempty => h.ne_nil (by rw [hempty]; rfl)
  rw [parse_eq_of_comma_not_mem hne h.comma_not_mem, h.parse_eq_ok]
  show (do
    let comparators ← c.comparators
    return Range.mk comparators) = _
  cases c.comparators with
  | error e => rfl
  | ok cs => rfl

/-- The range texts that ask what `o` asks, relative to the version that `w`
is read as: blanks, what stands for the operator, blanks, and `w`. -/
inductive Asks (o : Operator) (w : String) : String → Prop where
  | intro {lead token gap : String} (hlead : Blanks lead.toList)
      (htoken : Spells token.toList o) (hgap : Blanks gap.toList) :
      Asks o w (lead ++ token ++ gap ++ w)

/-- The token right in front of the version. -/
theorem Asks.token_append (o : Operator) (w : String) :
    Asks o w (o.token ++ w) := by
  have h : Asks o w ("" ++ o.token ++ "" ++ w) :=
    .intro blanks_nil (.token o) blanks_nil
  rwa [String.empty_append, String.append_empty] at h

/-- The version alone. -/
theorem Asks.self (w : String) : Asks (.plain .equal) w w := by
  have h : Asks (.plain .equal) w ("" ++ "" ++ "" ++ w) :=
    .intro blanks_nil .absent blanks_nil
  rwa [String.empty_append, String.empty_append, String.empty_append] at h

variable {o : Operator} {w range : String} {u : Version}

theorem Asks.phrase (h : Asks o w range) (hw : Version.parse w = .ok u) :
    Clause.Phrase range.toList ⟨o, u⟩ := by
  cases h with
  | intro hlead htoken hgap =>
    have hphrase := Clause.phrase_of_version_parse_eq_ok (c := ⟨o, u⟩)
      hlead htoken hgap hw blanks_nil
    simpa only [String.toList_append, List.append_nil] using hphrase

theorem Asks.parse_eq_map (h : Asks o w range)
    (hw : Version.parse w = .ok u) :
    parse range = (⟨o, u⟩ : Clause).comparators.map .mk :=
  parse_eq_map_of_phrase (h.phrase hw)

end Range

-- ========================================================== the answer

namespace Selection

open Range (Asks)

variable {s w range : String} {v u : Version}

/-- A range of one plain clause is answered by one comparison. -/
theorem satisfies_plain {relation : Relation} (hs : Version.parse s = .ok v)
    (hw : Version.parse w = .ok u) (h : Asks (.plain relation) w range) :
    satisfies s range = .ok (relation.holds v u) := by
  rw [satisfies_of_parse_eq_ok hs, h.parse_eq_map hw]
  show Except.ok (relation.holds v u && true) = _
  rw [Bool.and_true]

/-- A range of one clause, plain or not, accepts what the clause admits. -/
theorem satisfies_iff_admits {o : Operator} (hs : Version.parse s = .ok v)
    (hw : Version.parse w = .ok u) (h : Asks o w range) :
    satisfies s range = .ok true ↔ (⟨o, u⟩ : Clause).Admits v := by
  rw [satisfies_of_parse_eq_ok hs, h.parse_eq_map hw, Clause.Admits]
  cases (⟨o, u⟩ : Clause).comparators with
  | error e => simp [Except.map]
  | ok cs => simp [Except.map, Range.accepts]

/-- A comma asks both of its sides. -/
theorem satisfies_comma {a b : String} {p q : Bool}
    (ha : satisfies s a = .ok p) (hb : satisfies s b = .ok q) :
    satisfies s (a ++ "," ++ b) = .ok (p && q) := by
  obtain ⟨v, ra, hv, hra, rfl⟩ := satisfies_eq_ok_iff.mp ha
  obtain ⟨v', rb, hv', hrb, rfl⟩ := satisfies_eq_ok_iff.mp hb
  obtain rfl : v = v' := Except.ok.inj (hv.symm.trans hv')
  apply satisfies_eq_ok_iff.mpr
  refine ⟨v, ⟨ra.comparators ++ rb.comparators⟩, hv, ?_, ?_⟩
  · rw [Range.parse_append_comma, hra, hrb]
  · exact List.all_append

/-- As many ranges accept `s` as answer that they do. -/
theorem countP_satisfies {ranges : List String} {answers : List Bool}
    (h : List.Forall₂ (fun r b => satisfies s r = .ok b) ranges answers) :
    ranges.countP (fun r => satisfies s r = .ok true) =
      answers.count true := by
  induction h with
  | nil => rfl
  | @cons r b _ _ hanswer _ ih =>
    have hyes : satisfies s r = .ok true ↔ b = true := by
      rw [hanswer, Except.ok.injEq]
    rw [List.countP_cons, List.count_cons, ih]
    simp only [decide_eq_true_eq, beq_iff_eq, hyes]

/-- A window accepts its own version, unless there is no such window. -/
theorem satisfies_window {o : Operator} {p : Place}
    (hs : Version.parse s = .ok v) (hp : o.place? v = some p)
    (h : Asks o s range) :
    satisfies s range =
      if (v.number p).toNat = 2 ^ 64 - 1 then
        .error (.boundOverflow (o.token ++ v.text))
      else .ok true := by
  by_cases hmax : (v.number p).toNat = 2 ^ 64 - 1
  · rw [if_pos hmax, satisfies_of_parse_eq_ok hs, h.parse_eq_map hs,
      (Clause.overflow_iff hp).mpr hmax]
    rfl
  · obtain ⟨u, hraises, hwindow⟩ := Clause.exists_window hp hmax
    rw [if_neg hmax, satisfies_iff_admits hs hs h,
      Clause.admits_iff_of_comparators_eq hwindow]
    exact ⟨le_rfl, hraises.lt⟩

/-- A range of one plain clause asks for one comparison, and its text has no
other influence. The token of the operator is looked up as the relation that
it spells, and whatever blanks stand before and behind it, the answer about
`s` is whether the version of `s` stands in that relation to the version of
`w`. So of the three ranges that ask for less, the same and greater, exactly
one accepts `s`; those that ask for at least and less give opposite answers;
the one that asks for the same gives the answer of at least and at most with
a comma between them. And `s` satisfies the ranges that ask for the same, at
least and at most relative to `s` itself, as well as its own tilde and caret,
which fail to be read exactly where the number they raise is the greatest
one. -/
theorem single_clause_compares (hs : Version.parse s = .ok v)
    (hw : Version.parse w = .ok u) :
    (∀ (token : String) (relation : Relation),
      Relation.parse token = .ok relation ↔
        Spells token.toList (.plain relation)) ∧
    (∀ {relation : Relation} {range : String},
      Asks (.plain relation) w range →
      satisfies s range = .ok (relation.holds v u)) ∧
    (∀ {below same above : String}, Asks (.plain .less) w below →
      Asks (.plain .equal) w same → Asks (.plain .greater) w above →
      [below, same, above].countP (fun r => satisfies s r = .ok true) = 1) ∧
    (∀ {low below : String}, Asks (.plain .atLeast) w low →
      Asks (.plain .less) w below →
      ∃ answer, satisfies s low = .ok answer ∧
        satisfies s below = .ok !answer) ∧
    (∀ {same low high : String}, Asks (.plain .equal) w same →
      Asks (.plain .atLeast) w low → Asks (.plain .atMost) w high →
      satisfies s same = satisfies s (low ++ "," ++ high)) ∧
    (∀ relation ∈ [Relation.equal, .atLeast, .atMost], ∀ {range : String},
      Asks (.plain relation) s range → satisfies s range = .ok true) ∧
    ∀ {o : Operator} {p : Place} {range : String}, o.place? v = some p →
      Asks o s range →
      satisfies s range =
        if (v.number p).toNat = 2 ^ 64 - 1 then
          .error (.boundOverflow (o.token ++ v.text))
        else .ok true := by
  refine ⟨fun _ _ => Relation.parse_eq_ok_iff, satisfies_plain hs hw, ?_, ?_,
    ?_, ?_, satisfies_window hs⟩
  · intro below same above hbelow hsame habove
    have hanswers : List.Forall₂ (fun r b => satisfies s r = .ok b)
        [below, same, above]
        [Version.isOlder v u, Version.isSame v u, Version.isNewer v u] :=
      .cons (satisfies_plain hs hw hbelow) <|
        .cons (satisfies_plain hs hw hsame) <|
        .cons (satisfies_plain hs hw habove) .nil
    rw [countP_satisfies hanswers]
    exact Version.count_isOlder_isSame_isNewer v u
  · intro low below hlow hbelow
    refine ⟨Version.isAtLeast v u, satisfies_plain hs hw hlow, ?_⟩
    rw [Version.isAtLeast_eq_not_isOlder, Bool.not_not]
    exact satisfies_plain hs hw hbelow
  · intro same low high hsame hlow hhigh
    rw [satisfies_plain hs hw hsame, Relation.holds_equal_eq]
    exact (satisfies_comma (satisfies_plain hs hw hlow)
      (satisfies_plain hs hw hhigh)).symm
  · intro relation hrelation range h
    rw [satisfies_plain hs hs h, Relation.holds_self]
    simp only [List.mem_cons, List.not_mem_nil, or_false] at hrelation
    rcases hrelation with rfl | rfl | rfl <;> rfl

/-- Blanks on all sides, a prerelease with build metadata and without a patch
number, and the two windows of the greatest major number. -/
theorem single_clause_compares_blanks :
    satisfies "1.2.0\n" ("\t" ++ ">=" ++ "\n" ++ " 1.2-rc+b ") = .ok true ∧
    ["<" ++ " 1.2-rc+b ", " 1.2-rc+b ", ">" ++ " 1.2-rc+b "].countP
      (fun r => satisfies "1.2.0\n" r = .ok true) = 1 ∧
    satisfies "1.2.0\n" " 1.2-rc+b " = satisfies "1.2.0\n"
      (">=" ++ " 1.2-rc+b " ++ "," ++ ("<=" ++ " 1.2-rc+b ")) ∧
    satisfies "18446744073709551615.1" ("~" ++ "18446744073709551615.1") =
      .ok true ∧
    satisfies "18446744073709551615.1" ("^" ++ "18446744073709551615.1") =
      .error (.boundOverflow "^18446744073709551615.1.0") := by
  have hs : Version.parse "1.2.0\n" = .ok (Version.release 1 2 0) := by rfl
  have hw : Version.parse " 1.2-rc+b " = .ok { Version.release 1 2 0 with
      prerelease := [⟨"rc"⟩], build := [⟨"b"⟩], omission := .patch } := by rfl
  have hmax : Version.parse "18446744073709551615.1" = .ok
      { Version.release 18446744073709551615 1 0 with omission := .patch } := by
    rfl
  have hasks : Asks (.plain .atLeast) " 1.2-rc+b "
      ("\t" ++ ">=" ++ "\n" ++ " 1.2-rc+b ") :=
    .intro (by decide) (.token (.plain .atLeast)) (by decide)
  obtain ⟨-, hcompare, hcount, -, hequal, -, -⟩ := single_clause_compares hs hw
  obtain ⟨-, -, -, -, -, -, hwindow⟩ := single_clause_compares hmax hmax
  refine ⟨(hcompare hasks).trans (by rfl), ?_, ?_, ?_, ?_⟩
  · exact hcount (.token_append (.plain .less) _) (.self _)
      (.token_append (.plain .greater) _)
  · exact hequal (.self _) (.token_append (.plain .atLeast) _)
      (.token_append (.plain .atMost) _)
  · exact hwindow rfl (.token_append .tilde _)
  · exact hwindow rfl (.token_append .caret _)

end Selection

end Versioning
