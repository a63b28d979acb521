/-
The grammar of clause texts, and that reading follows it.

A clause text is

    blanks [operator] blanks version blanks

where no operator means equality. `Phrase` is this line, which leaves room
for doubt: blanks may belong to any of the runs, and the token of one
operator begins with that of another. What settles it is the character
behind the operator, a digit or a blank and never the rest of a longer
token (`strip_append`). So a text is read as a clause exactly when it is a
phrase for that clause (`parse_eq_ok_iff_phrase`).
-/
import Versioning.Proofs.Expansion
import Versioning.Proofs.Grammar

namespace Versioning

open Text

-- ============================================================ versions

namespace Version

/-- A version begins with a digit. -/
theorem exists_digit_cons_written (v : Version) :
    ∃ d cs, v.written.toList = d :: cs ∧ d.isDigit = true := by
  obtain ⟨n, numbers, hnumbers⟩ :=
    List.exists_cons_of_ne_nil (writtenNumbers_ne_nil v)
  have hne : n.text.toList ≠ [] := by
    rw [Component.toList_text]
    exact toDigits_ne_nil _
  obtain ⟨d, ds, hd⟩ := List.exists_cons_of_ne_nil hne
  have hdigit : d.isDigit = true :=
    Component.isDigit_of_mem_text (hd ▸ List.mem_cons_self)
  obtain ⟨rest, hrest⟩ : ∃ rest,
      (dotted v.writtenNumbers).toList = d :: ds ++ rest := by
    rw [toList_dotted, hnumbers, ← hd, List.map_cons]
    cases numbers with
    | nil => exact ⟨[], by simp⟩
    | cons m numbers =>
      rw [List.map_cons, List.intercalate_cons_cons, List.append_assoc]
      exact ⟨_, rfl⟩
  rw [written, String.toList_append, hrest]
  exact ⟨d, _, rfl, hdigit⟩

theorem written_ne_nil (v : Version) : v.written.toList ≠ [] := by
  obtain ⟨d, cs, h, -⟩ := exists_digit_cons_written v
  rw [h]
  exact List.cons_ne_nil d cs

theorem WellFormed.trim_written {v : Version} (h : v.WellFormed) :
    trim v.written.toList = v.written.toList :=
  trim_of_no_blank fun _ hc => h.isBlank_eq_false hc

/-- A version is read from its written form. -/
theorem WellFormed.parse_written {v : Version} (h : v.WellFormed) :
    parse v.written = .ok v :=
  parse_eq_ok_iff.mpr ⟨h, h.trim_written.symm⟩

end Version

-- =========================================================== operators

namespace Operator

/-- What may stand for an operator: its token, or nothing for
equality. -/
inductive Spells : List Char → Operator → Prop where
  | token (operator : Operator) : Spells operator.token.toList operator
  | absent : Spells [] (plain .equal)

/-- The characters that tokens consist of. -/
def isMark (c : Char) : Bool :=
  c == '>' || c == '<' || c == '=' || c == '^' || c == '~'

theorem Spells.isMark_of_mem {mark : List Char} {o : Operator}
    (h : Spells mark o) {c : Char} (hc : c ∈ mark) : isMark c = true := by
  cases h with
  | absent => cases hc
  | token =>
    rcases o with (_ | _ | _ | _ | _) | _ | _ <;>
      simp [Operator.token, Relation.token] at hc <;>
      rcases hc with rfl | rfl <;> rfl

theorem exists_cons_token (o : Operator) :
    ∃ c cs, o.token.toList = c :: cs ∧ isMark c = true := by
  rcases o with (_ | _ | _ | _ | _) | _ | _ <;> exact ⟨_, _, rfl, rfl⟩

theorem isMark_eq_false_of_isDigit {c : Char} (h : c.isDigit = true) :
    isMark c = false := by
  simp only [isMark, Bool.or_eq_false_iff, beq_eq_false_iff_ne]
  refine ⟨⟨⟨⟨?_, ?_⟩, ?_⟩, ?_⟩, ?_⟩ <;> rintro rfl <;> revert h <;> decide

theorem isMark_eq_false_of_isBlank {c : Char} (h : isBlank c = true) :
    isMark c = false := by
  simp only [isMark, Bool.or_eq_false_iff, beq_eq_false_iff_ne]
  refine ⟨⟨⟨⟨?_, ?_⟩, ?_⟩, ?_⟩, ?_⟩ <;> rintro rfl <;> revert h <;> decide

theorem isBlank_eq_false_of_isMark {c : Char} (h : isMark c = true) :
    isBlank c = false := by
  cases hb : isBlank c with
  | false => rfl
  | true => exact h.symm.trans (isMark_eq_false_of_isBlank hb)

/-- An operator is stripped off whole if no mark follows it. -/
theorem strip_append {mark : List Char} {o : Operator}
    (h : Spells mark o) {c : Char} (hc : isMark c = false)
    (cs : List Char) : strip (mark ++ c :: cs) = (o, c :: cs) := by
  simp only [isMark, Bool.or_eq_false_iff, beq_eq_false_iff_ne] at hc
  obtain ⟨⟨⟨⟨hgt, hlt⟩, heq⟩, hcaret⟩, htilde⟩ := hc
  cases h with
  | token =>
    rcases o with (_ | _ | _ | _ | _) | _ | _ <;>
      simp [token, Relation.token, strip, heq]
  | absent => simp [strip, hgt, hlt, heq, hcaret, htilde]

/-- What is stripped off stands for the operator. -/
theorem exists_spells_of_strip {cs rest : List Char} {o : Operator}
    (h : strip cs = (o, rest)) :
    ∃ mark, Spells mark o ∧ cs = mark ++ rest := by
  unfold strip at h
  split at h <;> cases h
  · exact ⟨_, .token (plain .atLeast), rfl⟩
  · exact ⟨_, .token (plain .atMost), rfl⟩
  · exact ⟨_, .token (plain .greater), rfl⟩
  · exact ⟨_, .token (plain .less), rfl⟩
  · exact ⟨_, .token caret, rfl⟩
  · exact ⟨_, .token tilde, rfl⟩
  · exact ⟨_, .token (plain .equal), rfl⟩
  · exact ⟨_, .absent, rfl⟩

end Operator

-- ============================================================= clauses

namespace Clause

open Operator (Spells)

/-- The texts of a clause: blanks, what stands for its operator, blanks, a
text that is read as its version and has no blanks around it, blanks. -/
inductive Phrase : List Char → Clause → Prop where
  | intro {lead mark gap trail : List Char} {body : String} {c : Clause}
      (hlead : Blanks lead) (hmark : Spells mark c.operator)
      (hgap : Blanks gap) (hbody : trim body.toList = body.toList)
      (hversion : Version.parse body = .ok c.version)
      (htrail : Blanks trail) :
      Phrase (lead ++ mark ++ gap ++ body.toList ++ trail) c

/-- The version of a phrase is spelled in its written form. -/
theorem phrase_iff {cs : List Char} {c : Clause} :
    Phrase cs c ↔ c.version.WellFormed ∧
      ∃ lead mark gap trail, Blanks lead ∧ Spells mark c.operator ∧
        Blanks gap ∧ Blanks trail ∧
        cs = lead ++ mark ++ gap ++ c.version.written.toList ++ trail := by
  constructor
  · intro h
    cases h with
    | intro hlead hmark hgap hbody hversion htrail =>
      obtain ⟨hwf, hwritten⟩ := Version.parse_eq_ok_iff.mp hversion
      refine ⟨hwf, _, _, _, _, hlead, hmark, hgap, htrail, ?_⟩
      rw [hwritten, hbody]
  · intro h
    obtain ⟨hwf, lead, mark, gap, trail, hlead, hmark, hgap, htrail, rfl⟩ := h
    exact .intro hlead hmark hgap hwf.trim_written hwf.parse_written htrail

/-- Commas are in no part of a phrase. -/
theorem Phrase.comma_not_mem {cs : List Char} {c : Clause}
    (h : Phrase cs c) : ',' ∉ cs := by
  obtain ⟨hwf, lead, mark, gap, trail, hlead, hmark, hgap, htrail, rfl⟩ :=
    phrase_iff.mp h
  have blank : ∀ {a : List Char}, Blanks a → ',' ∉ a := fun ha hmem => by
    have := ha ',' hmem
    revert this
    decide
  have token : ',' ∉ mark := fun hmem => by
    have := hmark.isMark_of_mem hmem
    revert this
    decide
  have version : ',' ∉ c.version.written.toList := fun hmem => by
    have := hwf.mem_written hmem
    revert this
    decide
  simp only [List.mem_append, not_or]
  exact ⟨⟨⟨⟨blank hlead, token⟩, blank hgap⟩, version⟩, blank htrail⟩

/-- Blanks around the version may be counted to either side. -/
theorem phrase_of_version_parse_eq_ok
    {lead mark gap trail : List Char} {body : String} {c : Clause}
    (hlead : Blanks lead) (hmark : Spells mark c.operator) (hgap : Blanks gap)
    (hversion : Version.parse body = .ok c.version) (htrail : Blanks trail) :
    Phrase (lead ++ mark ++ gap ++ body.toList ++ trail) c := by
  obtain ⟨hwf, hwritten⟩ := Version.parse_eq_ok_iff.mp hversion
  obtain ⟨a, b, ha, hb, hbody⟩ := exists_blanks_trim body.toList
  refine phrase_iff.mpr ⟨hwf, lead, mark, gap ++ a, b ++ trail, hlead, hmark,
    hgap.append ha, hb.append htrail, ?_⟩
  rw [hwritten]
  nth_rewrite 1 [hbody]
  simp only [List.append_assoc]

/-- Behind an operator stands a digit or a blank. -/
theorem exists_cons_gap {gap : List Char} (hgap : Blanks gap) (v : Version) :
    ∃ c cs, gap ++ v.written.toList = c :: cs ∧
      Operator.isMark c = false := by
  cases gap with
  | nil =>
    obtain ⟨d, cs, h, hd⟩ := v.exists_digit_cons_written
    exact ⟨d, cs, h, Operator.isMark_eq_false_of_isDigit hd⟩
  | cons b gap =>
    have hb : isBlank b = true := hgap b List.mem_cons_self
    exact ⟨b, _, rfl, Operator.isMark_eq_false_of_isBlank hb⟩

/-- Taking the outer blanks off a phrase leaves the operator in front, or
the version where there is no operator. -/
theorem exists_gap_trim {mark gap : List Char} {o : Operator} {v : Version}
    (hmark : Spells mark o) (hgap : Blanks gap) (hv : v.WellFormed) :
    ∃ gap', Blanks gap' ∧ trim (mark ++ gap ++ v.written.toList) =
      mark ++ gap' ++ v.written.toList := by
  cases hmark with
  | token =>
    refine ⟨gap, hgap, ?_⟩
    obtain ⟨c, cs, htoken, hc⟩ := o.exists_cons_token
    have hblank : isBlank c = false :=
      Operator.isBlank_eq_false_of_isMark hc
    rw [trim, htoken, List.cons_append, List.cons_append,
      trimStart_cons_of_no_blank hblank, ← List.cons_append,
      ← List.cons_append]
    exact trimEnd_append_of_no_blank v.written_ne_nil
      (fun _ h => hv.isBlank_eq_false h) _
  | absent =>
    refine ⟨[], blanks_nil, ?_⟩
    have h := trim_append_blanks hgap blanks_nil v.written.toList
    rw [List.append_nil, hv.trim_written] at h
    exact h

theorem Phrase.parse_eq_ok {text : String} {c : Clause}
    (h : Phrase text.toList c) : parse text = .ok c := by
  obtain ⟨hwf, lead, mark, gap, trail, hlead, hmark, hgap, htrail, htext⟩ :=
    phrase_iff.mp h
  obtain ⟨gap', hgap', htrim⟩ := exists_gap_trim hmark hgap hwf
  have hbody : trim text.toList =
      mark ++ (gap' ++ c.version.written.toList) := by
    rw [htext, List.append_assoc lead, List.append_assoc lead,
      trim_append_blanks hlead htrail, htrim, List.append_assoc]
  -- no mark follows the operator, so exactly its token is stripped
  obtain ⟨d, ds, hcons, hd⟩ := exists_cons_gap hgap' c.version
  rw [parse_eq_ok_iff, hbody, ofChars?_eq_some_iff]
  refine ⟨gap' ++ c.version.written.toList, ?_, ?_⟩
  · rw [hcons]
    exact Operator.strip_append hmark hd ds
  · obtain ⟨e, es, hwritten, he⟩ := c.version.exists_digit_cons_written
    have hblank : isBlank e = false :=
      hwf.isBlank_eq_false (hwritten ▸ List.mem_cons_self)
    rw [trimStart_append_blanks hgap', hwritten,
      trimStart_cons_of_no_blank hblank, ← hwritten]
    exact Version.ofChars?_eq_some_iff.mpr ⟨hwf, rfl⟩

theorem phrase_of_parse_eq_ok {text : String} {c : Clause}
    (h : parse text = .ok c) : Phrase text.toList c := by
  obtain ⟨rest, hstrip, hversion⟩ :=
    ofChars?_eq_some_iff.mp (parse_eq_ok_iff.mp h)
  obtain ⟨hwf, hwritten⟩ := Version.ofChars?_eq_some_iff.mp hversion
  obtain ⟨mark, hmark, hmarked⟩ := Operator.exists_spells_of_strip hstrip
  obtain ⟨lead, trail, hlead, htrail, htext⟩ := exists_blanks_trim text.toList
  obtain ⟨gap, hgap, hrest⟩ := exists_blanks_trimStart rest
  refine phrase_iff.mpr ⟨hwf, lead, mark, gap, trail, hlead, hmark, hgap,
    htrail, ?_⟩
  calc text.toList = lead ++ trim text.toList ++ trail := htext
    _ = lead ++ (mark ++ rest) ++ trail := by rw [hmarked]
    _ = lead ++ (mark ++ (gap ++ trimStart rest)) ++ trail := by rw [← hrest]
    _ = lead ++ mark ++ gap ++ c.version.written.toList ++ trail := by
      rw [hwritten]
      simp only [List.append_assoc]

/-- Reading follows the grammar. -/
theorem parse_eq_ok_iff_phrase {text : String} {c : Clause} :
    parse text = .ok c ↔ Phrase text.toList c :=
  ⟨phrase_of_parse_eq_ok, Phrase.parse_eq_ok⟩

/-- Reading fails in one way only. -/
theorem parse_eq_error_of_forall_ne {text : String}
    (h : ∀ c, parse text ≠ .ok c) :
    parse text =
      .error (.malformedRange (String.ofList (trim text.toList))) := by
  cases hc : ofChars? (trim text.toList) with
  | some c => exact absurd (parse_eq_ok_iff.mpr hc) (h c)
  | none => simp [parse, hc]

/-- What is no phrase is malformed, and nothing else goes wrong. -/
theorem parse_eq_error_iff {text : String} {e : Error} :
    parse text = .error e ↔ (¬∃ c, Phrase text.toList c) ∧
      e = .malformedRange (String.ofList (trim text.toList)) := by
  constructor
  · intro he
    have hne : ∀ c, parse text ≠ .ok c := fun c hc => by
      rw [hc] at he
      cases he
    refine ⟨fun h => ?_, ?_⟩
    · obtain ⟨c, hc⟩ := h
      exact hne c hc.parse_eq_ok
    · exact Except.error.inj (he.symm.trans (parse_eq_error_of_forall_ne hne))
  · intro h
    obtain ⟨hnone, rfl⟩ := h
    exact parse_eq_error_of_forall_ne fun c hc =>
      hnone ⟨c, phrase_of_parse_eq_ok hc⟩

end Clause

end Versioning
