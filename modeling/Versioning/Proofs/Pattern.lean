/-
Reading a clause by its pattern, and that nothing is lost in doing so.

The pattern is: blanks; perhaps the token of an operator and blanks behind
it; at least one character other than a newline, which is the version;
blanks, and the end. A text can match it in many ways, and a matcher takes
the first that works out: more blanks before fewer, an operator before
none, longer tokens before shorter ones, and a short version before a long
one. `first` is that search. Each of its steps is given what has to
follow, so that a choice under which the rest cannot match is taken back.

Reading by the first match is `Clause.parse` (`parse_eq_pattern_parse`). A
match divides the text the way a phrase does, whatever the order of the
search (`exists_of_first_eq_some`), and a phrase is matched at its own
division (`first_phrase`), because behind every earlier choice something is
left over.
-/
import Versioning.Proofs.Phrase

namespace Versioning.Clause

open Text
open Operator (Spells isMark)

-- ========================================================== the search

namespace Pattern

/-- What a match captures: the token of the operator, if there is one, and
the text of the version. -/
structure Match where
  token : Option String
  body : List Char

/-- The operator that was captured; equality where none was. -/
def Match.operator (m : Match) : Except Error Operator :=
  m.token.elim (.ok (.plain .equal)) Operator.parse

variable {α : Type}

/-- Blanks, as many as there are and fewer if it has to be; `next` is what
follows. -/
def blanks (next : List Char → Option α) : List Char → Option α
  | [] => next []
  | c :: cs =>
    if isBlank c then (blanks next cs).or (next (c :: cs))
    else next (c :: cs)

/-- Characters other than a newline, at least one and more if it has to
be; `next` is what follows and is told the characters taken. -/
def shortest (next : List Char → List Char → Option α)
    (taken : List Char) : List Char → Option α
  | [] => none
  | c :: cs =>
    if c = '\n' then none
    else (next (taken ++ [c]) cs).or (shortest next (taken ++ [c]) cs)

/-- The end of the text. -/
def stop (m : Match) : List Char → Option Match
  | [] => some m
  | _ :: _ => none

/-- The version, and blanks up to the end. -/
def version (token : Option String) (cs : List Char) : Option Match :=
  shortest (fun body => blanks (stop { token, body })) [] cs

/-- The operator with blanks behind it, or none, and the version. -/
def operator (cs : List Char) : Option Match :=
  (Operator.tokens.findSome? fun token =>
    (cs.dropPrefix? token.toList).bind (blanks (version (some token)))).or
  (version none cs)

/-- The first match of a whole text. -/
def first (cs : List Char) : Option Match :=
  blanks operator cs

/-- Reads a clause by its first match. The text of the operator is looked
up on its own, and a comma is refused before anything is matched. -/
def parse (text : String) : Except Error Clause :=
  let malformed := Error.malformedRange (String.ofList (trim text.toList))
  if ',' ∈ text.toList then .error malformed
  else
    match first text.toList with
    | none => .error malformed
    | some m => do
      let operator ← m.operator
      let version ← (Version.parse (String.ofList m.body)).mapError
        fun _ => malformed
      return { operator, version }

-- ============================================== a match is a division

theorem exists_of_blanks_eq_some {next : List Char → Option α}
    {cs : List Char} {m : α} (h : blanks next cs = some m) :
    ∃ run rest, Blanks run ∧ cs = run ++ rest ∧ next rest = some m := by
  induction cs with
  | nil => exact ⟨[], [], blanks_nil, rfl, h⟩
  | cons c cs ih =>
    rw [blanks] at h
    split at h
    case isFalse => exact ⟨[], c :: cs, blanks_nil, rfl, h⟩
    case isTrue hc =>
      rcases Option.or_eq_some_iff.mp h with h | ⟨-, h⟩
      · obtain ⟨run, rest, hrun, rfl, hnext⟩ := ih h
        exact ⟨c :: run, rest, List.forall_mem_cons.mpr ⟨hc, hrun⟩, rfl,
          hnext⟩
      · exact ⟨[], c :: cs, blanks_nil, rfl, h⟩

theorem exists_of_shortest_eq_some
    {next : List Char → List Char → Option α} {taken cs : List Char} {m : α}
    (h : shortest next taken cs = some m) :
    ∃ body rest, cs = body ++ rest ∧ next (taken ++ body) rest = some m := by
  induction cs generalizing taken with
  | nil => cases h
  | cons c cs ih =>
    rw [shortest] at h
    split at h
    case isTrue => cases h
    case isFalse =>
      rcases Option.or_eq_some_iff.mp h with h | ⟨-, h⟩
      · exact ⟨[c], cs, rfl, h⟩
      · obtain ⟨body, rest, rfl, hnext⟩ := ih h
        rw [List.append_assoc] at hnext
        exact ⟨c :: body, rest, rfl, hnext⟩

theorem stop_eq_some_iff {m m' : Match} {cs : List Char} :
    stop m cs = some m' ↔ cs = [] ∧ m = m' := by
  cases cs <;> simp [stop]

theorem exists_of_version_eq_some {token : Option String} {cs : List Char}
    {m : Match} (h : version token cs = some m) :
    m.token = token ∧ ∃ trail, Blanks trail ∧ cs = m.body ++ trail := by
  obtain ⟨body, rest, rfl, hrest⟩ := exists_of_shortest_eq_some h
  obtain ⟨trail, left, htrail, rfl, hstop⟩ := exists_of_blanks_eq_some hrest
  obtain ⟨rfl, rfl⟩ := stop_eq_some_iff.mp hstop
  exact ⟨rfl, trail, htrail, by rw [List.append_nil]; rfl⟩

/-- A token that is captured is an operator's; none stands for
equality. -/
theorem exists_of_operator_eq_some {cs : List Char} {m : Match}
    (h : operator cs = some m) :
    ∃ o mark gap trail, m.operator = .ok o ∧
      Spells mark o ∧ Blanks gap ∧ Blanks trail ∧
      cs = mark ++ gap ++ m.body ++ trail := by
  rcases Option.or_eq_some_iff.mp h with hsome | ⟨-, hnone⟩
  · obtain ⟨token, hmem, htoken⟩ := List.exists_of_findSome?_eq_some hsome
    obtain ⟨o, rfl⟩ := Operator.mem_tokens_iff.mp hmem
    obtain ⟨rest, hdrop, hrest⟩ := Option.bind_eq_some_iff.mp htoken
    obtain ⟨mark, hcs, hmark⟩ := List.dropPrefix?_eq_some_iff.mp hdrop
    obtain ⟨gap, behind, hgap, rfl, hbehind⟩ := exists_of_blanks_eq_some hrest
    obtain ⟨hm, trail, htrail, rfl⟩ := exists_of_version_eq_some hbehind
    refine ⟨o, mark, gap, trail, ?_, ?_, hgap, htrail, ?_⟩
    · rw [Match.operator, hm]
      exact Operator.parse_token o
    · rw [eq_of_beq hmark]
      exact .token o
    · rw [hcs]
      simp only [List.append_assoc]
  · obtain ⟨htoken, trail, htrail, rfl⟩ := exists_of_version_eq_some hnone
    refine ⟨.plain .equal, [], [], trail, ?_, .absent, blanks_nil, htrail,
      rfl⟩
    rw [Match.operator, htoken]
    rfl

/-- Whatever is matched first divides the text as a phrase does. -/
theorem exists_of_first_eq_some {cs : List Char} {m : Match}
    (h : first cs = some m) :
    ∃ o lead mark gap trail, m.operator = .ok o ∧
      Blanks lead ∧ Spells mark o ∧ Blanks gap ∧ Blanks trail ∧
      cs = lead ++ mark ++ gap ++ m.body ++ trail := by
  obtain ⟨lead, rest, hlead, rfl, hrest⟩ := exists_of_blanks_eq_some h
  obtain ⟨o, mark, gap, trail, ho, hmark, hgap, htrail, rfl⟩ :=
    exists_of_operator_eq_some hrest
  refine ⟨o, lead, mark, gap, trail, ho, hlead, hmark, hgap, htrail, ?_⟩
  simp only [List.append_assoc]

-- ============================================== a phrase is matched first

/-- If the rest matches behind all blanks, fewer are never tried. -/
theorem blanks_append {next : List Char → Option α} {run rest : List Char}
    {m : α} (hrun : Blanks run) (hrest : ∀ c ∈ rest.head?, isBlank c = false)
    (h : next rest = some m) : blanks next (run ++ rest) = some m := by
  induction run with
  | nil =>
    cases rest with
    | nil => exact h
    | cons c rest =>
      have hc : isBlank c = false := hrest c rfl
      rw [List.nil_append, blanks, if_neg (by simp [hc])]
      exact h
  | cons c run ih =>
    obtain ⟨hc, hrun⟩ := List.forall_mem_cons.mp hrun
    rw [List.cons_append, blanks, if_pos hc, ih hrun]
    rfl

/-- A character that is no blank cannot be passed on the way to the
end. -/
theorem blanks_stop_eq_none {m : Match} {c : Char} {cs : List Char}
    (hc : isBlank c = false) : blanks (stop m) (c :: cs) = none := by
  rw [blanks, if_neg (by simp [hc])]
  rfl

/-- The search for the version goes on as long as characters of it are
left, and ends there. -/
theorem shortest_append {token : Option String}
    {taken body trail : List Char} (hne : body ≠ [])
    (hbody : ∀ c ∈ body, isBlank c = false) (htrail : Blanks trail) :
    shortest (fun body => blanks (stop { token, body })) taken
        (body ++ trail) =
      some { token, body := taken ++ body } := by
  induction body generalizing taken with
  | nil => exact absurd rfl hne
  | cons c body ih =>
    obtain ⟨hc, hbody⟩ := List.forall_mem_cons.mp hbody
    have hnewline : c ≠ '\n' := by
      rintro rfl
      revert hc
      decide
    rw [List.cons_append, shortest, if_neg hnewline]
    cases body with
    | nil =>
      have hstop : blanks (stop { token, body := taken ++ [c] })
          (trail ++ []) = some { token, body := taken ++ [c] } :=
        blanks_append htrail (by simp) rfl
      rw [List.append_nil] at hstop
      rw [List.nil_append, hstop]
      rfl
    | cons d body =>
      have hd : isBlank d = false := hbody d List.mem_cons_self
      have happend : taken ++ c :: d :: body = taken ++ [c] ++ d :: body := by
        rw [List.append_assoc]
        rfl
      rw [List.cons_append, blanks_stop_eq_none hd, Option.none_or,
        ← List.cons_append, happend]
      exact ih (List.cons_ne_nil d body) hbody

theorem version_append {token : Option String} {body trail : List Char}
    (hne : body ≠ []) (hbody : ∀ c ∈ body, isBlank c = false)
    (htrail : Blanks trail) :
    version token (body ++ trail) = some { token, body } :=
  shortest_append hne hbody htrail

/-- A token is found at its own turn: those before it in the search are
longer and do not begin the text. -/
theorem operator_token {o : Operator} {c : Char} {cs : List Char} {m : Match}
    (hc : isMark c = false)
    (h : blanks (version (some o.token)) (c :: cs) = some m) :
    operator (o.token.toList ++ c :: cs) = some m := by
  have heq : ¬c = '=' := by
    rintro rfl
    cases hc
  rw [operator, Option.or_eq_some_iff]
  refine .inl ?_
  rcases o with (_ | _ | _ | _ | _) | _ | _ <;>
    simp only [Operator.token, Relation.token] at h ⊢ <;>
    simp [Operator.tokens, List.findSome?, List.dropPrefix?, heq, h]

/-- No token is found in front of a character that is in none. -/
theorem operator_absent {c : Char} {cs : List Char} (hc : isMark c = false) :
    operator (c :: cs) = version none (c :: cs) := by
  simp only [isMark, Bool.or_eq_false_iff, beq_eq_false_iff_ne] at hc
  obtain ⟨⟨⟨⟨hgt, hlt⟩, heq⟩, hcaret⟩, htilde⟩ := hc
  simp [operator, Operator.tokens, List.findSome?, List.dropPrefix?, hgt,
    hlt, heq, hcaret, htilde]

/-- A phrase is matched at its own division. -/
theorem first_phrase {lead mark gap trail : List Char} {o : Operator}
    {v : Version} (hlead : Blanks lead) (hmark : Spells mark o)
    (hgap : Blanks gap) (hv : v.WellFormed) (htrail : Blanks trail) :
    ∃ m, first (lead ++ mark ++ gap ++ v.written.toList ++ trail) = some m ∧
      m.operator = .ok o ∧ m.body = v.written.toList := by
  have hbody : ∀ c ∈ v.written.toList, isBlank c = false :=
    fun _ hc => hv.isBlank_eq_false hc
  have hversion : ∀ token, version token (v.written.toList ++ trail) =
      some { token, body := v.written.toList } := fun token =>
    version_append v.written_ne_nil hbody htrail
  obtain ⟨d, ds, hwritten, hd⟩ := v.exists_digit_cons_written
  have hhead : ∀ c ∈ (v.written.toList ++ trail).head?,
      isBlank c = false := by
    intro c hc
    rw [hwritten] at hc
    obtain rfl : d = c := Option.some.inj hc
    exact hbody d (hwritten ▸ List.mem_cons_self)
  -- With a token the blanks in front of it and those behind it are runs of
  -- their own. Without one they are a single run, and no token may be found
  -- behind it.
  cases hmark with
  | token =>
    refine ⟨⟨some o.token, v.written.toList⟩, ?_, Operator.parse_token o,
      rfl⟩
    obtain ⟨c, cs, hcons, hc⟩ := exists_cons_gap hgap v
    have hbehind : blanks (version (some o.token)) (c :: (cs ++ trail)) =
        some { token := some o.token, body := v.written.toList } := by
      rw [← List.cons_append, ← hcons, List.append_assoc]
      exact blanks_append hgap hhead (hversion _)
    have hoperator := operator_token hc hbehind
    rw [← List.cons_append, ← hcons] at hoperator
    obtain ⟨e, es, htoken, he⟩ := o.exists_cons_token
    have hmarked : ∀ b ∈ (o.token.toList ++
        (gap ++ v.written.toList ++ trail)).head?, isBlank b = false := by
      intro b hb
      rw [htoken] at hb
      obtain rfl : e = b := Option.some.inj hb
      exact Operator.isBlank_eq_false_of_isMark he
    have hfirst := blanks_append hlead hmarked hoperator
    simpa only [first, List.append_assoc] using hfirst
  | absent =>
    refine ⟨⟨none, v.written.toList⟩, ?_, rfl, rfl⟩
    have hoperator : operator (v.written.toList ++ trail) =
        some { token := none, body := v.written.toList } := by
      rw [← hversion none, hwritten, List.cons_append]
      exact operator_absent (Operator.isMark_eq_false_of_isDigit hd)
    have hfirst := blanks_append (hlead.append hgap) hhead hoperator
    simpa only [first, List.append_assoc, List.nil_append] using hfirst

theorem parse_phrase_eq_ok {text : String} {c : Clause}
    (h : Phrase text.toList c) : parse text = .ok c := by
  have hcomma := h.comma_not_mem
  obtain ⟨hwf, lead, mark, gap, trail, hlead, hmark, hgap, htrail, htext⟩ :=
    phrase_iff.mp h
  obtain ⟨m, hfirst, hoperator, hbody⟩ :=
    first_phrase hlead hmark hgap hwf htrail
  rw [← htext] at hfirst
  simp only [parse, if_neg hcomma, hfirst, hoperator, hbody,
    String.ofList_toList, hwf.parse_written]
  rfl

theorem phrase_of_parse_eq_ok {text : String} {c : Clause}
    (h : parse text = .ok c) : Phrase text.toList c := by
  unfold parse at h
  split at h
  case isTrue => cases h
  case isFalse =>
    split at h
    next => cases h
    next m hm =>
      obtain ⟨o, lead, mark, gap, trail, ho, hlead, hmark, hgap, htrail,
        htext⟩ := exists_of_first_eq_some hm
      rw [ho] at h
      cases hv : Version.parse (String.ofList m.body) with
      | error e => rw [hv] at h; cases h
      | ok v =>
        rw [hv] at h
        obtain rfl : ⟨o, v⟩ = c := Except.ok.inj h
        have hphrase := phrase_of_version_parse_eq_ok (c := ⟨o, v⟩)
          hlead hmark hgap hv htrail
        rwa [String.toList_ofList, ← htext] at hphrase

theorem parse_eq_error_of_forall_ne {text : String}
    (h : ∀ c, parse text ≠ .ok c) :
    parse text =
      .error (.malformedRange (String.ofList (trim text.toList))) := by
  unfold parse at h ⊢
  by_cases hcomma : ',' ∈ text.toList
  · rw [if_pos hcomma]
  rw [if_neg hcomma] at h ⊢
  cases hm : first text.toList with
  | none => rfl
  | some m =>
    obtain ⟨o, -, -, -, -, ho, -⟩ := exists_of_first_eq_some hm
    simp only [hm, ho] at h ⊢
    cases hv : Version.parse (String.ofList m.body) with
    | error e => rfl
    | ok v =>
      rw [hv] at h
      exact absurd rfl (h ⟨o, v⟩)

end Pattern

-- ============================================================ agreement

/-- Reading by the first match of the pattern is reading. -/
theorem parse_eq_pattern_parse (text : String) :
    parse text = Pattern.parse text := by
  by_cases h : ∃ c, Phrase text.toList c
  · obtain ⟨c, hc⟩ := h
    rw [hc.parse_eq_ok, Pattern.parse_phrase_eq_ok hc]
  · rw [parse_eq_error_of_forall_ne, Pattern.parse_eq_error_of_forall_ne]
    · exact fun c hc => h ⟨c, Pattern.phrase_of_parse_eq_ok hc⟩
    · exact fun c hc => h ⟨c, phrase_of_parse_eq_ok hc⟩

/-- Reading accepts exactly the phrases and gives the clause of the phrase,
of which there is one. On any other text it fails, and always in the same
way: the clause is malformed, and it is reported without its outer blanks.
The first match of the pattern leads to the same on every text. -/
theorem parse_phrase (text : String) :
    (∀ c, parse text = .ok c ↔ Phrase text.toList c) ∧
    (∀ c d, Phrase text.toList c → Phrase text.toList d → c = d) ∧
    (∀ e, parse text = .error e ↔
      (¬∃ c, Phrase text.toList c) ∧
        e = .malformedRange (String.ofList (trim text.toList))) ∧
    (∀ s, parse text ≠ .error (.malformedVersion s) ∧
      parse text ≠ .error (.unknownOperator s)) ∧
    parse text = Pattern.parse text := by
  refine ⟨fun c => parse_eq_ok_iff_phrase, fun c d hc hd => ?_,
    fun e => parse_eq_error_iff, fun s => ⟨fun h => ?_, fun h => ?_⟩,
    parse_eq_pattern_parse text⟩
  · exact Except.ok.inj (hc.parse_eq_ok.symm.trans hd.parse_eq_ok)
  · cases (parse_eq_error_iff.mp h).2
  · cases (parse_eq_error_iff.mp h).2

/-- The longer token is read, over a line break too; and a blank does not
come between its characters. -/
theorem parse_phrase_longest_token :
    parse "\t>=\n1.2-rc " = .ok
        { operator := .plain .atLeast
          version := { Version.release 1 2 0 with
            prerelease := [⟨"rc"⟩], omission := .patch } } ∧
      parse " > =1.2" = .error (.malformedRange "> =1.2") := by
  constructor
  · refine ((parse_phrase _).1 _).mpr ?_
    exact @phrase_of_version_parse_eq_ok ['\t'] ['>', '='] ['\n'] [' ']
      "1.2-rc" _ (by decide) (.token (.plain .atLeast)) (by decide) (by rfl)
      (by decide)
  · refine ((parse_phrase " > =1.2").2.2.1 _).mpr ⟨fun h => ?_, by rfl⟩
    obtain ⟨c, hc⟩ := h
    have hok := ((parse_phrase _).1 c).mpr hc
    have hfails : (parse " > =1.2").toBool = false := by rfl
    rw [hok] at hfails
    cases hfails

end Versioning.Clause
