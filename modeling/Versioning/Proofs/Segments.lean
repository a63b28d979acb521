/-
The segments of a range text, and how a range is read off them.

`Segmented` divides a text into runs of characters other than commas, each
as long as it can be, and commas between and around them. Splitting at
every comma and dropping what is empty finds them (`segments_eq_iff`). The
segments of `a,b` are those of `a` followed by those of `b`, and so are
their comparators (`expandAll_append`, `comma_concatenates`).
-/
import Versioning.Proofs.Expansion

namespace Versioning.Range

-- ========================================================== the segments

/-- A text and its segments in order: the longest runs of characters other
than commas. -/
inductive Segmented : List Char → List String → Prop where
  | nil : Segmented [] []
  | comma {cs : List Char} {ts : List String} (h : Segmented cs ts) :
      Segmented (',' :: cs) ts
  | segment {t : String} {cs : List Char} {ts : List String} (hne : t ≠ "")
      (hcomma : ',' ∉ t.toList) (hend : ∀ c ∈ cs.head?, c = ',')
      (h : Segmented cs ts) : Segmented (t.toList ++ cs) (t :: ts)

theorem segments_empty : segments "" = [] := by
  simp [segments]

/-- The segments on the two sides of a comma are found apart. -/
theorem segments_append_comma (a b : String) :
    segments (a ++ "," ++ b) = segments a ++ segments b := by
  have htext : (a ++ "," ++ b).toList = a.toList ++ ',' :: b.toList := by
    simp
  unfold segments
  rw [htext, List.splitOn_append_cons_self, List.filter_append,
    List.map_append]

theorem segments_eq_singleton {t : String} (hne : t ≠ "")
    (hcomma : ',' ∉ t.toList) : segments t = [t] := by
  unfold segments
  rw [List.splitOn_eq_singleton hcomma]
  simp [hne]

/-- A comma in front makes no difference. -/
theorem segments_comma_append (b : String) :
    segments ("," ++ b) = segments b := by
  have h := segments_append_comma "" b
  rw [segments_empty, String.empty_append, List.nil_append] at h
  exact h

/-- Texts that are segments are the segments of the text they make up. -/
theorem segments_intercalate_comma {ts : List String} (hne : ∀ t ∈ ts, t ≠ "")
    (hcomma : ∀ t ∈ ts, ',' ∉ t.toList) :
    segments (",".intercalate ts) = ts := by
  induction ts with
  | nil => exact segments_empty
  | cons t ts ih =>
    obtain ⟨ht, hts⟩ := List.forall_mem_cons.mp hne
    obtain ⟨hct, hcts⟩ := List.forall_mem_cons.mp hcomma
    have hrest := ih hts hcts
    have hown := segments_eq_singleton ht hct
    cases ts with
    | nil => rw [String.intercalate_singleton, hown]
    | cons u ts =>
      rw [String.intercalate_cons_cons, segments_append_comma, hown, hrest]
      rfl

theorem segments_ofList_comma_cons (cs : List Char) :
    segments (String.ofList (',' :: cs)) = segments (String.ofList cs) := by
  have htext : String.ofList (',' :: cs) = "," ++ String.ofList cs := by
    rw [← String.toList_inj]
    simp
  rw [htext, segments_comma_append]

theorem Segmented.segments_eq {cs : List Char} {ts : List String}
    (h : Segmented cs ts) : segments (String.ofList cs) = ts := by
  induction h with
  | nil => exact segments_empty
  | comma _ ih => rw [segments_ofList_comma_cons, ih]
  | @segment t cs ts hne hcomma hend _ ih =>
    -- what follows the segment is nothing, or a comma and the rest
    cases cs with
    | nil =>
      rw [List.append_nil, String.ofList_toList,
        segments_eq_singleton hne hcomma, ← ih]
      rfl
    | cons c cs =>
      obtain rfl : c = ',' := hend c rfl
      have htext : String.ofList (t.toList ++ ',' :: cs) =
          t ++ "," ++ String.ofList cs := by
        rw [← String.toList_inj]
        simp
      rw [segments_ofList_comma_cons] at ih
      rw [htext, segments_append_comma, segments_eq_singleton hne hcomma, ih]
      rfl

/-- Every text has segments: a character other than a comma is a segment of
its own or the first character of the one behind it. -/
theorem exists_segmented (cs : List Char) : ∃ ts, Segmented cs ts := by
  induction cs with
  | nil => exact ⟨[], .nil⟩
  | cons c cs ih =>
    obtain ⟨ts, h⟩ := ih
    by_cases hc : c = ','
    · rw [hc]
      exact ⟨ts, .comma h⟩
    · have alone : (∀ d ∈ cs.head?, d = ',') →
          Segmented (c :: cs) (String.ofList [c] :: ts) := fun hend => by
        have hseg := Segmented.segment (t := String.ofList [c]) (by simp)
          (by simpa using Ne.symm hc) hend h
        rwa [String.toList_ofList] at hseg
      cases h with
      | nil => exact ⟨_, alone (by simp)⟩
      | comma h => exact ⟨_, alone (by simp)⟩
      | @segment t cs ts hne hcomma hend h =>
        have hseg := Segmented.segment (t := String.ofList (c :: t.toList))
          (by simp) (by simpa using ⟨Ne.symm hc, hcomma⟩) hend h
        rw [String.toList_ofList] at hseg
        exact ⟨_, hseg⟩

/-- Splitting at commas and dropping what is empty finds the segments. -/
theorem segments_eq_iff {text : String} {ts : List String} :
    segments text = ts ↔ Segmented text.toList ts := by
  have segments_eq : ∀ {us : List String}, Segmented text.toList us →
      segments text = us := fun h => by
    rw [← h.segments_eq, String.ofList_toList]
  constructor
  · intro h
    obtain ⟨us, hus⟩ := exists_segmented text.toList
    rw [← h, segments_eq hus]
    exact hus
  · exact segments_eq

-- ================================================ clauses one by one

/-- A list is read from the left, and its comparators are in the order of
the list. -/
theorem expandAll_append (ts us : List String) :
    expandAll (ts ++ us) = do
      let front ← expandAll ts
      let rest ← expandAll us
      return front ++ rest := by
  induction ts with
  | nil =>
    show expandAll us = do
      let rest ← expandAll us
      return [] ++ rest
    cases expandAll us with
    | error e => rfl
    | ok rest => rfl
  | cons t ts ih =>
    rw [List.cons_append, expandAll_cons, expandAll_cons, ih]
    cases readClause t with
    | error e => rfl
    | ok own =>
      cases expandAll ts with
      | error e => rfl
      | ok front =>
        cases expandAll us with
        | error e => rfl
        | ok rest =>
          show Except.ok (own ++ (front ++ rest)) = .ok (own ++ front ++ rest)
          rw [List.append_assoc]

-- ============================================= a comma is concatenation

theorem parse_append_comma (a b : String) :
    parse (a ++ "," ++ b) =
      match parse a, parse b with
      | .error e, _ => .error e
      | .ok _, .error e => .error e
      | .ok r, .ok s => .ok ⟨r.comparators ++ s.comparators⟩ := by
  simp only [parse_eq_map, segments_append_comma, expandAll_append]
  cases expandAll (segments a) with
  | error e => rfl
  | ok front =>
    cases expandAll (segments b) with
    | error e => rfl
    | ok rest => rfl

/-- A text without a comma is read as one clause, which is expanded. -/
theorem parse_eq_of_comma_not_mem {t : String} (hne : t ≠ "")
    (hcomma : ',' ∉ t.toList) : parse t = do
      let clause ← Clause.parse t
      let comparators ← clause.comparators
      return ⟨comparators⟩ := by
  rw [parse_eq_map, segments_eq_singleton hne hcomma, expandAll_cons,
    readClause]
  cases Clause.parse t with
  | error e => rfl
  | ok clause =>
    cases hown : clause.comparators with
    | error e => simp [bind, Except.bind, hown, Except.map]
    | ok own =>
      simp [bind, Except.bind, hown, Except.map, expandAll, pure,
        Except.pure]

/-- A run of commas. -/
def commas (n : Nat) : String :=
  String.ofList (List.replicate n ',')

theorem commas_succ (n : Nat) : commas (n + 1) = "," ++ commas n := by
  rw [← String.toList_inj]
  simp [commas, List.replicate_succ]

theorem segments_commas_append (n : Nat) (b : String) :
    segments (commas n ++ b) = segments b := by
  induction n with
  | zero => rw [commas, List.replicate_zero, String.ofList_nil,
      String.empty_append]
  | succ n ih =>
    rw [commas_succ, String.append_assoc, segments_comma_append, ih]

theorem segments_append_commas (a : String) (n : Nat) :
    segments (a ++ commas n) = segments a := by
  have hnone : ∀ n, segments (commas n) = [] := fun n => by
    have h := segments_commas_append n ""
    rwa [String.append_empty, segments_empty] at h
  cases n with
  | zero => rw [commas, List.replicate_zero, String.ofList_nil,
      String.append_empty]
  | succ n =>
    rw [commas_succ, ← String.append_assoc, segments_append_comma, hnone,
      List.append_nil]

/-- A comma stands for concatenation. Of two texts with a comma between
them the first that is refused decides the error, and if neither is, the
comparators of the first come before those of the second. A text without
commas is a clause, read and expanded, unless it is empty and the range
without comparators. So commas in front, behind, and beside a comma make
no difference. -/
theorem comma_concatenates :
    (∀ a b : String, parse (a ++ "," ++ b) =
      match parse a, parse b with
      | .error e, _ => .error e
      | .ok _, .error e => .error e
      | .ok r, .ok s => .ok ⟨r.comparators ++ s.comparators⟩) ∧
    (∀ t : String, t ≠ "" → ',' ∉ t.toList → parse t = do
      let clause ← Clause.parse t
      let comparators ← clause.comparators
      return ⟨comparators⟩) ∧
    parse "" = .ok ⟨[]⟩ ∧
    ∀ (a b : String) (n : Nat),
      parse (commas n ++ a) = parse a ∧
      parse (a ++ commas n) = parse a ∧
      parse (a ++ "," ++ commas n ++ b) = parse (a ++ "," ++ b) := by
  refine ⟨parse_append_comma, fun _ => parse_eq_of_comma_not_mem, ?_,
    fun a b n => ⟨?_, ?_, ?_⟩⟩
  · rw [parse_eq_map, segments_empty]
    rfl
  · rw [parse_eq_map, segments_commas_append, ← parse_eq_map]
  · rw [parse_eq_map, segments_append_commas, ← parse_eq_map]
  · rw [String.append_assoc, parse_append_comma, parse_append_comma,
      parse_eq_map (commas n ++ b), segments_commas_append, ← parse_eq_map]

/-- A clause that overflows is reported before a malformed one behind it;
and a clause alone is read and expanded. -/
theorem comma_concatenates_overflow_first :
    parse ("^18446744073709551615" ++ "," ++ ">=1.x") =
      .error (.boundOverflow "^18446744073709551615.0.0") ∧
    parse " ~1.2-rc" = .ok ⟨[
      ⟨.atLeast, { Version.release 1 2 0 with
        prerelease := [⟨"rc"⟩], omission := .patch }⟩,
      ⟨.less, Version.release 1 3 0⟩]⟩ := by
  constructor
  · have hfront : parse "^18446744073709551615" =
        .error (.boundOverflow "^18446744073709551615.0.0") := by rfl
    rw [comma_concatenates.1, hfront]
  · rw [comma_concatenates.2.1 " ~1.2-rc" (by decide) (by decide)]
    rfl

end Versioning.Range
