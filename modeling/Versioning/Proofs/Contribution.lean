/-
What each segment of a range text contributes to the range.

A segment contributes one comparator, or the pair of a window where it
opens with a tilde or a caret. `CallsFor` says this of the text of the
segment (`opensWindow`). The comparators of a range are the contributions
of its segments in their order (`exists_groups_of_expandAll_eq_ok`, an
induction over the segments), so they can be counted on the text.
-/
import Versioning.Proofs.Phrase
import Versioning.Proofs.Segments
import Versioning.Proofs.Window

namespace Versioning

open Text (trim)

-- ============================================================ operators

/-- A tilde or a caret is found where it is the first character, and
nowhere else. -/
theorem Operator.relation?_strip (cs : List Char) :
    (strip cs).1.relation?.isNone =
      cs.head?.any fun c => c == '~' || c == '^' := by
  unfold strip
  split
  case h_8 hcaret htilde _ =>
    -- no token is written, and equality is a relation
    cases cs with
    | nil => rfl
    | cons c cs =>
      have hc : c ≠ '^' := fun h => hcaret cs (h ▸ rfl)
      have ht : c ≠ '~' := fun h => htilde cs (h ▸ rfl)
      simp [relation?, hc, ht]
  all_goals rfl

namespace Range

-- ========================================================== one segment

/-- A segment that opens with a tilde or a caret, blanks apart. -/
def opensWindow (t : String) : Bool :=
  (trim t.toList).head?.any fun c => c == '~' || c == '^'

theorem opensWindow_eq {t : String} {c : Clause}
    (h : Clause.parse t = .ok c) :
    opensWindow t = c.operator.relation?.isNone := by
  obtain ⟨rest, hstrip, -⟩ :=
    Clause.ofChars?_eq_some_iff.mp (Clause.parse_eq_ok_iff.mp h)
  rw [opensWindow, ← Operator.relation?_strip, hstrip]

/-- The comparators that a segment calls for: one, against the version that
is written; or, where it opens with a tilde or a caret, two, between this
version and a release that is above it. -/
inductive CallsFor : String → List Comparator → Prop where
  | plain {t : String} {relation : Relation} {v : Version}
      (hopens : opensWindow t = false)
      (hphrase : Clause.Phrase t.toList ⟨.plain relation, v⟩) :
      CallsFor t [⟨relation, v⟩]
  | window {t : String} {o : Operator} {v u : Version}
      (hopens : opensWindow t = true)
      (hphrase : Clause.Phrase t.toList ⟨o, v⟩) (hlt : v < u)
      (hrelease : u = Version.release u.major u.minor u.patch) :
      CallsFor t [⟨.atLeast, v⟩, ⟨.less, u⟩]

/-- What is read from a segment is what it calls for. -/
theorem callsFor_of_readClause_eq_ok {t : String} {cs : List Comparator}
    (h : readClause t = .ok cs) : CallsFor t cs := by
  obtain ⟨⟨o, v⟩, hclause, hcs⟩ := readClause_eq_ok_iff.mp h
  have hopens := opensWindow_eq hclause
  have hphrase := Clause.phrase_of_parse_eq_ok hclause
  rcases Clause.comparators_eq_ok_iff.mp hcs with
    ⟨relation, ho, rfl⟩ | ⟨p, u, hp, hraises, rfl⟩
  · obtain rfl : o = .plain relation := ho
    exact .plain hopens hphrase
  · cases o with
    | plain relation => cases hp
    | caret => exact .window hopens hphrase hraises.lt hraises.is_release
    | tilde => exact .window hopens hphrase hraises.lt hraises.is_release

theorem CallsFor.length_eq {t : String} {cs : List Comparator}
    (h : CallsFor t cs) : cs.length = (opensWindow t).toNat + 1 := by
  cases h with
  | plain hopens => rw [hopens]; rfl
  | window hopens => rw [hopens]; rfl

-- ======================================================= all segments

/-- The comparators of a list of segments are what they call for, in
order. -/
theorem exists_groups_of_expandAll_eq_ok {ts : List String}
    {cs : List Comparator} (h : expandAll ts = .ok cs) :
    ∃ groups, List.Forall₂ CallsFor ts groups ∧ cs = groups.flatten := by
  induction ts generalizing cs with
  | nil =>
    obtain rfl := Except.ok.inj h
    exact ⟨[], .nil, rfl⟩
  | cons t ts ih =>
    rw [expandAll_cons] at h
    obtain ⟨own, others, hown, hothers, rfl⟩ := Error.map₂_eq_ok_iff.mp h
    obtain ⟨groups, hgroups, rfl⟩ := ih hothers
    exact ⟨own :: groups, .cons (callsFor_of_readClause_eq_ok hown) hgroups,
      rfl⟩

/-- Every segment counts once, and once more if it opens with a tilde or a
caret. -/
theorem length_flatten_groups {ts : List String}
    {groups : List (List Comparator)} (h : List.Forall₂ CallsFor ts groups) :
    groups.flatten.length = ts.length + ts.countP opensWindow := by
  induction h with
  | nil => rfl
  | @cons t own ts groups hown _ ih =>
    rw [List.flatten_cons, List.length_append, List.length_cons,
      List.countP_cons, hown.length_eq, ih]
    cases opensWindow t <;> simp <;> omega

-- ============================================================ no segment

/-- A text without segments consists of commas. -/
theorem segmented_nil_iff {cs : List Char} :
    Segmented cs [] ↔ ∀ c ∈ cs, c = ',' := by
  induction cs with
  | nil => exact iff_of_true .nil (by simp)
  | cons c cs ih =>
    rw [List.forall_mem_cons, ← ih]
    constructor
    · intro h
      -- a segment would be in the list
      generalize hcs : c :: cs = ds at h
      generalize hts : ([] : List String) = ts at h
      cases h with
      | nil => cases hcs
      | comma h =>
        cases hcs
        exact ⟨rfl, hts ▸ h⟩
      | segment => cases hts
    · rintro ⟨rfl, h⟩
      exact .comma h

theorem segments_eq_nil_iff {text : String} :
    segments text = [] ↔ ∀ c ∈ text.toList, c = ',' :=
  segments_eq_iff.trans segmented_nil_iff

/-- A range that is read has the comparators that the segments of its text
call for, in order, and no others. So there are as many as there are
segments and segments that open with a tilde or a caret, counted together;
and there are none, so that every version is accepted, exactly when the text
consists of commas. Such a text is always read. -/
theorem comparators_by_segment (text : String) :
    (∀ r, parse text = .ok r →
      ∃ ts groups, Segmented text.toList ts ∧
        List.Forall₂ CallsFor ts groups ∧
        r.comparators = groups.flatten ∧
        r.size = ts.length + ts.countP opensWindow ∧
        (r.isEmpty = true ↔ ∀ c ∈ text.toList, c = ',') ∧
        (r.isEmpty = true → ∀ v, r.accepts v = true)) ∧
    ((∀ c ∈ text.toList, c = ',') → parse text = .ok empty) := by
  constructor
  · intro r hr
    obtain ⟨groups, hgroups, hcs⟩ :=
      exists_groups_of_expandAll_eq_ok (parse_eq_ok_iff.mp hr)
    have hsize : r.size =
        (segments text).length + (segments text).countP opensWindow := by
      rw [size, hcs, length_flatten_groups hgroups]
    refine ⟨segments text, groups, segments_eq_iff.mp rfl, hgroups, hcs, hsize,
      ?_, ?_⟩
    · rw [← segments_eq_nil_iff, isEmpty, List.isEmpty_iff,
        ← List.length_eq_zero_iff, ← List.length_eq_zero_iff]
      show r.size = 0 ↔ _
      have hle := List.countP_le_length (l := segments text) (p := opensWindow)
      omega
    · intro hempty v
      rw [accepts, List.isEmpty_iff.mp hempty]
      rfl
  · intro hcommas
    rw [parse_eq_ok_iff, segments_eq_nil_iff.mpr hcommas]
    rfl

/-- Of the two segments of `,^1.2,,>=0.9-rc ,` the first contributes two
comparators and the second one. -/
theorem comparators_by_segment_caret :
    ∃ r ts, parse ",^1.2,,>=0.9-rc ," = .ok r ∧
      Segmented ",^1.2,,>=0.9-rc ,".toList ts ∧
      r.size = ts.length + ts.countP opensWindow ∧ ¬r.isEmpty = true ∧
      parse ",," = .ok empty := by
  have hr : parse ",^1.2,,>=0.9-rc ," = .ok ⟨[
      ⟨.atLeast, { Version.release 1 2 0 with omission := .patch }⟩,
      ⟨.less, Version.release 2 0 0⟩,
      ⟨.atLeast, { Version.release 0 9 0 with
        prerelease := [⟨"rc"⟩], omission := .patch }⟩]⟩ := by rfl
  obtain ⟨ts, groups, hts, -, -, hsize, -, -⟩ :=
    (comparators_by_segment _).1 _ hr
  exact ⟨_, ts, hr, hts, hsize, by decide,
    (comparators_by_segment ",,").2 (by simp)⟩

end Range

end Versioning
