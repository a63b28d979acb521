/-
A range is the conjunction of its clauses, in any order.

Order decides which fault is reported and where the decision stops. It
does not decide whether a text is read, nor what the range that is read
accepts: both are about members (`exists_parse_join_iff`,
`accepts_join_iff`), by induction over the list, whose step is one text in
front of the others (`parse_join_cons`).
-/
import Versioning.Proofs.RoundTrip

namespace Versioning

-- ========================================================= comparators

/-- A comparator accepts by its relation and the rank of its bound. -/
theorem Comparator.accepts_eq (c : Comparator) (v : Version) :
    c.accepts v = c.key.1.accepts (v.rank.precedence c.key.2) := rfl

theorem Comparator.accepts_congr {c d : Comparator} (h : (c == d) = true)
    (v : Version) : c.accepts v = d.accepts v := by
  rw [accepts_eq, accepts_eq, beq_iff_key_eq.mp h]

namespace Range

variable {v : Version}

theorem accepts_iff {r : Range} :
    r.accepts v = true ↔ ∀ c ∈ r.comparators, c.accepts v = true :=
  List.all_eq_true

theorem accepts_append (r s : Range) (v : Version) :
    (r ++ s).accepts v = (r.accepts v && s.accepts v) :=
  List.all_append

/-- What satisfies a list of comparators satisfies every list whose members
are members of it. -/
theorem accepts_of_contains {cs ds : List Comparator}
    (h : ∀ c, ds.contains c = true → cs.contains c = true)
    (hcs : accepts ⟨cs⟩ v = true) : accepts ⟨ds⟩ v = true := by
  rw [accepts_iff] at hcs ⊢
  intro d hd
  have hself : (d == d) = true := Comparator.beq_iff_key_eq.mpr rfl
  have hmem : ds.contains d = true :=
    List.contains_iff_exists_mem_beq.mpr ⟨d, hd, hself⟩
  obtain ⟨c, hc, hdc⟩ := List.contains_iff_exists_mem_beq.mp (h d hmem)
  rw [Comparator.accepts_congr hdc]
  exact hcs c hc

-- ======================================================== joined texts

/-- Nothing is written for the range without comparators. -/
theorem parse_empty : parse "" = .ok empty := by
  rw [parse_eq_map, segments_empty]
  rfl

/-- One text in front of joined texts is read before them, and its
comparators come first. -/
theorem parse_join_cons (t : String) (ts : List String) :
    parse (",".intercalate (t :: ts)) = do
      let r ← parse t
      let s ← parse (",".intercalate ts)
      return r ++ s := by
  cases ts with
  | nil =>
    rw [String.intercalate_singleton, String.intercalate_nil, parse_empty]
    cases parse t with
    | error e => rfl
    | ok r =>
      show Except.ok r = .ok ⟨r.comparators ++ []⟩
      rw [List.append_nil]
  | cons u us =>
    rw [String.intercalate_cons_cons, parse_append_comma]
    cases parse t with
    | error e => rfl
    | ok r => cases parse (",".intercalate (u :: us)) <;> rfl

/-- The step of reading joined texts, for a text that is read. -/
theorem parse_join_cons_eq_ok_iff {t : String} {ts : List String}
    {r : Range} :
    parse (",".intercalate (t :: ts)) = .ok r ↔
      ∃ p q, parse t = .ok p ∧ parse (",".intercalate ts) = .ok q ∧
        p ++ q = r := by
  rw [parse_join_cons]
  exact Error.map₂_eq_ok_iff

/-- Joined texts are read when each of them is. -/
theorem exists_parse_join_iff {ts : List String} :
    (∃ r, parse (",".intercalate ts) = .ok r) ↔
      ∀ t ∈ ts, ∃ r, parse t = .ok r := by
  induction ts with
  | nil =>
    exact iff_of_true ⟨empty, parse_empty⟩ fun t ht => by cases ht
  | cons t ts ih =>
    rw [List.forall_mem_cons, ← ih]
    simp only [parse_join_cons_eq_ok_iff]
    constructor
    · intro h
      obtain ⟨r, p, q, hp, hq, -⟩ := h
      exact ⟨⟨p, hp⟩, ⟨q, hq⟩⟩
    · intro h
      obtain ⟨⟨p, hp⟩, ⟨q, hq⟩⟩ := h
      exact ⟨p ++ q, p, q, hp, hq, rfl⟩

/-- The range that is read from joined texts accepts what the range of each
of them accepts. -/
theorem accepts_join_iff {ts : List String} {r : Range}
    (h : parse (",".intercalate ts) = .ok r) (v : Version) :
    r.accepts v = true ↔
      ∀ t ∈ ts, ∃ s, parse t = .ok s ∧ s.accepts v = true := by
  induction ts generalizing r with
  | nil =>
    rw [String.intercalate_nil, parse_empty] at h
    obtain rfl := Except.ok.inj h
    exact iff_of_true rfl fun t ht => by cases ht
  | cons t ts ih =>
    obtain ⟨p, q, hp, hq, rfl⟩ := parse_join_cons_eq_ok_iff.mp h
    rw [accepts_append, Bool.and_eq_true, List.forall_mem_cons, ih hq, hp]
    simp only [Except.ok.injEq, exists_eq_left']

/-- What holds of every text of a list holds of every text of another list
with the same members, if it holds of the empty text. -/
theorem forall_mem_congr {P : String → Prop} (hempty : P "")
    {C D : List String} (h : ∀ t, t ≠ "" → (t ∈ C ↔ t ∈ D)) :
    (∀ t ∈ C, P t) ↔ ∀ t ∈ D, P t := by
  have transfer : ∀ {A B : List String}, (∀ t, t ≠ "" → t ∈ B → t ∈ A) →
      (∀ t ∈ A, P t) → ∀ t ∈ B, P t := fun hsub hA t ht => by
    by_cases hne : t = ""
    · rw [hne]
      exact hempty
    · exact hA t (hsub t hne ht)
  exact ⟨transfer fun t hne => (h t hne).mpr, transfer fun t hne =>
    (h t hne).mp⟩

-- ========================================================= conjunction

/-- A range is the conjunction of its clauses. Of two lists of clause texts
with the same members, whatever the order, the repetitions and the empty
texts among them, both are read when joined by commas or neither is, and
then the same versions satisfy them: those that satisfy the range of each
clause by itself. Likewise two lists of comparators with the same members,
as `==` tells them apart, are satisfied by the same versions, and one range
behind another by those that satisfy both. -/
theorem conjunction_of_clauses :
    (∀ {C D : List String}, (∀ t, t ≠ "" → (t ∈ C ↔ t ∈ D)) →
      ((∃ r, parse (",".intercalate C) = .ok r) ↔
        ∃ s, parse (",".intercalate D) = .ok s) ∧
      ∀ {r s : Range}, parse (",".intercalate C) = .ok r →
        parse (",".intercalate D) = .ok s →
        ∀ v, r.accepts v = s.accepts v) ∧
    (∀ {C : List String} {r : Range}, parse (",".intercalate C) = .ok r →
      ∀ v, (r.accepts v = true ↔
        ∀ t ∈ C, ∃ s, parse t = .ok s ∧ s.accepts v = true)) ∧
    (∀ {cs ds : List Comparator}, (∀ c, cs.contains c = ds.contains c) →
      ∀ v, accepts ⟨cs⟩ v = accepts ⟨ds⟩ v) ∧
    ∀ (r s : Range) (v : Version),
      (r ++ s).accepts v = (r.accepts v && s.accepts v) := by
  refine ⟨fun {C D} h => ⟨?_, ?_⟩, accepts_join_iff, ?_, accepts_append⟩
  · rw [exists_parse_join_iff, exists_parse_join_iff]
    exact forall_mem_congr ⟨empty, parse_empty⟩ h
  · intro r s hr hs v
    apply Bool.eq_iff_iff.mpr
    rw [accepts_join_iff hr, accepts_join_iff hs]
    exact forall_mem_congr ⟨empty, parse_empty, rfl⟩ h
  · intro cs ds h v
    apply Bool.eq_iff_iff.mpr
    exact ⟨accepts_of_contains fun c hc => (h c).trans hc,
      accepts_of_contains fun c hc => (h c).symm.trans hc⟩

/-- The order turned round, a clause repeated and empty texts between them;
and a comparator repeated with build metadata. -/
theorem conjunction_of_clauses_repeated :
    (∃ r s, parse "^1.2,<1.5" = .ok r ∧ parse "<1.5,,^1.2,<1.5," = .ok s ∧
      (∀ v, r.accepts v = s.accepts v) ∧
      ∀ v, r.accepts v = true ↔ ∀ t ∈ ["^1.2", "<1.5"],
        ∃ s, parse t = .ok s ∧ s.accepts v = true) ∧
    ∀ v, accepts ⟨[⟨.atLeast, Version.release 1 0 0⟩,
        ⟨.less, Version.release 2 0 0⟩]⟩ v =
      accepts ⟨[⟨.less, { Version.release 2 0 0 with build := [⟨"b"⟩] }⟩,
        ⟨.atLeast, Version.release 1 0 0⟩,
        ⟨.less, Version.release 2 0 0⟩]⟩ v := by
  constructor
  · have hr : parse "^1.2,<1.5" = .ok ⟨[
        ⟨.atLeast, { Version.release 1 2 0 with omission := .patch }⟩,
        ⟨.less, Version.release 2 0 0⟩,
        ⟨.less, { Version.release 1 5 0 with omission := .patch }⟩]⟩ := by
      rfl
    have hs : parse "<1.5,,^1.2,<1.5," = .ok ⟨[
        ⟨.less, { Version.release 1 5 0 with omission := .patch }⟩,
        ⟨.atLeast, { Version.release 1 2 0 with omission := .patch }⟩,
        ⟨.less, Version.release 2 0 0⟩,
        ⟨.less, { Version.release 1 5 0 with omission := .patch }⟩]⟩ := by
      rfl
    have hmem : ∀ t, t ≠ "" → (t ∈ ["^1.2", "<1.5"] ↔
        t ∈ ["<1.5", "", "^1.2", "<1.5", ""]) := fun t ht => by
      simp [ht, or_comm]
    exact ⟨_, _, hr, hs, (conjunction_of_clauses.1 hmem).2 hr hs,
      conjunction_of_clauses.2.1 (C := ["^1.2", "<1.5"]) hr⟩
  · refine conjunction_of_clauses.2.2.1 fun c => ?_
    have hbuild : (c == ⟨.less, { Version.release 2 0 0 with
        build := [⟨"b"⟩] }⟩) = (c == ⟨.less, Version.release 2 0 0⟩) := rfl
    simp only [List.contains_cons, List.contains_nil, hbuild]
    cases c == ⟨.atLeast, Version.release 1 0 0⟩ <;>
      cases c == ⟨.less, Version.release 2 0 0⟩ <;> rfl

end Range

end Versioning
