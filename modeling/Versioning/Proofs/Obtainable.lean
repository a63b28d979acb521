/-
The versions a caller can get hold of, and that they are well formed.

`Obtainable` has one constructor for each way a version comes out of this
library; a clause or a comparator that a caller builds holds a version the
caller already had. Clauses and ranges have inductives of their own at the
end. Each way keeps `WellFormed`.
-/
import Versioning.Datum
import Versioning.Proofs.Expansion
import Versioning.Version.Spelling

namespace Versioning

-- ======================================================== what is read

theorem Version.wellFormed_of_parse_eq_ok {text : String} {v : Version}
    (h : parse text = .ok v) : v.WellFormed :=
  (parse_eq_ok_iff.mp h).1

/-- A value of a data format is read as a text is. -/
theorem Datum.exists_of_read_eq_ok {α : Type}
    {parse : String → Except Error α} {d : Datum} {a : α}
    (h : Datum.read parse d = .ok a) :
    ∃ text, d = .text text ∧ parse text = .ok a := by
  cases d with
  | other => cases h
  | text s =>
    refine ⟨s, rfl, ?_⟩
    cases hs : parse s with
    | error e => simp [Datum.read, hs, Except.mapError] at h
    | ok b => simpa [Datum.read, hs, Except.mapError] using h

theorem Clause.wellFormed_of_parse_eq_ok {text : String} {c : Clause}
    (h : parse text = .ok c) : c.version.WellFormed := by
  obtain ⟨rest, -, hv⟩ := ofChars?_eq_some_iff.mp (parse_eq_ok_iff.mp h)
  exact (Version.ofChars?_eq_some_iff.mp hv).1

-- ====================================================== what is expanded

/-- Expanding keeps the version of a clause, and adds a release. -/
theorem Clause.wellFormed_of_mem_comparators {c : Clause}
    {cs : List Comparator} (hc : c.version.WellFormed)
    (h : c.comparators = .ok cs) {b : Comparator} (hb : b ∈ cs) :
    b.bound.WellFormed := by
  rcases comparators_eq_ok_iff.mp h with
    ⟨relation, -, rfl⟩ | ⟨p, u, -, hraise, rfl⟩
  · obtain rfl := List.mem_singleton.mp hb
    exact hc
  · simp only [List.mem_cons, List.not_mem_nil, or_false] at hb
    rcases hb with rfl | rfl
    · exact hc
    · exact hraise.wellFormed

/-- Whatever stands in a list of clauses that is read is well formed. -/
theorem Range.wellFormed_of_mem_expandAll {texts : List String}
    {cs : List Comparator} (h : expandAll texts = .ok cs) {b : Comparator}
    (hb : b ∈ cs) : b.bound.WellFormed := by
  induction texts generalizing cs with
  | nil =>
    obtain rfl := Except.ok.inj h
    cases hb
  | cons text texts ih =>
    obtain ⟨clause, own, others, hclause, hown, hothers, rfl⟩ :=
      expandAll_cons_eq_ok_iff.mp h
    rcases List.mem_append.mp hb with hb | hb
    · exact Clause.wellFormed_of_mem_comparators
        (Clause.wellFormed_of_parse_eq_ok hclause) hown hb
    · exact ih hothers hb

theorem Range.wellFormed_of_parse_eq_ok {text : String} {r : Range}
    (h : parse text = .ok r) {b : Comparator} (hb : b ∈ r.comparators) :
    b.bound.WellFormed :=
  wellFormed_of_mem_expandAll (parse_eq_ok_iff.mp h) hb

-- ==================================================== what can be had

namespace Version

/-- The versions that come out of this library. -/
inductive Obtainable : Version → Prop where
  /-- Read from a text. -/
  | parse {text : String} {v : Version} (h : Version.parse text = .ok v) :
      Obtainable v
  /-- Read from a value of a data format. -/
  | ofDatum {d : Datum} {v : Version} (h : Version.ofDatum d = .ok v) :
      Obtainable v
  /-- Put together from three numbers. -/
  | release (major minor patch : Component) :
      Obtainable (release major minor patch)
  /-- Named by a clause that was read. -/
  | clause {text : String} {c : Clause} (h : Clause.parse text = .ok c) :
      Obtainable c.version
  /-- A bound that a clause expands to. -/
  | bound {c : Clause} {cs : List Comparator} {b : Comparator}
      (hc : Obtainable c.version) (h : c.comparators = .ok cs)
      (hb : b ∈ cs) : Obtainable b.bound
  /-- A bound in a range that was read from a text. -/
  | range {text : String} {r : Range} {b : Comparator}
      (h : Range.parse text = .ok r) (hb : b ∈ r.comparators) :
      Obtainable b.bound
  /-- A bound in a range that was read from a value of a data format. -/
  | rangeOfDatum {d : Datum} {r : Range} {b : Comparator}
      (h : Range.ofDatum d = .ok r) (hb : b ∈ r.comparators) :
      Obtainable b.bound

/-- Every version that comes out of this library is well formed. -/
theorem Obtainable.wellFormed {v : Version} (h : Obtainable v) :
    v.WellFormed := by
  induction h with
  | parse h => exact wellFormed_of_parse_eq_ok h
  | ofDatum h =>
    obtain ⟨text, -, h⟩ := Datum.exists_of_read_eq_ok h
    exact wellFormed_of_parse_eq_ok h
  | release major minor patch => exact wellFormed_release major minor patch
  | clause h => exact Clause.wellFormed_of_parse_eq_ok h
  | bound _ h hb ih => exact Clause.wellFormed_of_mem_comparators ih h hb
  | range h hb => exact Range.wellFormed_of_parse_eq_ok h hb
  | rangeOfDatum h hb =>
    obtain ⟨text, -, h⟩ := Datum.exists_of_read_eq_ok h
    exact Range.wellFormed_of_parse_eq_ok h hb

end Version

-- ================================================ clauses and ranges

/-- The clauses that are read, and those that a caller puts together from
an operator and a version. -/
inductive Clause.Obtainable : Clause → Prop where
  | parse {text : String} {c : Clause} (h : Clause.parse text = .ok c) :
      Obtainable c
  | new (operator : Operator) {v : Version} (hv : v.Obtainable) :
      Obtainable ⟨operator, v⟩

theorem Clause.Obtainable.version {c : Clause} (h : c.Obtainable) :
    c.version.Obtainable := by
  cases h with
  | parse h => exact .clause h
  | new operator hv => exact hv

/-- The ranges that are read, and those that a caller puts together: from
comparators, from what a clause expands to, or from other ranges. -/
inductive Range.Obtainable : Range → Prop where
  | parse {text : String} {r : Range} (h : Range.parse text = .ok r) :
      Obtainable r
  | ofDatum {d : Datum} {r : Range} (h : Range.ofDatum d = .ok r) :
      Obtainable r
  | empty : Obtainable empty
  | new {cs : List Comparator} (h : ∀ b ∈ cs, b.bound.Obtainable) :
      Obtainable ⟨cs⟩
  | expanded {c : Clause} {cs : List Comparator} (hc : c.Obtainable)
      (h : c.comparators = .ok cs) : Obtainable ⟨cs⟩
  | append {r s : Range} (hr : Obtainable r) (hs : Obtainable s) :
      Obtainable (r ++ s)

/-- However a range was come by, its bounds are versions to be had. -/
theorem Range.Obtainable.bound {r : Range} (h : r.Obtainable)
    {b : Comparator} (hb : b ∈ r.comparators) : b.bound.Obtainable := by
  induction h with
  | parse h => exact .range h hb
  | ofDatum h => exact .rangeOfDatum h hb
  | empty => cases hb
  | new h => exact h b hb
  | expanded hc h => exact .bound hc.version h hb
  | append _ _ ihr ihs => exact (List.mem_append.mp hb).elim ihr ihs

end Versioning
