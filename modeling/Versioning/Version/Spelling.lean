/-
A well-formed version and its written form determine each other.

A text without outer blanks is read as `v` exactly when `v` is well formed
and the text is its written form (`ofChars?_eq_some_iff`). Part for part
reading and writing are inverse; what remains is that the cuts fall where
the labels begin. Numbers hold digits and dots, so the first hyphen opens
the prerelease; numbers and prerelease hold no plus, so the first plus
opens the build metadata.
-/
import Versioning.Version.Printer
import Versioning.Version.Reader
import Versioning.Version.WellFormed

namespace Versioning

open Text

/-- Reading tokens is inverse to writing identifiers. -/
theorem mapM_ofChars?_eq_some_iff {kind : TokenKind}
    {tokens : List (List Char)} {ids : List (Identifier kind)} :
    tokens.mapM Identifier.ofChars? = some ids ↔
      (∀ id ∈ ids, id.WellFormed) ∧
        ids.map (fun id => id.text.toList) = tokens := by
  induction tokens generalizing ids with
  | nil => cases ids <;> simp
  | cons l tokens ih =>
    rw [List.mapM_cons]
    cases ids with
    | nil => simp [Option.bind_eq_some_iff]
    | cons id ids =>
      simp only [bind, Option.bind_eq_some_iff, pure, Option.some.injEq,
        List.cons.injEq, Identifier.ofChars?_eq_some_iff, ih, List.map_cons,
        List.forall_mem_cons]
      constructor
      · rintro ⟨_, ⟨h1, h2⟩, _, ⟨h3, h4⟩, rfl, rfl⟩
        exact ⟨⟨h1, h3⟩, h2, h4⟩
      · rintro ⟨⟨h1, h3⟩, h2, h4⟩
        exact ⟨_, ⟨h1, h2⟩, _, ⟨h3, h4⟩, rfl, rfl⟩

namespace Version

-- =============================================================== labels

/-- A label in characters: its mark and the identifiers between dots. -/
theorem toList_label (mark : String) (ids : List String) :
    (label mark ids).toList =
      match ids with
      | [] => []
      | id :: ids =>
        mark.toList ++ ['.'].intercalate ((id :: ids).map String.toList) := by
  cases ids with
  | nil => rfl
  | cons id ids => simp [label, String.toList_intercalate]

/-- A label is what a cut at its mark leaves behind the mark. -/
theorem exists_toList_label_eq_uncut (mark : Char) (ids : List String) :
    ∃ part, (label (String.singleton mark) ids).toList =
      uncut mark part := by
  rw [toList_label]
  cases ids with
  | nil => exact ⟨none, rfl⟩
  | cons id ids =>
    exact ⟨some (['.'].intercalate ((id :: ids).map String.toList)),
      by simp [uncut]⟩

/-- A label holds its mark, dots and the characters of its
identifiers. -/
theorem mem_label {mark : String} {ids : List String} {c : Char}
    (h : c ∈ (label mark ids).toList) :
    c ∈ mark.toList ∨ c = '.' ∨ ∃ id ∈ ids, c ∈ id.toList := by
  rw [toList_label] at h
  cases ids with
  | nil => simp at h
  | cons id ids =>
    rcases List.mem_append.mp h with h | h
    · exact .inl h
    · rcases mem_intercalate h with h | ⟨l, hl, h⟩
      · exact .inr (.inl h)
      · obtain ⟨x, hx, rfl⟩ := List.mem_map.mp hl
        exact .inr (.inr ⟨x, hx, h⟩)

/-- Reading a label is inverse to writing one. -/
theorem identifiers?_eq_some_iff (kind : TokenKind) (mark : Char)
    {part : Option (List Char)} {ids : List (Identifier kind)} :
    identifiers? kind part = some ids ↔
      (∀ id ∈ ids, id.WellFormed) ∧
        (label (String.singleton mark) (ids.map (·.text))).toList =
          uncut mark part := by
  rw [toList_label]
  cases part with
  | none => cases ids <;> simp [identifiers?, uncut]
  | some cs =>
    unfold identifiers?
    rw [mapM_ofChars?_eq_some_iff, eq_comm (b := cs.splitOn '.'),
      splitOn_eq_iff]
    cases ids with
    | nil => simp [uncut]
    | cons id ids =>
      simp only [ne_eq, reduceCtorEq, not_false_eq_true, List.map_cons,
        List.mem_cons, forall_eq_or_imp, List.mem_map, List.map_map,
        String.toList_singleton, uncut, List.singleton_append,
        List.cons.injEq, true_and]
      refine and_congr_right fun hok => ⟨And.right, fun h => ⟨?_, h⟩⟩
      refine ⟨hok.1.dot_not_mem, ?_⟩
      rintro l ⟨a, ha, rfl⟩
      exact (hok.2 a ha).dot_not_mem

-- ============================================================== numbers

/-- Numbers in characters: their numerals between dots. -/
theorem toList_dotted (numbers : List Component) :
    (dotted numbers).toList =
      ['.'].intercalate (numbers.map fun c => c.text.toList) := by
  simp [dotted, String.toList_intercalate, Function.comp_def]

/-- The numbers of a text are digits and dots. -/
theorem mem_dotted {numbers : List Component} {c : Char}
    (h : c ∈ (dotted numbers).toList) : c = '.' ∨ c.isDigit = true := by
  rw [toList_dotted] at h
  rcases mem_intercalate h with h | ⟨l, hl, h⟩
  · exact .inl h
  · obtain ⟨n, hn, rfl⟩ := List.mem_map.mp hl
    exact .inr (Component.isDigit_of_mem_text h)

/-- Some number is always written. -/
theorem writtenNumbers_ne_nil (v : Version) : v.writtenNumbers ≠ [] := by
  unfold writtenNumbers
  split <;> simp

/-- Reading numerals is inverse to writing the numbers of a version
without labels. -/
theorem ofNumerals?_eq_some_iff {numerals : List (List Char)}
    {v : Version} :
    ofNumerals? numerals = some v ↔
      (v.prerelease = [] ∧ v.build = [] ∧
        (v.omission = .minorAndPatch → v.minor = 0 ∧ v.patch = 0) ∧
        (v.omission = .patch → v.patch = 0)) ∧
      v.writtenNumbers.map (fun c => c.text.toList) = numerals := by
  obtain ⟨major, minor, patch, prerelease, build, omission⟩ := v
  match numerals with
  | [] => cases omission <;> simp [ofNumerals?, writtenNumbers]
  | [l] =>
    simp only [ofNumerals?, bind, Option.bind_eq_some_iff,
      Component.ofNumeral?_eq_some_iff, pure, Option.some.injEq, release]
    cases omission <;> simp [writtenNumbers]
    grind
  | [l, m] =>
    simp only [ofNumerals?, bind, Option.bind_eq_some_iff,
      Component.ofNumeral?_eq_some_iff, pure, Option.some.injEq, release]
    cases omission <;> simp [writtenNumbers]
    grind
  | [l, m, n] =>
    simp only [ofNumerals?, bind, Option.bind_eq_some_iff,
      Component.ofNumeral?_eq_some_iff, pure, Option.some.injEq, release]
    cases omission <;> simp [writtenNumbers]
    grind
  | l :: m :: n :: k :: numerals =>
    cases omission <;> simp [ofNumerals?, writtenNumbers]

-- ============================================================= versions

/-- A text is cut at the labels of the version that is written there. -/
theorem cut_written {v : Version} (h : v.WellFormed)
    {prerelease build : Option (List Char)}
    (hp : (label "-" (v.prerelease.map (·.text))).toList =
      uncut '-' prerelease)
    (hb : (label "+" (v.build.map (·.text))).toList = uncut '+' build) :
    ∃ front, cut '+' v.written.toList = (front, build) ∧
      cut '-' front = ((dotted v.writtenNumbers).toList, prerelease) := by
  have hhyphen : '-' ∉ (dotted v.writtenNumbers).toList := fun h => by
    rcases mem_dotted h with h | h <;> revert h <;> decide
  have hplus : '+' ∉ (dotted v.writtenNumbers).toList ++
      uncut '-' prerelease := fun hm => by
    rcases List.mem_append.mp hm with hm | hm
    · rcases mem_dotted hm with hm | hm <;> revert hm <;> decide
    · rw [← hp] at hm
      rcases mem_label hm with hm | hm | ⟨text, htext, hm⟩
      · revert hm; decide
      · revert hm; decide
      · obtain ⟨id, hid, rfl⟩ := List.mem_map.mp htext
        have := (h.prerelease id hid).isTokenChar hm
        revert this; decide
  refine ⟨(dotted v.writtenNumbers).toList ++ uncut '-' prerelease,
    cut_eq_iff.mpr ⟨hplus, ?_⟩, cut_eq_iff.mpr ⟨hhyphen, rfl⟩⟩
  rw [← hp, ← hb]
  simp only [written, labels, String.toList_append, List.append_assoc]

/-- The texts that are read as `v` are its written form, and `v` has to
be well formed. -/
theorem ofChars?_eq_some_iff {cs : List Char} {v : Version} :
    ofChars? cs = some v ↔ v.WellFormed ∧ v.written.toList = cs := by
  simp only [ofChars?, bind, Option.bind_eq_some_iff, pure,
    Option.some.injEq, ofNumerals?_eq_some_iff,
    identifiers?_eq_some_iff .prerelease '-',
    identifiers?_eq_some_iff .build '+']
  constructor
  · rintro ⟨w, ⟨⟨-, -, hm, hq⟩, hw⟩, pre, ⟨hpre, hp⟩, build, ⟨hbuild, hb⟩,
      rfl⟩
    refine ⟨⟨hpre, hbuild, hm, hq⟩, ?_⟩
    obtain ⟨-, hplus⟩ := cut_eq_iff.mp (rfl : cut '+' cs = (_, _))
    obtain ⟨-, hhyphen⟩ :=
      cut_eq_iff.mp (rfl : cut '-' (cut '+' cs).1 = (_, _))
    obtain ⟨-, -, hdots⟩ := splitOn_eq_iff.mp hw.symm
    simp only [written, labels, String.toList_append, toList_dotted]
    rw [← List.append_assoc, ← hplus, ← hhyphen, ← hdots, ← hp, ← hb]
    rfl
  · rintro ⟨hwf, rfl⟩
    obtain ⟨p, hp⟩ :=
      exists_toList_label_eq_uncut '-' (v.prerelease.map (·.text))
    obtain ⟨b, hb⟩ :=
      exists_toList_label_eq_uncut '+' (v.build.map (·.text))
    obtain ⟨front, hplus, hhyphen⟩ := cut_written hwf hp hb
    rw [hplus, hhyphen]
    refine ⟨{ v with prerelease := [], build := [] },
      ⟨⟨rfl, rfl, hwf.minorAndPatch, hwf.patch⟩, ?_⟩,
      v.prerelease, ⟨hwf.prerelease, hp⟩, v.build, ⟨hwf.build, hb⟩, rfl⟩
    refine (splitOn_eq_iff.mpr
      ⟨fun h => writtenNumbers_ne_nil v (List.map_eq_nil_iff.mp h), ?_,
        ?_⟩).symm
    · intro l hl hdot
      obtain ⟨n, hn, rfl⟩ := List.mem_map.mp hl
      have := Component.isDigit_of_mem_text hdot
      revert this; decide
    · exact (toList_dotted _).symm

/-- The texts that are read as `v`, blanks around them forgiven. -/
theorem parse_eq_ok_iff {text : String} {v : Version} :
    parse text = .ok v ↔
      v.WellFormed ∧ v.written.toList = trim text.toList := by
  rw [← ofChars?_eq_some_iff, parse]
  split <;> simp_all

end Version

end Versioning
