/-
What is written is read back.

The canonical text of a version forgets which numbers were written and
keeps the rest (`Version.canonical_read_back`). The text of a clause is its
written form and keeps that too (`Clause.written_form_read_back`). The text
of a range keeps the comparators, whose bounds are written canonically
(`Range.comparators_read_back`). So a version comes back as `spelledOut`.

Reading inverts writing for well-formed versions only: an identifier with a
dot would come back as two. For a range the separators have to be found
again. A comparator is a phrase of its plain clause, and no phrase holds a
comma.
-/
import Versioning.Proofs.Obtainable
import Versioning.Proofs.Phrase
import Versioning.Proofs.Segments
import Versioning.Version.Order

namespace Versioning

open Text

-- ============================================================ versions

namespace Version

/-- The version with all three of its numbers written. -/
def spelledOut (v : Version) : Version :=
  { v with omission := .none }

/-- Agreement in everything but which numbers were written. -/
structure SameParts (v w : Version) : Prop where
  major : v.major = w.major
  minor : v.minor = w.minor
  patch : v.patch = w.patch
  prerelease : v.prerelease = w.prerelease
  build : v.build = w.build

theorem sameParts_spelledOut (v : Version) : v.spelledOut.SameParts v :=
  ⟨rfl, rfl, rfl, rfl, rfl⟩

theorem sameParts_iff {v w : Version} :
    v.SameParts w ↔ v.spelledOut = w.spelledOut := by
  constructor
  · intro h
    rw [spelledOut, spelledOut, h.major, h.minor, h.patch, h.prerelease,
      h.build]
  · intro h
    injection h with hmajor hminor hpatch hprerelease hbuild
    exact ⟨hmajor, hminor, hpatch, hprerelease, hbuild⟩

theorem rank_spelledOut (v : Version) : v.spelledOut.rank = v.rank := rfl

theorem text_spelledOut (v : Version) : v.spelledOut.text = v.text := rfl

theorem written_spelledOut (v : Version) : v.spelledOut.written = v.text :=
  rfl

/-- Reading undoes writing, but for the numbers that were left out. -/
theorem WellFormed.parse_text {v : Version} (h : v.WellFormed) :
    parse v.text = .ok v.spelledOut := by
  rw [← written_spelledOut]
  exact h.spelledOut.parse_written

/-- The text tells apart whatever differs in a part. -/
theorem WellFormed.text_eq_iff {v w : Version} (hv : v.WellFormed)
    (hw : w.WellFormed) : v.text = w.text ↔ v.SameParts w := by
  rw [sameParts_iff]
  constructor
  · intro h
    have hparse := hv.parse_text
    rw [h, hw.parse_text] at hparse
    exact (Except.ok.inj hparse).symm
  · intro h
    rw [← text_spelledOut v, h, text_spelledOut]

/-- A text in canonical format: the three numbers in decimal between dots,
the prerelease identifiers between dots behind a hyphen if there are any,
and the build identifiers likewise behind a plus. -/
structure Canonical (text : String) (major minor patch : Component)
    (prerelease build : List String) : Prop where
  text_eq : text =
    toString major.toNat ++ "." ++ toString minor.toNat ++ "." ++
      toString patch.toNat ++
      (if prerelease = [] then "" else "-" ++ ".".intercalate prerelease) ++
      (if build = [] then "" else "+" ++ ".".intercalate build)
  prerelease : ∀ id ∈ prerelease, ∃ p, PrereleaseId.parse id = .ok p
  build : ∀ id ∈ build, ∃ b, BuildId.parse id = .ok b

theorem label_eq (mark : String) (ids : List String) :
    label mark ids =
      if ids = [] then "" else mark ++ ".".intercalate ids := by
  cases ids <;> simp [label]

theorem text_eq_append (v : Version) :
    v.text = toString v.major.toNat ++ "." ++ toString v.minor.toNat ++
      "." ++ toString v.patch.toNat ++
      label "-" (v.prerelease.map (·.text)) ++
      label "+" (v.build.map (·.text)) := by
  simp only [text, dotted, labels, Component.text, List.map_cons,
    List.map_nil, String.intercalate_cons_cons,
    String.intercalate_singleton, String.append_assoc]

/-- The canonical text of a version is in canonical format. -/
theorem WellFormed.canonical_text {v : Version} (h : v.WellFormed) :
    Canonical v.text v.major v.minor v.patch (v.prerelease.map (·.text))
      (v.build.map (·.text)) where
  text_eq := by rw [text_eq_append, label_eq, label_eq]
  prerelease id hid := by
    obtain ⟨p, hp, rfl⟩ := List.mem_map.mp hid
    exact ⟨p, Identifier.parse_eq_ok_iff.mpr ⟨h.prerelease p hp, rfl⟩⟩
  build id hid := by
    obtain ⟨b, hb, rfl⟩ := List.mem_map.mp hid
    exact ⟨b, Identifier.parse_eq_ok_iff.mpr ⟨h.build b hb, rfl⟩⟩

/-- A text in canonical format is the text of the version with its parts. -/
theorem Canonical.exists_version {text : String}
    {major minor patch : Component} {prerelease build : List String}
    (h : Canonical text major minor patch prerelease build) :
    ∃ v : Version, v.WellFormed ∧ v.text = text ∧ v.omission = .none ∧
      v.major = major ∧ v.minor = minor ∧ v.patch = patch ∧
      v.prerelease.map (·.text) = prerelease ∧
      v.build.map (·.text) = build := by
  have texts : ∀ {kind : TokenKind} (ids : List String),
      (ids.map fun id => (⟨id⟩ : Identifier kind)).map (·.text) = ids := by
    simp [Function.comp_def]
  refine ⟨{ release major minor patch with
      prerelease := prerelease.map .mk, build := build.map .mk },
    ⟨fun p hp => ?_, fun b hb => ?_, by simp [release], by simp [release]⟩,
    ?_, rfl, rfl, rfl, rfl, texts prerelease, texts build⟩
  · obtain ⟨id, hid, rfl⟩ := List.mem_map.mp hp
    obtain ⟨p, hp⟩ := h.prerelease id hid
    obtain ⟨hwf, rfl⟩ := Identifier.parse_eq_ok_iff.mp hp
    exact hwf
  · obtain ⟨id, hid, rfl⟩ := List.mem_map.mp hb
    obtain ⟨b, hb⟩ := h.build id hid
    obtain ⟨hwf, rfl⟩ := Identifier.parse_eq_ok_iff.mp hb
    exact hwf
  · refine Eq.trans ?_ h.text_eq.symm
    rw [text_eq_append, texts, texts, label_eq, label_eq]
    rfl

/-- The canonical text and reading are inverse. Every text in canonical
format is read, as the version with exactly its parts and nothing left
out. The text of a version that can be had is one; what is read from it
differs from the version in nothing but the omission, is equal to it, and
is written alike, and the same goes for the value of a data format. And
two such versions are written alike only if they have the same parts. -/
theorem canonical_read_back :
    (∀ {text : String} {major minor patch : Component}
        {prerelease build : List String},
      Canonical text major minor patch prerelease build →
      ∃ v, parse text = .ok v ∧
        v.major = major ∧ v.minor = minor ∧ v.patch = patch ∧
        v.prerelease.map (·.text) = prerelease ∧
        v.build.map (·.text) = build ∧ v.omission = .none) ∧
    (∀ v : Version, v.Obtainable →
      Canonical v.text v.major v.minor v.patch (v.prerelease.map (·.text))
        (v.build.map (·.text)) ∧
      ∃ w, parse v.text = .ok w ∧ ofDatum v.toDatum = .ok w ∧
        w.SameParts v ∧ w.omission = .none ∧
        w.precedence v = .eq ∧ (w == v) = true ∧ w.text = v.text) ∧
    ∀ v w : Version, v.Obtainable → w.Obtainable →
      (v.text = w.text ↔ v.SameParts w) := by
  refine ⟨?_, ?_, ?_⟩
  · intro text major minor patch prerelease build h
    obtain ⟨v, hv, rfl, homission, hparts⟩ := h.exists_version
    have hself : v.spelledOut = v := by rw [spelledOut, ← homission]
    refine ⟨v, ?_, hparts.1, hparts.2.1, hparts.2.2.1, hparts.2.2.2.1,
      hparts.2.2.2.2, homission⟩
    rw [hv.parse_text, hself]
  · -- What is read back is `v.spelledOut`, which has the rank and the text
    -- of `v`.
    intro v hv
    have hparse := hv.wellFormed.parse_text
    refine ⟨hv.wellFormed.canonical_text, v.spelledOut, hparse, ?_,
      sameParts_spelledOut v, rfl, ?_, ?_, text_spelledOut v⟩
    · rw [toDatum, ofDatum, Datum.read, hparse]
      rfl
    · exact precedence_eq_iff.mpr (rank_spelledOut v)
    · exact beq_iff_rank_eq.mpr (rank_spelledOut v)
  · intro v w hv hw
    exact hv.wellFormed.text_eq_iff hw.wellFormed

/-- The greatest number, an identifier of hyphens, a build identifier with
leading zeros; and a version read from `1.2`, written as `1.2.0`. -/
theorem canonical_read_back_hyphens :
    (∃ v, parse "18446744073709551615.0.7---.0+001" = .ok v ∧
      v.prerelease.map (·.text) = ["--", "0"] ∧ v.omission = .none) ∧
    (∃ w, parse { release 1 2 0 with omission := .patch }.text = .ok w ∧
      w.omission = .none) ∧
    { release 1 2 0 with omission := .patch }.text =
      (release 1 2 0).text := by
  have hcanonical : Canonical "18446744073709551615.0.7---.0+001"
      18446744073709551615 0 7 ["--", "0"] ["001"] := by
    refine ⟨by rfl, fun id hid => ?_, fun id hid => ?_⟩
    · simp only [List.mem_cons, List.not_mem_nil, or_false] at hid
      rcases hid with rfl | rfl
      · exact ⟨⟨"--"⟩, by rfl⟩
      · exact ⟨⟨"0"⟩, by rfl⟩
    · obtain rfl := List.mem_singleton.mp hid
      exact ⟨⟨"001"⟩, by rfl⟩
  have hpatch : Obtainable { release 1 2 0 with omission := .patch } :=
    .parse (show parse "1.2" = _ by rfl)
  refine ⟨?_, ?_, ?_⟩
  · obtain ⟨v, hv, -, -, -, hprerelease, -, homission⟩ :=
      canonical_read_back.1 hcanonical
    exact ⟨v, hv, hprerelease, homission⟩
  · obtain ⟨-, w, hw, -, -, homission, -⟩ := canonical_read_back.2.1 _ hpatch
    exact ⟨w, hw, homission⟩
  · exact (canonical_read_back.2.2 _ _ hpatch (.release 1 2 0)).mpr
      ⟨rfl, rfl, rfl, rfl, rfl⟩

end Version

-- ============================================================= clauses

namespace Clause

/-- The text of a clause is a phrase for it, with any blanks in front. -/
theorem phrase_text {c : Clause} (h : c.version.WellFormed)
    {lead : List Char} (hlead : Blanks lead) :
    Phrase (lead ++ c.text.toList) c := by
  refine phrase_iff.mpr ⟨h, lead, c.operator.token.toList, [], [], hlead,
    .token c.operator, blanks_nil, blanks_nil, ?_⟩
  rw [text, String.toList_append, List.append_nil, List.append_nil,
    List.append_assoc]

/-- Reading undoes writing. -/
theorem parse_text {c : Clause} (h : c.version.WellFormed) :
    parse c.text = .ok c :=
  Phrase.parse_eq_ok (phrase_text h blanks_nil)

/-- A clause is read back from its text as it was, its operator, the
labels of its version and the numbers that were left out included. So it
is written alike again, and expands to the same comparators or overflows
with the same error. -/
theorem written_form_read_back {c : Clause} (h : c.Obtainable) :
    ∃ d, parse c.text = .ok d ∧ d.operator = c.operator ∧
      d.version.SameParts c.version ∧
      d.version.omission = c.version.omission ∧
      d.text = c.text ∧ d.comparators = c.comparators :=
  ⟨c, parse_text h.version.wellFormed, rfl, ⟨rfl, rfl, rfl, rfl, rfl⟩, rfl,
    rfl, rfl⟩

/-- The labels follow the last number that was written. -/
theorem written_form_read_back_labels :
    ∃ d, parse "~1-beta.2+b" = .ok d ∧ d.operator = .tilde ∧
      d.version.omission = .minorAndPatch := by
  have hc : Obtainable ⟨.tilde, { Version.release 1 0 0 with
      prerelease := [⟨"beta"⟩, ⟨"2"⟩], build := [⟨"b"⟩]
      omission := .minorAndPatch }⟩ :=
    .parse (show parse " ~ 1-beta.2+b" = _ by rfl)
  obtain ⟨d, hd, hoperator, -, homission, -⟩ := written_form_read_back hc
  exact ⟨d, hd, hoperator, homission⟩

end Clause

-- ========================================================= comparators

namespace Comparator

/-- The comparator with its bound spelled out. -/
def spelledOut (c : Comparator) : Comparator :=
  { c with bound := c.bound.spelledOut }

/-- The clause that a comparator is written as. -/
def clause (c : Comparator) : Clause :=
  ⟨.plain c.relation, c.bound.spelledOut⟩

theorem text_clause (c : Comparator) : c.clause.text = c.text := rfl

theorem comparators_clause (c : Comparator) :
    c.clause.comparators = .ok [c.spelledOut] := rfl

theorem beq_iff_key_eq {c d : Comparator} :
    (c == d) = true ↔ c.key = d.key := by
  show (c.relation == d.relation && c.bound == d.bound) = true ↔ _
  rw [Bool.and_eq_true, beq_iff_eq, Version.beq_iff_rank_eq, key, key,
    Prod.mk.injEq]

/-- Blanks in front of a comparator are forgiven. -/
theorem parse_append_text {c : Comparator} (h : c.bound.WellFormed)
    {lead : List Char} (hlead : Blanks lead) {text : String}
    (htext : text.toList = lead ++ c.text.toList) :
    Clause.parse text = .ok c.clause := by
  apply Clause.Phrase.parse_eq_ok
  rw [htext, ← text_clause]
  exact Clause.phrase_text h.spelledOut hlead

theorem comma_not_mem_text {c : Comparator} (h : c.bound.WellFormed) :
    ',' ∉ c.text.toList := by
  have hphrase := Clause.phrase_text (c := c.clause) h.spelledOut blanks_nil
  exact hphrase.comma_not_mem

theorem text_ne_empty (c : Comparator) : c.text ≠ "" := by
  obtain ⟨d, ds, hd, -⟩ := Operator.exists_cons_token (.plain c.relation)
  have htext : c.text.toList = d :: (ds ++ c.bound.text.toList) := by
    rw [text, String.toList_append, ← List.cons_append, ← hd]
    rfl
  intro h
  rw [h] at htext
  exact absurd htext.symm (List.cons_ne_nil _ _)

end Comparator

-- ============================================================== ranges

namespace Range

/-- The range with the bounds of its comparators spelled out. -/
def spelledOut (r : Range) : Range :=
  ⟨r.comparators.map Comparator.spelledOut⟩

theorem text_spelledOut (r : Range) : r.spelledOut.text = r.text := by
  rw [text, spelledOut, List.map_map]
  rfl

theorem accepts_spelledOut (r : Range) (v : Version) :
    r.spelledOut.accepts v = r.accepts v := by
  rw [accepts, spelledOut, List.all_map]
  rfl

theorem key_spelledOut (r : Range) : r.spelledOut.key = r.key := by
  rw [key, spelledOut, List.map_map]
  rfl

theorem beq_iff_key_eq {r s : Range} : (r == s) = true ↔ r.key = s.key := by
  obtain ⟨cs⟩ := r
  obtain ⟨ds⟩ := s
  show (cs == ds) = true ↔ cs.map Comparator.key = ds.map Comparator.key
  induction cs generalizing ds with
  | nil => cases ds <;> simp
  | cons c cs ih =>
    cases ds with
    | nil => simp
    | cons d ds =>
      rw [List.cons_beq_cons, Bool.and_eq_true, Comparator.beq_iff_key_eq,
        ih, List.map_cons, List.map_cons, List.cons.injEq]

-- ---------------------------------------------- separators found again

/-- Texts as they stand between the commas of a range: behind the first
comma each has a blank in front. -/
def spaced : List String → List String
  | [] => []
  | text :: texts => text :: texts.map (" " ++ ·)

/-- A blank behind every separator may be counted to the parts. -/
theorem intercalate_pair {sep pad : Char} (l : List Char)
    (ls : List (List Char)) :
    [sep, pad].intercalate (l :: ls) =
      [sep].intercalate (l :: ls.map (pad :: ·)) := by
  induction ls generalizing l with
  | nil => simp
  | cons m ls ih =>
    rw [List.map_cons, List.intercalate_cons_cons, List.intercalate_cons_cons,
      ih m]
    cases ls <;> simp

theorem intercalate_eq_intercalate_spaced (texts : List String) :
    ", ".intercalate texts = ",".intercalate (spaced texts) := by
  rw [← String.toList_inj, String.toList_intercalate,
    String.toList_intercalate]
  cases texts with
  | nil => rfl
  | cons text texts =>
    show [',', ' '].intercalate _ = [','].intercalate _
    rw [List.map_cons, intercalate_pair, spaced, List.map_cons, List.map_map,
      List.map_map]
    congr 3
    funext t
    show ' ' :: t.toList = (" " ++ t).toList
    rw [String.toList_append]
    rfl

theorem mem_spaced {t : String} {texts : List String}
    (h : t ∈ spaced texts) :
    ∃ lead u, Blanks lead ∧ u ∈ texts ∧ t.toList = lead ++ u.toList := by
  cases texts with
  | nil => cases h
  | cons text texts =>
    rcases List.mem_cons.mp h with rfl | h
    · exact ⟨[], t, blanks_nil, List.mem_cons_self, rfl⟩
    · obtain ⟨u, hu, rfl⟩ := List.mem_map.mp h
      exact ⟨[' '], u, by decide, List.mem_cons_of_mem text hu,
        String.toList_append⟩

/-- Joined texts without commas are the segments of the whole. -/
theorem segments_intercalate {texts : List String}
    (hcomma : ∀ t ∈ texts, ',' ∉ t.toList) (hne : ∀ t ∈ texts, t ≠ "") :
    segments (", ".intercalate texts) = spaced texts := by
  rw [intercalate_eq_intercalate_spaced]
  refine segments_intercalate_comma (fun t ht => ?_) (fun t ht => ?_)
  · obtain ⟨lead, u, -, hu, htoList⟩ := mem_spaced ht
    rintro rfl
    have hnil : u.toList = [] := (List.append_eq_nil_iff.mp htoList.symm).2
    exact hne u hu (String.toList_inj.mp hnil)
  · obtain ⟨lead, u, hlead, hu, htoList⟩ := mem_spaced ht
    rw [htoList, List.mem_append, not_or]
    refine ⟨fun hmem => ?_, hcomma u hu⟩
    have hblank := hlead ',' hmem
    revert hblank
    decide

-- ------------------------------------------------------ the comparators

/-- The text of a comparator in front adds that comparator. -/
theorem expandAll_cons_clause {text : String} {c : Comparator}
    {texts : List String} {cs : List Comparator}
    (h : Clause.parse text = .ok c.clause) (hcs : expandAll texts = .ok cs) :
    expandAll (text :: texts) = .ok (c.spelledOut :: cs) :=
  expandAll_cons_eq_ok_iff.mpr
    ⟨c.clause, [c.spelledOut], cs, h, c.comparators_clause, hcs, rfl⟩

/-- Texts of comparators are read as these comparators. -/
theorem expandAll_map {cs : List Comparator} {f : Comparator → String}
    (h : ∀ c ∈ cs, Clause.parse (f c) = .ok c.clause) :
    expandAll (cs.map f) = .ok (cs.map Comparator.spelledOut) := by
  induction cs with
  | nil => rfl
  | cons c cs ih =>
    obtain ⟨hc, hcs⟩ := List.forall_mem_cons.mp h
    exact expandAll_cons_clause hc (ih hcs)

theorem expandAll_spaced {cs : List Comparator}
    (h : ∀ c ∈ cs, c.bound.WellFormed) :
    expandAll (spaced (cs.map Comparator.text)) =
      .ok (cs.map Comparator.spelledOut) := by
  cases cs with
  | nil => rfl
  | cons c cs =>
    obtain ⟨hc, hcs⟩ := List.forall_mem_cons.mp h
    rw [List.map_cons, spaced, List.map_map]
    refine expandAll_cons_clause (Comparator.parse_append_text hc blanks_nil
      rfl) (expandAll_map fun d hd => ?_)
    have hblank : Blanks [' '] := by decide
    exact Comparator.parse_append_text (hcs d hd) hblank
      (String.toList_append)

/-- A range is read back with its bounds spelled out. -/
theorem parse_text {r : Range} (h : ∀ c ∈ r.comparators, c.bound.WellFormed) :
    parse r.text = .ok r.spelledOut := by
  rw [parse_eq_ok_iff, text, segments_intercalate]
  · exact expandAll_spaced h
  · intro t ht
    obtain ⟨c, hc, rfl⟩ := List.mem_map.mp ht
    exact Comparator.comma_not_mem_text (h c hc)
  · intro t ht
    obtain ⟨c, -, rfl⟩ := List.mem_map.mp ht
    exact c.text_ne_empty

/-- A range is read back from its text, always. What is read has as many
comparators, and each has the relation and the parts of the bound that
stood in its place, and no number left out. So it is an equal range, is
written alike, and accepts the same versions; and a value of a data format
is read back as the text is. -/
theorem comparators_read_back {r : Range} (h : r.Obtainable) :
    ∃ s, parse r.text = .ok s ∧ s.size = r.size ∧
      List.Forall₂ (fun d c => d.relation = c.relation ∧
          d.bound.SameParts c.bound ∧ d.bound.omission = .none)
        s.comparators r.comparators ∧
      (s == r) = true ∧ s.text = r.text ∧
      (∀ v, s.accepts v = r.accepts v) ∧ ofDatum r.toDatum = .ok s := by
  have hparse := parse_text fun c hc => (h.bound hc).wellFormed
  refine ⟨r.spelledOut, hparse, List.length_map .., ?_,
    beq_iff_key_eq.mpr r.key_spelledOut, r.text_spelledOut,
    r.accepts_spelledOut, ?_⟩
  · rw [spelledOut, List.forall₂_map_left_iff]
    exact List.forall₂_same.mpr fun c _ =>
      ⟨rfl, Version.sameParts_spelledOut c.bound, rfl⟩
  · rw [toDatum, ofDatum, Datum.read, hparse]
    rfl

/-- A ceiling at the greatest number is read back like any other: a
comparator expands to itself and needs no number above its own. -/
theorem comparators_read_back_expanded :
    ∃ s, parse ">=18446744073709551614.0.0-rc, <18446744073709551615.0.0" =
        .ok s ∧ s.size = 2 := by
  have hr : Obtainable ⟨[
      ⟨.atLeast, { Version.release 18446744073709551614 0 0 with
        prerelease := [⟨"rc"⟩], omission := .minorAndPatch }⟩,
      ⟨.less, Version.release 18446744073709551615 0 0⟩]⟩ :=
    .parse (show parse ",^ 18446744073709551614-rc" = _ by rfl)
  obtain ⟨s, hs, hsize, -⟩ := comparators_read_back hr
  exact ⟨s, hs, hsize⟩

end Range

end Versioning
