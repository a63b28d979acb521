/-
Reading a version by its pattern, and that nothing is lost in doing so.

The pattern is a regular expression with a group for each number and each
label. It divides a text in one way only (`captures_unique`), so the order
of a matcher's search does not matter. The reader looks at the groups
alone: numbers are the values of their digits, and a label is divided at
its dots and the pieces are taken as they are. This is `Version.parse`, on
every text (`parse_eq_pattern_parse`).

The groups of a match, put together again, are a body that the cuts of
`ofChars?` divide into those groups (`Captures.Fits.cut_body`), since no
group holds the mark that ends it. In the other direction a text that is
read is spelled, and a spelling is a match.
-/
import Versioning.Proofs.Grammar
import Versioning.Text.Regex

namespace Versioning.Version

open Text

namespace Pattern

open Regex (Groups Describes)

-- ========================================================= the pattern

/-- The pattern `0|[1-9][0-9]*`. -/
def numeral : Regex :=
  .alt (.char '0')
    (.seq (.one fun c => c.isDigit && c != '0') (.star (.one Char.isDigit)))

/-- The pattern `0|[1-9][0-9]*|[0-9]*[A-Za-z-][0-9A-Za-z-]*`. -/
def prereleaseToken : Regex :=
  .alt numeral
    (.seq (.star (.one Char.isDigit))
      (.seq (.one fun c => c.isAlpha || c == '-')
        (.star (.one fun c => c.isAlphanum || c == '-'))))

/-- The pattern `[0-9A-Za-z-]+`. -/
def buildToken : Regex :=
  .seq (.one fun c => c.isAlphanum || c == '-')
    (.star (.one fun c => c.isAlphanum || c == '-'))

/-- Tokens between dots. -/
def dotted (token : Regex) : Regex :=
  .seq token (.star (.seq (.char '.') token))

/-- A mark and the group behind it, both or neither. -/
def behind (mark : Char) (name : String) (e : Regex) : Regex :=
  .opt (.seq (.char mark) (.group name e))

/-- The second number and the third one behind it. -/
def minor : Regex :=
  .opt (.seq (.char '.') (.seq (.group "minor" numeral)
    (behind '.' "patch" numeral)))

/-- The pattern of a version text. -/
def pattern : Regex :=
  .seq (.star (.one isBlank)) <|
  .seq (.group "major" numeral) <|
  .seq minor <|
  .seq (behind '-' "prerelease" (dotted prereleaseToken)) <|
  .seq (behind '+' "build" (dotted buildToken)) <|
  .star (.one isBlank)

-- ========================================================== the reader

/-- The number of a group, if the group took part in the match: the value
of its digits, which has to fit. -/
def number (text : String) :
    Option (List Char) → Except Error (Option Component)
  | none => .ok none
  | some digits =>
    if value digits < UInt64.size then .ok (some (.ofNat (value digits)))
    else .error (.malformedVersion text)

/-- The identifiers of a label, which are its pieces unchecked. -/
def identifiers {kind : TokenKind} :
    Option (List Char) → List (Identifier kind)
  | none => []
  | some label => (label.splitOn '.').map fun t => ⟨String.ofList t⟩

/-- Which numbers did not take part. -/
def omission : Option Component → Option Component → Omission
  | none, _ => .minorAndPatch
  | some _, none => .patch
  | some _, some _ => .none

/-- The version that the groups of a match hold. -/
def ofGroups (text : String) (g : Groups) : Except Error Version := do
  let some major ← number text (g.lookup "major")
    | throw (.malformedVersion text)
  let minor ← number text (g.lookup "minor")
  let patch ← number text (g.lookup "patch")
  return {
    major
    minor := minor.getD 0
    patch := patch.getD 0
    prerelease := identifiers (g.lookup "prerelease")
    build := identifiers (g.lookup "build")
    omission := omission minor patch }

/-- Reads a version by the match of its pattern. -/
def parse (text : String) : Except Error Version :=
  match pattern.captures text.toList with
  | none => .error (.malformedVersion text)
  | some g => ofGroups text g

-- ============================================= what its parts describe

theorem describes_numeral : numeral.Describes Numeral := by
  refine ((Regex.describes_char '0').alt
    ((Regex.describes_one _).seq (Regex.describes_star_one _))).congr
    fun cs => ?_
  constructor
  · intro h
    rcases h with rfl | ⟨_, ds, ⟨c, hc, rfl⟩, hds, rfl⟩
    · exact .zero
    · rw [Bool.and_eq_true, bne_iff_ne] at hc
      exact .positive hc.1 hc.2 hds
  · intro h
    cases h with
    | zero => exact .inl rfl
    | @positive c ds hc h0 hds =>
      refine .inr ⟨[c], ds, ⟨c, ?_, rfl⟩, hds, rfl⟩
      rw [Bool.and_eq_true, bne_iff_ne]
      exact ⟨hc, h0⟩

theorem describes_prereleaseToken :
    prereleaseToken.Describes (TokenKind.prerelease.accepts · = true) := by
  refine (describes_numeral.alt ((Regex.describes_star_one _).seq
    ((Regex.describes_one _).seq (Regex.describes_star_one _)))).congr
    fun cs => Iff.trans ?_ prereleaseToken_iff
  simp only [Bool.or_eq_true, beq_iff_eq]
  constructor
  · intro h
    rcases h with h | ⟨digits, _, hdigits, ⟨_, ds, ⟨c, hc, rfl⟩, hds, rfl⟩,
      rfl⟩
    · exact .numeral h
    · exact .word hdigits hc hds
  · intro h
    cases h with
    | numeral h => exact .inl h
    | @word digits c ds hdigits hc hds =>
      exact .inr ⟨digits, c :: ds, hdigits, ⟨[c], ds, ⟨c, hc, rfl⟩, hds, rfl⟩,
        rfl⟩

theorem describes_buildToken :
    buildToken.Describes (TokenKind.build.accepts · = true) := by
  refine ((Regex.describes_one _).seq (Regex.describes_star_one _)).congr
    fun cs => Iff.trans ?_ buildToken_iff
  simp only [Bool.or_eq_true, beq_iff_eq]
  constructor
  · intro h
    obtain ⟨_, ds, ⟨c, hc, rfl⟩, hds, rfl⟩ := h
    exact ⟨List.cons_ne_nil c ds, List.forall_mem_cons.mpr ⟨hc, hds⟩⟩
  · intro h
    obtain ⟨c, ds, rfl⟩ := List.exists_cons_of_ne_nil h.ne_nil
    obtain ⟨hc, hds⟩ := List.forall_mem_cons.mp h.chars
    exact ⟨[c], ds, ⟨c, hc, rfl⟩, hds, rfl⟩

theorem intercalate_cons (t : List Char) (ts : List (List Char)) :
    ['.'].intercalate (t :: ts) = t ++ (ts.map ('.' :: ·)).flatten := by
  induction ts generalizing t with
  | nil => simp
  | cons u ts ih =>
    rw [List.intercalate_cons_cons, ih, List.map_cons, List.flatten_cons]
    simp

/-- Tokens behind dots. -/
theorem describes_rest {token : Regex} {ok : List Char → Prop}
    (htoken : token.Describes ok) :
    (Regex.star (.seq (.char '.') token)).Describes fun cs =>
      ∃ ts : List (List Char), (∀ t ∈ ts, ok t) ∧
        (ts.map ('.' :: ·)).flatten = cs := by
  have hround := (Regex.describes_char '.').seq htoken
  refine (hround.star fun part h => ?_).congr fun cs => ?_
  · obtain ⟨_, t, rfl, -, rfl⟩ := h
    exact List.cons_ne_nil '.' t
  constructor
  · intro h
    obtain ⟨parts, hparts, rfl⟩ := h
    have hpart : ∀ part ∈ parts, ok part.tail ∧ '.' :: part.tail = part := by
      intro part hmem
      obtain ⟨_, t, rfl, ht, rfl⟩ := hparts part hmem
      exact ⟨ht, rfl⟩
    refine ⟨parts.map List.tail, List.forall_mem_map.mpr fun part hmem =>
      (hpart part hmem).1, congrArg List.flatten ?_⟩
    rw [List.map_map]
    exact (List.map_congr_left fun part hmem => (hpart part hmem).2).trans
      (List.map_id parts)
  · intro h
    obtain ⟨ts, hts, rfl⟩ := h
    refine ⟨ts.map ('.' :: ·), fun part hpart => ?_, rfl⟩
    obtain ⟨t, ht, rfl⟩ := List.mem_map.mp hpart
    exact ⟨['.'], t, rfl, hts t ht, rfl⟩

/-- A division at dots gives tokens of the kind. -/
def IsLabel (kind : TokenKind) (label : List Char) : Prop :=
  ∀ t ∈ label.splitOn '.', kind.accepts t = true

theorem isLabel_iff {kind : TokenKind} {label : List Char} :
    IsLabel kind label ↔ ∃ t ts, (∀ u ∈ t :: ts, kind.accepts u = true) ∧
      ['.'].intercalate (t :: ts) = label := by
  constructor
  · intro h
    have hsplit := splitOn_eq_iff.mp (rfl : label.splitOn '.' = _)
    obtain ⟨t, ts, hts⟩ := List.exists_cons_of_ne_nil hsplit.1
    rw [IsLabel, hts] at h
    rw [hts] at hsplit
    exact ⟨t, ts, h, hsplit.2.2⟩
  · intro h
    obtain ⟨t, ts, hts, rfl⟩ := h
    have hdot : ∀ u ∈ t :: ts, '.' ∉ u := fun u hu =>
      TokenKind.dot_not_mem (hts u hu)
    rw [IsLabel, splitOn_eq_iff.mpr ⟨List.cons_ne_nil t ts, hdot, rfl⟩]
    exact hts

/-- Tokens between dots are the pieces that a division at dots gives
back. -/
theorem describes_dotted {token : Regex} {kind : TokenKind}
    (htoken : token.Describes (kind.accepts · = true)) :
    (dotted token).Describes (IsLabel kind) := by
  refine (htoken.seq (describes_rest htoken)).congr fun cs => ?_
  rw [isLabel_iff]
  constructor
  · intro h
    obtain ⟨t, _, ht, ⟨ts, hts, rfl⟩, rfl⟩ := h
    exact ⟨t, ts, List.forall_mem_cons.mpr ⟨ht, hts⟩, intercalate_cons t ts⟩
  · intro h
    obtain ⟨t, ts, hts, rfl⟩ := h
    obtain ⟨ht, hts⟩ := List.forall_mem_cons.mp hts
    exact ⟨t, _, ht, ⟨ts, hts, rfl⟩, (intercalate_cons t ts).symm⟩

-- ======================================================= the captures

/-- What a group holds, if it took part in the match. -/
def held (name : String) : Option (List Char) → Groups
  | none => []
  | some cs => [(name, cs)]

theorem yields_behind {e : Regex} {ok : List Char → Prop}
    (he : e.Describes ok) (mark : Char) (name : String) :
    (behind mark name e).Yields (fun part => ∀ l ∈ part, ok l) (uncut mark)
      (held name) := by
  have hseq := (Regex.describes_char mark).yields.seq (he.group name)
  intro cs g
  constructor
  · intro h
    rcases h with h | ⟨rfl, rfl⟩
    · obtain ⟨⟨_, l⟩, ⟨rfl, hl⟩, rfl, rfl⟩ := (hseq cs g).mp h
      exact ⟨some l, by simpa using hl, rfl, rfl⟩
    · exact ⟨none, by simp, rfl, rfl⟩
  · intro h
    obtain ⟨part, hpart, rfl, rfl⟩ := h
    cases part with
    | none => exact .inr ⟨rfl, rfl⟩
    | some l =>
      exact .inl ((hseq _ _).mpr ⟨([mark], l), ⟨rfl, hpart l rfl⟩, rfl, rfl⟩)

/-- What the groups of a match hold. -/
@[ext]
structure Captures where
  major : List Char
  minor : Option (List Char)
  patch : Option (List Char)
  prerelease : Option (List Char)
  build : Option (List Char)

namespace Captures

/-- The groups in the order of the pattern. -/
def groups (c : Captures) : Groups :=
  ("major", c.major) :: (held "minor" c.minor ++ (held "patch" c.patch ++
    (held "prerelease" c.prerelease ++ held "build" c.build)))

/-- The text between the blanks. -/
def body (c : Captures) : List Char :=
  c.major ++ (uncut '.' c.minor ++ uncut '.' c.patch ++
    (uncut '-' c.prerelease ++ uncut '+' c.build))

/-- The captures are what the groups of the pattern ask for. -/
structure Fits (c : Captures) : Prop where
  major : Numeral c.major
  minor : ∀ n ∈ c.minor, Numeral n
  patch : ∀ n ∈ c.patch, Numeral n
  patch_behind_minor : c.minor = none → c.patch = none
  prerelease : ∀ l ∈ c.prerelease, IsLabel .prerelease l
  build : ∀ l ∈ c.build, IsLabel .build l

end Captures

/-- The second number may be missing, and the third one with it or
alone. -/
theorem yields_minor :
    minor.Yields
      (fun a : Option (List Char) × Option (List Char) =>
        (∀ n ∈ a.1, Numeral n) ∧ (∀ n ∈ a.2, Numeral n) ∧
          (a.1 = none → a.2 = none))
      (fun a => uncut '.' a.1 ++ uncut '.' a.2)
      (fun a => held "minor" a.1 ++ held "patch" a.2) := by
  have hseq := (Regex.describes_char '.').yields.seq
    ((describes_numeral.group "minor").seq
      (yields_behind describes_numeral '.' "patch"))
  intro cs g
  constructor
  · intro h
    rcases h with h | ⟨rfl, rfl⟩
    · obtain ⟨⟨_, n, patch⟩, ⟨rfl, hn, hpatch⟩, rfl, rfl⟩ := (hseq cs g).mp h
      exact ⟨(some n, patch), ⟨by simpa using hn, hpatch, by simp⟩, rfl, rfl⟩
    · exact ⟨(none, none), by simp, rfl, rfl⟩
  · intro h
    obtain ⟨⟨minor, patch⟩, ⟨hminor, hpatch, hbehind⟩, rfl, rfl⟩ := h
    cases minor with
    | none =>
      obtain rfl : patch = none := hbehind rfl
      exact .inr ⟨rfl, rfl⟩
    | some n =>
      exact .inl ((hseq _ _).mpr ⟨(['.'], n, patch),
        ⟨rfl, hminor n rfl, hpatch⟩, rfl, rfl⟩)

/-- A match is blanks, captures that fit, and blanks. -/
theorem matches_pattern_iff {cs : List Char} {g : Groups} :
    pattern.Matches cs g ↔ ∃ (lead trail : List Char) (c : Captures),
      Blanks lead ∧ c.Fits ∧ Blanks trail ∧ lead ++ c.body ++ trail = cs ∧
        c.groups = g := by
  have blanks : (Regex.star (.one isBlank)).Yields Blanks id fun _ => [] :=
    (Regex.describes_star_one isBlank).yields
  have major := describes_numeral.group "major"
  have prerelease := yields_behind
    (describes_dotted describes_prereleaseToken) '-' "prerelease"
  have build := yields_behind (describes_dotted describes_buildToken) '+'
    "build"
  rw [pattern, blanks.seq (major.seq (yields_minor.seq (prerelease.seq
    (build.seq blanks))))]
  constructor
  · intro h
    obtain ⟨⟨lead, major, ⟨minor, patch⟩, prerelease, build, trail⟩,
      ⟨hlead, hmajor, ⟨hminor, hpatch, hbehind⟩, hprerelease, hbuild,
        htrail⟩, rfl, rfl⟩ := h
    refine ⟨lead, trail, ⟨major, minor, patch, prerelease, build⟩, hlead,
      ⟨hmajor, hminor, hpatch, hbehind, hprerelease, hbuild⟩, htrail, ?_, ?_⟩
    · simp only [Captures.body, List.append_assoc, id]
    · simp only [Captures.groups, List.append_assoc, List.append_nil,
        List.nil_append, List.singleton_append]
  · intro h
    obtain ⟨lead, trail, c, hlead, hc, htrail, rfl, rfl⟩ := h
    refine ⟨⟨lead, c.major, ⟨c.minor, c.patch⟩, c.prerelease, c.build, trail⟩,
      ⟨hlead, hc.major, ⟨hc.minor, hc.patch, hc.patch_behind_minor⟩,
        hc.prerelease, hc.build, htrail⟩, ?_, ?_⟩
    · simp only [Captures.body, List.append_assoc, id]
    · simp only [Captures.groups, List.append_assoc, List.append_nil,
        List.nil_append, List.singleton_append]

-- ============================================== one division of a text

theorem IsLabel.mem {kind : TokenKind} {label : List Char}
    (h : IsLabel kind label) {x : Char} (hx : x ∈ label) :
    x = '.' ∨ isTokenChar x = true := by
  obtain ⟨t, ts, hts, rfl⟩ := isLabel_iff.mp h
  rcases mem_intercalate hx with hx | ⟨u, hu, hx⟩
  · exact .inl hx
  · exact .inr (TokenKind.isTokenChar_of_mem (hts u hu) hx)

/-- What stands behind the mark of a label. -/
theorem mem_uncut {kind : TokenKind} {part : Option (List Char)}
    (h : ∀ l ∈ part, IsLabel kind l) {mark x : Char}
    (hx : x ∈ uncut mark part) :
    x = mark ∨ x = '.' ∨ isTokenChar x = true := by
  cases part with
  | none => cases hx
  | some l => exact (List.mem_cons.mp hx).imp_right (h l rfl).mem

namespace Captures

variable {c d : Captures}

/-- The numerals of the numbers that took part. -/
def numerals (c : Captures) : List (List Char) :=
  c.major :: (c.minor.toList ++ c.patch.toList)

/-- The numbers, the prerelease and the build metadata, each with its
mark. -/
theorem body_eq (c : Captures) :
    c.body = ['.'].intercalate c.numerals ++
      (uncut '-' c.prerelease ++ uncut '+' c.build) := by
  rw [body, ← List.append_assoc]
  congr 1
  rw [numerals, intercalate_cons]
  cases c.minor <;> cases c.patch <;> simp [uncut]

namespace Fits

theorem numeral_of_mem (h : c.Fits) {n : List Char}
    (hn : n ∈ c.numerals) : Numeral n := by
  simp only [numerals, List.mem_cons, List.mem_append,
    Option.mem_toList] at hn
  rcases hn with rfl | hn | hn
  · exact h.major
  · exact h.minor n hn
  · exact h.patch n hn

/-- The cuts of a reader give the captures back, since what stands in
front of a mark does not hold it. -/
theorem cut_body (h : c.Fits) :
    ∃ front numbers, cut '+' c.body = (front, c.build) ∧
      cut '-' front = (numbers, c.prerelease) ∧
      numbers.splitOn '.' = c.numerals := by
  have hnumbers : ∀ {x : Char}, x ∈ ['.'].intercalate c.numerals →
      x = '.' ∨ x.isDigit = true := mem_intercalate_numerals
    fun n hn => h.numeral_of_mem hn
  have hhyphen : '-' ∉ ['.'].intercalate c.numerals := fun hmem =>
    absurd (hnumbers hmem) (by decide)
  have hplus : '+' ∉ ['.'].intercalate c.numerals ++
      uncut '-' c.prerelease := fun hmem => by
    rcases List.mem_append.mp hmem with hmem | hmem
    · exact absurd (hnumbers hmem) (by decide)
    · exact absurd (mem_uncut h.prerelease hmem) (by decide)
  refine ⟨_, _, cut_eq_iff.mpr ⟨hplus, ?_⟩, cut_eq_iff.mpr ⟨hhyphen, rfl⟩,
    splitOn_intercalate_numerals (List.cons_ne_nil _ _)
      fun n hn => h.numeral_of_mem hn⟩
  rw [body_eq, List.append_assoc]

theorem isBlank_eq_false (h : c.Fits) {x : Char} (hx : x ∈ c.body) :
    isBlank x = false := by
  rw [body_eq, List.mem_append, List.mem_append] at hx
  rcases hx with hx | hx | hx
  · rcases mem_intercalate_numerals (fun n hn => h.numeral_of_mem hn) hx with
      rfl | hx
    · decide
    · exact isBlank_eq_false_of_isTokenChar (isTokenChar_of_isDigit hx)
  · rcases mem_uncut h.prerelease hx with rfl | rfl | hx
    · decide
    · decide
    · exact isBlank_eq_false_of_isTokenChar hx
  · rcases mem_uncut h.build hx with rfl | rfl | hx
    · decide
    · decide
    · exact isBlank_eq_false_of_isTokenChar hx

theorem trim_eq (h : c.Fits) {lead trail : List Char} (hlead : Blanks lead)
    (htrail : Blanks trail) : trim (lead ++ c.body ++ trail) = c.body := by
  rw [trim_append_blanks hlead htrail]
  exact trim_of_no_blank fun x hx => h.isBlank_eq_false hx

theorem eq_of_body_eq (hc : c.Fits) (hd : d.Fits) (h : c.body = d.body) :
    c = d := by
  obtain ⟨front, numbers, hplus, hhyphen, hsplit⟩ := hc.cut_body
  obtain ⟨front', numbers', hplus', hhyphen', hsplit'⟩ := hd.cut_body
  rw [h, hplus', Prod.mk.injEq] at hplus
  obtain ⟨rfl, hbuild⟩ := hplus
  rw [hhyphen', Prod.mk.injEq] at hhyphen
  obtain ⟨rfl, hprerelease⟩ := hhyphen
  rw [hsplit', numerals, numerals, List.cons.injEq] at hsplit
  obtain ⟨hmajor, hrest⟩ := hsplit
  -- a single numeral behind the first is that of the second number
  have hminor : c.minor = d.minor ∧ c.patch = d.patch := by
    have hcp := hc.patch_behind_minor
    have hdp := hd.patch_behind_minor
    generalize c.minor = m at *
    generalize c.patch = p at *
    generalize d.minor = m' at *
    generalize d.patch = p' at *
    cases m <;> cases p <;> cases m' <;> cases p' <;> simp_all
  exact Captures.ext hmajor.symm hminor.1 hminor.2 hprerelease.symm
    hbuild.symm

end Fits

end Captures

/-- A text is matched in one way as far as its groups are concerned. -/
theorem captures_unique {cs : List Char} {g k : Groups}
    (hg : pattern.Matches cs g) (hk : pattern.Matches cs k) : g = k := by
  obtain ⟨lead, trail, c, hlead, hc, htrail, hcs, rfl⟩ :=
    matches_pattern_iff.mp hg
  obtain ⟨lead', trail', d, hlead', hd, htrail', rfl, rfl⟩ :=
    matches_pattern_iff.mp hk
  have hbody : c.body = d.body := by
    rw [← hc.trim_eq hlead htrail, hcs, hd.trim_eq hlead' htrail']
  rw [hc.eq_of_body_eq hd hbody]

/-- So the matcher's first match is the one there is. -/
theorem captures_eq_some_iff {cs : List Char} {g : Groups} :
    pattern.captures cs = some g ↔ pattern.Matches cs g := by
  constructor
  · exact Regex.matches_of_captures_eq_some
  · intro h
    obtain ⟨k, hk⟩ := Option.ne_none_iff_exists'.mp (Regex.captures_ne_none h)
    rw [hk, captures_unique h (Regex.matches_of_captures_eq_some hk)]

/-- A hyphen opens the prerelease and then is an identifier of it. -/
example : pattern.captures " 1.2-0a.-+001".toList =
    some [("major", ['1']), ("minor", ['2']),
      ("prerelease", "0a.-".toList), ("build", "001".toList)] := by
  rfl

-- ===================================================== what is read

theorem number_eq (text : String) {n : List Char} (hn : Numeral n) :
    number text (some n) =
      match Component.ofNumeral? n with
      | some c => .ok (some c)
      | none => .error (.malformedVersion text) := by
  have hvalue : Nat.ofDigitChars 10 n 0 = value n := rfl
  rw [number, Component.ofNumeral?, numeral_iff.mp hn, hvalue]
  by_cases h : value n < UInt64.size <;> simp [h]

theorem identifiers?_eq_some {kind : TokenKind} {part : Option (List Char)}
    (h : ∀ l ∈ part, IsLabel kind l) :
    identifiers? kind part = some (identifiers part) := by
  cases part with
  | none => rfl
  | some l =>
    refine mapM_ofChars?_eq_some_iff.mpr ⟨fun id hid => ?_, ?_⟩
    · obtain ⟨t, ht, rfl⟩ := List.mem_map.mp hid
      rw [Identifier.WellFormed, String.toList_ofList]
      exact h l rfl t ht
    · simp [identifiers, Function.comp_def]

namespace Captures

variable {c : Captures}

theorem lookup_groups (c : Captures) :
    c.groups.lookup "major" = some c.major ∧
      c.groups.lookup "minor" = c.minor ∧
      c.groups.lookup "patch" = c.patch ∧
      c.groups.lookup "prerelease" = c.prerelease ∧
      c.groups.lookup "build" = c.build := by
  obtain ⟨major, minor, patch, prerelease, build⟩ := c
  cases minor <;> cases patch <;> cases prerelease <;> cases build <;>
    exact ⟨rfl, rfl, rfl, rfl, rfl⟩

theorem Fits.ofChars?_body (h : c.Fits) :
    ofChars? c.body = (ofNumerals? c.numerals).map fun v =>
      { v with
        prerelease := identifiers c.prerelease
        build := identifiers c.build } := by
  obtain ⟨front, numbers, hplus, hhyphen, hsplit⟩ := h.cut_body
  rw [ofChars?, hplus, hhyphen, hsplit, identifiers?_eq_some h.prerelease,
    identifiers?_eq_some h.build]
  cases ofNumerals? c.numerals <;> rfl

theorem Fits.ofGroups_eq (h : c.Fits) (text : String) :
    ofGroups text c.groups =
      match ofChars? c.body with
      | some v => .ok v
      | none => .error (.malformedVersion text) := by
  obtain ⟨hmajor, hminor, hpatch, hprerelease, hbuild⟩ := c.lookup_groups
  rw [h.ofChars?_body, ofGroups, hmajor, hminor, hpatch, hprerelease, hbuild,
    number_eq text h.major, numerals]
  have hminor := h.minor
  have hpatch := h.patch
  have hbehind := h.patch_behind_minor
  generalize c.minor = minor at *
  generalize c.patch = patch at *
  cases minor with
  | none =>
    obtain rfl : patch = none := hbehind rfl
    simp only [Option.toList_none, List.append_nil, ofNumerals?]
    cases Component.ofNumeral? c.major <;> rfl
  | some m =>
    rw [number_eq text (hminor m rfl)]
    cases patch with
    | none =>
      simp only [Option.toList_some, Option.toList_none, List.append_nil,
        ofNumerals?]
      cases Component.ofNumeral? c.major <;>
        cases Component.ofNumeral? m <;> rfl
    | some p =>
      rw [number_eq text (hpatch p rfl)]
      simp only [Option.toList_some, List.singleton_append, ofNumerals?]
      cases Component.ofNumeral? c.major <;>
        cases Component.ofNumeral? m <;>
          cases Component.ofNumeral? p <;> rfl

end Captures

end Pattern

-- ============================================================ agreement

/-- Tokens behind a mark are a label behind it, or nothing. -/
theorem Pattern.exists_uncut_eq_marked (kind : TokenKind) (mark : Char)
    {tokens : List (List Char)} (h : ∀ t ∈ tokens, kind.accepts t = true) :
    ∃ part, (∀ l ∈ part, IsLabel kind l) ∧
      uncut mark part = marked mark tokens := by
  cases tokens with
  | nil => exact ⟨none, by simp, rfl⟩
  | cons t ts =>
    refine ⟨some (['.'].intercalate (t :: ts)), fun l hl => ?_, rfl⟩
    exact isLabel_iff.mpr ⟨t, ts, h, Option.some.inj hl⟩

/-- A spelled text is matched. -/
theorem Spelling.exists_matches (s : Spelling) :
    ∃ g, Pattern.pattern.Matches s.chars g := by
  obtain ⟨prerelease, hprerelease, hpre⟩ :=
    Pattern.exists_uncut_eq_marked .prerelease '-' fun t ht =>
      prereleaseToken_iff.mp (s.tokens_prerelease t ht)
  obtain ⟨build, hbuild, hbu⟩ :=
    Pattern.exists_uncut_eq_marked .build '+' fun t ht =>
      buildToken_iff.mp (s.tokens_build t ht)
  refine ⟨_, Pattern.matches_pattern_iff.mpr ⟨s.lead, s.trail,
    ⟨s.major, s.minor, s.patch, prerelease, build⟩, s.blanks_lead,
    ⟨s.number_major.numeral, fun n hn => (s.number_minor n hn).numeral,
      fun n hn => (s.number_patch n hn).numeral, s.patch_behind_minor,
      hprerelease, hbuild⟩, s.blanks_trail, ?_, rfl⟩⟩
  rw [Spelling.chars, Spelling.body, Pattern.Captures.body, hpre, hbu]
  simp only [List.append_assoc]

/-- Reading by the match of the pattern is reading: on every text the same
version, or the same refusal. -/
theorem parse_eq_pattern_parse (text : String) :
    parse text = Pattern.parse text := by
  by_cases h : ∃ g, Pattern.pattern.Matches text.toList g
  · obtain ⟨g, hg⟩ := h
    obtain ⟨lead, trail, c, hlead, hc, htrail, hcs, rfl⟩ :=
      Pattern.matches_pattern_iff.mp hg
    rw [Pattern.parse, Pattern.captures_eq_some_iff.mpr hg, parse, ← hcs,
      hc.trim_eq hlead htrail]
    exact (hc.ofGroups_eq text).symm
  · have hnone : Pattern.pattern.captures text.toList = none :=
      Option.eq_none_iff_forall_ne_some.mpr fun g hg =>
        h ⟨g, Pattern.captures_eq_some_iff.mp hg⟩
    rw [Pattern.parse, hnone]
    refine parse_eq_error_of_forall_ne fun v hv => h ?_
    obtain ⟨s, hs, -⟩ := exists_spelling_of_parse_eq_ok hv
    rw [← hs]
    exact s.exists_matches

end Versioning.Version
