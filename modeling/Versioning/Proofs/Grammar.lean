/-
The grammar of version texts, and that reading follows it.

A version text is

    blanks major [. minor [. patch]] [- prerelease] [+ build] blanks

with numerals for the numbers and lists of tokens between dots for the
labels. `Spelling` has one field for each part and a proof that it is what
the grammar asks for; no text is cut and none is trimmed. A text is read
exactly when a spelling derives it, and then only one does
(`parse_spelling`).

Reading is known to invert writing. So everything follows once a spelling
is the written form of what it denotes with blanks around it
(`Denotes.toList_written`), and every written form is spelled so
(`exists_denotes_of_wellFormed`).
-/
import Versioning.Proofs.Token
import Versioning.Version.Spelling

namespace Versioning.Version

open Text

-- ==================================== characters of a written form

/-- A written form holds characters of tokens, dots and plus signs. -/
theorem WellFormed.mem_written {v : Version} (h : v.WellFormed) {c : Char}
    (hc : c ∈ v.written.toList) :
    isTokenChar c = true ∨ c = '.' ∨ c = '+' := by
  simp only [written, labels, String.toList_append, List.mem_append] at hc
  rcases hc with hc | hc | hc
  · rcases mem_dotted hc with rfl | hc
    · exact .inr (.inl rfl)
    · exact .inl (isTokenChar_of_isDigit hc)
  · rcases mem_label hc with hc | rfl | ⟨text, htext, hc⟩
    · obtain rfl : c = '-' := by simpa using hc
      exact .inl (by decide)
    · exact .inr (.inl rfl)
    · obtain ⟨id, hid, rfl⟩ := List.mem_map.mp htext
      exact .inl ((h.prerelease id hid).isTokenChar hc)
  · rcases mem_label hc with hc | rfl | ⟨text, htext, hc⟩
    · exact .inr (.inr (by simpa using hc))
    · exact .inr (.inl rfl)
    · obtain ⟨id, hid, rfl⟩ := List.mem_map.mp htext
      exact .inl ((h.build id hid).isTokenChar hc)

/-- A written form holds no blank. -/
theorem WellFormed.isBlank_eq_false {v : Version} (h : v.WellFormed)
    {c : Char} (hc : c ∈ v.written.toList) : isBlank c = false := by
  rcases h.mem_written hc with hc | rfl | rfl
  · exact isBlank_eq_false_of_isTokenChar hc
  · decide
  · decide

-- ========================================================= the grammar

/-- Tokens between dots behind a mark; no tokens, no mark. -/
def marked (mark : Char) : List (List Char) → List Char
  | [] => []
  | tokens => mark :: ['.'].intercalate tokens

/-- The parts a version text is written with, each of them as the grammar
asks for it. A label without tokens is one that is not written. -/
@[ext]
structure Spelling where
  lead : List Char
  major : List Char
  minor : Option (List Char)
  patch : Option (List Char)
  prerelease : List (List Char)
  build : List (List Char)
  trail : List Char
  blanks_lead : Blanks lead
  number_major : IsNumber major
  number_minor : ∀ m ∈ minor, IsNumber m
  number_patch : ∀ p ∈ patch, IsNumber p
  patch_behind_minor : minor = none → patch = none
  tokens_prerelease : ∀ t ∈ prerelease, PrereleaseToken t
  tokens_build : ∀ t ∈ build, BuildToken t
  blanks_trail : Blanks trail

namespace Spelling

/-- The text between the blanks. -/
def body (s : Spelling) : List Char :=
  s.major ++ uncut '.' s.minor ++ uncut '.' s.patch ++
    marked '-' s.prerelease ++ marked '+' s.build

/-- The text that is spelled. -/
def chars (s : Spelling) : List Char :=
  s.lead ++ s.body ++ s.trail

/-- Which numbers are not written. -/
def omission (s : Spelling) : Omission :=
  match s.minor, s.patch with
  | none, _ => .minorAndPatch
  | some _, none => .patch
  | some _, some _ => .none

/-- The version holds what is spelled: the values of the numerals, zero
for a number that is not written, the tokens in the order of the text, and
which numbers are missing. -/
structure Denotes (s : Spelling) (v : Version) : Prop where
  major : v.major.toNat = value s.major
  minor : v.minor.toNat = s.minor.elim 0 value
  patch : v.patch.toNat = s.patch.elim 0 value
  prerelease : v.prerelease.map (fun id => id.text.toList) = s.prerelease
  build : v.build.map (fun id => id.text.toList) = s.build
  omission : v.omission = s.omission

-- ============================================== from spelling to version

/-- The number that a numeral stands for, if it is a number. -/
theorem toNat_ofNat_value {cs : List Char} (h : IsNumber cs) :
    (UInt64.ofNat (value cs)).toNat = value cs :=
  UInt64.toNat_ofNat_of_lt' (Nat.lt_of_le_of_lt h.value_le (by decide))

/-- Every spelling denotes a version. -/
theorem exists_denotes (s : Spelling) : ∃ v, s.Denotes v := by
  have number : ∀ cs : Option (List Char), (∀ c ∈ cs, IsNumber c) →
      (UInt64.ofNat (cs.elim 0 value)).toNat = cs.elim 0 value :=
    fun cs h => by
      cases cs with
      | none => rfl
      | some c => exact toNat_ofNat_value (h c rfl)
  refine ⟨{ major := .ofNat (value s.major)
            minor := .ofNat (s.minor.elim 0 value)
            patch := .ofNat (s.patch.elim 0 value)
            prerelease := s.prerelease.map fun t => ⟨String.ofList t⟩
            build := s.build.map fun t => ⟨String.ofList t⟩
            omission := s.omission },
    toNat_ofNat_value s.number_major, number s.minor s.number_minor,
    number s.patch s.number_patch, ?_, ?_, rfl⟩
  · simp [Function.comp_def]
  · simp [Function.comp_def]

variable {s : Spelling} {v : Version}

/-- A number is written as the numeral it is the value of. -/
theorem toList_text_of_value {c : Component} {cs : List Char}
    (h : IsNumber cs) (hc : c.toNat = value cs) : c.text.toList = cs :=
  Component.toList_text_eq_iff.mpr ⟨numeral_iff.mp h.numeral, hc.symm⟩

/-- A number that is not spelled is zero. -/
theorem eq_zero_of_eq_none {c : Component} {o : Option (List Char)}
    (hc : c.toNat = o.elim 0 value) (ho : o = none) : c = 0 := by
  apply UInt64.toNat_inj.mp
  rw [hc, ho]
  rfl

theorem Denotes.text_major (h : s.Denotes v) :
    v.major.text.toList = s.major :=
  toList_text_of_value s.number_major h.major

theorem Denotes.text_minor (h : s.Denotes v) {m : List Char}
    (hm : s.minor = some m) : v.minor.text.toList = m :=
  toList_text_of_value (s.number_minor m hm) (by rw [h.minor, hm]; rfl)

theorem Denotes.text_patch (h : s.Denotes v) {p : List Char}
    (hp : s.patch = some p) : v.patch.text.toList = p :=
  toList_text_of_value (s.number_patch p hp) (by rw [h.patch, hp]; rfl)

/-- What a spelling denotes is well formed. -/
theorem Denotes.wellFormed (h : s.Denotes v) : v.WellFormed where
  prerelease id hid := by
    refine prereleaseToken_iff.mp (s.tokens_prerelease _ ?_)
    rw [← h.prerelease]
    exact List.mem_map_of_mem hid
  build id hid := by
    refine buildToken_iff.mp (s.tokens_build _ ?_)
    rw [← h.build]
    exact List.mem_map_of_mem hid
  minorAndPatch ho := by
    rw [h.omission, Spelling.omission] at ho
    cases hm : s.minor with
    | none =>
      -- the patch number is not spelled either, so both are zero
      have hp := s.patch_behind_minor hm
      exact ⟨eq_zero_of_eq_none h.minor hm, eq_zero_of_eq_none h.patch hp⟩
    | some m => cases hp : s.patch <;> simp [hm, hp] at ho
  patch ho := by
    rw [h.omission, Spelling.omission] at ho
    cases hp : s.patch with
    | none => exact eq_zero_of_eq_none h.patch hp
    | some p => cases hm : s.minor <;> simp [hm, hp] at ho

/-- A label is written as its tokens behind its mark. -/
theorem toList_label_eq_marked (mark : Char) (ids : List String) :
    (label (String.singleton mark) ids).toList =
      marked mark (ids.map String.toList) := by
  rw [toList_label]
  cases ids with
  | nil => rfl
  | cons id ids => simp [marked]

/-- The body of a spelling is the written form of what it denotes. -/
theorem Denotes.toList_written (h : s.Denotes v) :
    v.written.toList = s.body := by
  have hnumbers : (dotted v.writtenNumbers).toList =
      s.major ++ uncut '.' s.minor ++ uncut '.' s.patch := by
    rw [toList_dotted, writtenNumbers, h.omission, Spelling.omission]
    cases hm : s.minor with
    | none => simp [uncut, h.text_major, s.patch_behind_minor hm]
    | some m =>
      cases hp : s.patch with
      | none => simp [uncut, h.text_major, h.text_minor hm]
      | some p => simp [uncut, h.text_major, h.text_minor hm, h.text_patch hp]
  have hlabels : v.labels.toList =
      marked '-' s.prerelease ++ marked '+' s.build := by
    rw [labels, String.toList_append, ← h.prerelease, ← h.build]
    congr 1
    · exact (toList_label_eq_marked '-' _).trans (by rw [List.map_map]; rfl)
    · exact (toList_label_eq_marked '+' _).trans (by rw [List.map_map]; rfl)
  rw [written, String.toList_append, hnumbers, hlabels]
  simp only [body, List.append_assoc]

-- ============================================== from version to spelling

/-- The written form of a number is one that the grammar admits. -/
theorem isNumber_text (c : Component) : IsNumber c.text.toList := by
  obtain ⟨hn, hv⟩ := Component.toList_text_eq_iff.mp (rfl : c.text.toList = _)
  exact ⟨numeral_iff.mpr hn, by rw [hv]; exact Nat.le_of_lt_succ c.toNat_lt⟩

/-- A well-formed version is denoted by a spelling, with any blanks around
it. -/
theorem exists_denotes_of_wellFormed (hv : v.WellFormed)
    {lead trail : List Char} (hlead : Blanks lead) (htrail : Blanks trail) :
    ∃ s : Spelling, s.Denotes v ∧ s.lead = lead ∧ s.trail = trail := by
  refine ⟨{
    lead, trail
    major := v.major.text.toList
    minor := if v.omission = .minorAndPatch then none
      else some v.minor.text.toList
    patch := if v.omission = .none then some v.patch.text.toList else none
    prerelease := v.prerelease.map fun id => id.text.toList
    build := v.build.map fun id => id.text.toList
    blanks_lead := hlead
    number_major := isNumber_text v.major
    number_minor := fun m hm => ?_
    number_patch := fun p hp => ?_
    patch_behind_minor := fun hm => ?_
    tokens_prerelease := fun t ht => ?_
    tokens_build := fun t ht => ?_
    blanks_trail := htrail }, ?_, rfl, rfl⟩
  · obtain ⟨-, rfl⟩ : _ ∧ v.minor.text.toList = m := by simpa using hm
    exact isNumber_text v.minor
  · obtain ⟨-, rfl⟩ : _ ∧ v.patch.text.toList = p := by simpa using hp
    exact isNumber_text v.patch
  · have ho : v.omission = .minorAndPatch := by simpa using hm
    simp [ho]
  · obtain ⟨id, hid, rfl⟩ := List.mem_map.mp ht
    exact prereleaseToken_iff.mpr (hv.prerelease id hid)
  · obtain ⟨id, hid, rfl⟩ := List.mem_map.mp ht
    exact buildToken_iff.mpr (hv.build id hid)
  · -- what is not written is zero by well-formedness, as a spelling has it
    have value_text : ∀ c : Component, c.toNat = value c.text.toList :=
      fun c => (Component.toList_text_eq_iff.mp rfl).2.symm
    cases ho : v.omission with
    | none => constructor <;> simp [value_text, Spelling.omission, ho]
    | patch =>
      have hp := hv.patch ho
      constructor <;> simp [value_text, Spelling.omission, ho]
      rw [hp]
      rfl
    | minorAndPatch =>
      obtain ⟨hm, hp⟩ := hv.minorAndPatch ho
      constructor <;> simp [value_text, Spelling.omission, ho]
      · rw [hm]; rfl
      · rw [hp]; rfl

-- ========================================================== uniqueness

theorem isBlank_eq_false_of_mem_body (s : Spelling) {c : Char}
    (hc : c ∈ s.body) : isBlank c = false := by
  obtain ⟨v, h⟩ := s.exists_denotes
  rw [← h.toList_written] at hc
  exact h.wellFormed.isBlank_eq_false hc

theorem trim_chars (s : Spelling) : trim s.chars = s.body := by
  rw [chars, trim_append_blanks s.blanks_lead s.blanks_trail]
  exact trim_of_no_blank fun c hc => s.isBlank_eq_false_of_mem_body hc

/-- The blanks in front are as many as there are. -/
theorem takeWhile_isBlank_chars (s : Spelling) :
    s.chars.takeWhile isBlank = s.lead := by
  obtain ⟨c, cs, hbody⟩ : ∃ c cs, s.body = c :: cs := by
    have hne := s.number_major.numeral.ne_nil
    exact List.exists_cons_of_ne_nil (by simp [body, hne])
  have hc := s.isBlank_eq_false_of_mem_body (c := c) (by simp [hbody])
  rw [chars, List.append_assoc, List.takeWhile_append_of_pos s.blanks_lead,
    hbody]
  simp [hc]

theorem Denotes.minor_eq (h : s.Denotes v) :
    s.minor = if v.omission = .minorAndPatch then none
      else some v.minor.text.toList := by
  rw [h.omission, Spelling.omission]
  cases hm : s.minor with
  | none => simp
  | some m => cases hp : s.patch <;> simp [h.text_minor hm]

theorem Denotes.patch_eq (h : s.Denotes v) :
    s.patch = if v.omission = .none then some v.patch.text.toList
      else none := by
  rw [h.omission, Spelling.omission]
  cases hp : s.patch with
  | none => cases hm : s.minor <;> simp
  | some p =>
    cases hm : s.minor with
    | none => simp [s.patch_behind_minor hm] at hp
    | some m => simp [h.text_patch hp]

/-- Spellings of one text that denote one version are the same. -/
theorem Denotes.eq_of_chars_eq {s' : Spelling} (h : s.Denotes v)
    (h' : s'.Denotes v) (hchars : s.chars = s'.chars) : s = s' := by
  -- blanks in front and body are read off, so the blanks behind are left
  have hlead : s.lead = s'.lead := by
    rw [← s.takeWhile_isBlank_chars, hchars, s'.takeWhile_isBlank_chars]
  have hbody : s.body = s'.body := by
    rw [← h.toList_written, ← h'.toList_written]
  have htrail : s.trail = s'.trail := by
    rw [chars, chars, hlead, hbody] at hchars
    exact List.append_cancel_left hchars
  exact Spelling.ext hlead (h.text_major.symm.trans h'.text_major)
    (h.minor_eq.trans h'.minor_eq.symm) (h.patch_eq.trans h'.patch_eq.symm)
    (h.prerelease.symm.trans h'.prerelease) (h.build.symm.trans h'.build)
    htrail

end Spelling

-- ============================================================= reading

/-- A spelled text is read as what the spelling denotes. -/
theorem Spelling.Denotes.parse_eq_ok {s : Spelling} {v : Version}
    (h : s.Denotes v) {text : String} (hs : s.chars = text.toList) :
    parse text = .ok v := by
  refine parse_eq_ok_iff.mpr ⟨h.wellFormed, ?_⟩
  rw [h.toList_written, ← hs, s.trim_chars]

/-- A text that is read has a spelling. -/
theorem exists_spelling_of_parse_eq_ok {text : String} {v : Version}
    (h : parse text = .ok v) :
    ∃ s : Spelling, s.chars = text.toList ∧ s.Denotes v := by
  obtain ⟨hwf, hwritten⟩ := parse_eq_ok_iff.mp h
  obtain ⟨lead, trail, hlead, htrail, htext⟩ := exists_blanks_trim text.toList
  obtain ⟨s, hs, rfl, rfl⟩ :=
    Spelling.exists_denotes_of_wellFormed hwf hlead htrail
  refine ⟨s, ?_, hs⟩
  rw [Spelling.chars, ← hs.toList_written, hwritten]
  exact htext.symm

/-- Reading fails in one way only. -/
theorem parse_eq_error_of_forall_ne {text : String}
    (h : ∀ v, parse text ≠ .ok v) :
    parse text = .error (.malformedVersion text) := by
  unfold parse at h ⊢
  split
  next v hv => exact absurd (by rw [hv]) (h v)
  next => rfl

/-- Reading accepts exactly the texts that the grammar derives. A text it
accepts is derived in one way, and the version it is read as holds the
parts of that derivation; any other text is refused as it was given. -/
theorem parse_spelling (text : String) :
    ((∃ v, parse text = .ok v) ↔
      ∃ s : Spelling, s.chars = text.toList) ∧
    (∀ s : Spelling, s.chars = text.toList →
      (∃ v, parse text = .ok v ∧ s.Denotes v) ∧
      ∀ s' : Spelling, s'.chars = text.toList → s' = s) ∧
    ((¬∃ s : Spelling, s.chars = text.toList) →
      parse text = .error (.malformedVersion text)) := by
  refine ⟨⟨?_, ?_⟩, fun s hs => ⟨?_, fun s' hs' => ?_⟩, fun hnone => ?_⟩
  · intro h
    obtain ⟨v, hv⟩ := h
    obtain ⟨s, hs, -⟩ := exists_spelling_of_parse_eq_ok hv
    exact ⟨s, hs⟩
  · intro h
    obtain ⟨s, hs⟩ := h
    obtain ⟨v, hv⟩ := s.exists_denotes
    exact ⟨v, hv.parse_eq_ok hs⟩
  · obtain ⟨v, hv⟩ := s.exists_denotes
    exact ⟨v, hv.parse_eq_ok hs, hv⟩
  · obtain ⟨v, hv⟩ := s.exists_denotes
    obtain ⟨v', hv'⟩ := s'.exists_denotes
    obtain rfl : v = v' :=
      Except.ok.inj ((hv.parse_eq_ok hs).symm.trans (hv'.parse_eq_ok hs'))
    exact hv'.eq_of_chars_eq hv (hs'.trans hs.symm)
  · refine parse_eq_error_of_forall_ne fun v hv => hnone ?_
    obtain ⟨s, hs, -⟩ := exists_spelling_of_parse_eq_ok hv
    exact ⟨s, hs⟩

/-- A hyphen opens the prerelease and then is an identifier of it; and a
numeral has no leading zero. -/
theorem parse_spelling_hyphens :
    (∃ s : Spelling, s.chars = " 1.2-0a.-+001\n".toList ∧
      ∃ v, parse " 1.2-0a.-+001\n" = .ok v ∧ s.Denotes v) ∧
    parse "1.2.03" = .error (.malformedVersion "1.2.03") := by
  constructor
  · obtain ⟨s, hs⟩ := (parse_spelling " 1.2-0a.-+001\n").1.mp
      ⟨{ major := 1, minor := 2, patch := 0,
         prerelease := [⟨"0a"⟩, ⟨"-"⟩], build := [⟨"001"⟩],
         omission := .patch }, by rfl⟩
    exact ⟨s, hs, ((parse_spelling _).2.1 s hs).1⟩
  · refine (parse_spelling "1.2.03").2.2 fun hs => ?_
    obtain ⟨v, hv⟩ := (parse_spelling "1.2.03").1.mpr hs
    have herror : (parse "1.2.03").toBool = false := by rfl
    rw [hv] at herror
    cases herror

end Versioning.Version
