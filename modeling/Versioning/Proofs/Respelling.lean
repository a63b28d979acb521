/-
The texts that are read as versions of one rank.

Two things in the text of a version do not reach its rank: the build label
(`SameButBuild`) and a zero at the end of the numbers (`ZeroWritten`). The
label stands behind the first plus and is cut off before the rest is
looked at, so the rest is read alike under every label
(`ofChars?_append_marked`); numbers and labels are read apart as well
(`map_rank_ofChars?_append`). Blanks are the only thing in the way: a label
stands in front of the blanks that end a text.
-/
import Versioning.Proofs.Grammar
import Versioning.Version.Precedence

namespace Versioning

open Text

namespace Version

/-- The rank of the version that a text is read as. -/
def rank? (text : String) : Option Rank :=
  (parse text).toOption.map rank

theorem rank?_eq (text : String) :
    rank? text = (ofChars? (trim text.toList)).map rank := by
  rw [rank?, parse]
  cases ofChars? (trim text.toList) <;> rfl

-- ======================================================== build labels

/-- Two texts that are the same but for the build label, with blanks behind
it. No label is a label without tokens. -/
inductive SameButBuild : List Char → List Char → Prop where
  | intro {front trail : List Char} {tokens tokens' : List (List Char)}
      (hplus : '+' ∉ front)
      (hend : ∀ c ∈ front.getLast?, isBlank c = false)
      (htokens : ∀ t ∈ tokens, BuildToken t)
      (htokens' : ∀ t ∈ tokens', BuildToken t) (htrail : Blanks trail) :
      SameButBuild (front ++ marked '+' tokens ++ trail)
        (front ++ marked '+' tokens' ++ trail)

variable {tokens : List (List Char)}

/-- The identifiers of a build label. -/
def buildIds (tokens : List (List Char)) : List BuildId :=
  tokens.map fun t => ⟨String.ofList t⟩

/-- A build label is what a cut at the plus leaves, and it is read. -/
theorem exists_uncut_marked (htokens : ∀ t ∈ tokens, BuildToken t) :
    ∃ part, marked '+' tokens = uncut '+' part ∧
      identifiers? .build part = some (buildIds tokens) := by
  have htexts : ((buildIds tokens).map (·.text)).map String.toList =
      tokens := by simp [buildIds, Function.comp_def]
  have hlabel := Spelling.toList_label_eq_marked '+'
    ((buildIds tokens).map (·.text))
  rw [htexts] at hlabel
  obtain ⟨part, hpart⟩ := exists_toList_label_eq_uncut '+'
    ((buildIds tokens).map (·.text))
  refine ⟨part, hlabel.symm.trans hpart, ?_⟩
  refine (identifiers?_eq_some_iff .build '+').mpr ⟨fun id hid => ?_, hpart⟩
  obtain ⟨t, ht, rfl⟩ := List.mem_map.mp hid
  rw [Identifier.WellFormed, String.toList_ofList]
  exact buildToken_iff.mp (htokens t ht)

theorem head?_marked (c : Char) (hc : c ∈ (marked '+' tokens).head?) :
    c = '+' := by
  cases tokens with
  | nil => cases hc
  | cons t ts => exact (Option.some.inj hc).symm

theorem mem_marked {c : Char} (htokens : ∀ t ∈ tokens, BuildToken t)
    (hc : c ∈ marked '+' tokens) :
    c = '+' ∨ c = '.' ∨ isTokenChar c = true := by
  cases tokens with
  | nil => cases hc
  | cons t ts =>
    rcases List.mem_cons.mp hc with rfl | hc
    · exact .inl rfl
    rcases mem_intercalate hc with hc | ⟨l, hl, hc⟩
    · exact .inr (.inl hc)
    · exact .inr (.inr (isTokenChar_iff.mpr ((htokens l hl).chars c hc)))

/-- The blanks around a text with a build label are around what stands in
front of the label. -/
theorem trim_append_marked {front trail : List Char}
    (hend : ∀ c ∈ front.getLast?, isBlank c = false)
    (htokens : ∀ t ∈ tokens, BuildToken t) (htrail : Blanks trail) :
    trim (front ++ marked '+' tokens ++ trail) =
      trimStart front ++ marked '+' tokens := by
  have hblank : ∀ c ∈ marked '+' tokens, isBlank c = false := fun c hc => by
    rcases mem_marked htokens hc with rfl | rfl | hc
    · decide
    · decide
    · exact isBlank_eq_false_of_isTokenChar hc
  have hlast : ∀ c ∈ (front ++ marked '+' tokens).getLast?,
      isBlank c = false := fun c hc => by
    rw [List.getLast?_append] at hc
    cases hm : (marked '+' tokens).getLast? with
    | none => exact hend c (by simpa [hm] using hc)
    | some d =>
      obtain rfl : d = c := by simpa [hm] using hc
      exact hblank d (List.mem_of_getLast? hm)
  have htrim := trim_append_blanks blanks_nil htrail
    (front ++ marked '+' tokens)
  rw [List.nil_append] at htrim
  rw [htrim, trim_of_getLast? hlast]
  refine trimStart_append_of_head? (fun c hc => ?_) front
  obtain rfl := head?_marked c hc
  decide

theorem plus_not_mem_trimStart {cs : List Char} (h : '+' ∉ cs) :
    '+' ∉ trimStart cs := fun hmem => by
  obtain ⟨a, -, hcs⟩ := exists_blanks_trimStart cs
  rw [hcs] at h
  exact h (List.mem_append_right a hmem)

/-- What a text gives that is trimmed is not changed by its build label, if
the label alone, put behind other characters, changes nothing. -/
theorem SameButBuild.congr_trim {α : Type} {f : List Char → α}
    (hf : ∀ {cs : List Char} {tokens : List (List Char)}, '+' ∉ cs →
      (∀ t ∈ tokens, BuildToken t) → f (cs ++ marked '+' tokens) = f cs)
    {cs ds : List Char} (h : SameButBuild cs ds) :
    f (trim cs) = f (trim ds) := by
  cases h with
  | intro hplus hend htokens htokens' htrail =>
    rw [trim_append_marked hend htokens htrail,
      trim_append_marked hend htokens' htrail,
      hf (plus_not_mem_trimStart hplus) htokens,
      hf (plus_not_mem_trimStart hplus) htokens']

theorem SameButBuild.comma_not_mem {cs ds : List Char}
    (h : SameButBuild cs ds) (hcomma : ',' ∉ cs) : ',' ∉ ds := by
  cases h with
  | intro _ _ _ htokens' _ =>
    simp only [List.mem_append, not_or] at hcomma ⊢
    refine ⟨⟨hcomma.1.1, fun hmem => ?_⟩, hcomma.2⟩
    exact absurd (mem_marked htokens' hmem) (by decide)

-- ============================================================ candidates

/-- A text is read alike under every build label. -/
theorem ofChars?_append_marked {cs : List Char} (hplus : '+' ∉ cs)
    (htokens : ∀ t ∈ tokens, BuildToken t) :
    ofChars? (cs ++ marked '+' tokens) =
      (ofChars? cs).map fun v => { v with build := buildIds tokens } := by
  obtain ⟨part, hpart, hread⟩ := exists_uncut_marked htokens
  have hcut : cut '+' (cs ++ marked '+' tokens) = (cs, part) :=
    cut_eq_iff.mpr ⟨hplus, by rw [hpart]⟩
  have hcut' : cut '+' cs = (cs, none) :=
    cut_eq_iff.mpr ⟨hplus, List.append_nil cs⟩
  rw [ofChars?, ofChars?, hcut, hcut']
  simp only [hread]
  cases ofNumerals? ((cut '-' cs).1.splitOn '.') with
  | none => rfl
  | some v =>
    cases identifiers? .prerelease (cut '-' cs).2 with
    | none => rfl
    | some ids => rfl

theorem map_rank_append_marked {cs : List Char} (hplus : '+' ∉ cs)
    (htokens : ∀ t ∈ tokens, BuildToken t) :
    (ofChars? (cs ++ marked '+' tokens)).map rank =
      (ofChars? cs).map rank := by
  rw [ofChars?_append_marked hplus htokens, Option.map_map]
  rfl

/-- The second text writes a zero behind the one or two numbers of the
first, and what follows does not belong to a number. -/
inductive ZeroWritten : List Char → List Char → Prop where
  | intro {lead rest : List Char} {numerals : List (List Char)}
      (hlead : Blanks lead) (hne : numerals ≠ [])
      (hnumerals : ∀ n ∈ numerals, IsNumber n) (htwo : numerals.length ≤ 2)
      (hrest : ∀ c ∈ rest.head?, c = '-' ∨ c = '+' ∨ isBlank c = true) :
      ZeroWritten (lead ++ ['.'].intercalate numerals ++ rest)
        (lead ++ ['.'].intercalate (numerals ++ [['0']]) ++ rest)

/-- A text with a blank in it is no version. -/
theorem ofChars?_eq_none_of_isBlank {cs : List Char} {c : Char}
    (hc : c ∈ cs) (hblank : isBlank c = true) : ofChars? cs = none := by
  refine Option.eq_none_iff_forall_ne_some.mpr fun v hv => ?_
  obtain ⟨hwf, rfl⟩ := ofChars?_eq_some_iff.mp hv
  rw [hwf.isBlank_eq_false hc] at hblank
  cases hblank

/-- The identifiers in the two labels that end a version. -/
def labels? (cs : List Char) : Option (List PrereleaseId × List BuildId) := do
  let prerelease ← identifiers? .prerelease (cut '-' (cut '+' cs).1).2
  let build ← identifiers? .build (cut '+' cs).2
  return (prerelease, build)

theorem trim_append_numerals {lead : List Char}
    {numerals : List (List Char)} (hlead : Blanks lead) (hne : numerals ≠ [])
    (hnumerals : ∀ n ∈ numerals, IsNumber n) (rest : List Char) :
    trim (lead ++ ['.'].intercalate numerals ++ rest) =
      ['.'].intercalate numerals ++ trimEnd rest := by
  refine trim_append hlead (fun hnil => ?_) (fun c hc => ?_) rest
  · obtain ⟨n, ns, rfl⟩ := List.exists_cons_of_ne_nil hne
    have hn := (hnumerals n List.mem_cons_self).numeral.ne_nil
    cases ns <;> simp [hn] at hnil
  · rcases mem_intercalate_numerals (fun n hn => (hnumerals n hn).numeral)
      hc with rfl | hc
    · decide
    · exact isBlank_eq_false_of_isTokenChar (isTokenChar_of_isDigit hc)

/-- Numerals and labels are read apart. -/
theorem map_rank_ofChars?_append {numerals : List (List Char)}
    (hne : numerals ≠ []) (hnumerals : ∀ n ∈ numerals, IsNumber n)
    {rest : List Char} (hrest : ∀ c ∈ rest.head?, c = '-' ∨ c = '+') :
    (ofChars? (['.'].intercalate numerals ++ rest)).map rank =
      ((ofNumerals? numerals).map rank).bind fun r =>
        (labels? rest).map fun ls => { r with prerelease := ls.1 } := by
  have hnumeral : ∀ n ∈ numerals, Numeral n := fun n hn =>
    (hnumerals n hn).numeral
  have hplus : '+' ∉ ['.'].intercalate numerals := fun hmem =>
    absurd (mem_intercalate_numerals hnumeral hmem) (by decide)
  have hhyphen : '-' ∉ ['.'].intercalate numerals := fun hmem =>
    absurd (mem_intercalate_numerals hnumeral hmem) (by decide)
  have hnil : (cut '-' (cut '+' rest).1).1 = [] := by
    cases rest with
    | nil => rfl
    | cons c rest => rcases hrest c rfl with rfl | rfl <;> simp [cut]
  rw [ofChars?, cut_append hplus, cut_append hhyphen, hnil, List.append_nil,
    splitOn_intercalate_numerals hne hnumeral, labels?]
  cases ofNumerals? numerals with
  | none => rfl
  | some v =>
    simp only [Option.bind_eq_bind, Option.bind_some, Option.map_some]
    cases identifiers? .prerelease (cut '-' (cut '+' rest).1).2 with
    | none => rfl
    | some prerelease =>
      cases identifiers? .build (cut '+' rest).2 <;> rfl

/-- One or two numerals are read as they are with a zero behind them, but
for the omission. -/
theorem map_rank_ofNumerals?_append_zero {numerals : List (List Char)}
    (hne : numerals ≠ []) (htwo : numerals.length ≤ 2) :
    (ofNumerals? (numerals ++ [['0']])).map rank =
      (ofNumerals? numerals).map rank := by
  have hzero : Component.ofNumeral? ['0'] = some 0 := by rfl
  match numerals with
  | [major] =>
    simp only [List.singleton_append, ofNumerals?, hzero]
    cases Component.ofNumeral? major <;> rfl
  | [major, minor] =>
    simp only [List.cons_append, List.nil_append, ofNumerals?, hzero]
    cases Component.ofNumeral? major with
    | none => rfl
    | some m => cases Component.ofNumeral? minor <;> rfl

/-- A zero that is written too is not in the rank. -/
theorem ZeroWritten.map_rank_eq {cs ds : List Char} (h : ZeroWritten cs ds) :
    (ofChars? (trim cs)).map rank = (ofChars? (trim ds)).map rank := by
  cases h with
  | @intro lead rest numerals hlead hne hnumerals htwo hrest =>
    have hnumerals' : ∀ n ∈ numerals ++ [['0']], IsNumber n := by
      rw [List.forall_mem_append, List.forall_mem_singleton]
      exact ⟨hnumerals, .zero, by decide⟩
    have hne' : numerals ++ [['0']] ≠ [] := by simp
    rw [trim_append_numerals hlead hne hnumerals,
      trim_append_numerals hlead hne' hnumerals']
    by_cases hblank : ∃ c ∈ (trimEnd rest).head?, isBlank c = true
    · obtain ⟨c, hc, hb⟩ := hblank
      have hmem : c ∈ trimEnd rest := List.mem_of_head? hc
      rw [ofChars?_eq_none_of_isBlank (List.mem_append_right _ hmem) hb,
        ofChars?_eq_none_of_isBlank (List.mem_append_right _ hmem) hb]
    · have hmark : ∀ c ∈ (trimEnd rest).head?, c = '-' ∨ c = '+' := by
        intro c hc
        rcases hrest c (mem_head?_of_trimEnd hc) with h | h | h
        · exact .inl h
        · exact .inr h
        · exact absurd ⟨c, hc, h⟩ hblank
      rw [map_rank_ofChars?_append hne hnumerals hmark,
        map_rank_ofChars?_append hne' hnumerals' hmark,
        map_rank_ofNumerals?_append_zero hne htwo]

/-- Two ways to write one candidate: with another build label, or with a
zero at the end of its numbers. -/
def Respelled (s t : String) : Prop :=
  SameButBuild s.toList t.toList ∨ ZeroWritten s.toList t.toList

theorem Respelled.rank?_eq {s t : String} (h : Respelled s t) :
    rank? s = rank? t := by
  rw [Version.rank?_eq, Version.rank?_eq]
  rcases h with h | h
  · exact h.congr_trim (f := fun cs => (ofChars? cs).map rank)
      map_rank_append_marked
  · exact h.map_rank_eq

end Version

end Versioning
