/-
Build metadata and omitted zeros never change an answer.

The answer, unless there is none, is a function of the rank of the version
and the key of the range (`toOption_satisfies`). A candidate may be
respelled in either way that leaves its rank alone, any number of times. In
a range text the build label of any clause may be replaced; a zero must
not be written there, since `~1` is another window than `~1.0`.
-/
import Versioning.Proofs.Conjunction
import Versioning.Proofs.Respelling
import Versioning.Selection

namespace Versioning

open Text

-- ============================================== what an answer depends on

/-- The key of the range that a text is read as. -/
def Range.key? (text : String) : Option (List (Relation × Rank)) :=
  (Range.parse text).toOption.map key

/-- Whether a rank satisfies a key. -/
def Rank.accepted (rank : Rank) (key : List (Relation × Rank)) : Bool :=
  key.all fun k => k.1.accepts (rank.precedence k.2)

theorem Range.accepts_eq (r : Range) (v : Version) :
    r.accepts v = v.rank.accepted r.key := by
  rw [Rank.accepted, key, List.all_map]
  rfl

/-- Versions of one precedence are accepted alike. -/
theorem Range.accepts_eq_of_beq (r : Range) {v w : Version}
    (h : (v == w) = true) : r.accepts v = r.accepts w := by
  rw [r.accepts_eq, r.accepts_eq, Version.beq_iff_rank_eq.mp h]

/-- The answer for two texts is a function of rank and key. -/
theorem Selection.toOption_satisfies (version range : String) :
    (satisfies version range).toOption =
      (Version.rank? version).bind fun rank =>
        (Range.key? range).map rank.accepted := by
  rw [satisfies, Version.rank?, Range.key?]
  cases Version.parse version with
  | error e => rfl
  | ok v =>
    cases Range.parse range with
    | error e => rfl
    | ok r => exact congrArg some (r.accepts_eq v)

-- =============================================================== clauses

open Version (marked buildIds SameButBuild)

namespace Operator

/-- A plus is no part of a token, and neither is what follows it. -/
theorem strip_append_plus (cs ds : List Char) :
    strip (cs ++ '+' :: ds) = ((strip cs).1, (strip cs).2 ++ '+' :: ds) := by
  -- A sign stands alone where no `=` follows it, and a plus is none.
  fun_cases strip cs with
  | case3 cs | case4 cs | case8 => cases cs <;> simp_all [strip]
  | _ => rfl

end Operator

namespace Clause

/-- Clauses of one operator, rank and omission have comparators of the same
keys, or none. -/
theorem keys_comparators_congr {c d : Clause} (hkey : c.key = d.key)
    (homission : c.version.omission = d.version.omission) :
    c.comparators.toOption.map (List.map Comparator.key) =
      d.comparators.toOption.map (List.map Comparator.key) := by
  obtain ⟨o, major, minor, patch, prerelease, build, omission⟩ := c
  obtain ⟨o', major', minor', patch', prerelease', build', omission'⟩ := d
  obtain ⟨rfl, hrank⟩ := Prod.mk.inj hkey
  obtain ⟨rfl, rfl, rfl, rfl⟩ := Rank.mk.inj hrank
  obtain rfl : omission = omission' := homission
  have hwindow : ∀ ceiling : Option Version,
      (window o ⟨major, minor, patch, prerelease, build, omission⟩
        ceiling).toOption.map (List.map Comparator.key) =
      (window o ⟨major, minor, patch, prerelease, build', omission⟩
        ceiling).toOption.map (List.map Comparator.key) := fun ceiling => by
    cases ceiling <;> rfl
  cases o with
  | plain relation => rfl
  | caret => exact hwindow _
  | tilde => exact hwindow _

/-- A clause is read alike under every build label. -/
theorem ofChars?_append_marked {cs : List Char} (hplus : '+' ∉ cs)
    {tokens : List (List Char)} (htokens : ∀ t ∈ tokens, BuildToken t) :
    ofChars? (cs ++ marked '+' tokens) = (ofChars? cs).map fun c =>
      ⟨c.operator, { c.version with build := buildIds tokens }⟩ := by
  have hstrip : Operator.strip (cs ++ marked '+' tokens) =
      ((Operator.strip cs).1, (Operator.strip cs).2 ++ marked '+' tokens) := by
    cases tokens with
    | nil => rw [marked, List.append_nil, List.append_nil]
    | cons t ts => exact Operator.strip_append_plus cs _
  have hrest : '+' ∉ (Operator.strip cs).2 := fun hmem => by
    obtain ⟨mark, -, hcs⟩ :=
      Operator.exists_spells_of_strip (rfl : Operator.strip cs = (_, _))
    rw [hcs] at hplus
    exact hplus (List.mem_append_right mark hmem)
  have hstart : trimStart ((Operator.strip cs).2 ++ marked '+' tokens) =
      trimStart (Operator.strip cs).2 ++ marked '+' tokens := by
    refine trimStart_append_of_head? (fun c hc => ?_) _
    obtain rfl := Version.head?_marked c hc
    decide
  rw [ofChars?, ofChars?, hstrip]
  simp only
  rw [hstart, Version.ofChars?_append_marked
    (Version.plus_not_mem_trimStart hrest) htokens, Option.map_map,
    Option.map_map]
  rfl

/-- The keys of the comparators that a text without outer blanks stands
for. -/
def keys? (cs : List Char) : Option (List (Relation × Rank)) :=
  (ofChars? cs).bind fun c =>
    c.comparators.toOption.map (List.map Comparator.key)

/-- The build label is in none of the keys. -/
theorem keys?_append_marked {cs : List Char} (hplus : '+' ∉ cs)
    {tokens : List (List Char)} (htokens : ∀ t ∈ tokens, BuildToken t) :
    keys? (cs ++ marked '+' tokens) = keys? cs := by
  rw [keys?, keys?, ofChars?_append_marked hplus htokens, Option.bind_map]
  refine Option.bind_congr fun c _ => ?_
  exact keys_comparators_congr rfl rfl

end Clause

-- ================================================================ ranges

namespace Range

/-- A text without commas has the keys of its clause. -/
theorem key?_eq {t : String} (hne : t ≠ "") (hcomma : ',' ∉ t.toList) :
    key? t = Clause.keys? (trim t.toList) := by
  rw [key?, parse_eq_of_comma_not_mem hne hcomma, Clause.keys?, Clause.parse]
  cases Clause.ofChars? (trim t.toList) with
  | none => rfl
  | some c =>
    cases hc : c.comparators <;>
      simp [hc, bind, Except.bind, Except.toOption, pure, Except.pure, key]

/-- Joined texts have the keys of the first and then those of the
others. -/
theorem key?_join_cons (t : String) (ts : List String) :
    key? (",".intercalate (t :: ts)) = (key? t).bind fun k =>
      (key? (",".intercalate ts)).map (k ++ ·) := by
  rw [key?, parse_join_cons, key?, key?]
  cases parse t with
  | error e => rfl
  | ok r =>
    cases parse (",".intercalate ts) with
    | error e => rfl
    | ok s => exact congrArg some List.map_append

/-- One text of several may be exchanged for another of the same key. -/
theorem key?_join_congr {t u : String} (h : key? t = key? u)
    (before after : List String) :
    key? (",".intercalate (before ++ t :: after)) =
      key? (",".intercalate (before ++ u :: after)) := by
  induction before with
  | nil => rw [List.nil_append, List.nil_append, key?_join_cons, h,
      ← key?_join_cons]
  | cons s before ih =>
    rw [List.cons_append, List.cons_append, key?_join_cons, ih,
      ← key?_join_cons]

/-- Two range texts that are the same but for the build label in one
clause. An empty text between commas is no clause. -/
inductive SameButBuild : String → String → Prop where
  | clause {before after : List String} {t u : String} (ht : t ≠ "")
      (hu : u ≠ "") (hcomma : ',' ∉ t.toList)
      (h : Version.SameButBuild t.toList u.toList) :
      SameButBuild (",".intercalate (before ++ t :: after))
        (",".intercalate (before ++ u :: after))

theorem SameButBuild.key?_eq {a b : String} (h : SameButBuild a b) :
    key? a = key? b := by
  cases h with
  | clause ht hu hcomma h =>
    apply key?_join_congr
    rw [Range.key?_eq ht hcomma, Range.key?_eq hu (h.comma_not_mem hcomma)]
    exact h.congr_trim fun hplus htokens =>
      Clause.keys?_append_marked hplus htokens

end Range

-- ================================================================ answers

namespace Selection

/-- Build metadata and omitted zeros decide nothing. Equal ranges accept
the same of equal versions. And whatever build labels are added, removed or
exchanged in the text of a candidate and in the clauses of a range, and
whatever zeros are written or left out at the end of the candidate's
numbers, there is an answer for the new texts if there was one for the old,
and it is the same. -/
theorem metadata_never_decides :
    (∀ {v w : Version} {r s : Range}, (v == w) = true → (r == s) = true →
      r.accepts v = s.accepts w) ∧
    ∀ {version version' range range' : String},
      Relation.EqvGen Version.Respelled version version' →
      Relation.EqvGen Range.SameButBuild range range' →
      (satisfies version range).toOption =
        (satisfies version' range').toOption := by
  constructor
  · intro v w r s hvw hrs
    rw [Range.accepts_eq, Range.accepts_eq, Version.beq_iff_rank_eq.mp hvw,
      Range.beq_iff_key_eq.mp hrs]
  · intro version version' range range' hversion hrange
    have hrank : Version.rank? version = Version.rank? version' :=
      congrArg (Quot.lift Version.rank? fun _ _ h => h.rank?_eq)
        (Quot.eqvGen_sound hversion)
    have hkey : Range.key? range = Range.key? range' :=
      congrArg (Quot.lift Range.key? fun _ _ h => h.key?_eq)
        (Quot.eqvGen_sound hrange)
    rw [toOption_satisfies, toOption_satisfies, hrank, hkey]

/-- The build label of a candidate is left out and a zero written, and the
build label of a tilde clause is exchanged; and `1.2+a` satisfies `>=1.2.0`
as `1.2.0` satisfies `>=1.2.0+b`. -/
theorem metadata_never_decides_labels :
    (satisfies "1-rc+a" "~1+x,>=0.9").toOption =
      (satisfies "1.0-rc" "~1+y.2,>=0.9").toOption ∧
    Range.accepts ⟨[⟨.atLeast, Version.release 1 2 0⟩]⟩
        { Version.release 1 2 0 with
          build := [⟨"a"⟩], omission := .patch } =
      Range.accepts ⟨[⟨.atLeast, { Version.release 1 2 0 with
        build := [⟨"b"⟩] }⟩]⟩ (Version.release 1 2 0) := by
  have htoken : ∀ {t : List Char}, isBuildToken t = true →
      ∀ u ∈ [t], BuildToken u := fun h u hu => by
    obtain rfl := List.mem_singleton.mp hu
    exact buildToken_iff.mpr h
  have hlast : ∀ {d : Char}, isBlank d = false →
      ∀ c ∈ some d, isBlank c = false := fun h c hc => by
    obtain rfl := Option.some.inj hc
    exact h
  have hlabel : Version.Respelled "1-rc+a" "1-rc" :=
    .inl (@Version.SameButBuild.intro ['1', '-', 'r', 'c'] [] [['a']] []
      (by decide) (hlast (d := 'c') rfl) (htoken rfl)
      (fun t ht => absurd ht List.not_mem_nil) blanks_nil)
  have hzero : Version.Respelled "1-rc" "1.0-rc" :=
    .inr (@Version.ZeroWritten.intro [] ['-', 'r', 'c'] [['1']] blanks_nil
      (by decide) (fun n hn => by
        obtain rfl := List.mem_singleton.mp hn
        exact Version.Spelling.isNumber_text 1) (by decide)
      (fun c hc => .inl (Option.some.inj hc).symm))
  have hclause : Version.SameButBuild "~1+x".toList "~1+y.2".toList :=
    @Version.SameButBuild.intro ['~', '1'] [] [['x']] [['y'], ['2']]
      (by decide) (hlast (d := '1') rfl) (htoken rfl)
      (List.forall_mem_cons.mpr ⟨buildToken_iff.mpr rfl, htoken rfl⟩)
      blanks_nil
  have hrange : Range.SameButBuild "~1+x,>=0.9" "~1+y.2,>=0.9" :=
    @Range.SameButBuild.clause [] [">=0.9"] "~1+x" "~1+y.2" (by decide)
      (by decide) (by decide) hclause
  constructor
  · exact metadata_never_decides.2
      (.trans _ _ _ (.rel _ _ hlabel) (.rel _ _ hzero)) (.rel _ _ hrange)
  · exact metadata_never_decides.1 (by rfl) (by rfl)

end Selection

end Versioning
