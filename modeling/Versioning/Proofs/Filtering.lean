/-
Filtering many texts agrees with asking about each of them.

A candidate knows the place of its text. What is said here is said of its
entry, the text with the version it is read as; the entries of the
candidates are those of the list (`map_entry_candidates`). What is asked of
an entry is asked of its version, so a filter of entries is a filter of
texts (`entries_filter`, `map_text_filter`).
-/
import Versioning.Proofs.Grammar
import Versioning.Selection

namespace Versioning.Selection

variable {p : Version → Bool} {t range : String} {texts : List String}

-- ============================================================= entries

/-- A text that is a version, together with the version. -/
structure Entry where
  text : String
  version : Version
  parsed : Version.parse text = .ok version

/-- The entry that a text makes, if it is a version. -/
def Entry.ofText? (text : String) : Option Entry :=
  match parsed : Version.parse text with
  | .ok version => some { text, version, parsed }
  | .error _ => none

/-- The entries that some texts make, in order. -/
def entries (texts : List String) : List Entry :=
  texts.filterMap Entry.ofText?

theorem Entry.ofText?_of_parse_eq_ok {v : Version}
    (h : Version.parse t = .ok v) :
    Entry.ofText? t = some ⟨t, v, h⟩ := by
  unfold Entry.ofText?
  split
  · next w hw =>
    obtain rfl := Except.ok.inj (hw.symm.trans h)
    rfl
  · next e he => cases he.symm.trans h

theorem Entry.ofText?_of_parse_eq_error {e : Error}
    (h : Version.parse t = .error e) : Entry.ofText? t = none := by
  unfold Entry.ofText?
  split
  · next v hv => cases hv.symm.trans h
  · rfl

theorem Entry.ofText?_eq_some_iff {e : Entry} :
    Entry.ofText? t = some e ↔ e.text = t := by
  constructor
  · intro h
    cases ht : Version.parse t with
    | error _ => cases (Entry.ofText?_of_parse_eq_error ht).symm.trans h
    | ok v =>
      obtain rfl := Option.some.inj
        ((Entry.ofText?_of_parse_eq_ok ht).symm.trans h)
      rfl
  · rintro rfl
    exact Entry.ofText?_of_parse_eq_ok e.parsed

theorem entries_cons_of_ok {v : Version} (h : Version.parse t = .ok v) :
    entries (t :: texts) = ⟨t, v, h⟩ :: entries texts :=
  List.filterMap_cons_some (Entry.ofText?_of_parse_eq_ok h)

theorem entries_cons_of_error {e : Error}
    (h : Version.parse t = .error e) : entries (t :: texts) = entries texts :=
  List.filterMap_cons_none (Entry.ofText?_of_parse_eq_error h)

/-- An entry is of the list if its text is. -/
theorem mem_entries_iff {e : Entry} : e ∈ entries texts ↔ e.text ∈ texts := by
  unfold entries
  rw [List.mem_filterMap]
  simp only [Entry.ofText?_eq_some_iff, exists_eq_right']

/-- The texts of entries make those entries again. -/
theorem entries_map_text (es : List Entry) :
    entries (es.map (·.text)) = es := by
  induction es with
  | nil => rfl
  | cons e es ih => rw [List.map_cons, entries_cons_of_ok e.parsed, ih]

-- ========================================================= two filters

/-- Whether a text is a version of which `p` holds. -/
def standsFor (p : Version → Bool) (text : String) : Bool :=
  (Version.parse text).toOption.any p

theorem standsFor_iff :
    standsFor p t = true ↔ ∃ v, Version.parse t = .ok v ∧ p v = true := by
  unfold standsFor
  cases Version.parse t with
  | error e => simp [Except.toOption]
  | ok v => simp [Except.toOption]

theorem standsFor_of_parse_eq_ok {v : Version}
    (h : Version.parse t = .ok v) : standsFor p t = p v := by
  rw [standsFor, h]
  rfl

theorem standsFor_of_parse_eq_error {e : Error}
    (h : Version.parse t = .error e) : standsFor p t = false := by
  rw [standsFor, h]
  rfl

/-- Filtered texts make the filtered entries. -/
theorem entries_filter (p : Version → Bool) (texts : List String) :
    entries (texts.filter (standsFor p)) =
      (entries texts).filter fun e => p e.version := by
  induction texts with
  | nil => rfl
  | cons t texts ih =>
    cases h : Version.parse t with
    | error e =>
      rw [List.filter_cons, standsFor_of_parse_eq_error h,
        entries_cons_of_error h, ← ih]
      rfl
    | ok v =>
      rw [List.filter_cons, standsFor_of_parse_eq_ok h,
        entries_cons_of_ok h, List.filter_cons, ← ih]
      cases p v with
      | false => rfl
      | true => exact entries_cons_of_ok h

/-- Filtered entries have the filtered texts. -/
theorem map_text_filter (p : Version → Bool) (texts : List String) :
    ((entries texts).filter fun e => p e.version).map (·.text) =
      texts.filter (standsFor p) := by
  induction texts with
  | nil => rfl
  | cons t texts ih =>
    cases h : Version.parse t with
    | error e =>
      rw [entries_cons_of_error h, ih, List.filter_cons,
        standsFor_of_parse_eq_error h]
      rfl
    | ok v =>
      rw [entries_cons_of_ok h, List.filter_cons, List.filter_cons,
        standsFor_of_parse_eq_ok h, ← ih]
      cases p v <;> rfl

/-- The texts that are versions are those of the entries. -/
theorem map_text_entries (texts : List String) :
    (entries texts).map (·.text) =
      texts.filter (standsFor fun _ => true) := by
  rw [← map_text_filter, List.filter_true]

-- ========================================================== candidates

/-- The entry of the text that a candidate was read from. -/
def Candidate.entry (c : Candidate texts) : Entry :=
  ⟨c.text, c.version, c.parsed⟩

theorem map_entry_candidate? (i : Fin texts.length) :
    (candidate? texts i).map (·.entry) = Entry.ofText? (texts.get i) := by
  unfold candidate?
  split
  · next v hv => exact (Entry.ofText?_of_parse_eq_ok hv).symm
  · next e he => exact (Entry.ofText?_of_parse_eq_error he).symm

/-- Candidates make the entries of the list to which they belong. -/
theorem map_entry_candidates (texts : List String) :
    (candidates texts).map (·.entry) = entries texts := by
  calc (candidates texts).map (·.entry)
    _ = (List.finRange texts.length).filterMap
          (Entry.ofText? ∘ texts.get) := by
        rw [candidates, List.map_filterMap]
        exact congrArg (List.filterMap · _) (funext map_entry_candidate?)
    _ = ((List.finRange texts.length).map texts.get).filterMap Entry.ofText? :=
        List.filterMap_map.symm
    _ = entries texts := by rw [List.map_get_finRange, entries]

/-- A range accepts the entries whose versions it accepts. -/
theorem map_entry_accepted (r : Range) (texts : List String) :
    (accepted r texts).map (·.entry) =
      (entries texts).filter fun e => r.accepts e.version := by
  rw [← map_entry_candidates, List.filter_map]
  rfl

/-- The texts of some candidates are the texts of their entries. -/
theorem map_text_map_entry (cs : List (Candidate texts)) :
    (cs.map (·.entry)).map (·.text) = cs.map (·.text) :=
  List.map_map

-- ============================================================= answers

instance (version range : String) (answer : Bool) :
    Decidable (satisfies version range = .ok answer) :=
  decidable_of_iff ((satisfies version range).toOption = some answer) <| by
    cases satisfies version range <;> simp [Except.toOption]

/-- A text that is no version is refused, whatever the range is. -/
theorem satisfies_of_parse_eq_error {e : Error}
    (h : Version.parse t = .error e) : satisfies t range = .error e := by
  rw [satisfies, h]
  rfl

theorem satisfies_of_parse_eq_ok {v : Version}
    (h : Version.parse t = .ok v) :
    satisfies t range = (Range.parse range).map (·.accepts v) := by
  rw [satisfies, h]
  cases Range.parse range <;> rfl

/-- What satisfies a range that is read is a version that it accepts. -/
theorem satisfies_eq_true_iff {r : Range} (h : Range.parse range = .ok r) :
    satisfies t range = .ok true ↔ standsFor r.accepts t = true := by
  rw [satisfies_eq_ok_iff, standsFor_iff]
  simp [h]

theorem satisfying_of_parse_eq_error {e : Error}
    (h : Range.parse range = .error e) :
    satisfying texts range = .error e := by
  rw [satisfying, h]
  rfl

theorem satisfying_of_parse_eq_ok {r : Range}
    (h : Range.parse range = .ok r) :
    satisfying texts range = .ok (texts.filter (standsFor r.accepts)) := by
  rw [← map_text_filter, ← map_entry_accepted, map_text_map_entry,
    satisfying, h]
  rfl

/-- Filtering a list of texts by a range agrees with asking about each text.
It fails if and only if the range cannot be read, with the error of the
range, whatever the texts are. Otherwise the answer is the list of the texts
that satisfy the range when asked about one by one, in the order in which
they were given, as often as they were given and just as they were given.
Asking about one text fails with the malformed text if it is no version,
even if the range is malformed as well, and otherwise as the range does. -/
theorem filtering_agrees (texts : List String) (range : String) :
    (∀ e, satisfying texts range = .error e ↔
      Range.parse range = .error e) ∧
    (∀ answer, satisfying texts range = .ok answer ↔
      (∃ r, Range.parse range = .ok r) ∧
        (texts.filter fun t => satisfies t range = .ok true) = answer) ∧
    ∀ version,
      ((∀ v, Version.parse version ≠ .ok v) →
        satisfies version range = .error (.malformedVersion version)) ∧
      ((∃ v, Version.parse version = .ok v) →
        ∀ e, satisfies version range = .error e ↔
          Range.parse range = .error e) := by
  refine ⟨fun e => ?_, fun answer => ?_, fun version => ⟨?_, ?_⟩⟩
  · cases hr : Range.parse range with
    | error e' => rw [satisfying_of_parse_eq_error hr]; simp
    | ok r => rw [satisfying_of_parse_eq_ok hr]; simp
  · cases hr : Range.parse range with
    | error e => rw [satisfying_of_parse_eq_error hr]; simp
    | ok r =>
      rw [satisfying_of_parse_eq_ok hr]
      simp [satisfies_eq_true_iff hr]
  · intro h
    exact satisfies_of_parse_eq_error (Version.parse_eq_error_of_forall_ne h)
  · intro h e
    obtain ⟨v, hv⟩ := h
    rw [satisfies_of_parse_eq_ok hv]
    cases Range.parse range <;> simp [Except.map]

/-- Of six texts, three satisfy `~1`; a malformed version is reported before
a malformed range. -/
theorem filtering_agrees_texts :
    satisfying [" 1.0 ", "1.x", "2", "1.0.0+b", " 1.0 ", "0.9"] "~1" =
      .ok [" 1.0 ", "1.0.0+b", " 1.0 "] ∧
    satisfies "1.x" "~>1" = .error (.malformedVersion "1.x") ∧
    satisfies "1.0" "~>1" = .error (.malformedRange "~>1") := by
  refine ⟨((filtering_agrees _ _).2.1 _).mpr ⟨⟨_, by rfl⟩, by rfl⟩, ?_, ?_⟩
  · refine ((filtering_agrees [] _).2.2 _).1 fun v hv => ?_
    have herror : Version.parse "1.x" = .error (.malformedVersion "1.x") := by
      rfl
    rw [herror] at hv
    cases hv
  · exact (((filtering_agrees [] _).2.2 _).2 ⟨_, by rfl⟩ _).mpr (by rfl)

end Versioning.Selection
