/-
The newest satisfying text is the last of the sorted satisfying texts.

`newest?` keeps the best of the later entries unless the first is newer,
so it finds the last of the highest precedence (`LastHighest`). One more
entry in front of a list becomes the last of the sorted list if and only if
it is newer than the last one was, which is what `newest?` asks
(`newest?_eq_getLast?`).
-/
import Versioning.Proofs.Arrangement
import Versioning.Proofs.Metadata

namespace Versioning.Selection

-- ================================================= the last of the highest

section Newest

variable {α β : Type} {version : α → Version} {a b : α} {as : List α}

theorem newest?_eq_none_iff : newest? version as = none ↔ as = [] := by
  fun_cases newest? version as with
  | case1 => simp
  | case2 | case3 | case4 => simp_all

/-- What is newer takes the place of the best behind it. -/
theorem newest?_cons_of_lt (h : newest? version as = some b)
    (hlt : version b < version a) : newest? version (a :: as) = some a := by
  have hnewer : (version a).isNewer (version b) = true :=
    Relation.holds_greater_iff.mpr hlt
  simp only [newest?, h, hnewer, if_true]

/-- The best stays the best unless something newer is before it. -/
theorem newest?_cons_of_le (h : newest? version as = some b)
    (hle : version a ≤ version b) : newest? version (a :: as) = some b := by
  have hnewer : ¬(version a).isNewer (version b) = true := fun hlt =>
    Version.le_iff_not_lt.mp hle (Relation.holds_greater_iff.mp hlt)
  simp only [newest?, h, hnewer, if_false, Bool.false_eq_true]

/-- The newest is found by the versions alone. -/
theorem newest?_map {version : β → Version} (f : α → β) (as : List α) :
    newest? version (as.map f) =
      (newest? (fun a => version (f a)) as).map f := by
  induction as with
  | nil => rfl
  | cons a as ih =>
    rw [List.map_cons, newest?, newest?, ih]
    cases newest? (fun a => version (f a)) as with
    | none => rfl
    | some best =>
      simp only [Option.map_some]
      split <;> rfl

/-- The last of the highest precedence: nothing before it is higher, and all
behind it is lower. -/
def LastHighest (version : α → Version) (as : List α) (b : α) : Prop :=
  ∃ before behind, as = before ++ b :: behind ∧
    (∀ a ∈ before, version a ≤ version b) ∧
    ∀ a ∈ behind, version a < version b

namespace LastHighest

theorem singleton (a : α) : LastHighest version [a] a :=
  ⟨[], [], rfl, List.forall_mem_nil _, List.forall_mem_nil _⟩

theorem le_of_mem (h : LastHighest version as b) (ha : a ∈ as) :
    version a ≤ version b := by
  obtain ⟨before, behind, rfl, hbefore, hbehind⟩ := h
  rcases List.mem_append.mp ha with ha | ha
  · exact hbefore a ha
  · rcases List.mem_cons.mp ha with rfl | ha
    · exact le_rfl
    · exact (hbehind a ha).le

theorem cons_of_le (h : LastHighest version as b)
    (hle : version a ≤ version b) : LastHighest version (a :: as) b := by
  obtain ⟨before, behind, rfl, hbefore, hbehind⟩ := h
  refine ⟨a :: before, behind, rfl, ?_, hbehind⟩
  exact List.forall_mem_cons.mpr ⟨hle, hbefore⟩

theorem cons_of_lt (h : LastHighest version as b)
    (hlt : version b < version a) : LastHighest version (a :: as) a :=
  ⟨[], as, rfl, List.forall_mem_nil _,
    fun _ hc => (h.le_of_mem hc).trans_lt hlt⟩

end LastHighest

theorem lastHighest_of_newest?_eq_some (h : newest? version as = some b) :
    LastHighest version as b := by
  induction as generalizing b with
  | nil => cases h
  | cons a as ih =>
    cases has : newest? version as with
    | none =>
      obtain rfl := newest?_eq_none_iff.mp has
      cases h
      exact .singleton a
    | some best =>
      by_cases hle : version a ≤ version best
      · rw [newest?_cons_of_le has hle] at h
        cases h
        exact (ih has).cons_of_le hle
      · have hlt : version best < version a :=
          not_not.mp (mt Version.le_iff_not_lt.mpr hle)
        rw [newest?_cons_of_lt has hlt] at h
        cases h
        exact (ih has).cons_of_lt hlt

end Newest

-- ================================================== the last of the sorted

/-- The newest entry is the last one when all are sorted. -/
theorem newest?_eq_getLast? (es : List Entry) :
    newest? (·.version) es = (arrange Version.isAtMost es).getLast? := by
  have hdir := direction_isAtMost
  induction es with
  | nil => simp [newest?, arrange]
  | cons e es ih =>
    obtain ⟨front, back, hcons, hes, hfront⟩ :
        ∃ front back, arrange Version.isAtMost (e :: es) = front ++ e :: back ∧
          arrange Version.isAtMost es = front ++ back ∧
          ∀ b ∈ front, (!inOrder Version.isAtMost e b) = true :=
      List.mergeSort_cons hdir.inOrder_trans hdir.inOrder_total e es
    rw [hes] at ih
    rw [hcons]
    cases back with
    | nil =>
      -- The entry is newer than all that are sorted, if there are any.
      rw [List.append_nil] at ih
      rw [List.getLast?_concat]
      cases hnewest : newest? (·.version) es with
      | none =>
        obtain rfl := newest?_eq_none_iff.mp hnewest
        rfl
      | some best =>
        have hbest := hfront best (List.mem_of_getLast? (ih ▸ hnewest))
        rw [inOrder, Version.isAtMost_eq_not_isNewer, Bool.not_not] at hbest
        exact newest?_cons_of_lt hnewest (Relation.holds_greater_iff.mp hbest)
    | cons d back =>
      -- The entry is put before the last one, and is no newer.
      have hsorted := hdir.pairwise_arrange (e :: es)
      rw [hcons] at hsorted
      have hlast := List.getLast?_eq_some_getLast (List.cons_ne_nil d back)
      rw [List.getLast?_append_cons, hlast] at ih
      rw [List.getLast?_append_cons, List.getLast?_cons_cons, hlast]
      exact newest?_cons_of_le ih
        (List.rel_of_pairwise_cons (List.pairwise_append.mp hsorted).2.1
          (List.getLast_mem _))

-- ================================================================== texts

variable {r : Range} {range : String} {texts : List String}

/-- The newest of the texts that satisfy a range: it satisfies the range, as
the version `v`, none that satisfies it is of higher precedence, and no text
behind it is of the same precedence. -/
structure NewestOf (texts : List String) (range t : String) (v : Version) :
    Prop where
  parsed : Version.parse t = .ok v
  satisfied : satisfies t range = .ok true
  highest : ∀ u ∈ texts, ∀ w, Version.parse u = .ok w →
    satisfies u range = .ok true → w ≤ v
  last : ∃ before behind, texts = before ++ t :: behind ∧
    ∀ u ∈ behind, ∀ w, Version.parse u = .ok w → ¬(w == v) = true

/-- The texts behind that of an accepted entry are accepted with the entries
behind it. -/
theorem exists_behind {front back : List Entry} {b : Entry}
    (h : entries (texts.filter (standsFor r.accepts)) = front ++ b :: back) :
    ∃ before behind, texts = before ++ b.text :: behind ∧
      behind.filter (standsFor r.accepts) = back.map (·.text) := by
  have htexts : texts.filter (standsFor r.accepts) =
      front.map (·.text) ++ b.text :: back.map (·.text) := by
    rw [← map_text_filter, ← entries_filter, h, List.map_append,
      List.map_cons]
  obtain ⟨before, rest, rfl, -, hrest⟩ := List.filter_eq_append_iff.mp htexts
  obtain ⟨skipped, behind, rfl, -, -, hbehind⟩ :=
    List.filter_eq_cons_iff.mp hrest
  exact ⟨before ++ skipped, behind, (List.append_assoc _ _ _).symm, hbehind⟩

theorem newestOf_of_lastHighest {b : Entry} (hr : Range.parse range = .ok r)
    (h : LastHighest (·.version)
      (entries (texts.filter (standsFor r.accepts))) b) :
    NewestOf texts range b.text b.version := by
  obtain ⟨front, back, hsplit, -, hback⟩ := id h
  obtain ⟨before, behind, htexts, hbehind⟩ := exists_behind hsplit
  have hmem : b ∈ entries (texts.filter (standsFor r.accepts)) :=
    hsplit ▸ List.mem_append_cons_self
  have hb : standsFor r.accepts b.text = true :=
    List.of_mem_filter (mem_entries_iff.mp hmem)
  refine ⟨b.parsed, (satisfies_eq_true_iff hr).mpr hb, ?_,
    before, behind, htexts, ?_⟩
  · intro u hu w hw hsat
    have hu' : standsFor r.accepts u = true :=
      (satisfies_eq_true_iff hr).mp hsat
    have hmem : ⟨u, w, hw⟩ ∈ entries (texts.filter (standsFor r.accepts)) :=
      mem_entries_iff.mpr (List.mem_filter.mpr ⟨hu, hu'⟩)
    exact h.le_of_mem hmem
  · intro u hu w hw hsame
    have hu' : standsFor r.accepts u = true := by
      rw [standsFor_of_parse_eq_ok hw, r.accepts_eq_of_beq hsame]
      exact (standsFor_of_parse_eq_ok b.parsed).symm.trans hb
    have hmem : u ∈ back.map (·.text) :=
      hbehind ▸ List.mem_filter.mpr ⟨hu, hu'⟩
    obtain ⟨e, he, rfl⟩ := List.mem_map.mp hmem
    obtain rfl := Except.ok.inj (e.parsed.symm.trans hw)
    exact (hback e he).not_ge (Version.beq_iff_le_and_le.mp hsame).1

theorem newestSatisfying?_of_parse_eq_error {e : Error}
    (h : Range.parse range = .error e) :
    newestSatisfying? texts range = .error e := by
  rw [newestSatisfying?, h]
  rfl

theorem newestSatisfying?_of_parse_eq_ok (h : Range.parse range = .ok r) :
    newestSatisfying? texts range =
      .ok ((newest? (·.version)
        (entries (texts.filter (standsFor r.accepts)))).map (·.text)) := by
  rw [entries_filter, ← map_entry_accepted, newest?_map, Option.map_map,
    newestSatisfying?, h]
  rfl

/-- The newest version that satisfies a range is the last of the sorted
versions that do, and there is none only if no version satisfies the range.
It is given with the text that is last among those of its precedence, and
nothing that satisfies the range is of a higher one. If the range cannot be
read, neither question has an answer, for the same reason. -/
theorem newest_is_last_sorted (texts : List String) (range : String) :
    (∀ e, Range.parse range = .error e →
      satisfying texts range = .error e ∧
        newestSatisfying? texts range = .error e) ∧
    ∀ r, Range.parse range = .ok r →
      ∃ satisfied newest, satisfying texts range = .ok satisfied ∧
        newestSatisfying? texts range = .ok newest ∧
        (newest = none ↔ satisfied = []) ∧
        newest = (ascending satisfied).getLast? ∧
        ∀ t, newest = some t → ∃ v, NewestOf texts range t v := by
  refine ⟨fun e he => ?_, fun r hr => ?_⟩
  · exact ⟨satisfying_of_parse_eq_error he,
      newestSatisfying?_of_parse_eq_error he⟩
  · have hlast : (newest? (·.version)
        (entries (texts.filter (standsFor r.accepts)))).map (·.text) =
          (ascending (texts.filter (standsFor r.accepts))).getLast? := by
      rw [newest?_eq_getLast?, ← List.getLast?_map, ascending,
        map_text_mergeSort]
    refine ⟨_, _, satisfying_of_parse_eq_ok hr,
      newestSatisfying?_of_parse_eq_ok hr, ?_, hlast, ?_⟩
    · rw [Option.map_eq_none_iff, newest?_eq_none_iff, entries_filter,
        ← map_text_filter, List.map_eq_nil_iff]
    · intro t ht
      obtain ⟨b, hb, rfl⟩ := Option.map_eq_some_iff.mp ht
      exact ⟨b.version,
        newestOf_of_lastHighest hr (lastHighest_of_newest?_eq_some hb)⟩

/-- Of six texts three satisfy `~1`, all of one precedence, and the last of
these is the newest; `~>1` cannot be read. -/
theorem newest_is_last_sorted_tie :
    (ascending ["1", "1.0.0+b", " 1.0 "]).getLast? = some " 1.0 " ∧
    (∃ v, NewestOf ["1", "x", "1.0.0+b", " 1.0 ", "2", "0.9"] "~1"
      " 1.0 " v) ∧
    newestSatisfying? ["1"] "~>1" = .error (.malformedRange "~>1") := by
  have htexts := newest_is_last_sorted
    ["1", "x", "1.0.0+b", " 1.0 ", "2", "0.9"] "~1"
  obtain ⟨satisfied, newest, hsatisfied, hnewest, -, hlast, hof⟩ :=
    htexts.2 _ (by rfl)
  obtain rfl : satisfied = ["1", "1.0.0+b", " 1.0 "] :=
    (Except.ok.inj hsatisfied).symm
  obtain rfl : newest = some " 1.0 " := (Except.ok.inj hnewest).symm
  have herror := (newest_is_last_sorted ["1"] "~>1").1 _ (by rfl)
  exact ⟨hlast.symm, hof _ rfl, herror.2⟩

end Versioning.Selection
