/-
Both sorted lists are stable, and no other lists are.

`StablySorted` asks three things of a list of texts: it holds the given
texts that are versions, it is ordered by precedence, and its ties are as
they were. Two ordered lists with the same ties are one list
(`eq_of_ties_eq`): their first texts occur in each other, so they head the
same tie. Both directions are one proof
(`Direction.map_text_arrange_eq_iff`), which uses of a comparison only that
it is transitive and total and holds both ways within one precedence.
-/
import Versioning.Proofs.Comparison
import Versioning.Proofs.Filtering

namespace Versioning.Selection

-- ========================================================== directions

/-- A comparison that goes through the versions by precedence, be it upwards
or downwards. -/
structure Direction (r : Version → Version → Bool) : Prop where
  trans : ∀ {a b c}, r a b = true → r b c = true → r a c = true
  total : ∀ a b, r a b = true ∨ r b a = true
  tie : ∀ {a b}, (a == b) = true ↔ r b a = true ∧ r a b = true

theorem direction_isAtMost : Direction Version.isAtMost where
  trans {_ _ _} hab hbc := le_trans (α := Version) hab hbc
  total := Version.le_or_le
  tie := Version.beq_iff_le_and_le

theorem direction_isAtLeast : Direction Version.isAtLeast where
  trans {_ _ _} hab hbc := Relation.holds_atLeast_iff.mpr
    (le_trans (Relation.holds_atLeast_iff.mp hbc)
      (Relation.holds_atLeast_iff.mp hab))
  total a b := by
    rw [Version.isAtLeast, Version.isAtLeast, Relation.holds_atLeast_iff,
      Relation.holds_atLeast_iff]
    exact Version.le_or_le b a
  tie := by
    intro a b
    rw [Version.isAtLeast, Version.isAtLeast, Relation.holds_atLeast_iff,
      Relation.holds_atLeast_iff, and_comm]
    exact Version.beq_iff_le_and_le

-- ====================================================== sorted entries

/-- Entries in the order of a comparison. -/
def arrange (r : Version → Version → Bool) (es : List Entry) : List Entry :=
  es.mergeSort fun a b => r a.version b.version

/-- The entries of the precedence of `v`, in order. -/
def ties (v : Version) (es : List Entry) : List Entry :=
  es.filter fun e => e.version == v

theorem mem_ties_iff {v : Version} {e : Entry} {es : List Entry} :
    e ∈ ties v es ↔ e ∈ es ∧ (e.version == v) = true :=
  List.mem_filter

theorem mem_iff_of_ties_eq {as bs : List Entry}
    (h : ∀ v, ties v as = ties v bs) {e : Entry} :
    e ∈ as ↔ e ∈ bs := by
  have hmem : ∀ es : List Entry, e ∈ es ↔ e ∈ ties e.version es :=
    fun es => by rw [mem_ties_iff, and_iff_left BEq.rfl]
  rw [hmem as, hmem bs, h]

theorem ties_cons_of_beq {v : Version} {e : Entry}
    (h : (e.version == v) = true) (es : List Entry) :
    ties v (e :: es) = e :: ties v es :=
  List.filter_cons_of_pos h

theorem ties_cons_of_not_beq {v : Version} {e : Entry}
    (h : ¬(e.version == v) = true) (es : List Entry) :
    ties v (e :: es) = ties v es :=
  List.filter_cons_of_neg h

/-- What follows a common first entry has the same ties if all has. -/
theorem ties_eq_of_cons {e : Entry} {as bs : List Entry}
    (h : ∀ v, ties v (e :: as) = ties v (e :: bs)) (v : Version) :
    ties v as = ties v bs := by
  have hv := h v
  by_cases he : (e.version == v) = true
  · rw [ties_cons_of_beq he, ties_cons_of_beq he] at hv
    exact (List.cons.inj hv).2
  · rwa [ties_cons_of_not_beq he, ties_cons_of_not_beq he] at hv

/-- Whether `a` may stand before `b`. -/
def inOrder (r : Version → Version → Bool) (a b : Entry) : Bool :=
  r a.version b.version

variable {r : Version → Version → Bool}

theorem arrange_perm (es : List Entry) : (arrange r es).Perm es :=
  List.mergeSort_perm es _

namespace Direction

theorem inOrder_trans (h : Direction r) (a b c : Entry) :
    inOrder r a b = true → inOrder r b c = true → inOrder r a c = true :=
  h.trans

theorem inOrder_total (h : Direction r) (a b : Entry) :
    (inOrder r a b || inOrder r b a) = true :=
  Bool.or_eq_true_iff.mpr (h.total a.version b.version)

/-- Entries of one precedence may stand in either order, and no others
may. -/
theorem tie_iff (h : Direction r) {a b : Entry} :
    (a.version == b.version) = true ↔
      inOrder r b a = true ∧ inOrder r a b = true :=
  h.tie

theorem pairwise_arrange (h : Direction r) (es : List Entry) :
    (arrange r es).Pairwise fun a b => inOrder r a b = true :=
  List.pairwise_mergeSort h.inOrder_trans h.inOrder_total es

theorem pairwise_ties (h : Direction r) (v : Version)
    (es : List Entry) :
    (ties v es).Pairwise fun a b => inOrder r a b = true := by
  refine List.pairwise_of_forall_mem_list fun a ha b hb => ?_
  have hav := (mem_ties_iff.mp ha).2
  have hbv := (mem_ties_iff.mp hb).2
  exact (h.tie_iff.mp (BEq.trans hav (BEq.symm hbv))).2

/-- Sorting leaves the ties alone. -/
theorem ties_arrange (h : Direction r) (v : Version) (es : List Entry) :
    ties v (arrange r es) = ties v es := by
  have hsub : (ties v es).Sublist (arrange r es) :=
    List.sublist_mergeSort h.inOrder_trans h.inOrder_total
      (h.pairwise_ties v es) List.filter_sublist
  have hties : (ties v es).Sublist (ties v (arrange r es)) := by
    have hfilter := hsub.filter fun e => e.version == v
    simp only [ties, List.filter_filter, Bool.and_self] at hfilter
    exact hfilter
  have hperm : (ties v (arrange r es)).Perm (ties v es) :=
    (arrange_perm es).filter _
  exact (hties.eq_of_length hperm.length_eq.symm).symm

/-- The first of an ordered list may stand before every member of it. -/
theorem inOrder_of_mem (h : Direction r) {a e : Entry}
    {as : List Entry}
    (has : (a :: as).Pairwise fun a b => inOrder r a b = true)
    (he : e ∈ a :: as) : inOrder r a e = true := by
  rcases List.mem_cons.mp he with rfl | he
  · exact (h.tie_iff.mp BEq.rfl).1
  · exact List.rel_of_pairwise_cons has he

/-- Ordered lists with the same ties are the same. -/
theorem eq_of_ties_eq (h : Direction r) {as bs : List Entry}
    (has : as.Pairwise fun a b => inOrder r a b = true)
    (hbs : bs.Pairwise fun a b => inOrder r a b = true)
    (hties : ∀ v, ties v as = ties v bs) : as = bs := by
  induction as generalizing bs with
  | nil =>
    cases bs with
    | nil => rfl
    | cons b bs =>
      have hb : b ∈ [] := (mem_iff_of_ties_eq hties).mpr (.head bs)
      cases hb
  | cons a as ih =>
    cases bs with
    | nil =>
      have ha : a ∈ [] := (mem_iff_of_ties_eq hties).mp (.head as)
      cases ha
    | cons b bs =>
      have hab := h.inOrder_of_mem has
        ((mem_iff_of_ties_eq hties).mpr (.head bs))
      have hba := h.inOrder_of_mem hbs
        ((mem_iff_of_ties_eq hties).mp (.head as))
      obtain ⟨rfl, -⟩ := List.cons.inj
        ((ties_cons_of_beq (h.tie_iff.mpr ⟨hba, hab⟩) as).symm.trans
          ((hties b.version).trans (ties_cons_of_beq BEq.rfl bs)))
      rw [ih (List.Pairwise.of_cons has) (List.Pairwise.of_cons hbs)
        (ties_eq_of_cons hties)]

end Direction

-- ========================================================= sorted texts

/-- The sorted list of the given texts: it holds those that are versions,
is ordered, and has the ties of the given list. -/
structure StablySorted (r : Version → Version → Prop)
    (texts sorted : List String) : Prop where
  perm : sorted.Perm (texts.filter (standsFor fun _ => true))
  ordered : sorted.Pairwise fun s t =>
    ∀ v w, Version.parse s = .ok v → Version.parse t = .ok w → r v w
  ties : ∀ v, sorted.filter (standsFor (· == v)) =
    texts.filter (standsFor (· == v))

/-- Texts are in order when their entries are. -/
theorem pairwise_entries_iff {R : Version → Version → Prop}
    {texts : List String} :
    ((entries texts).Pairwise fun a b => R a.version b.version) ↔
      texts.Pairwise fun s t =>
        ∀ v w, Version.parse s = .ok v → Version.parse t = .ok w → R v w := by
  unfold entries
  rw [List.pairwise_filterMap]
  refine iff_of_eq (congrArg (List.Pairwise · texts) ?_)
  funext s t
  simp only [Entry.ofText?_eq_some_iff, eq_iff_iff]
  constructor
  · intro h v w hv hw
    exact h ⟨s, v, hv⟩ rfl ⟨t, w, hw⟩ rfl
  · rintro h a rfl b rfl
    exact h a.version b.version a.parsed b.parsed

/-- Texts have the same ties when their entries do. -/
theorem ties_entries_iff {v : Version} {as bs : List String} :
    ties v (entries as) = ties v (entries bs) ↔
      as.filter (standsFor (· == v)) = bs.filter (standsFor (· == v)) := by
  constructor
  · intro h
    rw [← map_text_filter, ← map_text_filter]
    exact congrArg (List.map (·.text)) h
  · intro h
    have hentries := congrArg entries h
    rwa [entries_filter, entries_filter] at hentries

/-- The texts of the sorted entries are the sorted list of the texts, and
nothing else is. -/
theorem Direction.map_text_arrange_eq_iff (h : Direction r)
    {texts sorted : List String} :
    (arrange r (entries texts)).map (·.text) = sorted ↔
      StablySorted (fun v w => r v w = true) texts sorted := by
  constructor
  · rintro rfl
    refine ⟨?_, ?_, fun v => ?_⟩
    · rw [← map_text_entries]
      exact (arrange_perm (entries texts)).map _
    · rw [← pairwise_entries_iff, entries_map_text]
      exact h.pairwise_arrange (entries texts)
    · rw [← ties_entries_iff, entries_map_text]
      exact h.ties_arrange v (entries texts)
  · intro hsorted
    have hentries : arrange r (entries texts) = entries sorted :=
      h.eq_of_ties_eq (h.pairwise_arrange (entries texts))
        (pairwise_entries_iff.mpr hsorted.ordered) fun v =>
          (h.ties_arrange v (entries texts)).trans
            (ties_entries_iff.mpr (hsorted.ties v).symm)
    have hall : ∀ t ∈ sorted, standsFor (fun _ => true) t = true :=
      fun t ht => (List.mem_filter.mp (hsorted.perm.mem_iff.mp ht)).2
    rw [hentries, map_text_entries, List.filter_eq_self.mpr hall]

/-- Sorted candidates have the sorted entries. -/
theorem map_text_mergeSort (r : Version → Version → Bool)
    (texts : List String) :
    ((candidates texts).mergeSort fun a b => r a.version b.version).map
        (·.text) = (arrange r (entries texts)).map (·.text) := by
  rw [arrange, ← map_entry_candidates, ← List.map_mergeSort,
    map_text_map_entry]
  exact fun _ _ _ _ => rfl

/-- Sorting is stable, in either direction. The ascending list of some texts
is the one list that holds the texts that are versions, just as they were
given and as often, with no text before one of lower precedence and with the
texts of any one precedence in the order in which they were given. The
descending list is the one that differs from this in the direction only: the
texts of one precedence are again in the order in which they were given. -/
theorem sorted_stably (texts sorted : List String) :
    (ascending texts = sorted ↔ StablySorted (· ≤ ·) texts sorted) ∧
    (descending texts = sorted ↔
      StablySorted (fun v w => w ≤ v) texts sorted) := by
  unfold ascending descending
  rw [map_text_mergeSort Version.isAtMost, map_text_mergeSort]
  refine ⟨direction_isAtMost.map_text_arrange_eq_iff, ?_⟩
  have hge : (fun v w => Version.isAtLeast v w = true) =
      fun v w : Version => w ≤ v := by
    funext v w
    exact propext Relation.holds_atLeast_iff
  rw [← hge]
  exact direction_isAtLeast.map_text_arrange_eq_iff

end Versioning.Selection
