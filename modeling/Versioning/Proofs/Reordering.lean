/-
What becomes of the sorted lists when the given texts are reordered.

A sorted list depends on the ties of what is sorted and on nothing else of
it (`Direction.arrange_eq_of_ties_eq`), and sorting leaves the ties alone.
A list that is turned round has its ties turned round. In another order
only the ranks stay where they are, since their order is linear.
-/
import Versioning.Proofs.Arrangement

namespace Versioning.Selection

variable {r s : Version → Version → Bool} {as bs : List Entry}
  {given texts : List String}

-- ================================================================ ties

/-- Entries with the same ties are sorted alike. -/
theorem Direction.arrange_eq_of_ties_eq (h : Direction r)
    (hties : ∀ v, ties v as = ties v bs) : arrange r as = arrange r bs := by
  apply h.eq_of_ties_eq (h.pairwise_arrange as) (h.pairwise_arrange bs)
  intro v
  rw [h.ties_arrange, h.ties_arrange, hties]

/-- What was sorted before makes no difference to a sort. -/
theorem Direction.arrange_arrange (h : Direction r) (hs : Direction s)
    (es : List Entry) : arrange r (arrange s es) = arrange r es :=
  h.arrange_eq_of_ties_eq fun v => hs.ties_arrange v es

theorem ties_reverse (v : Version) (es : List Entry) :
    ties v es.reverse = (ties v es).reverse :=
  List.filter_reverse

theorem inOrder_isAtLeast (a b : Entry) :
    inOrder Version.isAtLeast a b = inOrder Version.isAtMost b a := by
  apply Bool.eq_iff_iff.mpr
  exact Relation.holds_atLeast_iff.trans Relation.holds_atMost_iff.symm

/-- Downwards a list turned round is the ascending list turned round. -/
theorem arrange_reverse (es : List Entry) :
    arrange Version.isAtLeast es.reverse =
      (arrange Version.isAtMost es).reverse := by
  apply direction_isAtLeast.eq_of_ties_eq
  · exact direction_isAtLeast.pairwise_arrange es.reverse
  · simp only [List.pairwise_reverse, inOrder_isAtLeast]
    exact direction_isAtMost.pairwise_arrange es
  · intro v
    rw [direction_isAtLeast.ties_arrange, ties_reverse, ties_reverse,
      direction_isAtMost.ties_arrange]

-- =============================================================== ranks

/-- The ranks of sorted entries are in order. -/
theorem pairwise_map_rank_arrange (es : List Entry) :
    ((arrange Version.isAtMost es).map (·.version.rank)).Pairwise
      fun x y => (compare x y).isLE = true :=
  List.pairwise_map.mpr (direction_isAtMost.pairwise_arrange es)

/-- The same entries in any order have the same ranks when they are
sorted. -/
theorem map_rank_arrange_eq_of_perm (h : as.Perm bs) :
    (arrange Version.isAtMost as).map (·.version.rank) =
      (arrange Version.isAtMost bs).map (·.version.rank) := by
  apply List.Perm.eq_of_pairwise _ (pairwise_map_rank_arrange as)
    (pairwise_map_rank_arrange bs)
  · apply List.Perm.map
    exact (arrange_perm as).trans (h.trans (arrange_perm bs).symm)
  · intro x y _ _ hxy hyx
    exact Std.LawfulEqOrd.eq_of_compare
      (Std.OrientedCmp.isLE_antisymm hxy hyx)

/-- Two texts are versions of one precedence. -/
def SamePrecedence (t u : String) : Prop :=
  ∃ v w, Version.parse t = .ok v ∧ Version.parse u = .ok w ∧
    v.precedence w = .eq

/-- Entries of the same ranks have texts of the same precedence. -/
theorem forall₂_samePrecedence
    (h : as.map (·.version.rank) = bs.map (·.version.rank)) :
    List.Forall₂ SamePrecedence (as.map (·.text)) (bs.map (·.text)) := by
  rw [← List.forall₂_eq_eq_eq] at h
  rw [List.forall₂_map_left_iff, List.forall₂_map_right_iff] at h ⊢
  apply h.imp
  intro a b hrank
  exact ⟨a.version, b.version, a.parsed, b.parsed,
    Version.precedence_eq_iff.mpr hrank⟩

-- =============================================================== texts

theorem ascending_eq (texts : List String) :
    ascending texts =
      (arrange Version.isAtMost (entries texts)).map (·.text) :=
  map_text_mergeSort Version.isAtMost texts

theorem descending_eq (texts : List String) :
    descending texts =
      (arrange Version.isAtLeast (entries texts)).map (·.text) :=
  map_text_mergeSort Version.isAtLeast texts

theorem entries_ascending (texts : List String) :
    entries (ascending texts) = arrange Version.isAtMost (entries texts) := by
  rw [ascending_eq, entries_map_text]

theorem entries_descending (texts : List String) :
    entries (descending texts) =
      arrange Version.isAtLeast (entries texts) := by
  rw [descending_eq, entries_map_text]

theorem entries_reverse (texts : List String) :
    entries texts.reverse = (entries texts).reverse :=
  List.filterMap_reverse

/-- The descending list of texts turned round is the ascending one turned
round. -/
theorem descending_reverse (texts : List String) :
    descending texts.reverse = (ascending texts).reverse := by
  rw [descending_eq, entries_reverse, arrange_reverse, List.map_reverse,
    ascending_eq]

theorem forall₂_ascending_of_perm (h : given.Perm texts) :
    List.Forall₂ SamePrecedence (ascending given) (ascending texts) := by
  have hentries : (entries given).Perm (entries texts) := h.filterMap _
  rw [ascending_eq, ascending_eq]
  exact forall₂_samePrecedence (map_rank_arrange_eq_of_perm hentries)

/-- How the sorted lists of reordered texts are related. The descending list
of the texts from last to first is the ascending list from last to first.
Texts that were sorted before, upwards or downwards, are sorted as if they
had not been, with the texts of one precedence as they were given. In any
other order of the texts the two lists are as long as before, and at each
place they have a version of the same precedence as before. -/
theorem sorted_after_reordering (texts : List String) :
    descending texts.reverse = (ascending texts).reverse ∧
    (ascending (ascending texts) = ascending texts ∧
      ascending (descending texts) = ascending texts ∧
      descending (ascending texts) = descending texts ∧
      descending (descending texts) = descending texts) ∧
    ∀ given : List String, given.Perm texts →
      List.Forall₂ SamePrecedence (ascending given) (ascending texts) ∧
      List.Forall₂ SamePrecedence (descending given) (descending texts) := by
  have hup := direction_isAtMost
  have hdown := direction_isAtLeast
  refine ⟨descending_reverse texts, ⟨?_, ?_, ?_, ?_⟩, fun given h => ⟨?_, ?_⟩⟩
  · rw [ascending_eq, entries_ascending, hup.arrange_arrange hup,
      ascending_eq]
  · rw [ascending_eq, entries_descending, hup.arrange_arrange hdown,
      ascending_eq]
  · rw [descending_eq, entries_ascending, hdown.arrange_arrange hup,
      descending_eq]
  · rw [descending_eq, entries_descending, hdown.arrange_arrange hdown,
      descending_eq]
  · exact forall₂_ascending_of_perm h
  · -- downwards it is the ascending list of the texts turned round
    rw [← List.reverse_reverse given, ← List.reverse_reverse texts,
      descending_reverse, descending_reverse, List.forall₂_reverse_iff]
    apply forall₂_ascending_of_perm
    exact (List.reverse_perm given).trans
      (h.trans (List.reverse_perm texts).symm)

/-- Four texts in two orders, of which two are versions of one precedence
and one is no version. -/
theorem sorted_after_reordering_tie :
    ["1.0.0+b", "0.9", "x", "1"].Perm ["1", "x", "1.0.0+b", "0.9"] ∧
    List.Forall₂ SamePrecedence (ascending ["1.0.0+b", "0.9", "x", "1"])
      (ascending ["1", "x", "1.0.0+b", "0.9"]) ∧
    List.Forall₂ SamePrecedence (descending ["1.0.0+b", "0.9", "x", "1"])
      (descending ["1", "x", "1.0.0+b", "0.9"]) := by
  have hperm : ["1.0.0+b", "0.9", "x", "1"].Perm
      ["1", "x", "1.0.0+b", "0.9"] := by decide
  exact ⟨hperm, (sorted_after_reordering _).2.2 _ hperm⟩

end Versioning.Selection
