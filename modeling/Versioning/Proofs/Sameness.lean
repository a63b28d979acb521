/-
When two versions count as one, and that nothing disagrees about it.

Equality, comparison, what a hash is fed with and the `stem` of the
canonical text see the rank of a version and no more (`sameness_agrees`).
A feed is a flat sequence, so it has to be read back: identifiers are
announced by their number, hence the feed of a version ends in one place
only (`Version.feed_append_inj`), and that of a list of comparators falls
apart into theirs. A hash set keeps one version of each rank.
-/
import Versioning.Proofs.Comparison
import Versioning.Proofs.RoundTrip

namespace Versioning

open Text

-- =============================================== feeds are read back

theorem Operator.index_injective : Function.Injective index := by
  intro o p h
  rcases o with (_ | _ | _ | _ | _) | _ | _ <;>
    rcases p with (_ | _ | _ | _ | _) | _ | _ <;> first | rfl | cases h

theorem Relation.index_injective : Function.Injective index := fun _ _ h =>
  Operator.plain.inj (Operator.index_injective h)

theorem PrereleaseId.hashItem_injective :
    Function.Injective fun id : PrereleaseId => HashItem.text id.text := by
  intro a b h
  cases a
  cases b
  cases h
  rfl

/-- What a version feeds determines its rank, and where it ends in a longer
sequence. -/
theorem Version.feed_append_inj {a b : Version} {s t : List HashItem} :
    a.feed ++ s = b.feed ++ t ↔ a.rank = b.rank ∧ s = t := by
  simp only [feed, List.cons_append, List.cons.injEq, HashItem.number.injEq,
    HashItem.length.injEq, rank, Rank.mk.injEq]
  constructor
  · intro h
    obtain ⟨hmajor, hminor, hpatch, hlength, hrest⟩ := h
    obtain ⟨hids, hst⟩ := List.append_inj hrest (by simp [hlength])
    have hprerelease :=
      List.map_injective_iff.mpr PrereleaseId.hashItem_injective hids
    exact ⟨⟨hmajor, hminor, hpatch, hprerelease⟩, hst⟩
  · intro h
    obtain ⟨⟨hmajor, hminor, hpatch, hprerelease⟩, hst⟩ := h
    rw [hmajor, hminor, hpatch, hprerelease, hst]
    exact ⟨rfl, rfl, rfl, rfl, rfl⟩

theorem Version.feed_eq_iff {a b : Version} :
    a.feed = b.feed ↔ a.rank = b.rank := by
  have h := @feed_append_inj a b [] []
  simpa using h

theorem Comparator.feed_append_inj {c d : Comparator}
    {s t : List HashItem} :
    c.feed ++ s = d.feed ++ t ↔ c.key = d.key ∧ s = t := by
  simp only [feed, List.cons_append, List.cons.injEq, HashItem.member.injEq,
    Relation.index_injective.eq_iff, Version.feed_append_inj, key,
    Prod.mk.injEq, and_assoc]

theorem Comparator.feed_eq_iff {c d : Comparator} :
    c.feed = d.feed ↔ c.key = d.key := by
  have h := @feed_append_inj c d [] []
  simpa using h

theorem Clause.feed_eq_iff {c d : Clause} :
    c.feed = d.feed ↔ c.key = d.key := by
  simp only [feed, List.cons.injEq, HashItem.member.injEq,
    Operator.index_injective.eq_iff, Version.feed_eq_iff, key,
    Prod.mk.injEq]

/-- The feed of a list falls apart into those of its comparators. -/
theorem Comparator.flatMap_feed_eq_iff {cs ds : List Comparator} :
    cs.flatMap feed = ds.flatMap feed ↔ cs.map key = ds.map key := by
  induction cs generalizing ds with
  | nil => cases ds <;> simp [feed]
  | cons c cs ih =>
    cases ds with
    | nil => simp [feed]
    | cons d ds =>
      rw [List.flatMap_cons, List.flatMap_cons, feed_append_inj, ih,
        List.map_cons, List.map_cons, List.cons.injEq]

theorem Range.feed_eq_iff {r s : Range} :
    r.feed = s.feed ↔ r.key = s.key := by
  rw [feed, feed, List.cons.injEq, Comparator.flatMap_feed_eq_iff, key, key]
  constructor
  · intro h
    exact h.2
  · intro h
    have hlength := congrArg List.length h
    rw [List.length_map, List.length_map] at hlength
    exact ⟨congrArg HashItem.length hlength, h⟩

theorem Clause.beq_iff_key_eq {c d : Clause} :
    (c == d) = true ↔ c.key = d.key := by
  show (c.operator == d.operator && c.version == d.version) = true ↔ _
  rw [Bool.and_eq_true, beq_iff_eq, Version.beq_iff_rank_eq, key, key,
    Prod.mk.injEq]

-- ========================================================== the stems

namespace Version

/-- The canonical text up to the build metadata. -/
def stem (v : Version) : List Char :=
  v.text.toList.takeWhile (· != '+')

/-- The version without its build metadata. -/
def withoutBuild (v : Version) : Version :=
  { v with build := [] }

theorem WellFormed.withoutBuild {v : Version} (h : v.WellFormed) :
    v.withoutBuild.WellFormed where
  prerelease := h.prerelease
  build := by simp [Version.withoutBuild]
  minorAndPatch := h.minorAndPatch
  patch := h.patch

theorem text_eq_withoutBuild_append (v : Version) :
    v.text = v.withoutBuild.text ++ label "+" (v.build.map (·.text)) := by
  rw [text_eq_append, text_eq_append]
  simp [withoutBuild, label]

/-- A version without build metadata is written without a plus. -/
theorem WellFormed.plus_not_mem_text {v : Version} (h : v.WellFormed) :
    '+' ∉ v.withoutBuild.text.toList := by
  obtain ⟨prerelease, hprerelease⟩ := exists_toList_label_eq_uncut '-'
    (v.withoutBuild.spelledOut.prerelease.map (·.text))
  have hbuild : (label "+" (v.withoutBuild.spelledOut.build.map
      (·.text))).toList = uncut '+' none := rfl
  obtain ⟨front, hcut, -⟩ :=
    cut_written h.withoutBuild.spelledOut hprerelease hbuild
  obtain ⟨hplus, hfront⟩ := cut_eq_iff.mp hcut
  rw [uncut, List.append_nil] at hfront
  rw [hfront] at hplus
  exact hplus

/-- The stem is the text of the version without its build metadata. -/
theorem WellFormed.stem_eq {v : Version} (h : v.WellFormed) :
    v.stem = v.withoutBuild.text.toList := by
  obtain ⟨build, hbuild⟩ :=
    exists_toList_label_eq_uncut '+' (v.build.map (·.text))
  have hlabel : (uncut '+' build).takeWhile (· != '+') = [] := by
    cases build <;> simp [uncut]
  unfold stem
  rw [text_eq_withoutBuild_append, String.toList_append]
  rw [List.takeWhile_append_of_pos]
  · show _ ++ (label (String.singleton '+') _).toList.takeWhile _ = _
    rw [hbuild, hlabel, List.append_nil]
  · intro c hc
    have hne : c ≠ '+' := fun heq => h.plus_not_mem_text (heq ▸ hc)
    simpa using hne

/-- Stems are the same for versions of one rank, and for no others. -/
theorem WellFormed.stem_eq_iff {a b : Version} (ha : a.WellFormed)
    (hb : b.WellFormed) : a.stem = b.stem ↔ a.rank = b.rank := by
  rw [ha.stem_eq, hb.stem_eq, String.toList_inj,
    ha.withoutBuild.text_eq_iff hb.withoutBuild]
  constructor
  · intro h
    have hrank := rank_spelledOut a.withoutBuild
    rw [sameParts_iff.mp h] at hrank
    exact hrank.symm
  · intro h
    injection h with hmajor hminor hpatch hprerelease
    exact ⟨hmajor, hminor, hpatch, hprerelease, rfl⟩

-- ============================================================ counting

/-- The versions of the precedence of `v`. -/
def precedenceClass (v : Version) : Set Version :=
  {w | v.precedence w = .eq}

theorem precedenceClass_eq (v : Version) :
    precedenceClass v = {w | w.rank = v.rank} := by
  ext w
  exact precedence_eq_iff.trans eq_comm

theorem rank_surjective : Function.Surjective rank := fun r =>
  ⟨⟨r.major, r.minor, r.patch, r.prerelease, [], .none⟩, rfl⟩

/-- A rank is known by the versions that have it. -/
theorem setOf_rank_injective :
    Function.Injective fun r : Rank => {w : Version | w.rank = r} := by
  intro r s h
  obtain ⟨v, rfl⟩ := rank_surjective r
  have hmem : v ∈ {w : Version | w.rank = v.rank} := rfl
  simp only at h
  rw [h] at hmem
  exact hmem

theorem rank_mem_map_iff {v : Version} {vs : List Version} :
    v.rank ∈ vs.map rank ↔ vs.contains v = true := by
  rw [List.mem_map, List.contains_iff_exists_mem_beq]
  refine exists_congr fun w => and_congr_right fun _ => ?_
  rw [beq_iff_rank_eq]
  exact eq_comm

/-- A hash set keeps the ranks of the versions it is made of, each of them
once. -/
theorem countDistinct_eq_card (vs : List Version) :
    countDistinct vs = (vs.map rank).toFinset.card := by
  have hnodup : ((Std.HashSet.ofList vs).toList.map rank).Nodup := by
    refine List.Pairwise.map rank (fun a b hab heq => ?_)
      Std.HashSet.distinct_toList
    rw [beq_iff_rank_eq.mpr heq] at hab
    cases hab
  have hranks : ((Std.HashSet.ofList vs).toList.map rank).toFinset =
      (vs.map rank).toFinset := by
    ext r
    obtain ⟨v, rfl⟩ := rank_surjective r
    rw [List.mem_toFinset, List.mem_toFinset, rank_mem_map_iff,
      rank_mem_map_iff, Std.HashSet.contains_toList,
      Std.HashSet.contains_ofList]
  rw [countDistinct, ← Std.HashSet.length_toList, ← hranks,
    List.toFinset_card_of_nodup hnodup, List.length_map]

theorem countDistinct_eq_ncard (vs : List Version) :
    countDistinct vs = (precedenceClass '' {v | v ∈ vs}).ncard := by
  have himage : precedenceClass '' {v | v ∈ vs} =
      (fun r => {w : Version | w.rank = r}) '' (vs.map rank).toFinset := by
    ext C
    simp [precedenceClass_eq]
  rw [countDistinct_eq_card, himage,
    Set.ncard_image_of_injective _ setOf_rank_injective,
    Set.ncard_coe_finset]

end Version

-- ========================================================== agreement

/-- Equality, order, hashing and the canonical text tell the same versions
apart. For two versions that can be had it is one thing that they are
equal, that they compare as equal, that they have the same rank, that they
feed a hash the same items, and that their canonical texts agree up to the
build metadata. So a hash set made of a list of versions has as many
elements as the list has classes of precedence. Equality and hashing of
comparators, clauses and ranges, which are made of versions, agree in the
same way. -/
theorem sameness_agrees :
    (∀ a b : Version, a.Obtainable → b.Obtainable →
      [(a == b) = true, compare a b = .eq, a.rank = b.rank,
        a.feed = b.feed, a.stem = b.stem].TFAE) ∧
    (∀ vs : List Version, Version.countDistinct vs =
      (Version.precedenceClass '' {v | v ∈ vs}).ncard) ∧
    (∀ c d : Comparator,
      [(c == d) = true, c.key = d.key, c.feed = d.feed].TFAE) ∧
    (∀ c d : Clause,
      [(c == d) = true, c.key = d.key, c.feed = d.feed].TFAE) ∧
    ∀ r s : Range,
      [(r == s) = true, r.key = s.key, r.feed = s.feed].TFAE := by
  refine ⟨fun a b ha hb => ?_, Version.countDistinct_eq_ncard,
    fun c d => ?_, fun c d => ?_, fun r s => ?_⟩
  · tfae_have 1 ↔ 3 := Version.beq_iff_rank_eq
    tfae_have 2 ↔ 3 := Version.precedence_eq_iff
    tfae_have 4 ↔ 3 := Version.feed_eq_iff
    tfae_have 5 ↔ 3 := ha.wellFormed.stem_eq_iff hb.wellFormed
    tfae_finish
  · tfae_have 1 ↔ 2 := Comparator.beq_iff_key_eq
    tfae_have 3 ↔ 2 := Comparator.feed_eq_iff
    tfae_finish
  · tfae_have 1 ↔ 2 := Clause.beq_iff_key_eq
    tfae_have 3 ↔ 2 := Clause.feed_eq_iff
    tfae_finish
  · tfae_have 1 ↔ 2 := Range.beq_iff_key_eq
    tfae_have 3 ↔ 2 := Range.feed_eq_iff
    tfae_finish

/-- `1.2-rc` and `1.2.0-rc+b` are two versions and feed a hash alike. -/
theorem sameness_agrees_build :
    (⟨1, 2, 0, [⟨"rc"⟩], [], .patch⟩ : Version).feed =
      (⟨1, 2, 0, [⟨"rc"⟩], [⟨"b"⟩], .none⟩ : Version).feed := by
  have ha : Version.Obtainable ⟨1, 2, 0, [⟨"rc"⟩], [], .patch⟩ :=
    .parse (show Version.parse "1.2-rc" = .ok _ by rfl)
  have hb : Version.Obtainable ⟨1, 2, 0, [⟨"rc"⟩], [⟨"b"⟩], .none⟩ :=
    .parse (show Version.parse "1.2.0-rc+b" = .ok _ by rfl)
  exact ((sameness_agrees.1 _ _ ha hb).out 4 3).mp (by rfl)

end Versioning
