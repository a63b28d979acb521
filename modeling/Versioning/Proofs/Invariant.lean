/-
What holds of every version that can be had, and of no other.

Nothing in the types keeps an identifier from holding a dot or an omission
from denying a number that is there. Reading checks every piece of a label
and counts the numerals, and the other ways to a version keep what it
checked (`Version.Obtainable.wellFormed`). This is also all that can be
said, since a well-formed version is read from its written form
(`Version.obtainable_iff_wellFormed`).
-/
import Versioning.Proofs.Precedence
import Versioning.Proofs.RoundTrip

namespace Versioning

-- ========================================================= identifiers

/-- Of the numbers only zero begins with a zero. -/
theorem Identifier.WellFormed.eq_zero {id : PrereleaseId}
    (h : id.WellFormed) (hnumeric : id.isNumeric = true)
    (hzero : id.text.toList.head? = some '0') : id.text = "0" := by
  obtain ⟨-, -, hlead⟩ := Text.isNumeral_iff.mp (h.isNumeral hnumeric)
  exact String.toList_inj.mp (hlead hzero)

-- ============================================================ versions

namespace Version

/-- What can be had is what is well formed. -/
theorem obtainable_iff_wellFormed {v : Version} :
    v.Obtainable ↔ v.WellFormed :=
  ⟨Obtainable.wellFormed, fun h => .parse h.parse_written⟩

/-- Well-formedness in terms of what is read. -/
theorem wellFormed_iff {v : Version} :
    v.WellFormed ↔
      (∀ id ∈ v.prerelease, PrereleaseId.parse id.text = .ok id) ∧
      (∀ id ∈ v.build, BuildId.parse id.text = .ok id) ∧
      (v.omission = .minorAndPatch → v.minor = 0 ∧ v.patch = 0) ∧
      (v.omission = .patch → v.patch = 0) := by
  constructor
  · intro h
    exact ⟨fun id hid => Identifier.wellFormed_iff.mp (h.prerelease id hid),
      fun id hid => Identifier.wellFormed_iff.mp (h.build id hid),
      h.minorAndPatch, h.patch⟩
  · intro h
    obtain ⟨hprerelease, hbuild, hminor, hpatch⟩ := h
    exact ⟨fun id hid => Identifier.wellFormed_iff.mpr (hprerelease id hid),
      fun id hid => Identifier.wellFormed_iff.mpr (hbuild id hid), hminor,
      hpatch⟩

theorem isPrerelease_iff {v : Version} :
    v.isPrerelease = true ↔ v.prerelease ≠ [] := by
  rw [isPrerelease, Bool.not_eq_true', List.isEmpty_eq_false_iff]

end Version

-- ============================================================= windows

/-- A tilde or a caret that is expanded keeps its version for the lower
bound and makes a release for the upper one. -/
theorem Clause.exists_ceiling {c : Clause} {cs : List Comparator}
    (hoperator : c.operator = .tilde ∨ c.operator = .caret)
    (h : c.comparators = .ok cs) :
    ∃ u, cs = [⟨.atLeast, c.version⟩, ⟨.less, u⟩] ∧
      u.prerelease = [] ∧ u.build = [] ∧ u.omission = .none := by
  rcases comparators_eq_ok_iff.mp h with
    ⟨relation, hplain, -⟩ | ⟨p, u, -, hraise, hcs⟩
  · rw [hplain] at hoperator
    rcases hoperator with hoperator | hoperator <;> cases hoperator
  · refine ⟨u, hcs, ?_⟩
    rw [hraise.is_release]
    exact ⟨rfl, rfl, rfl⟩

-- ======================================================= the invariant

/-- The versions that come out of this library, by reading, by putting
together and by expanding, in whatever composition, are exactly those whose
identifiers can be read each by itself and whose omitted numbers are zero.
So no identifier is empty, and one of digits only has no leading zero; a
version is a prerelease when it has identifiers. Clauses and ranges hold
such versions only. Of a tilde or caret clause that is expanded, the lower
bound is the version of the clause in all of its parts, and the upper bound
is a release without labels and with all of its numbers written. -/
theorem obtainable_versions :
    (∀ v : Version, v.Obtainable ↔
      (∀ id ∈ v.prerelease, PrereleaseId.parse id.text = .ok id) ∧
      (∀ id ∈ v.build, BuildId.parse id.text = .ok id) ∧
      (v.omission = .minorAndPatch → v.minor = 0 ∧ v.patch = 0) ∧
      (v.omission = .patch → v.patch = 0)) ∧
    (∀ v : Version, v.Obtainable →
      (∀ id ∈ v.prerelease, id.text ≠ "" ∧
        (id.isNumeric = true → id.text.toList.head? = some '0' →
          id.text = "0")) ∧
      (v.isPrerelease = true ↔ v.prerelease ≠ [])) ∧
    (∀ c : Clause, c.Obtainable → c.version.Obtainable) ∧
    (∀ r : Range, r.Obtainable → ∀ b ∈ r.comparators, b.bound.Obtainable) ∧
    ∀ (c : Clause) (cs : List Comparator),
      c.operator = .tilde ∨ c.operator = .caret → c.comparators = .ok cs →
      ∃ u, cs = [⟨.atLeast, c.version⟩, ⟨.less, u⟩] ∧
        u.prerelease = [] ∧ u.build = [] ∧ u.omission = .none := by
  refine ⟨fun v => ?_, fun v hv => ⟨fun id hid => ?_, ?_⟩, ?_, ?_, ?_⟩
  · exact Version.obtainable_iff_wellFormed.trans Version.wellFormed_iff
  · have hwf := hv.wellFormed.prerelease id hid
    exact ⟨hwf.text_ne_empty, hwf.eq_zero⟩
  · exact Version.isPrerelease_iff
  · intro c hc
    exact hc.version
  · intro r hr b hb
    exact hr.bound hb
  · intro c cs hoperator hcs
    exact Clause.exists_ceiling hoperator hcs

/-- The version of `~1-0a+b` and the two bounds it expands to. -/
theorem obtainable_versions_window :
    ∃ w u : Version, Clause.parse "~1-0a+b" = .ok ⟨.tilde, w⟩ ∧
      (∀ id ∈ w.prerelease, PrereleaseId.parse id.text = .ok id) ∧
      (∀ id ∈ w.prerelease, id.text ≠ "") ∧
      (⟨.tilde, w⟩ : Clause).comparators =
        .ok [⟨.atLeast, w⟩, ⟨.less, u⟩] ∧
      u.build = [] ∧ u.Obtainable := by
  have hclause : Clause.parse "~1-0a+b" = .ok ⟨.tilde,
      { Version.release 1 0 0 with
        prerelease := [⟨"0a"⟩], build := [⟨"b"⟩]
        omission := .minorAndPatch }⟩ := by rfl
  have hc := obtainable_versions.2.2.1 _ (.parse hclause)
  have hcs : (⟨.tilde, { Version.release 1 0 0 with
      prerelease := [⟨"0a"⟩], build := [⟨"b"⟩]
      omission := .minorAndPatch }⟩ : Clause).comparators = .ok
        [⟨.atLeast, { Version.release 1 0 0 with
          prerelease := [⟨"0a"⟩], build := [⟨"b"⟩]
          omission := .minorAndPatch }⟩, ⟨.less, Version.release 2 0 0⟩] := by
    rfl
  obtain ⟨u, hu, -, hbuild, -⟩ :=
    obtainable_versions.2.2.2.2 _ _ (.inl rfl) hcs
  have hr := Range.Obtainable.expanded (.parse hclause) hcs
  refine ⟨_, u, hclause, ((obtainable_versions.1 _).mp hc).1,
    fun id hid => ((obtainable_versions.2.1 _ hc).1 id hid).1, ?_, hbuild, ?_⟩
  · rw [hcs, hu]
  · exact obtainable_versions.2.2.2.1 _ hr ⟨.less, u⟩ (by simp [hu])

end Versioning
