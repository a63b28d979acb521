/-
Every range denotes an interval of versions.

A relation and a bound single out a set without gaps (`Relation.span`), a
range accepts what lies in the spans of all its comparators
(`Range.setOf_accepts_eq`), and cutting such sets makes no gap. So a
prerelease or a release between two accepted versions is accepted as well.
-/
import Versioning.Proofs.Comparison
import Versioning.Proofs.Conjunction
import Versioning.Selection

namespace Versioning

-- ============================================================== spans

namespace Relation

/-- The versions that stand to a bound as a relation says. -/
def span : Relation → Version → Set Version
  | equal, w => Set.Icc w w
  | greater, w => Set.Ioi w
  | less, w => Set.Iio w
  | atLeast, w => Set.Ici w
  | atMost, w => Set.Iic w

theorem holds_iff_mem_span {relation : Relation} {v w : Version} :
    relation.holds v w = true ↔ v ∈ relation.span w := by
  cases relation with
  | equal => exact holds_equal_iff.trans Version.beq_iff_le_and_le
  | greater => exact holds_greater_iff
  | less => exact holds_less_iff
  | atLeast => exact holds_atLeast_iff
  | atMost => exact holds_atMost_iff

/-- No relation skips a version. -/
theorem ordConnected_span (relation : Relation) (w : Version) :
    (relation.span w).OrdConnected := by
  cases relation with
  | equal => exact Set.ordConnected_Icc
  | greater => exact Set.ordConnected_Ioi
  | less => exact Set.ordConnected_Iio
  | atLeast => exact Set.ordConnected_Ici
  | atMost => exact Set.ordConnected_Iic

end Relation

namespace Range

/-- A range accepts what lies in the span of each comparator. -/
theorem setOf_accepts_eq (r : Range) :
    {v | r.accepts v = true} =
      ⋂ c ∈ r.comparators, c.relation.span c.bound := by
  ext v
  rw [Set.mem_iInter₂]
  show r.accepts v = true ↔ _
  rw [accepts_iff]
  exact forall₂_congr fun c _ => Relation.holds_iff_mem_span

theorem ordConnected_accepts (r : Range) :
    {v | r.accepts v = true}.OrdConnected := by
  rw [setOf_accepts_eq]
  exact Set.ordConnected_biInter fun c _ =>
    c.relation.ordConnected_span c.bound

end Range

-- ============================================================= interval

namespace Range

/-- A range accepts every version between two that it accepts: of any
comparators, and of a text whatever its clauses are. -/
theorem accepted_without_gap :
    (∀ (r : Range) {a b c : Version}, a ≤ b → b ≤ c →
      r.accepts a = true → r.accepts c = true → r.accepts b = true) ∧
    ∀ {range low middle high : String} {a b c : Version},
      Version.parse low = .ok a → Version.parse middle = .ok b →
      Version.parse high = .ok c → a ≤ b → b ≤ c →
      Selection.satisfies low range = .ok true →
      Selection.satisfies high range = .ok true →
      Selection.satisfies middle range = .ok true := by
  have between : ∀ (r : Range) {a b c : Version}, a ≤ b → b ≤ c →
      r.accepts a = true → r.accepts c = true → r.accepts b = true := by
    intro r a b c hab hbc ha hc
    exact r.ordConnected_accepts.out ha hc ⟨hab, hbc⟩
  refine ⟨between, ?_⟩
  intro range low middle high a b c hlow hmiddle hhigh hab hbc hsat hsat'
  obtain ⟨v, r, hv, hr, ha⟩ := Selection.satisfies_eq_ok_iff.mp hsat
  obtain ⟨w, s, hw, hs, hc⟩ := Selection.satisfies_eq_ok_iff.mp hsat'
  obtain rfl : v = a := Except.ok.inj (hv.symm.trans hlow)
  obtain rfl : w = c := Except.ok.inj (hw.symm.trans hhigh)
  obtain rfl : r = s := Except.ok.inj (hr.symm.trans hs)
  exact Selection.satisfies_eq_ok_iff.mpr
    ⟨b, r, hmiddle, hr, between r hab hbc ha hc⟩

/-- A prerelease of the ceiling is accepted, because it stands between a
version of the caret's series and another prerelease of the ceiling. -/
theorem accepted_without_gap_ceiling :
    accepts ⟨[⟨.atLeast, Version.release 1 2 3⟩,
        ⟨.less, Version.release 2 0 0⟩]⟩
      { Version.release 2 0 0 with prerelease := [⟨"alpha"⟩] } = true ∧
    Selection.satisfies "2-alpha+b" "^1.2.3,>1" = .ok true := by
  constructor
  · exact accepted_without_gap.1 _
      (show Version.release 1 9 0 ≤ _ from Version.le_iff.mpr (by rfl))
      (show _ ≤ { Version.release 2 0 0 with prerelease := [⟨"rc"⟩] } from
        Version.le_iff.mpr (by rfl)) (by rfl) (by rfl)
  · exact accepted_without_gap.2 (show Version.parse "1.9" = .ok _ by rfl)
      (show Version.parse "2-alpha+b" = .ok _ by rfl)
      (show Version.parse "2.0.0-rc" = .ok _ by rfl)
      (Version.le_iff.mpr (by rfl)) (Version.le_iff.mpr (by rfl))
      (by rfl) (by rfl)

end Range

end Versioning
