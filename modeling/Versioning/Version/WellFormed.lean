/-
Which values of the type are versions that some text stands for. The type
is generous: identifiers hold any text, and the omission may deny a number
that is not zero.
-/
import Versioning.Version.Basic

namespace Versioning.Version

/-- The identifiers are tokens, and the numbers left out are zero. -/
structure WellFormed (v : Version) : Prop where
  prerelease : ∀ id ∈ v.prerelease, id.WellFormed
  build : ∀ id ∈ v.build, id.WellFormed
  minorAndPatch : v.omission = .minorAndPatch → v.minor = 0 ∧ v.patch = 0
  patch : v.omission = .patch → v.patch = 0

instance (v : Version) : Decidable v.WellFormed :=
  decidable_of_iff
    ((∀ id ∈ v.prerelease, id.WellFormed) ∧
      (∀ id ∈ v.build, id.WellFormed) ∧
      (v.omission = .minorAndPatch → v.minor = 0 ∧ v.patch = 0) ∧
      (v.omission = .patch → v.patch = 0))
    ⟨fun ⟨h, h', h'', h'''⟩ => ⟨h, h', h'', h'''⟩,
      fun ⟨h, h', h'', h'''⟩ => ⟨h, h', h'', h'''⟩⟩

/-- A release is well formed, whatever its numbers. -/
theorem wellFormed_release (major minor patch : Component) :
    (release major minor patch).WellFormed where
  prerelease := by simp [release]
  build := by simp [release]
  minorAndPatch := by simp [release]
  patch := by simp [release]

/-- Writing out all of its numbers keeps a version well formed. -/
theorem WellFormed.spelledOut {v : Version} (h : v.WellFormed) :
    { v with omission := .none }.WellFormed where
  prerelease := h.prerelease
  build := h.build
  minorAndPatch := by simp
  patch := by simp

end Versioning.Version
