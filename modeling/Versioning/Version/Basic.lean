/-
Versions: three numbers, two lists of identifiers, and how much of it was
written. The omission is there for the tilde, which means something else
by `1` than by `1.0.0`.
-/
import Versioning.Version.Component
import Versioning.Version.Identifier

namespace Versioning

/-- Which numbers a version text leaves out. -/
inductive Omission where
  /-- Major, minor and patch are written. -/
  | none
  /-- Major and minor are written. -/
  | patch
  /-- Only major is written. -/
  | minorAndPatch
deriving DecidableEq

/-- A semantic version. -/
structure Version where
  major : Component
  minor : Component
  patch : Component
  prerelease : List PrereleaseId := []
  build : List BuildId := []
  omission : Omission := .none
deriving DecidableEq

namespace Version

/-- The release with these three numbers, all of them written. -/
def release (major minor patch : Component) : Version :=
  { major, minor, patch }

/-- A version with prerelease identifiers. -/
def isPrerelease (v : Version) : Bool :=
  !v.prerelease.isEmpty

end Version

end Versioning
