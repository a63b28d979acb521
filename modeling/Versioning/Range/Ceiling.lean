/-
The first release that a tilde or a caret clause excludes: one number is
raised and those after it are cleared. At the greatest number there is no
ceiling; the arithmetic never wraps.
-/
import Versioning.Version.Basic

namespace Versioning.Version

/-- The release that opens the next major series. -/
def nextMajor? (v : Version) : Option Version :=
  v.major.next?.map fun major => release major 0 0

/-- The release that opens the next minor series. -/
def nextMinor? (v : Version) : Option Version :=
  v.minor.next?.map fun minor => release v.major minor 0

/-- The release with the next patch number. -/
def nextPatch? (v : Version) : Option Version :=
  v.patch.next?.map fun patch => release v.major v.minor patch

/-- The ceiling of a tilde clause. It depends on how the version was
written: a major number alone leaves the minor one free. -/
def tildeCeiling? (v : Version) : Option Version :=
  match v.omission with
  | .minorAndPatch => v.nextMajor?
  | .patch | .none => v.nextMinor?

/-- The ceiling of a caret clause. It depends on the numbers alone. -/
def caretCeiling? (v : Version) : Option Version :=
  if v.major ≠ 0 then v.nextMajor?
  else if v.minor ≠ 0 then v.nextMinor?
  else v.nextPatch?

end Versioning.Version
