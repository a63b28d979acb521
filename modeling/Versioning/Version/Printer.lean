/-
The two texts of a version: the canonical one, with all three numbers, and
the written form, which stops where the author stopped.
-/
import Versioning.Version.Basic

namespace Versioning.Version

/-- Identifiers behind the mark that opens their label; no identifiers
make no label. -/
def label (mark : String) : List String → String
  | [] => ""
  | id :: ids => mark ++ ".".intercalate (id :: ids)

/-- The prerelease label followed by the build label. -/
def labels (v : Version) : String :=
  label "-" (v.prerelease.map (·.text)) ++ label "+" (v.build.map (·.text))

/-- Numbers as a version text has them. -/
def dotted (numbers : List Component) : String :=
  ".".intercalate (numbers.map Component.text)

/-- The numbers that the author wrote. -/
def writtenNumbers (v : Version) : List Component :=
  match v.omission with
  | .none => [v.major, v.minor, v.patch]
  | .patch => [v.major, v.minor]
  | .minorAndPatch => [v.major]

/-- The canonical text, with all three numbers. -/
def text (v : Version) : String :=
  dotted [v.major, v.minor, v.patch] ++ v.labels

/-- The text with the numbers that were written. -/
def written (v : Version) : String :=
  dotted v.writtenNumbers ++ v.labels

instance : ToString Version := ⟨text⟩

end Versioning.Version
