/-
Versions and ranges in data formats, which carry them as text. A text is
read back as if an author had written it; any other value is refused.
-/
import Versioning.Range.Basic

namespace Versioning

/-- A value of a data format, as far as it matters here. -/
inductive Datum where
  /-- A text. -/
  | text (s : String)
  /-- A number, a truth value, a list, a record or nothing. -/
  | other
deriving DecidableEq

namespace Datum

/-- Why a value was refused. -/
inductive Failure where
  /-- The value is not a text. -/
  | notText
  /-- The text was refused. -/
  | rejected (cause : Error)
deriving DecidableEq

/-- What a reader of texts makes of a value. -/
def read {α : Type} (parse : String → Except Error α) :
    Datum → Except Failure α
  | .text s => (parse s).mapError .rejected
  | .other => .error .notText

end Datum

/-- A version as a value of a data format. -/
def Version.toDatum (v : Version) : Datum := .text v.text

/-- The version that a value of a data format stands for. -/
def Version.ofDatum : Datum → Except Datum.Failure Version :=
  Datum.read Version.parse

/-- A range as a value of a data format. -/
def Range.toDatum (r : Range) : Datum := .text r.text

/-- The range that a value of a data format stands for. -/
def Range.ofDatum : Datum → Except Datum.Failure Range :=
  Datum.read Range.parse

end Versioning
