/-
A comparator: one relation and the bound it is held against. The bound is
kept as it was written, and only its rank decides what is accepted.
-/
import Versioning.Version.Printer
import Versioning.Version.Relation

namespace Versioning

/-- A relation and the version it is held against. -/
structure Comparator where
  relation : Relation
  bound : Version
deriving DecidableEq

namespace Comparator

/-- Whether a version stands to the bound as the relation says. -/
def accepts (c : Comparator) (v : Version) : Bool :=
  c.relation.holds v c.bound

/-- The relation's token and the bound's canonical text. -/
def text (c : Comparator) : String :=
  c.relation.token ++ c.bound.text

instance : ToString Comparator := ⟨text⟩

/-- What equality and hashing see of a comparator. -/
def key (c : Comparator) : Relation × Rank :=
  (c.relation, c.bound.rank)

/-- A comparator feeds its relation and its bound. -/
def feed (c : Comparator) : List HashItem :=
  .member c.relation.index :: c.bound.feed

instance : BEq Comparator :=
  ⟨fun a b => a.relation == b.relation && a.bound == b.bound⟩

end Comparator

end Versioning
