/-
The five relations by which a version is held against another. A relation
is the set of comparison results it accepts.
-/
import Versioning.Version.Precedence

namespace Versioning

/-- How a version may stand to a bound. -/
inductive Relation where
  | equal
  | greater
  | less
  | atLeast
  | atMost
deriving DecidableEq

namespace Relation

/-- The token that writes a relation. -/
def token : Relation → String
  | equal => "="
  | greater => ">"
  | less => "<"
  | atLeast => ">="
  | atMost => "<="

/-- The place of a relation among the five. -/
def index : Relation → Nat
  | equal => 0
  | greater => 1
  | less => 2
  | atLeast => 3
  | atMost => 4

/-- Whether a relation admits the result of comparing a version with the
bound, in this order. -/
def accepts : Relation → Ordering → Bool
  | equal, result => result.isEq
  | greater, result => result.isGT
  | less, result => result.isLT
  | atLeast, result => result.isGE
  | atMost, result => result.isLE

/-- Whether `v` stands to `bound` as the relation says. -/
def holds (relation : Relation) (v bound : Version) : Bool :=
  relation.accepts (v.precedence bound)

end Relation

namespace Version

/-- After `b` in precedence. -/
def isNewer (a b : Version) : Bool := Relation.greater.holds a b

/-- Not before `b` in precedence. -/
def isAtLeast (a b : Version) : Bool := Relation.atLeast.holds a b

/-- Before `b` in precedence. -/
def isOlder (a b : Version) : Bool := Relation.less.holds a b

/-- Not after `b` in precedence. -/
def isAtMost (a b : Version) : Bool := Relation.atMost.holds a b

/-- Of the precedence of `b`. -/
def isSame (a b : Version) : Bool := Relation.equal.holds a b

/-- Of another precedence than `b`. -/
def differs (a b : Version) : Bool := !isSame a b

end Version

end Versioning
