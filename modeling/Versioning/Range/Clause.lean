/-
A clause: an operator and a version, as an author writes them.

Whatever is wrong with a text, the clause is malformed and is reported
without its outer blanks. The text of a clause shows which numbers were
left out. A tilde or a caret expands to a pair of comparators, from the
version up to its ceiling.
-/
import Versioning.Range.Ceiling
import Versioning.Range.Comparator
import Versioning.Range.Operator
import Versioning.Version.Reader

namespace Versioning

/-- An operator and the version it is applied to. -/
structure Clause where
  operator : Operator
  version : Version
deriving DecidableEq

namespace Clause

open Text (trim trimStart)

-- ================================================== reading and writing

/-- The clause that a text without outer blanks stands for. -/
def ofChars? (cs : List Char) : Option Clause :=
  let parts := Operator.strip cs
  (Version.ofChars? (trimStart parts.2)).map fun version =>
    { operator := parts.1, version }

/-- Reads a clause, ignoring the blanks around its operator and its
version. -/
def parse (text : String) : Except Error Clause :=
  let cs := trim text.toList
  match ofChars? cs with
  | some clause => .ok clause
  | none => .error (.malformedRange (String.ofList cs))

/-- The clause in its written form. -/
def text (c : Clause) : String :=
  c.operator.token ++ c.version.written

instance : ToString Clause := ⟨text⟩

/-- What equality and hashing see of a clause. -/
def key (c : Clause) : Operator × Rank :=
  (c.operator, c.version.rank)

/-- A clause feeds its operator and its version. -/
def feed (c : Clause) : List HashItem :=
  .member c.operator.index :: c.version.feed

instance : BEq Clause :=
  ⟨fun a b => a.operator == b.operator && a.version == b.version⟩

-- =========================================================== expansion

/-- The comparators of the window from `v` up to its ceiling; `operator`
names the window where there is no ceiling. -/
def window (operator : Operator) (v : Version) :
    Option Version → Except Error (List Comparator)
  | some ceiling => .ok [⟨.atLeast, v⟩, ⟨.less, ceiling⟩]
  | none => .error (.boundOverflow (operator.token ++ v.text))

/-- The comparators a clause stands for, all of which a version has to
satisfy. -/
def comparators (c : Clause) : Except Error (List Comparator) :=
  match c.operator with
  | .plain relation => .ok [⟨relation, c.version⟩]
  | .caret => window .caret c.version c.version.caretCeiling?
  | .tilde => window .tilde c.version c.version.tildeCeiling?

end Clause

end Versioning
