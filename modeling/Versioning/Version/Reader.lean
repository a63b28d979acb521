/-
Reading a version, `major[.minor[.patch]][-prerelease][+build]` with blanks
around it. The text is cut at the first plus, what stands before it at the
first hyphen, and each part is divided at its dots. A separator in a wrong
place ends up inside a token, and no token admits it.
-/
import Versioning.Text.Blank
import Versioning.Text.Cut
import Versioning.Version.Basic

namespace Versioning.Version

open Text (TokenKind cut trim)

/-- The release that one to three numerals stand for, with the omission
their count shows. -/
def ofNumerals? : List (List Char) → Option Version
  | [major] => do
    let major ← Component.ofNumeral? major
    return { release major 0 0 with omission := .minorAndPatch }
  | [major, minor] => do
    let major ← Component.ofNumeral? major
    let minor ← Component.ofNumeral? minor
    return { release major minor 0 with omission := .patch }
  | [major, minor, patch] => do
    let major ← Component.ofNumeral? major
    let minor ← Component.ofNumeral? minor
    let patch ← Component.ofNumeral? patch
    return release major minor patch
  | _ => none

/-- The identifiers of a label, given without its mark; a label that is
not there has none. -/
def identifiers? (kind : TokenKind) :
    Option (List Char) → Option (List (Identifier kind))
  | none => some []
  | some label => (label.splitOn '.').mapM Identifier.ofChars?

/-- The version that a text without outer blanks stands for. -/
def ofChars? (cs : List Char) : Option Version := do
  let build := cut '+' cs
  let prerelease := cut '-' build.1
  let version ← ofNumerals? (prerelease.1.splitOn '.')
  let prerelease ← identifiers? .prerelease prerelease.2
  let build ← identifiers? .build build.2
  return { version with prerelease, build }

/-- Reads a version, ignoring the blanks around it. -/
def parse (text : String) : Except Error Version :=
  match ofChars? (trim text.toList) with
  | some version => .ok version
  | none => .error (.malformedVersion text)

end Versioning.Version
