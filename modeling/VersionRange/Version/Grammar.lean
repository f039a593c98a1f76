import VersionRange.Text.Fields
import VersionRange.Version.Identifier

/-!
# The grammar of versions

A version is written `MAJOR.MINOR.PATCH`, then perhaps a hyphen with a pre-release label, then
perhaps a plus sign with build metadata. `Outline.ofChars?` divides a text accordingly; numbers
stay digits, however long they are.
-/

namespace VersionRange

/-- The parts of a version's text: the digits of its numbers and the words of its labels.
Part of `SEMVER_PATTERN`. -/
structure Outline where
  major : List Char
  minor : List Char
  patch : List Char
  prerelease : List Word
  build : List Word
  deriving DecidableEq

namespace Outline

/-- A pre-release identifier: a numeral, or a word with a letter or a hyphen in it.
Part of `SEMVER_PATTERN`. -/
def isPrereleaseField (cs : List Char) : Bool :=
  isWord cs && (Text.isNumeral cs || !Text.isDigits cs)

/-- The words between the dots of a label, if every field is an identifier; an absent label has
none. Part of `SEMVER_PATTERN`. -/
def words? (isIdentifier : List Char → Bool) : Option (List Char) → Option (List Word)
  | none => some []
  | some label =>
    if (Text.fields label).all isIdentifier then (Text.fields label).mapM Word.ofChars? else none

/-- The outline of a version's text, if it has the form of one. Source: `SEMVER_PATTERN`. -/
def ofChars? (cs : List Char) : Option Outline := do
  let (head, build) := Text.cutAt '+' cs
  let (core, prerelease) := Text.cutAt '-' head
  match Text.fields core with
  | [major, minor, patch] =>
    if [major, minor, patch].all Text.isNumeral then
      let prerelease ← words? isPrereleaseField prerelease
      let build ← words? isWord build
      some { major, minor, patch, prerelease, build }
    else none
  | _ => none

end Outline

end VersionRange
