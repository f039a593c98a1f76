import VersionRange.Datum
import VersionRange.Text.Blank
import VersionRange.Version.Basic
import VersionRange.Version.Diagnosis
import VersionRange.Version.Grammar

/-!
# Reading versions

A version is read from its text between white space. Text that has not the form of a version is
refused with the diagnosis of `VersionRange.Version.Diagnosis`; numbers with too many digits are
refused although the form is right, so that `Version.isValid` accepts them.
-/

namespace VersionRange

/-- The version that an outline denotes, unless a number in it is too long.
Part of `parse_version`. -/
def Outline.version (outline : Outline) : Except Failure Version := do
  let major ← readNumber outline.major
  let minor ← readNumber outline.minor
  let patch ← readNumber outline.patch
  let prerelease ← readIdentifiers outline.prerelease
  .ok { major, minor, patch, prerelease, build := outline.build }

namespace Version

/-- Read a version from text without white space at its ends. Part of `parse_version`. -/
def parseChars (cs : List Char) : Except Failure Version :=
  if cs.isEmpty then .error (.malformedVersion "" (some 0) .empty)
  else match Outline.ofChars? cs with
  | some outline => outline.version
  | none =>
    let fault := diagnose cs
    .error (.malformedVersion (.ofList cs) (some fault.position) fault.reason)

/-- Read a version; white space at the ends of the text does not count. Source: `parse_version`. -/
def parse (text : String) : Except Failure Version := parseChars (Text.trim text.toList)

/-- Decide whether a text has the form of a version, white space at its ends aside.
Source: `is_valid_semver`. -/
def isValid (text : String) : Bool := (Outline.ofChars? (Text.trim text.toList)).isSome

/-- Read a version from a value that may not be text. Source: `parse_version`. -/
def ofDatum : Datum → Except Failure Version
  | .text s => parse s
  | value => do
    let shown ← value.write
    .error (.malformedVersion (.ofList shown) none (.notText value.typeName))

/-- Decide whether a value is text of the form of a version. Source: `is_valid_semver`. -/
def isValidDatum : Datum → Bool
  | .text s => isValid s
  | _ => false

end Version

end VersionRange
