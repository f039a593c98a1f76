import VersionRange.Text.Fields
import VersionRange.Version.Identifier

/-!
# Versions

A version has three numbers, pre-release identifiers and build metadata. Its canonical text joins
the numbers by dots, writes a hyphen before a pre-release label and a plus sign before build
metadata. Equality of values regards all five parts; precedence, which ignores build metadata, is
the order of `VersionRange.Version.Order`.
-/

namespace VersionRange

/-- A semantic version. Source: `Version`. -/
structure Version where
  major : Nat
  minor : Nat
  patch : Nat
  prerelease : List Identifier := []
  build : List Word := []
  deriving DecidableEq

namespace Version

/-- The three numbers, joined by dots. Source: `Version.base_version`. -/
def baseChars (v : Version) : List Char :=
  Text.joinFields [Text.numeral v.major, Text.numeral v.minor, Text.numeral v.patch]

/-- The pre-release identifiers, joined by dots. Source: `Version.prerelease_str`. -/
def prereleaseChars (v : Version) : List Char :=
  Text.joinFields (v.prerelease.map Identifier.chars)

/-- The build identifiers, joined by dots. Source: `Version.build_str`. -/
def buildChars (v : Version) : List Char :=
  Text.joinFields (v.build.map Word.chars)

/-- A label behind its mark; an absent label is not marked. -/
def marked (mark : Char) (label : List Char) : List Char :=
  if label.isEmpty then [] else mark :: label

/-- The canonical text of a version. Source: the text of `Version`. -/
def chars (v : Version) : List Char :=
  v.baseChars ++ marked '-' v.prereleaseChars ++ marked '+' v.buildChars

/-- The canonical text of a version. Source: the text of `Version`. -/
protected def toString (v : Version) : String := .ofList v.chars

instance : ToString Version where toString := Version.toString

/-- Decide whether all numbers of a version are short enough to be written. -/
def isWritable (v : Version) : Bool :=
  [v.major, v.minor, v.patch].all Text.isWritable && v.prerelease.all Identifier.isWritable

/-- Decide whether a version is a pre-release. Source: `Version.is_prerelease`. -/
def isPrerelease (v : Version) : Bool := !v.prerelease.isEmpty

/-- The lowest version with three given numbers: its pre-release zero. Source: `_lowest`. -/
def lowest (major minor patch : Nat) : Version := { major, minor, patch, prerelease := [.number 0] }

end Version

end VersionRange
