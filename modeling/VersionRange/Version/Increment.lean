import VersionRange.Version.Label
import VersionRange.Version.Writing

/-!
# Increments

The next version in each respect. Raising a number gives a release; raising a label raises its
last identifier if that is a number, and adds the identifier one to it otherwise. A label is kept
as it is written, so that a number in it is not raised beyond what can be written.
-/

namespace VersionRange

/-- Raise the last identifier of a label if it is a number, else add the number one.
Source: `_increment_label`. -/
def incrementLast : List Identifier → List Identifier
  | [] => [.number 1]
  | [.number n] => [.number (n + 1)]
  | [.name word h] => [.name word h, .number 1]
  | identifier :: next :: rest => identifier :: incrementLast (next :: rest)

/-- The identifiers of a label, unless a number among them is too long to be written. -/
def writableLabel (label : List Identifier) : Except Failure (List Identifier) :=
  ifWritable (label.all Identifier.isWritable) label

namespace Version

/-- The release with the next major number. Source: `Version.increment_major`. -/
def incrementMajor (v : Version) : Version := { major := v.major + 1, minor := 0, patch := 0 }

/-- The release with the next minor number. Source: `Version.increment_minor`. -/
def incrementMinor (v : Version) : Version :=
  { major := v.major, minor := v.minor + 1, patch := 0 }

/-- The release with the next patch number. Source: `Version.increment_patch`. -/
def incrementPatch (v : Version) : Version :=
  { major := v.major, minor := v.minor, patch := v.patch + 1 }

/-- The next pre-release of the same numbers, without build metadata.
Source: `Version.increment_prerelease`. -/
def incrementPrerelease (v : Version) : Except Failure Version :=
  if v.prerelease.isEmpty then do
    let text ← v.write
    .error (.noPrerelease text)
  else do
    let prerelease ← writableLabel (incrementLast v.prerelease)
    .ok { v with prerelease, build := [] }

/-- The version with its build metadata raised; words of digits in it become numerals.
Source: `Version.increment_build`. -/
def incrementBuild (v : Version) : Except Failure Version :=
  if v.build.isEmpty then do
    let text ← v.write
    .error (.noBuild text)
  else do
    let identifiers ← readIdentifiers v.build
    let raised ← writableLabel (incrementLast identifiers)
    .ok { v with build := raised.map Identifier.toWord }

end Version

end VersionRange
