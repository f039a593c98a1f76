import VersionRange.Version.Label
import VersionRange.Version.Order

/-!
# Comparison with build metadata

Precedence with ties broken by build metadata. None stands below any, and metadata is ordered
as pre-release labels are, words of digits being read as numbers; reading them is what can fail.
-/

namespace VersionRange

namespace Version

/-- Build metadata in the order of labels, words of digits being read as numbers.
Source: `_compare_identifiers` and `_as_identifiers`. -/
def compareBuild (a b : List Word) : Ordering :=
  compare (a.map Identifier.ofWord) (b.map Identifier.ofWord)

/-- Precedence, with ties broken by build metadata of any length. -/
def compareFinely (a b : Version) : Ordering :=
  (Version.compare a b).then (compareBuild a.build b.build)

/-- Precedence, with ties broken by build metadata. Only a tie between two versions that both have
build metadata makes it necessary to read the numbers in it. Source: `compare_with_build`. -/
def compareWithBuild (a b : Version) : Except Failure Ordering :=
  if Version.compare a b = .eq && !a.build.isEmpty && !b.build.isEmpty then do
    let _ ← readIdentifiers a.build
    let _ ← readIdentifiers b.build
    .ok (compareFinely a b)
  else .ok (compareFinely a b)

end Version

end VersionRange
