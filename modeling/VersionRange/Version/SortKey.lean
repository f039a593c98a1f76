import VersionRange.Version.Basic

/-!
# Sort keys

A version as nested sequences of numbers and texts whose comparison from left to right is the
precedence of versions. Keys of unlike kinds have no order; the keys of versions never set such
keys against each other.
-/

namespace VersionRange

/-- A number, a text, or a sequence of keys. Part of `version_key`. -/
inductive SortKey
  | number (value : Nat)
  | text (value : List Char)
  | sequence (items : List SortKey)
  deriving Inhabited

namespace SortKey

mutual

/-- Compare two keys; keys of unlike kinds have no order. Sequences are compared item by item,
the end of a sequence standing below any item. -/
def compare? : SortKey → SortKey → Option Ordering
  | number m, number n => some (compare m n)
  | text s, text t => some (compare s t)
  | sequence xs, sequence ys => compareItems? xs ys
  | _, _ => none

/-- Compare the items of two sequences. -/
def compareItems? : List SortKey → List SortKey → Option Ordering
  | [], [] => some .eq
  | [], _ :: _ => some .lt
  | _ :: _, [] => some .gt
  | x :: xs, y :: ys =>
    match compare? x y with
    | some .eq => compareItems? xs ys
    | decided => decided

end

/-- The key of a pre-release identifier: numbers are marked to stand below names.
Part of `version_key`. -/
def ofIdentifier : Identifier → SortKey
  | .number n => sequence [number 0, number n]
  | .name word _ => sequence [number 1, text word.chars]

end SortKey

/-- The sort key of a version: its numbers, then a mark that puts a release above the pre-releases,
then the identifiers of a pre-release. Source: `version_key`. -/
def Version.sortKey (v : Version) : SortKey :=
  let label : List SortKey :=
    if v.prerelease.isEmpty then [.number 1]
    else [.number 0, .sequence (v.prerelease.map SortKey.ofIdentifier)]
  .sequence [.number v.major, .number v.minor, .number v.patch, .sequence label]

end VersionRange
