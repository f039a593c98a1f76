import VersionRange.Version.Basic

/-!
# Precedence

Versions are ordered by their numbers, then a release stands above its pre-releases, then
pre-release identifiers decide one by one, the end of a label standing below any identifier.
Build metadata takes no part.
-/

namespace VersionRange

namespace Version

/-- No label stands above every label; labels are ordered identifier by identifier.
Part of `Version._compare` and `_compare_identifiers`. -/
def comparePrerelease (a b : List Identifier) : Ordering :=
  match a, b with
  | [], [] => .eq
  | [], _ :: _ => .gt
  | _ :: _, [] => .lt
  | a, b => compare a b

/-- Precedence of two versions. Source: `Version._compare`. -/
protected def compare (a b : Version) : Ordering :=
  (Ord.compare a.major b.major).then <|
  (Ord.compare a.minor b.minor).then <|
  (Ord.compare a.patch b.patch).then <|
  comparePrerelease a.prerelease b.prerelease

instance : Ord Version where compare := Version.compare

instance : LT Version := ltOfOrd

instance : LE Version := leOfOrd

end Version

end VersionRange
