import VersionRange.Sorting
import VersionRange.Version.BuildOrder
import VersionRange.Version.Parser
import VersionRange.Version.SortKey

/-!
# Sorting versions

Stable sorts of versions and of their texts. By precedence and by sort key all texts are read
before the first comparison; with build metadata each comparison reads the two texts it compares.
-/

namespace VersionRange

namespace Version

/-- Sort versions by precedence. -/
def sort (versions : List Version) : List Version :=
  versions.mergeSort fun a b ↦ (compare a b).isLE

/-- Sort items by their sort keys. -/
def sortByKey {α : Type} (items : List (α × SortKey)) : List (α × SortKey) :=
  items.mergeSort fun a b ↦ (SortKey.compare? a.2 b.2).any Ordering.isLE

/-- The versions of some texts, sorted by precedence. -/
def sortParsed (texts : List String) : Except Failure (List Version) := do
  let versions ← texts.mapM parse
  .ok (sort versions)

/-- Texts of versions, sorted by the sort keys of the versions. -/
def sortTextsByKey (texts : List String) : Except Failure (List String) := do
  let keyed ← texts.mapM fun text ↦ do
    let v ← parse text
    .ok (text, v.sortKey)
  .ok ((sortByKey keyed).map Prod.fst)

/-- Compare the texts of two versions by precedence and then by build metadata.
Source: `compare_with_build`. -/
def compareTextsWithBuild (a b : String) : Except Failure Ordering := do
  let v ← parse a
  let w ← parse b
  compareWithBuild v w

/-- Texts of versions, sorted by precedence and then by build metadata. -/
def sortTextsWithBuild (texts : List String) : Except Failure (List String) :=
  Sorting.sort compareTextsWithBuild texts

end Version

end VersionRange
