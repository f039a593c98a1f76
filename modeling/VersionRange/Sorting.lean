/-!
# Sorting by a comparison that may fail

A stable insertion sort. Each item is compared, from the highest downwards, with the items that
stand before it in the list, and comes to stand behind the first that is not above it. A list of
one item is sorted without any comparison.
-/

namespace VersionRange

namespace Sorting

variable {α ε : Type}

/-- Insert an item into a descending list, in front of the first item that is not above it. -/
def insert (compare : α → α → Except ε Ordering) (item : α) : List α → Except ε (List α)
  | [] => .ok [item]
  | top :: rest => do
    let order ← compare item top
    if order = .lt then
      let rest ← insert compare item rest
      .ok (top :: rest)
    else .ok (item :: top :: rest)

/-- Sort a list in ascending order; items that compare equal keep their order. -/
def sort (compare : α → α → Except ε Ordering) (items : List α) : Except ε (List α) := do
  let descending ← items.foldlM (fun sorted item ↦ insert compare item sorted) []
  .ok descending.reverse

end Sorting

end VersionRange
