import VersionRange.Proofs.Precedence
import VersionRange.Proofs.StableSorts
import VersionRange.Version.Sorting

/-!
# Sort keys and stable sorts

Comparing the sort keys of two versions never meets keys of unlike kinds, and its outcome is the
one of precedence. A stable sort is determined by its order, so that sorting by keys and sorting
by precedence give the same list.
-/

namespace VersionRange

/-! ### Keys -/

namespace SortKey

private theorem compare?_number (m n : Nat) :
    compare? (number m) (number n) = some (compare m n) := by
  rw [compare?]

private theorem compare?_text (s t : List Char) :
    compare? (text s) (text t) = some (compare s t) := by
  rw [compare?]

/-- Sequences are compared item by item, the first items before the others. -/
theorem compareItems?_cons {x y : SortKey} {xs ys : List SortKey} {o p : Ordering}
    (hfirst : compare? x y = some o) (hrest : compareItems? xs ys = some p) :
    compareItems? (x :: xs) (y :: ys) = some (o.then p) := by
  rw [compareItems?, hfirst, hrest]
  cases o <;> rfl

/-- A sequence of two items is compared by the first, then by the second. -/
theorem compareItems?_pair {x y x' y' : SortKey} {o p : Ordering} (hfirst : compare? x y = some o)
    (hsecond : compare? x' y' = some p) : compareItems? [x, x'] [y, y'] = some (o.then p) := by
  have hrest : compareItems? [x'] [y'] = some (p.then .eq) := compareItems?_cons hsecond rfl
  rw [Ordering.then_eq] at hrest
  exact compareItems?_cons hfirst hrest

/-- Marks decide between a number and a name before the two are compared. -/
theorem compare?_ofIdentifier (i j : Identifier) :
    compare? (ofIdentifier i) (ofIdentifier j) = some (compare i j) := by
  cases i with
  | number m =>
    cases j with
    | number n => exact compareItems?_pair (compare?_number 0 0) (compare?_number m n)
    | name w hw => rfl
  | name v hv =>
    cases j with
    | number n => rfl
    | name w hw => exact compareItems?_pair (compare?_number 1 1) (compare?_text v.chars w.chars)

/-- Sequences of keys are compared as the lists whose items they stand for. -/
theorem compareItems?_map {α : Type} [Ord α] {key : α → SortKey}
    (h : ∀ x y, compare? (key x) (key y) = some (compare x y)) (xs ys : List α) :
    compareItems? (xs.map key) (ys.map key) = some (compare xs ys) := by
  induction xs generalizing ys with
  | nil => cases ys <;> rfl
  | cons x xs ih =>
    cases ys with
    | nil => rfl
    | cons y ys =>
      rw [List.map_cons, List.map_cons, compareItems?_cons (h x y) (ih ys), List.compare_cons_cons]

end SortKey

namespace Version

/-- The sort key of a pre-release label, absent labels included. -/
def labelKey (label : List Identifier) : List SortKey :=
  if label.isEmpty then [.number 1] else [.number 0, .sequence (label.map SortKey.ofIdentifier)]

/-- The mark in front of a label puts a release above the pre-releases. -/
theorem compareItems?_labelKey (xs ys : List Identifier) :
    SortKey.compareItems? (labelKey xs) (labelKey ys) = some (comparePrerelease xs ys) := by
  have hlabels := SortKey.compareItems?_map SortKey.compare?_ofIdentifier xs ys
  cases xs with
  | nil => cases ys <;> rfl
  | cons x xs =>
    cases ys with
    | nil => rfl
    | cons y ys => exact SortKey.compareItems?_pair (SortKey.compare?_number 0 0) hlabels

private theorem compare?_sortKey (a b : Version) :
    SortKey.compare? a.sortKey b.sortKey = some (compare a b) := by
  have hlabel : SortKey.compareItems? [.sequence (labelKey a.prerelease)]
      [.sequence (labelKey b.prerelease)] =
        some ((comparePrerelease a.prerelease b.prerelease).then .eq) :=
    SortKey.compareItems?_cons (compareItems?_labelKey a.prerelease b.prerelease) rfl
  rw [Ordering.then_eq] at hlabel
  exact SortKey.compareItems?_cons (SortKey.compare?_number a.major b.major) <|
    SortKey.compareItems?_cons (SortKey.compare?_number a.minor b.minor) <|
    SortKey.compareItems?_cons (SortKey.compare?_number a.patch b.patch) hlabel

/-- A sort by keys asks the question that a sort by precedence asks. -/
theorem any_isLE_compare?_sortKey (v w : Version) :
    (SortKey.compare? v.sortKey w.sortKey).any Ordering.isLE = (compare v w).isLE := by
  rw [compare?_sortKey, Option.any_some]

/-! ### Sorts -/

/-- Precedence leaves a list of versions exactly one stable sort. -/
theorem isStableSort_compare_iff (versions sorted : List Version) :
    Sorting.IsStableSort (fun v w ↦ (compare v w).isLE) versions sorted ↔
      sorted = sort versions :=
  Sorting.isStableSort_iff Sorting.isLE_trans Sorting.isLE_total

/-- Versions sorted by their keys are sorted by precedence. -/
theorem map_fst_sortByKey (versions : List Version) :
    (sortByKey (versions.map fun v ↦ (v, v.sortKey))).map Prod.fst = sort versions := by
  have hsort : (sort versions).map (fun v ↦ (v, v.sortKey)) =
      sortByKey (versions.map fun v ↦ (v, v.sortKey)) :=
    List.map_mergeSort fun v _ w _ ↦ (any_isLE_compare?_sortKey v w).symm
  rw [← hsort, List.map_map]
  exact List.map_id _

/-- Sort keys order versions as precedence does. No two keys of unlike kinds are ever compared,
and the stable sort by keys, which is determined by the order of the keys, is the stable sort by
precedence. -/
theorem sortKey_orders_precedence (a b : Version) (versions sorted : List Version) :
    SortKey.compare? a.sortKey b.sortKey = some (compare a b) ∧
    (Sorting.IsStableSort (fun v w ↦ (compare v w).isLE) versions sorted ↔
      sorted = sort versions) ∧
    (Sorting.IsStableSort (fun v w ↦ (SortKey.compare? v.sortKey w.sortKey).any Ordering.isLE)
      versions sorted ↔ sorted = sort versions) ∧
    (sortByKey (versions.map fun v ↦ (v, v.sortKey))).map Prod.fst = sort versions := by
  refine ⟨compare?_sortKey a b, isStableSort_compare_iff versions sorted, ?_,
    map_fst_sortByKey versions⟩
  simp only [any_isLE_compare?_sortKey]
  exact isStableSort_compare_iff versions sorted

end Version

end VersionRange
