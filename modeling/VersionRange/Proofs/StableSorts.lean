import Mathlib.Data.List.Sort
import VersionRange.Sorting

/-!
# Stable sorts

A stable sort is determined by its order: for a total preorder, a list has exactly one, and both
merge sort and insertion sort find it. All rearrangements of a list have the same one exactly if no
two different items of the list tie.
-/

namespace VersionRange.Sorting

variable {α : Type} {le : α → α → Bool} {items sorted : List α}

/-- Neither of two items stands below the other. -/
def isTie (le : α → α → Bool) (a b : α) : Bool := le a b && le b a

/-- A stable sort of some items: the same items in ascending order, and those that tie stand as
they stood before. -/
structure IsStableSort (le : α → α → Bool) (items sorted : List α) : Prop where
  perm : sorted.Perm items
  ascending : sorted.Pairwise fun a b ↦ le a b
  stable : ∀ a, sorted.filter (isTie le a) = items.filter (isTie le a)

theorem isTie_iff (a b : α) : isTie le a b = true ↔ le a b ∧ le b a := by
  simp [isTie]

/-- Descending order from the last item to the first is ascending order. -/
theorem IsStableSort.reverse (h : IsStableSort le items sorted) :
    IsStableSort (fun a b ↦ le b a) items.reverse sorted.reverse where
  perm := (List.reverse_perm sorted).trans (h.perm.trans (List.reverse_perm items).symm)
  ascending := List.pairwise_reverse.mpr h.ascending
  stable := by
    intro a
    have hswap : isTie (fun a b ↦ le b a) a = isTie le a := funext fun b ↦ Bool.and_comm ..
    rw [hswap, List.filter_reverse, List.filter_reverse, h.stable]

section Preorder

variable (trans : ∀ a b c, le a b → le b c → le a c) (total : ∀ a b, le a b || le b a)

include total

private theorem le_self (a : α) : le a a := by
  simpa using total a a

private theorem isTie_self (a : α) : isTie le a a = true := by
  rw [isTie_iff]
  exact ⟨le_self total a, le_self total a⟩

private theorem mem_of_filter_eq {xs ys : List α} {x : α} (hx : x ∈ xs)
    (h : xs.filter (isTie le x) = ys.filter (isTie le x)) : x ∈ ys := by
  have hmem : x ∈ xs.filter (isTie le x) := List.mem_filter.mpr ⟨hx, isTie_self total x⟩
  rw [h] at hmem
  exact (List.mem_filter.mp hmem).1

private theorem head_le_of_mem {x y : α} {ys : List α}
    (h : (y :: ys).Pairwise fun a b ↦ le a b) (hx : x ∈ y :: ys) : le y x := by
  rcases List.mem_cons.mp hx with rfl | hx
  · exact le_self total x
  · exact List.rel_of_pairwise_cons h hx

/-- Ascending lists are equal if they agree on the items that tie with any given one. -/
theorem eq_of_pairwise_of_filter_eq {xs ys : List α}
    (hxs : xs.Pairwise fun a b ↦ le a b) (hys : ys.Pairwise fun a b ↦ le a b)
    (h : ∀ a, xs.filter (isTie le a) = ys.filter (isTie le a)) : xs = ys := by
  induction xs generalizing ys with
  | nil =>
    apply (List.eq_nil_iff_forall_not_mem.mpr _).symm
    intro y hy
    exact absurd (mem_of_filter_eq total hy (h y).symm) List.not_mem_nil
  | cons x xs ih =>
    have hx : x ∈ ys := mem_of_filter_eq total List.mem_cons_self (h x)
    cases ys with
    | nil => exact absurd hx List.not_mem_nil
    | cons y ys =>
      have hy : y ∈ x :: xs := mem_of_filter_eq total List.mem_cons_self (h y).symm
      have htie : isTie le x y = true :=
        (isTie_iff x y).mpr ⟨head_le_of_mem total hxs hy, head_le_of_mem total hys hx⟩
      -- Both heads come first among the items that tie with `x`.
      have hheads := h x
      rw [List.filter_cons_of_pos (isTie_self total x), List.filter_cons_of_pos htie] at hheads
      obtain rfl : x = y := (List.cons.inj hheads).1
      congr 1
      apply ih hxs.tail hys.tail
      intro a
      have ha := h a
      by_cases hax : isTie le a x = true
      · rw [List.filter_cons_of_pos hax, List.filter_cons_of_pos hax] at ha
        exact (List.cons.inj ha).2
      · rw [List.filter_cons_of_neg hax, List.filter_cons_of_neg hax] at ha
        exact ha

omit total

include trans

/-- Items that tie stand as they stood before if ascending sublists are not torn apart. -/
theorem isStableSort_of_sublist (hperm : sorted.Perm items)
    (hascending : sorted.Pairwise fun a b ↦ le a b)
    (hsub : ∀ {part : List α}, part.Pairwise (fun a b ↦ le a b) → part.Sublist items →
      part.Sublist sorted) : IsStableSort le items sorted where
  perm := hperm
  ascending := hascending
  stable := by
    intro a
    have hclass : (items.filter (isTie le a)).Pairwise fun b c ↦ le b c := by
      apply List.pairwise_of_forall_mem_list
      intro b hb c hc
      simp only [List.mem_filter, isTie_iff] at hb hc
      exact trans b a c hb.2.2 hc.2.1
    have hfilter : (items.filter (isTie le a)).Sublist (sorted.filter (isTie le a)) := by
      simpa using (hsub hclass List.filter_sublist).filter (isTie le a)
    exact (hfilter.eq_of_length (hperm.filter (isTie le a)).length_eq.symm).symm

include total

theorem isStableSort_mergeSort : IsStableSort le items (items.mergeSort le) :=
  isStableSort_of_sublist trans (List.mergeSort_perm items le)
    (List.pairwise_mergeSort trans total items) (List.sublist_mergeSort trans total)

private theorem isStableSort_insertionSort :
    IsStableSort le items (items.insertionSort fun a b ↦ le a b) := by
  have : Std.Total fun a b : α ↦ le a b = true := ⟨by simpa using total⟩
  have : IsTrans α fun a b ↦ le a b = true := ⟨trans⟩
  exact isStableSort_of_sublist trans (List.perm_insertionSort _ items)
    (List.pairwise_insertionSort _ items) List.sublist_insertionSort

/-- A total preorder leaves a list exactly one stable sort. -/
theorem isStableSort_iff : IsStableSort le items sorted ↔ sorted = items.mergeSort le := by
  have hsort : IsStableSort le items (items.mergeSort le) := isStableSort_mergeSort trans total
  constructor
  · intro h
    apply eq_of_pairwise_of_filter_eq total h.ascending hsort.ascending
    intro a
    rw [h.stable, hsort.stable]
  · rintro rfl
    exact hsort

/-- Of items that tie, each comes first in some rearrangement and so in its sort. -/
theorem exists_filter_eq_cons {a b : α}
    (h : ∀ other : List α, other.Perm items → other.mergeSort le = items.mergeSort le)
    (hb : b ∈ items) (htie : isTie le a b = true) :
    ∃ rest, items.filter (isTie le a) = b :: rest := by
  obtain ⟨before, after, rfl⟩ := List.append_of_mem hb
  refine ⟨(before ++ after).filter (isTie le a), ?_⟩
  calc (before ++ b :: after).filter (isTie le a)
      = ((before ++ b :: after).mergeSort le).filter (isTie le a) :=
        ((isStableSort_mergeSort trans total).stable a).symm
    _ = ((b :: (before ++ after)).mergeSort le).filter (isTie le a) := by
        rw [h _ List.perm_middle.symm]
    _ = (b :: (before ++ after)).filter (isTie le a) :=
        (isStableSort_mergeSort trans total).stable a
    _ = b :: (before ++ after).filter (isTie le a) := List.filter_cons_of_pos htie

/-- All rearrangements of a list have the same sort exactly if no two different items tie. -/
theorem mergeSort_eq_of_perm_iff :
    (∀ other : List α, other.Perm items → other.mergeSort le = items.mergeSort le) ↔
      ∀ a ∈ items, ∀ b ∈ items, isTie le a b = true → a = b := by
  constructor
  · intro h a ha b hb htie
    obtain ⟨rest, hfirst⟩ := exists_filter_eq_cons trans total h ha (isTie_self total a)
    obtain ⟨rest', hsecond⟩ := exists_filter_eq_cons trans total h hb htie
    exact (List.cons.inj (hfirst.symm.trans hsecond)).1
  · intro h other hperm
    have hsame : (other.mergeSort le).Perm (items.mergeSort le) :=
      (List.mergeSort_perm other le).trans (hperm.trans (List.mergeSort_perm items le).symm)
    refine hsame.eq_of_pairwise ?_ (List.pairwise_mergeSort trans total other)
      (List.pairwise_mergeSort trans total items)
    intro a b ha hb hab hba
    rw [List.mem_mergeSort] at ha hb
    exact h a (hperm.mem_iff.mp ha) b hb ((isTie_iff a b).mpr ⟨hab, hba⟩)

end Preorder

/-! ### Comparisons -/

section Comparison

variable {ε : Type} {compare : α → α → Except ε Ordering} {cmp : α → α → Ordering}

/-- An item that can be compared with all of a descending list is inserted where it belongs. -/
theorem insert_eq_ok {item : α} {stack : List α}
    (h : ∀ x ∈ stack, compare item x = .ok (cmp item x)) :
    insert compare item stack = .ok (stack.orderedInsert (fun a b ↦ (cmp a b).isGE) item) := by
  induction stack with
  | nil => rfl
  | cons top rest ih =>
    rw [List.forall_mem_cons] at h
    rw [insert, h.1, ih h.2, List.orderedInsert_cons]
    cases cmp item top <;> simp [bind, Except.bind]

/-- A comparison that does not fail on the items of a list sorts them by insertion. -/
theorem foldrM_insert_eq_ok (h : ∀ a ∈ items, ∀ b ∈ items, compare a b = .ok (cmp a b)) :
    items.foldrM (insert compare) [] = .ok (items.insertionSort fun a b ↦ (cmp a b).isGE) := by
  induction items with
  | nil => rfl
  | cons item rest ih =>
    have hrest : ∀ a ∈ rest, ∀ b ∈ rest, compare a b = .ok (cmp a b) := by
      intro a ha b hb
      exact h a (List.mem_cons_of_mem item ha) b (List.mem_cons_of_mem item hb)
    rw [List.foldrM_cons, ih hrest]
    apply insert_eq_ok
    intro x hx
    rw [List.mem_insertionSort] at hx
    exact h item List.mem_cons_self x (List.mem_cons_of_mem item hx)

variable [Std.TransCmp cmp]

theorem isLE_trans (a b c : α) (hab : (cmp a b).isLE) (hbc : (cmp b c).isLE) : (cmp a c).isLE :=
  Std.TransCmp.isLE_trans hab hbc

theorem isLE_total (a b : α) : (cmp a b).isLE || (cmp b a).isLE := by
  have hswap : cmp b a = (cmp a b).swap := Std.OrientedCmp.eq_swap
  rw [hswap]
  cases cmp a b <;> rfl

theorem isTie_isLE_iff (a b : α) : isTie (fun a b ↦ (cmp a b).isLE) a b = true ↔ cmp a b = .eq := by
  have hswap : cmp b a = (cmp a b).swap := Std.OrientedCmp.eq_swap
  rw [isTie, hswap]
  cases cmp a b <;> decide

/-- A comparison that does not fail on the items of a list gives its stable sort. -/
theorem sort_eq_ok (h : ∀ a ∈ items, ∀ b ∈ items, compare a b = .ok (cmp a b)) :
    sort compare items = .ok (items.mergeSort fun a b ↦ (cmp a b).isLE) := by
  have hreverse : ∀ a ∈ items.reverse, ∀ b ∈ items.reverse, compare a b = .ok (cmp a b) := by
    simpa using h
  have hfold := foldrM_insert_eq_ok hreverse
  rw [List.foldrM_reverse] at hfold
  -- The highest item comes first while items are inserted, so that ties stand in reverse.
  have hdescending : IsStableSort (fun a b ↦ (cmp b a).isLE) items.reverse
      (items.reverse.insertionSort fun a b ↦ (cmp b a).isLE) :=
    isStableSort_insertionSort (fun a b c hab hbc ↦ isLE_trans c b a hbc hab)
      fun a b ↦ isLE_total b a
  have hsort := hdescending.reverse
  rw [List.reverse_reverse] at hsort
  rw [sort, hfold, ← (isStableSort_iff isLE_trans isLE_total).mp hsort]
  simp only [Std.OrientedCmp.isGE_iff_isLE]
  rfl

/-- All rearrangements of a list are sorted into one list exactly if none of its items compare equal
but those that are. -/
theorem sort_eq_of_perm_iff (h : ∀ a ∈ items, ∀ b ∈ items, compare a b = .ok (cmp a b)) :
    (∀ other : List α, other.Perm items → sort compare other = sort compare items) ↔
      ∀ a ∈ items, ∀ b ∈ items, cmp a b = .eq → a = b := by
  have hother {other : List α} (hperm : other.Perm items) :
      sort compare other = .ok (other.mergeSort fun a b ↦ (cmp a b).isLE) := by
    apply sort_eq_ok
    intro a ha b hb
    exact h a (hperm.mem_iff.mp ha) b (hperm.mem_iff.mp hb)
  simp only [← @isTie_isLE_iff α cmp, ← mergeSort_eq_of_perm_iff isLE_trans isLE_total]
  rw [sort_eq_ok h]
  apply forall_congr'
  intro other
  apply imp_congr_right
  intro hperm
  rw [hother hperm, Except.ok.injEq]

end Comparison

end VersionRange.Sorting
