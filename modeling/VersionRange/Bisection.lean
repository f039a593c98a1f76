/-!
# Bisection

The place of an item in a sorted list, found by halving the part of the list that is in question.
-/

namespace VersionRange

variable {α : Type}

/-- The index of the first item that does not stand below another one, among those from `low` up to
`high`. Part of `VersionSet.add` and membership in `VersionSet`. -/
def bisect (isBelow : α → Bool) (items : List α) (low high : Nat) : Nat :=
  if low < high then
    let middle := (low + high) / 2
    if items[middle]?.any isBelow then bisect isBelow items (middle + 1) high
    else bisect isBelow items low middle
  else low
termination_by high - low

/-- In a list whose items below another one are those before an index, this index is found. -/
theorem bisect_eq_of_iff_lt {isBelow : α → Bool} {items : List α} {low high index : Nat}
    (h : ∀ i, items[i]?.any isBelow = true ↔ i < index) (hlow : low ≤ index)
    (hhigh : index ≤ high) : bisect isBelow items low high = index := by
  fun_induction bisect isBelow items low high with
  | case1 low high hlt middle hbelow ih =>
    have hmiddle := (h middle).mp hbelow
    exact ih hmiddle hhigh
  | case2 low high hlt middle hbelow ih =>
    have hmiddle := mt (h middle).mpr hbelow
    exact ih hlow (Nat.le_of_not_lt hmiddle)
  | case3 low high hlt => omega

/-- Bisection finds the border between the items that stand below another one and the rest. -/
theorem bisect_append {isBelow : α → Bool} {lower upper : List α}
    (hlower : ∀ a ∈ lower, isBelow a = true) (hupper : ∀ a ∈ upper, ¬ isBelow a = true) :
    bisect isBelow (lower ++ upper) 0 (lower ++ upper).length = lower.length := by
  refine bisect_eq_of_iff_lt (fun i ↦ ?_) (Nat.zero_le _) (by rw [List.length_append]; omega)
  rw [Option.any_eq_true]
  constructor
  · rintro ⟨a, ha, hbelow⟩
    refine Nat.lt_of_not_le fun hi ↦ ?_
    rw [List.getElem?_append_right hi] at ha
    exact hupper a (List.mem_of_getElem? ha) hbelow
  · intro hi
    rw [List.getElem?_append_left hi, List.getElem?_eq_getElem hi]
    exact ⟨_, rfl, hlower _ (List.getElem_mem hi)⟩

/-- In a sorted list the items below another one stand in front of the rest. -/
theorem exists_border {isBelow : α → Bool} {items : List α}
    (h : items.Pairwise fun a b ↦ isBelow b = true → isBelow a = true) :
    ∃ lower upper, items = lower ++ upper ∧ (∀ a ∈ lower, isBelow a = true) ∧
      ∀ a ∈ upper, ¬ isBelow a = true := by
  induction items with
  | nil => exact ⟨[], [], rfl, nofun, nofun⟩
  | cons a items ih =>
    obtain ⟨ha, hitems⟩ := List.pairwise_cons.mp h
    by_cases hbelow : isBelow a = true
    · obtain ⟨lower, upper, rfl, hlower, hupper⟩ := ih hitems
      exact ⟨a :: lower, upper, rfl, List.forall_mem_cons.mpr ⟨hbelow, hlower⟩, hupper⟩
    · have hnone : ∀ b ∈ a :: items, ¬ isBelow b = true :=
        List.forall_mem_cons.mpr ⟨hbelow, fun b hb ↦ mt (ha b hb) hbelow⟩
      exact ⟨[], a :: items, rfl, nofun, hnone⟩

end VersionRange
