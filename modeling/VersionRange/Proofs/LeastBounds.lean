import Mathlib.Data.List.Lex
import Mathlib.Order.Bounds.Defs
import VersionRange.Proofs.Comparisons

/-!
# Derived bounds leave no gap

The bounds that shorthands derive are pre-releases zero. Every pre-release label stands at or above
the number zero, so the pre-release zero of some numbers is the least version with these numbers,
and the one of raised numbers is the least version above all those that share the numbers up to the
one that is raised. No version lies between them and the bound, and none of them lies above it.
-/

namespace VersionRange

namespace Version

private theorem lt_iff_precedes (a b : Version) : a < b ↔ Precedes a b := compare_eq_lt_iff a b

/-- No version with the same numbers stands below a pre-release zero. -/
theorem isLeast_lowest (major minor patch : Nat) :
    IsLeast {v : Version | v.numbers = [major, minor, patch]} (lowest major minor patch) := by
  refine ⟨rfl, fun v hv ↦ ?_⟩
  rw [le_iff_not_precedes, precedes_lowest_iff, hv]
  exact List.lt_irrefl _

end Version

namespace Literal

open Version

/-- Below a derived end stand the versions whose first numbers are at most those of the literal. -/
theorem lt_past_iff (p : Literal) (index : Nat) (v : Version) :
    v < p.past index ↔ v.numbers.take (index + 1) ≤ p.floor.numbers.take (index + 1) := by
  rw [lt_iff_precedes, precedes_past_iff, not_lt]

/-- A version above all that share the first numbers of a literal has greater ones. -/
theorem not_take_numbers_le_of_above {p : Literal} {index : Nat} {u : Version}
    (h : ∀ v : Version, v.numbers.take (index + 1) = p.floor.numbers.take (index + 1) → v < u) :
    ¬ u.numbers.take (index + 1) ≤ p.floor.numbers.take (index + 1) := by
  intro hle
  -- The literal itself is below `u`, so the numbers of `u` could only be the same as its own.
  have hfloor : Precedes p.floor u := (lt_iff_precedes _ _).mp (h p.floor rfl)
  have hge : p.floor.numbers.take (index + 1) ≤ u.numbers.take (index + 1) :=
    not_lt.mp (not_take_numbers_lt_of_le (le_of_precedes hfloor) (index + 1))
  have hself : u < u := h u (le_antisymm hle hge)
  rw [lt_iff_precedes] at hself
  exact not_precedes_of_ties ⟨rfl, rfl, rfl, rfl⟩ hself

/-- A derived end is the least version above all that share the first numbers of the literal. -/
theorem isLeast_past (p : Literal) (index : Nat) :
    IsLeast {u : Version | ∀ v : Version,
      v.numbers.take (index + 1) = p.floor.numbers.take (index + 1) → v < u} (p.past index) := by
  refine ⟨fun v hv ↦ ?_, fun u hu ↦ ?_⟩
  · rw [lt_past_iff, hv]
  · rw [le_iff_not_precedes, ← lt_iff_precedes, lt_past_iff]
    exact not_take_numbers_le_of_above hu

/-- The derived bounds leave no gap. The pre-release zero of three numbers is the least version with
these numbers. For a literal, with the numbers that it does not give read as zero, and for an index,
the derived end is the least version above all those whose numbers up to the index are those of the
literal; so below it stand exactly the versions whose numbers up to the index are at most those of
the literal, the first difference deciding. The literals of callers with the same numbers have the
same ends, whatever their labels. -/
theorem derived_bounds_isLeast :
    (∀ major minor patch : Nat, IsLeast {v : Version | v.numbers = [major, minor, patch]}
      (Version.lowest major minor patch)) ∧
    ∀ (p : Literal) (index : Nat),
      IsLeast {u : Version | ∀ v : Version,
        v.numbers.take (index + 1) = p.floor.numbers.take (index + 1) → v < u} (p.past index) ∧
      (∀ v : Version, v < p.past index ↔
        v.numbers.take (index + 1) ≤ p.floor.numbers.take (index + 1)) ∧
      ∀ l : UncheckedLiteral, l.numbers = p.numbers.map Int.ofNat →
        l.endpoints.lowest = .ok p.lowest ∧ l.endpoints.past index = .ok (p.past index) := by
  refine ⟨isLeast_lowest, fun p index ↦ ⟨isLeast_past p index, lt_past_iff p index, ?_⟩⟩
  intro l hl
  obtain ⟨hlowest, hpast⟩ := UncheckedLiteral.derived_eq hl
  exact ⟨hlowest, hpast index⟩

/-- A pre-release of the next minor version is not below the end derived at the minor number. -/
example :
    (upToMinor 1 2).past 1 ≤ ⟨1, 3, 0, [.number 0, .number 0], []⟩ ∧
      (⟨1, 2, 99, [], []⟩ : Version) < (upToMinor 1 2).past 1 := by
  decide

end Literal

end VersionRange
