import VersionRange.Proofs.BuildOrder
import VersionRange.Proofs.StableSorts
import VersionRange.Proofs.VersionText

/-!
# Sorts with build metadata

The order with build metadata tells versions apart up to needless zeros: it is a total order on the
versions whose build metadata has none. However some versions are arranged, they are sorted into the
same list exactly if no two different ones among them are the same without needless zeros.
-/

namespace VersionRange.Version

variable {versions : List Version}

/-- The version with the needless zeros of its build metadata removed. -/
def unpadded (v : Version) : Version := { v with build := v.build.map Word.unpadded }

theorem unpadded_eq_self_iff (v : Version) : v.unpadded = v ↔ ∀ w ∈ v.build, ¬ w.IsPadded := by
  rw [← Word.map_unpadded_eq_self_iff]
  constructor
  · exact congrArg Version.build
  · intro h
    rw [unpadded, h]

private theorem map_unpadded_build (v : Version) :
    v.build.map Word.unpadded = v.buildIdentifiers.map Identifier.toWord := by
  rw [buildIdentifiers, List.map_map]
  rfl

/-- The order with build metadata sees all of a version but needless zeros. -/
theorem compareFinely_eq_eq_iff_unpadded (a b : Version) :
    compareFinely a b = .eq ↔ a.unpadded.toString = b.unpadded.toString := by
  have hbuild : a.buildIdentifiers = b.buildIdentifiers ↔
      a.build.map Word.unpadded = b.build.map Word.unpadded := by
    rw [map_unpadded_build, map_unpadded_build,
      List.map_inj_right fun _ _ h ↦ Identifier.toWord_injective h]
  rw [toString_injective.eq_iff, compareFinely_eq_eq_iff, hbuild, unpadded, unpadded,
    Version.mk.injEq, Ties, and_assoc, and_assoc, and_assoc]

/-- The comparison with build metadata tells versions apart up to needless zeros. Only words of
digits lose zeros, and a version loses none exactly if no word of its build metadata is padded. Of
versions whose numbers can be read any two are compared, and they come out equal exactly if their
texts are the same without needless zeros. The versions are sorted stably, and all of their
arrangements are sorted into the same list exactly if only versions of the same text come out
equal. -/
theorem compareWithBuild_separates_unpadded (hshort : ∀ v ∈ versions, v.HasShortBuild) :
    (∀ w : Word, w.unpadded.chars = if w.isNumeric then Text.dropZeros w.chars else w.chars) ∧
    (∀ v : Version, v.unpadded.toString = v.toString ↔ ∀ w ∈ v.build, ¬ w.IsPadded) ∧
    (∀ a ∈ versions, ∀ b ∈ versions, compareWithBuild a b = .ok (compareFinely a b) ∧
      (compareFinely a b = .eq ↔ a.unpadded.toString = b.unpadded.toString)) ∧
    ∃ sorted, Sorting.sort compareWithBuild versions = .ok sorted ∧
      Sorting.IsStableSort (fun a b ↦ (compareFinely a b).isLE) versions sorted ∧
      ((∀ other : List Version, other.Perm versions →
          Sorting.sort compareWithBuild other = .ok sorted) ↔
        ∀ a ∈ versions, ∀ b ∈ versions,
          compareWithBuild a b = .ok .eq → a.toString = b.toString) := by
  have hcompare : ∀ a ∈ versions, ∀ b ∈ versions,
      compareWithBuild a b = .ok (compareFinely a b) := by
    intro a ha b hb
    exact compareWithBuild_eq_ok (hshort a ha) (hshort b hb)
  have hsorted := Sorting.sort_eq_ok hcompare
  refine ⟨Word.chars_unpadded, ?_, ?_, _, hsorted, ?_, ?_⟩
  · intro v
    rw [toString_injective.eq_iff, unpadded_eq_self_iff]
  · intro a ha b hb
    exact ⟨hcompare a ha b hb, compareFinely_eq_eq_iff_unpadded a b⟩
  · exact Sorting.isStableSort_mergeSort Sorting.isLE_trans Sorting.isLE_total
  · rw [← hsorted, Sorting.sort_eq_of_perm_iff hcompare]
    apply forall₂_congr
    intro a ha
    apply forall₂_congr
    intro b hb
    rw [hcompare a ha b hb, Except.ok.injEq, toString_injective.eq_iff]

/-- A zero that is the whole number is not needless. Versions without any other are sorted into one
list from each of their arrangements. -/
theorem compareWithBuild_separates_unpadded_zero :
    let candidate (build : List Word) : Version := ⟨1, 0, 0, [.number 1], build⟩
    let bare := candidate []
    let zero := candidate [⟨['0'], rfl⟩]
    let name := candidate [⟨['0', 'x'], rfl⟩]
    let ten := candidate [⟨['1', '0'], rfl⟩]
    (∀ v ∈ [name, ten, zero, bare], v.HasShortBuild) ∧
      (∀ v ∈ [name, ten, zero, bare], ∀ w ∈ v.build, ¬ w.IsPadded) ∧
      ∀ other : List Version, other.Perm [name, ten, zero, bare] →
        Sorting.sort compareWithBuild other = .ok [bare, zero, ten, name] := by
  intro candidate bare zero name ten
  have hshort : ∀ v ∈ [name, ten, zero, bare], v.HasShortBuild := by decide
  have hunpadded : ∀ v ∈ [name, ten, zero, bare], ∀ w ∈ v.build, ¬ w.IsPadded := by decide
  obtain ⟨-, htext, hequal, sorted, hsort, -, hperm⟩ := compareWithBuild_separates_unpadded hshort
  have hsorted : Sorting.sort compareWithBuild [name, ten, zero, bare] =
      .ok [bare, zero, ten, name] := by
    rw [← Outcome.toOption_eq_some_iff]
    decide
  obtain rfl := Except.ok.inj (hsort.symm.trans hsorted)
  refine ⟨hshort, hunpadded, hperm.mpr ?_⟩
  intro a ha b hb htie
  rw [(hequal a ha b hb).1, Except.ok.injEq, (hequal a ha b hb).2] at htie
  rw [← (htext a).mpr (hunpadded a ha), ← (htext b).mpr (hunpadded b hb), htie]

/-- The comparison takes `1.0.0+01` and `1.0.0+1` for equal, so that sorts leave them as they
stand. -/
theorem compareWithBuild_merges_leading_zero :
    let a : Version := ⟨1, 0, 0, [], [⟨['0', '1'], rfl⟩]⟩
    let b : Version := ⟨1, 0, 0, [], [⟨['1'], rfl⟩]⟩
    a.HasShortBuild ∧ b.HasShortBuild ∧ compareWithBuild a b = .ok .eq ∧ a.toString ≠ b.toString ∧
      Sorting.sort compareWithBuild [a, b] = .ok [a, b] ∧
      Sorting.sort compareWithBuild [b, a] = .ok [b, a] := by
  intro a b
  simp only [← Outcome.toOption_eq_some_iff, Ne, toString_injective.eq_iff]
  decide

end VersionRange.Version
