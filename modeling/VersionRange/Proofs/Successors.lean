import Mathlib.Logic.Function.Iterate
import VersionRange.Proofs.Increments
import VersionRange.Proofs.VersionText

/-!
# Raised versions stand above

Raising a number gives a release above the version. Raising a pre-release label leads upwards in
steps that never reach the release of the same numbers, and raising build metadata leads upwards
among the versions that tie. A label is not raised where there is none, or where a number in it
would become too long to be written.
-/

namespace VersionRange

/-! ### Labels -/

private theorem incrementLast_ne_nil (label : List Identifier) : incrementLast label ≠ [] := by
  fun_cases incrementLast label <;> simp

/-- A raised label stands above the label. -/
theorem lex_incrementLast {label : List Identifier} (h : label ≠ []) :
    List.Lex Identifier.Below label (incrementLast label) := by
  fun_induction incrementLast label with
  | case1 => exact absurd rfl h
  | case2 n => exact .rel (.numbers (Nat.lt_succ_self n))
  | case3 word hword => exact .cons .nil
  | case4 first next rest ih => exact .cons (ih (List.cons_ne_nil next rest))

/-- A label of which the raised one can be written can be written itself. -/
theorem isWritable_of_incrementLast {label : List Identifier}
    (h : (incrementLast label).all Identifier.isWritable = true) :
    label.all Identifier.isWritable = true := by
  fun_induction incrementLast label with
  | case1 => rfl
  | case2 n =>
    simp only [List.all_cons, List.all_nil, Bool.and_true, Identifier.isWritable] at h ⊢
    exact Text.isWritable_of_le (Nat.le_succ n) h
  | case3 word hword => rfl
  | case4 first next rest ih =>
    rw [List.all_cons, Bool.and_eq_true] at h ⊢
    exact ⟨h.1, ih h.2⟩

/-- A label can be raised some times before a number in it is too long to be written. -/
def HasRoom (label : List Identifier) (count : Nat) : Prop :=
  (incrementLast^[count] label).all Identifier.isWritable = true

instance (label : List Identifier) (count : Nat) : Decidable (HasRoom label count) :=
  inferInstanceAs (Decidable (_ = true))

private theorem HasRoom.isWritable {label : List Identifier} {count : Nat}
    (h : HasRoom label count) : label.all Identifier.isWritable = true := by
  induction count generalizing label with
  | zero => exact h
  | succ count ih => exact isWritable_of_incrementLast (ih h)

private theorem HasRoom.one {label : List Identifier} {count : Nat}
    (h : HasRoom label (count + 1)) : HasRoom label 1 :=
  @HasRoom.isWritable (incrementLast label) count h

private theorem ifWritable_hasRoom {α : Type} {label : List Identifier} (h : HasRoom label 1)
    (a : α) : ifWritable ((incrementLast label).all Identifier.isWritable) a = .ok a := if_pos h

theorem ifWritable_eq_error_iff {α : Type} {label : List Identifier} {a : α} {failure : Failure} :
    ifWritable ((incrementLast label).all Identifier.isWritable) a = .error failure ↔
      ¬ HasRoom label 1 ∧ failure = .numberTooLong := by
  by_cases h : HasRoom label 1
  · rw [ifWritable_hasRoom h]
    exact iff_of_false nofun fun hroom ↦ hroom.1 h
  · have herror : ifWritable ((incrementLast label).all Identifier.isWritable) a =
        .error .numberTooLong := if_neg h
    rw [herror, Except.error.injEq, eq_comm, and_iff_right h]

namespace Version

variable {v w : Version} {count : Nat} {failure : Failure}

/-! ### Pre-releases -/

/-- The release with the numbers of a version. -/
def release (v : Version) : Version := ⟨v.major, v.minor, v.patch, [], []⟩

/-- The version with its pre-release label raised, without build metadata. -/
def raisedPrerelease (v : Version) : Version :=
  { v with prerelease := incrementLast v.prerelease, build := [] }

/-- The versions that come out as the pre-release label is raised some times, each time of the
version before. -/
def prereleases (v : Version) : Nat → Except Failure (List Version)
  | 0 => .ok []
  | count + 1 => do
    let next ← v.incrementPrerelease
    let later ← next.prereleases count
    .ok (next :: later)

private theorem incrementPrerelease_eq_ifWritable (hne : v.prerelease ≠ []) :
    v.incrementPrerelease =
      ifWritable ((incrementLast v.prerelease).all Identifier.isWritable) v.raisedPrerelease := by
  have hempty : ¬ v.prerelease.isEmpty = true := by simpa using hne
  rw [incrementPrerelease, if_neg hempty]
  exact writableLabel_bind (incrementLast v.prerelease)
    fun prerelease ↦ { v with prerelease, build := [] }

private theorem incrementPrerelease_of_nil (hv : v.isWritable = true) (h : v.prerelease = []) :
    v.incrementPrerelease = .error (.noPrerelease v.toString) := by
  rw [incrementPrerelease, h, write_eq_ok_iff.mpr ⟨hv, rfl⟩]
  rfl

/-- A pre-release stands below the release of its numbers. -/
theorem compare_release (hne : v.prerelease ≠ []) : compare v v.release = .lt := by
  rw [compare_eq_lt_iff]
  exact .release rfl rfl rfl hne rfl

private theorem compare_raisedPrerelease (hne : v.prerelease ≠ []) :
    compare v v.raisedPrerelease = .lt := by
  rw [compare_eq_lt_iff]
  exact .prerelease rfl rfl rfl hne (incrementLast_ne_nil _) (lex_incrementLast hne)

/-- Raising the pre-release label again and again leads upwards, below the release. -/
theorem exists_prereleases (hne : v.prerelease ≠ []) (h : HasRoom v.prerelease count) :
    ∃ chain, v.prereleases count = .ok chain ∧ chain.length = count ∧
      (v :: chain).Pairwise (compare · · = .lt) ∧ ∀ w ∈ v :: chain, compare w v.release = .lt := by
  induction count generalizing v with
  | zero =>
    have hbelow : ∀ w ∈ [v], compare w v.release = .lt := by
      simpa using compare_release hne
    exact ⟨[], rfl, rfl, List.pairwise_singleton .., hbelow⟩
  | succ count ih =>
    have hnext : v.incrementPrerelease = .ok v.raisedPrerelease := by
      rw [incrementPrerelease_eq_ifWritable hne, ifWritable_hasRoom h.one]
    obtain ⟨chain, hchain, hlength, hascending, hbelow⟩ :=
      ih (v := v.raisedPrerelease) (incrementLast_ne_nil _) h
    have hfirst : ∀ w ∈ v.raisedPrerelease :: chain, compare v w = .lt := by
      have hraised := compare_raisedPrerelease hne
      intro w hw
      rcases List.mem_cons.mp hw with rfl | hw
      · exact hraised
      · exact Std.TransCmp.lt_trans hraised (List.rel_of_pairwise_cons hascending hw)
    refine ⟨v.raisedPrerelease :: chain, ?_, by simp [hlength], .cons hfirst hascending, ?_⟩
    · rw [prereleases, hnext]
      change v.raisedPrerelease.prereleases count >>= _ = _
      rw [hchain]
      rfl
    · exact List.forall_mem_cons.mpr ⟨compare_release hne, hbelow⟩

/-! ### Build metadata -/

private theorem incrementBuild_of_nil (hv : v.isWritable = true) (h : v.build = []) :
    v.incrementBuild = .error (.noBuild v.toString) := by
  rw [incrementBuild, h, write_eq_ok_iff.mpr ⟨hv, rfl⟩]
  rfl

/-- Raised build metadata can be read if the label has room. -/
theorem hasShortBuild_raisedBuild (h : HasRoom v.buildIdentifiers 1) :
    v.raisedBuild.HasShortBuild := by
  intro word hword
  obtain ⟨i, hi, rfl⟩ := List.mem_map.mp hword
  apply i.isWritable_iff.mp
  exact List.all_eq_true.mp h i hi

/-- Raised build metadata stands above the build metadata. -/
theorem compareWithBuild_raisedBuild (hne : v.build ≠ []) (hshort : v.HasShortBuild)
    (h : HasRoom v.buildIdentifiers 1) : compareWithBuild v v.raisedBuild = .ok .lt := by
  have hidentifiers : v.raisedBuild.buildIdentifiers = incrementLast v.buildIdentifiers :=
    Identifier.map_ofWord_toWord _
  have hlt : compareFinely v v.raisedBuild = .lt := by
    rw [compareFinely_eq_lt_iff, hidentifiers]
    exact .inr ⟨⟨rfl, rfl, rfl, rfl⟩, lex_incrementLast (by simpa [buildIdentifiers] using hne)⟩
  rw [compareWithBuild_eq_ok hshort (hasShortBuild_raisedBuild h), hlt]

/-! ### All increments -/

/-- An increment stands above the version and stays where it should. A raised number gives a release
above it. A pre-release label can be raised as often as there is room for its last number: each of
the versions that come out stands above those before it, and all of them stay below the release of
the same numbers. Raised build metadata stands above the build metadata of a version that ties. An
increment of a label fails for the lack of a label, or else for a number without room. -/
theorem increments_ascend (hv : v.isWritable = true) (hshort : v.HasShortBuild) :
    (∀ w ∈ [v.incrementMajor, v.incrementMinor, v.incrementPatch],
      w.isPrerelease = false ∧ compare v w = .lt) ∧
    (v.prerelease ≠ [] → ∀ count, HasRoom v.prerelease count →
      ∃ chain, v.prereleases count = .ok chain ∧ chain.length = count ∧
        (v :: chain).Pairwise (compare · · = .lt) ∧
        ∀ w ∈ v :: chain, compare w v.release = .lt) ∧
    (v.build ≠ [] → HasRoom v.buildIdentifiers 1 →
      ∃ w, v.incrementBuild = .ok w ∧ compare w v = .eq ∧ compareWithBuild v w = .ok .lt) ∧
    (∀ failure, v.incrementPrerelease = .error failure ↔
      v.prerelease = [] ∧ failure = .noPrerelease v.toString ∨
        v.prerelease ≠ [] ∧ ¬ HasRoom v.prerelease 1 ∧ failure = .numberTooLong) ∧
    (∀ failure, v.incrementBuild = .error failure ↔
      v.build = [] ∧ failure = .noBuild v.toString ∨
        v.build ≠ [] ∧ ¬ HasRoom v.buildIdentifiers 1 ∧ failure = .numberTooLong) := by
  refine ⟨?_, fun hne _ ↦ exists_prereleases hne, fun hne hroom ↦ ?_, fun failure ↦ ?_,
    fun failure ↦ ?_⟩
  · simp only [List.forall_mem_cons, List.not_mem_nil, false_implies, implies_true, and_true,
      compare_eq_lt_iff]
    exact ⟨⟨rfl, .major (Nat.lt_succ_self _)⟩, ⟨rfl, .minor rfl (Nat.lt_succ_self _)⟩,
      ⟨rfl, .patch rfl rfl (Nat.lt_succ_self _)⟩⟩
  · refine ⟨v.raisedBuild, ?_, ?_, compareWithBuild_raisedBuild hne hshort hroom⟩
    · rw [incrementBuild_eq_ifWritable hne hshort, ifWritable_hasRoom hroom]
    · rw [compare_eq_eq_iff]
      exact ⟨rfl, rfl, rfl, rfl⟩
  · by_cases hne : v.prerelease = []
    · rw [incrementPrerelease_of_nil hv hne]
      simp [hne, eq_comm]
    · rw [incrementPrerelease_eq_ifWritable hne, ifWritable_eq_error_iff]
      simp [hne]
  · by_cases hne : v.build = []
    · rw [incrementBuild_of_nil hv hne]
      simp [hne, eq_comm]
    · rw [incrementBuild_eq_ifWritable hne hshort, ifWritable_eq_error_iff]
      simp [hne]

/-- The number of a candidate passes from one digit to two and stays below the release; a padded
word of build metadata is raised as the number it is. -/
theorem increments_ascend_candidate :
    let candidate (number : Nat) (build : List Word) : Version :=
      ⟨1, 2, 3, [.name ⟨['r', 'c'], rfl⟩ rfl, .number number], build⟩
    let v := candidate 9 [⟨['0', '9'], rfl⟩]
    v.isWritable = true ∧ v.HasShortBuild ∧ v.prerelease ≠ [] ∧ HasRoom v.prerelease 2 ∧
      v.build ≠ [] ∧ HasRoom v.buildIdentifiers 1 ∧
      v.prereleases 2 = .ok [candidate 10 [], candidate 11 []] ∧
      [v, candidate 10 [], candidate 11 []].Pairwise (compare · · = .lt) ∧
      (∀ w ∈ [v, candidate 10 [], candidate 11 []], compare w ⟨1, 2, 3, [], []⟩ = .lt) ∧
      v.incrementBuild = .ok (candidate 9 [⟨['1', '0'], rfl⟩]) ∧
      compareWithBuild v (candidate 9 [⟨['1', '0'], rfl⟩]) = .ok .lt := by
  intro candidate v
  have hv : v.isWritable = true := by decide
  have hshort : v.HasShortBuild := by decide
  have hprerelease : v.prerelease ≠ [] := by decide
  have hroom : HasRoom v.prerelease 2 := by decide
  have hbuild : v.build ≠ [] := by decide
  have hlast : HasRoom v.buildIdentifiers 1 := by decide
  obtain ⟨-, hchains, hraises, -, -⟩ := increments_ascend hv hshort
  obtain ⟨chain, hchain, -, hascending, hbelow⟩ := hchains hprerelease 2 hroom
  obtain ⟨w, hw, -, habove⟩ := hraises hbuild hlast
  have hnumbers : v.prereleases 2 = .ok [candidate 10 [], candidate 11 []] := by
    rw [← Outcome.toOption_eq_some_iff]
    decide
  have hraised : v.incrementBuild = .ok (candidate 9 [⟨['1', '0'], rfl⟩]) := by
    rw [← Outcome.toOption_eq_some_iff]
    decide
  obtain rfl := Except.ok.inj (hchain.symm.trans hnumbers)
  obtain rfl := Except.ok.inj (hw.symm.trans hraised)
  exact ⟨hv, hshort, hprerelease, hroom, hbuild, hlast, hnumbers, hascending, hbelow, hraised,
    habove⟩

end Version

end VersionRange
