import VersionRange.Proofs.Labels
import VersionRange.Proofs.Precedence
import VersionRange.Version.BuildOrder

/-!
# The order with build metadata

Comparing versions by precedence and then by build metadata is a total preorder that refines
precedence. It does not tell apart versions whose build metadata differs only in the leading zeros
of words of digits.
-/

namespace VersionRange

namespace Version

/-- The build metadata of a version as it is compared, words of digits being read as numbers. -/
def buildIdentifiers (v : Version) : List Identifier := v.build.map .ofWord

private theorem compareFinely_eq (a b : Version) :
    compareFinely a b = (compare a b).then (compare a.buildIdentifiers b.buildIdentifiers) := rfl

/-- The order with build metadata is the lexicographic product of precedence and the order of
labels. -/
instance : Std.TransCmp compareFinely :=
  inferInstanceAs (Std.TransCmp (compareLex compare (compareOn buildIdentifiers)))

theorem compareFinely_eq_eq_iff (a b : Version) :
    compareFinely a b = .eq ↔ Ties a b ∧ a.buildIdentifiers = b.buildIdentifiers := by
  rw [compareFinely_eq, Ordering.then_eq_eq, compare_eq_eq_iff, Std.LawfulEqOrd.compare_eq_iff_eq]

theorem compareFinely_eq_lt_iff (a b : Version) :
    compareFinely a b = .lt ↔ Precedes a b ∨
      Ties a b ∧ List.Lex Identifier.Below a.buildIdentifiers b.buildIdentifiers := by
  rw [compareFinely_eq, Ordering.then_eq_lt, compare_eq_lt_iff, compare_eq_eq_iff,
    compare_list_eq_lt_iff Identifier.compare_eq_lt_iff]

/-- Where precedence decides, build metadata takes no part. -/
theorem compareFinely_of_compare_ne_eq {a b : Version} (h : compare a b ≠ .eq) :
    compareFinely a b = compare a b := by
  rw [compareFinely_eq]
  cases hab : compare a b with
  | lt => rfl
  | eq => exact absurd hab h
  | gt => rfl

/-- Among versions that tie, no build metadata stands below any. -/
theorem compareFinely_of_build_eq_nil {a b : Version} (h : compare a b = .eq) (ha : a.build = [])
    (hb : b.build ≠ []) : compareFinely a b = .lt := by
  rw [compareFinely_eq, h, buildIdentifiers, buildIdentifiers, ha]
  cases hbuild : b.build with
  | nil => exact absurd hbuild hb
  | cons w words => rfl

/-- The numbers in build metadata are short enough to be read. -/
def HasShortBuild (v : Version) : Prop := ∀ w ∈ v.build, w.IsShort

instance (v : Version) : Decidable v.HasShortBuild :=
  inferInstanceAs (Decidable (∀ w ∈ v.build, w.isNumeric = true → w.chars.length ≤ Text.maxDigits))

theorem readIdentifiers_build {v : Version} (h : v.HasShortBuild) :
    readIdentifiers v.build = .ok v.buildIdentifiers :=
  readIdentifiers_eq_ok_iff.mpr ⟨h, rfl⟩

/-- A comparison with build metadata fails only for a number that is too long to be read. -/
theorem compareWithBuild_eq_ok {a b : Version} (ha : a.HasShortBuild) (hb : b.HasShortBuild) :
    compareWithBuild a b = .ok (compareFinely a b) := by
  rw [compareWithBuild, readIdentifiers_build ha, readIdentifiers_build hb]
  split <;> rfl

/-- The comparison with build metadata is a total preorder that refines precedence. It is reversed
when its sides are, it is transitive, it keeps what precedence decides, and of two versions that
tie the one without build metadata stands below the one with it. Versions are equal in it if they
have the same numbers, the same pre-release label, and the same build metadata once words of
digits are read as numbers. -/
theorem compareWithBuild_totalPreorder {a b c : Version} (ha : a.HasShortBuild)
    (hb : b.HasShortBuild) (hc : c.HasShortBuild) :
    ∃ ab bc ac : Ordering,
      compareWithBuild a b = .ok ab ∧ compareWithBuild b c = .ok bc ∧
      compareWithBuild a c = .ok ac ∧ compareWithBuild b a = .ok ab.swap ∧
      (ab.isLE → bc.isLE → ac.isLE) ∧
      (ab = .lt → bc.isLE → ac = .lt) ∧ (ab.isLE → bc = .lt → ac = .lt) ∧
      (ab = .eq → bc = .eq → ac = .eq) ∧
      (compare a b ≠ .eq → ab = compare a b) ∧
      (compare a b = .eq → a.build = [] → b.build ≠ [] → ab = .lt) ∧
      (ab = .eq ↔ a.major = b.major ∧ a.minor = b.minor ∧ a.patch = b.patch ∧
        a.prerelease = b.prerelease ∧ a.build.map Identifier.ofWord = b.build.map Identifier.ofWord) ∧
      (ab = .lt ↔ Precedes a b ∨ Ties a b ∧
        List.Lex Identifier.Below (a.build.map .ofWord) (b.build.map .ofWord)) := by
  refine ⟨compareFinely a b, compareFinely b c, compareFinely a c, compareWithBuild_eq_ok ha hb,
    compareWithBuild_eq_ok hb hc, compareWithBuild_eq_ok ha hc, ?_, Std.TransCmp.isLE_trans,
    Std.TransCmp.lt_of_lt_of_isLE, Std.TransCmp.lt_of_isLE_of_lt, Std.TransCmp.eq_trans,
    compareFinely_of_compare_ne_eq, compareFinely_of_build_eq_nil, ?_, compareFinely_eq_lt_iff a b⟩
  · rw [compareWithBuild_eq_ok hb ha]
    exact congrArg Except.ok Std.OrientedCmp.eq_swap
  · rw [compareFinely_eq_eq_iff, Ties, and_assoc, and_assoc, and_assoc]
    rfl

/-- A leading zero in a number is all that the comparison does not see: it stands above no build
metadata with or without the zero. -/
theorem compareWithBuild_totalPreorder_leading_zero :
    let candidate (build : List Word) : Version := ⟨1, 0, 0, [.number 1], build⟩
    let a := candidate []
    let b := candidate [⟨['0', '7'], rfl⟩, ⟨['x'], rfl⟩]
    let c := candidate [⟨['7'], rfl⟩, ⟨['x'], rfl⟩]
    a.HasShortBuild ∧ b.HasShortBuild ∧ c.HasShortBuild ∧
      compareWithBuild a b = .ok .lt ∧ compareWithBuild b a = .ok .gt ∧
      compareWithBuild b c = .ok .eq ∧ compareWithBuild a c = .ok .lt := by
  intro candidate a b c
  have ha : a.HasShortBuild := by decide
  have hb : b.HasShortBuild := by decide
  have hc : c.HasShortBuild := by decide
  obtain ⟨ab, bc, ac, hab, hbc, hac, hba, -, hlt, -, -, -, hnil, -⟩ :=
    compareWithBuild_totalPreorder ha hb hc
  obtain ⟨bc', -, -, hbc', -, -, -, -, -, -, -, -, -, heq, -⟩ :=
    compareWithBuild_totalPreorder hb hc ha
  have hfirst : ab = .lt := hnil (by decide) rfl (by decide)
  have hsecond : bc' = .eq := heq.mpr (by decide)
  obtain rfl : bc = bc' := Except.ok.inj (hbc.symm.trans hbc')
  rw [hfirst] at hab hba
  rw [hsecond] at hbc
  rw [hlt hfirst (by rw [hsecond]; rfl)] at hac
  exact ⟨ha, hb, hc, hab, hba, hbc, hac⟩

end Version

end VersionRange
