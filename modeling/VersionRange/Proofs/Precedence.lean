import VersionRange.Shorthand

/-!
# Precedence is a strict total order

The rules of precedence, stated case by case, and the comparisons against them. Identifiers and
labels are ordered without ties; two versions tie exactly if they have the same numbers and the
same pre-release label.
-/

namespace VersionRange

namespace Word

instance : Std.TransOrd Word where
  eq_swap := by
    intro v w
    exact Std.OrientedOrd.eq_swap (α := List Char)
  isLE_trans := by
    intro u v w huv hvw
    exact Std.TransOrd.isLE_trans (α := List Char) huv hvw

/-- Words that compare equal have the same characters. -/
instance : Std.LawfulEqOrd Word where
  compare_self := by
    intro w
    exact Std.ReflOrd.compare_self (α := List Char)
  eq_of_compare := by
    intro v w h
    cases v
    cases w
    cases Std.LawfulEqOrd.eq_of_compare (α := List Char) h
    rfl

end Word

namespace Identifier

private theorem compare_eq_swap (i j : Identifier) : Ord.compare i j = (Ord.compare j i).swap := by
  cases i <;> cases j
  · exact Std.OrientedOrd.eq_swap (α := Nat)
  · rfl
  · rfl
  · exact Std.OrientedOrd.eq_swap (α := Word)

private theorem isLE_compare_trans {i j k : Identifier} (hij : (Ord.compare i j).isLE)
    (hjk : (Ord.compare j k).isLE) : (Ord.compare i k).isLE := by
  cases i <;> cases j <;> cases k
  · exact Std.TransOrd.isLE_trans (α := Nat) hij hjk
  · rfl
  · cases hjk
  · rfl
  · cases hij
  · cases hij
  · cases hjk
  · exact Std.TransOrd.isLE_trans (α := Word) hij hjk

instance : Std.TransOrd Identifier where
  eq_swap := compare_eq_swap _ _
  isLE_trans := isLE_compare_trans

/-- Identifiers that compare equal are equal. -/
instance : Std.LawfulEqOrd Identifier where
  compare_self := by
    intro i
    cases i
    · exact Std.ReflOrd.compare_self (α := Nat)
    · exact Std.ReflOrd.compare_self (α := Word)
  eq_of_compare := by
    intro i j h
    cases i <;> cases j
    · rw [Std.LawfulEqOrd.eq_of_compare (α := Nat) h]
    · cases h
    · cases h
    · cases Std.LawfulEqOrd.eq_of_compare (α := Word) h
      rfl

/-- One identifier stands below another: numbers by value, numbers below names, and names by the
code points of their characters, a proper prefix first. -/
inductive Below : Identifier → Identifier → Prop
  | numbers {m n : Nat} (h : m < n) : Below (number m) (number n)
  | numberName {m : Nat} {w : Word} {hw : w.isNumeric = false} : Below (number m) (name w hw)
  | names {v w : Word} {hv : v.isNumeric = false} {hw : w.isNumeric = false}
      (h : List.Lex (fun c d ↦ c.toNat < d.toNat) v.chars w.chars) : Below (name v hv) (name w hw)

end Identifier

/-- The order of lists is lexicographic, a proper prefix first. -/
theorem compare_list_eq_lt_iff {α : Type} [Ord α] [Std.LawfulEqOrd α] {below : α → α → Prop}
    (h : ∀ a b : α, compare a b = .lt ↔ below a b) (xs ys : List α) :
    compare xs ys = .lt ↔ List.Lex below xs ys := by
  induction xs generalizing ys with
  | nil => cases ys <;> simp
  | cons x xs ih =>
    cases ys with
    | nil => simp
    | cons y ys =>
      rw [List.compare_cons_cons, Ordering.then_eq_lt, ih, h, Std.LawfulEqOrd.compare_eq_iff_eq]
      constructor
      · rintro (hxy | ⟨rfl, hlex⟩)
        · exact .rel hxy
        · exact .cons hlex
      · rintro (_ | hxy | hlex)
        · exact .inl hxy
        · exact .inr ⟨rfl, hlex⟩

/-- Characters are ordered by code point. -/
theorem compare_char_eq_lt_iff (c d : Char) : compare c d = .lt ↔ c.toNat < d.toNat := by
  change compareOfLessAndEq c d = .lt ↔ _
  rw [compareOfLessAndEq_eq_lt]
  exact Iff.rfl

namespace Identifier

theorem compare_eq_lt_iff (i j : Identifier) : Ord.compare i j = .lt ↔ Below i j := by
  cases i with
  | number m =>
    cases j with
    | number n =>
      change Ord.compare m n = .lt ↔ _
      rw [Nat.compare_eq_lt]
      exact ⟨.numbers, fun | .numbers h => h⟩
    | name w hw => exact ⟨fun _ ↦ .numberName, fun _ ↦ rfl⟩
  | name v hv =>
    cases j with
    | number n => exact ⟨nofun, nofun⟩
    | name w hw =>
      change Ord.compare v.chars w.chars = .lt ↔ _
      rw [compare_list_eq_lt_iff compare_char_eq_lt_iff]
      exact ⟨.names, fun | .names h => h⟩

end Identifier

namespace Version

/-- One version precedes another: by its numbers, from major to patch, then a pre-release before
the release of its numbers, then by the identifiers of the labels, a proper prefix first. -/
inductive Precedes : Version → Version → Prop
  | major {a b : Version} (h : a.major < b.major) : Precedes a b
  | minor {a b : Version} (hmajor : a.major = b.major) (h : a.minor < b.minor) : Precedes a b
  | patch {a b : Version} (hmajor : a.major = b.major) (hminor : a.minor = b.minor)
      (h : a.patch < b.patch) : Precedes a b
  | release {a b : Version} (hmajor : a.major = b.major) (hminor : a.minor = b.minor)
      (hpatch : a.patch = b.patch) (ha : a.prerelease ≠ []) (hb : b.prerelease = []) :
      Precedes a b
  | prerelease {a b : Version} (hmajor : a.major = b.major) (hminor : a.minor = b.minor)
      (hpatch : a.patch = b.patch) (ha : a.prerelease ≠ []) (hb : b.prerelease ≠ [])
      (h : List.Lex Identifier.Below a.prerelease b.prerelease) : Precedes a b

/-- Two versions tie: they differ at most in their build metadata. -/
def Ties (a b : Version) : Prop :=
  a.major = b.major ∧ a.minor = b.minor ∧ a.patch = b.patch ∧ a.prerelease = b.prerelease

private theorem comparePrerelease_eq_swap (xs ys : List Identifier) :
    comparePrerelease xs ys = (comparePrerelease ys xs).swap := by
  cases xs <;> cases ys
  · rfl
  · rfl
  · rfl
  · exact Std.OrientedOrd.eq_swap (α := List Identifier)

private theorem isLE_comparePrerelease_trans {xs ys zs : List Identifier}
    (hxy : (comparePrerelease xs ys).isLE) (hyz : (comparePrerelease ys zs).isLE) :
    (comparePrerelease xs zs).isLE := by
  cases xs <;> cases ys <;> cases zs
  · rfl
  · cases hyz
  · cases hxy
  · cases hxy
  · rfl
  · cases hyz
  · rfl
  · exact Std.TransOrd.isLE_trans (α := List Identifier) hxy hyz

theorem comparePrerelease_eq_eq_iff (xs ys : List Identifier) :
    comparePrerelease xs ys = .eq ↔ xs = ys := by
  cases xs <;> cases ys
  · exact ⟨fun _ ↦ rfl, fun _ ↦ rfl⟩
  · exact ⟨nofun, nofun⟩
  · exact ⟨nofun, nofun⟩
  · exact Std.LawfulEqOrd.compare_eq_iff_eq (α := List Identifier)

theorem comparePrerelease_eq_lt_iff (xs ys : List Identifier) :
    comparePrerelease xs ys = .lt ↔
      xs ≠ [] ∧ (ys = [] ∨ List.Lex Identifier.Below xs ys) := by
  cases xs with
  | nil => cases ys <;> simp [comparePrerelease]
  | cons x xs =>
    cases ys with
    | nil => simp [comparePrerelease]
    | cons y ys =>
      change compare (x :: xs) (y :: ys) = .lt ↔ _
      rw [compare_list_eq_lt_iff Identifier.compare_eq_lt_iff]
      simp

instance : Std.TransCmp fun a b : Version ↦ comparePrerelease a.prerelease b.prerelease where
  eq_swap := comparePrerelease_eq_swap _ _
  isLE_trans := isLE_comparePrerelease_trans

/-- Precedence is the lexicographic product of the comparisons of the four parts. -/
instance : Std.TransOrd Version :=
  inferInstanceAs (Std.TransCmp (compareLex (compareOn major) (compareLex (compareOn minor)
    (compareLex (compareOn patch) fun a b ↦ comparePrerelease a.prerelease b.prerelease))))

theorem compare_eq_eq_iff (a b : Version) : compare a b = .eq ↔ Ties a b := by
  change Version.compare a b = .eq ↔ _
  rw [Version.compare, Ordering.then_eq_eq, Ordering.then_eq_eq, Ordering.then_eq_eq,
    Nat.compare_eq_eq, Nat.compare_eq_eq, Nat.compare_eq_eq, comparePrerelease_eq_eq_iff]
  exact Iff.rfl

theorem compare_eq_lt_iff (a b : Version) : compare a b = .lt ↔ Precedes a b := by
  change Version.compare a b = .lt ↔ _
  rw [Version.compare, Ordering.then_eq_lt, Ordering.then_eq_lt, Ordering.then_eq_lt,
    Nat.compare_eq_lt, Nat.compare_eq_lt, Nat.compare_eq_lt, Nat.compare_eq_eq,
    Nat.compare_eq_eq, Nat.compare_eq_eq, comparePrerelease_eq_lt_iff]
  constructor
  · rintro (h | ⟨hmajor, h | ⟨hminor, h | ⟨hpatch, ha, h⟩⟩⟩)
    · exact .major h
    · exact .minor hmajor h
    · exact .patch hmajor hminor h
    · by_cases hb : b.prerelease = []
      · exact .release hmajor hminor hpatch ha hb
      · exact .prerelease hmajor hminor hpatch ha hb (h.resolve_left hb)
  · intro h
    cases h with
    | major h => exact .inl h
    | minor hmajor h => exact .inr ⟨hmajor, .inl h⟩
    | patch hmajor hminor h => exact .inr ⟨hmajor, .inr ⟨hminor, .inl h⟩⟩
    | release hmajor hminor hpatch ha hb =>
      exact .inr ⟨hmajor, .inr ⟨hminor, .inr ⟨hpatch, ha, .inl hb⟩⟩⟩
    | prerelease hmajor hminor hpatch ha _ h =>
      exact .inr ⟨hmajor, .inr ⟨hminor, .inr ⟨hpatch, ha, .inr h⟩⟩⟩

theorem compare_eq_gt_iff (a b : Version) : compare a b = .gt ↔ Precedes b a := by
  rw [Std.OrientedCmp.gt_iff_lt, compare_eq_lt_iff]

theorem precedes_trans {a b c : Version} (hab : Precedes a b) (hbc : Precedes b c) :
    Precedes a c := by
  rw [← compare_eq_lt_iff] at hab hbc ⊢
  exact Std.TransCmp.lt_trans hab hbc

theorem Ties.trans {a b c : Version} (hab : Ties a b) (hbc : Ties b c) : Ties a c := by
  rw [← compare_eq_eq_iff] at hab hbc ⊢
  exact Std.TransCmp.eq_trans hab hbc

theorem not_precedes_of_ties {a b : Version} (h : Ties a b) : ¬ Precedes a b := by
  rw [← compare_eq_eq_iff] at h
  rw [← compare_eq_lt_iff, h]
  exact nofun

theorem precedes_of_precedes_of_ties {a b c : Version} (hab : Precedes a b) (hbc : Ties b c) :
    Precedes a c := by
  rw [← compare_eq_lt_iff] at hab ⊢
  rw [← compare_eq_eq_iff] at hbc
  exact Std.TransCmp.lt_of_lt_of_eq hab hbc

/-- A version that neither precedes another one nor ties with it stands above it. -/
theorem precedes_of_not_of_not {a b : Version} (hlt : ¬ Precedes a b) (heq : ¬ Ties a b) :
    Precedes b a := by
  rw [← compare_eq_lt_iff] at hlt
  rw [← compare_eq_eq_iff] at heq
  rw [← compare_eq_gt_iff]
  cases h : compare a b with
  | lt => exact absurd h hlt
  | eq => exact absurd h heq
  | gt => rfl

/-- A nonempty label never stands below the number zero alone. -/
theorem not_lex_below_zero (xs : List Identifier) (h : xs ≠ []) :
    ¬ List.Lex Identifier.Below xs [.number 0] := by
  intro hlex
  cases hlex with
  | nil => exact h rfl
  | rel hbelow =>
    cases hbelow with
    | numbers hlt => exact Nat.not_lt_zero _ hlt
  | cons htail => exact List.not_lex_nil htail

/-- Nothing precedes the pre-release zero of the numbers zero. -/
theorem not_precedes_lowest (a : Version) : ¬ Precedes a (lowest 0 0 0) := by
  intro h
  cases h with
  | major h => exact Nat.not_lt_zero _ h
  | minor _ h => exact Nat.not_lt_zero _ h
  | patch _ _ h => exact Nat.not_lt_zero _ h
  | release _ _ _ _ hb => cases hb
  | prerelease _ _ _ ha _ h => exact not_lex_below_zero _ ha h

/-- Each of the six comparisons agrees with the outcome of the comparison of precedence. -/
theorem stands_eq_admits_compare (a b : Version) :
    (a.stands (.is .less) b ↔ compare a b = .lt) ∧
    (a.stands (.is .lessOrEqual) b ↔ compare a b ≠ .gt) ∧
    (a.stands (.is .equal) b ↔ compare a b = .eq) ∧
    (a.stands .isNot b ↔ compare a b ≠ .eq) ∧
    (a.stands (.is .greaterOrEqual) b ↔ compare a b ≠ .lt) ∧
    (a.stands (.is .greater) b ↔ compare a b = .gt) := by
  simp only [stands, Relation.admits, Comparator.admits]
  cases compare a b <;> decide

/-- Precedence is a strict total order up to ties: exactly one of `<`, `=` and `>` holds,
comparing the other way round reverses the outcome, and the six comparisons say what the outcome
says. The order is the one of `Precedes`, which is transitive, ties are the versions with the same
numbers and the same pre-release label, and nothing stands below the pre-release zero of zero. -/
theorem precedence_strictTotalOrder (a b c : Version) :
    [a.stands (.is .less) b, a.stands (.is .equal) b, a.stands (.is .greater) b].count true = 1 ∧
    compare a b = (compare b a).swap ∧
    ((a.stands (.is .less) b ↔ compare a b = .lt) ∧
      (a.stands (.is .lessOrEqual) b ↔ compare a b ≠ .gt) ∧
      (a.stands (.is .equal) b ↔ compare a b = .eq) ∧
      (a.stands .isNot b ↔ compare a b ≠ .eq) ∧
      (a.stands (.is .greaterOrEqual) b ↔ compare a b ≠ .lt) ∧
      (a.stands (.is .greater) b ↔ compare a b = .gt)) ∧
    (a.stands (.is .less) b → b.stands (.is .less) c → a.stands (.is .less) c) ∧
    (compare a b = .eq ↔ a.major = b.major ∧ a.minor = b.minor ∧ a.patch = b.patch ∧
      a.prerelease = b.prerelease) ∧
    (lowest 0 0 0).stands (.is .lessOrEqual) a ∧
    (compare a b = .lt ↔ Precedes a b) ∧
    (compare a b = .gt ↔ Precedes b a) := by
  refine ⟨?_, Std.OrientedOrd.eq_swap, stands_eq_admits_compare a b, ?_, compare_eq_eq_iff a b, ?_,
    compare_eq_lt_iff a b, compare_eq_gt_iff a b⟩
  · simp only [stands, Relation.admits, Comparator.admits]
    cases compare a b <;> decide
  · intro hab hbc
    rw [(stands_eq_admits_compare _ _).1, compare_eq_lt_iff] at hab hbc ⊢
    exact precedes_trans hab hbc
  · rw [(stands_eq_admits_compare _ _).2.1, Ne, compare_eq_gt_iff]
    exact not_precedes_lowest a

end Version

end VersionRange
