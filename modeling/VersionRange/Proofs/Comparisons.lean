import VersionRange.Proofs.Shorthands

/-!
# Comparisons with literals

A literal in a comparison stands for all versions that share its numbers. What is at most a literal
is not above it, what differs from it is not equal to it, and what is at least a literal is equal
to it or above it. Only the versions below a partial literal and those from it on leave something
out: the one side ends at the pre-releases of the zero-filled numbers, the other one begins with
the release, so that the pre-releases between them are on neither side.
-/

namespace VersionRange

namespace Version

/-- What precedes a release has lower numbers, or is a pre-release of it. -/
theorem precedes_release_iff {w : Version} (h : w.prerelease = []) (v : Version) :
    Precedes v w ↔ v.numbers < w.numbers ∨ v.numbers = w.numbers ∧ v.isPrerelease = true := by
  simp only [numbers, List.cons_lt_cons_iff, List.not_lt_nil, and_false, or_false, isPrerelease,
    List.cons.injEq, and_true, Bool.not_eq_true', List.isEmpty_eq_false_iff]
  constructor
  · intro hprecedes
    cases hprecedes with
    | major hlt => exact .inl (.inl hlt)
    | minor hmajor hlt => exact .inl (.inr ⟨hmajor, .inl hlt⟩)
    | patch hmajor hminor hlt => exact .inl (.inr ⟨hmajor, .inr ⟨hminor, hlt⟩⟩)
    | release hmajor hminor hpatch hv => exact .inr ⟨⟨hmajor, hminor, hpatch⟩, hv⟩
    | prerelease _ _ _ _ hw => exact absurd h hw
  · rintro ((hlt | ⟨hmajor, hlt | ⟨hminor, hlt⟩⟩) | ⟨⟨hmajor, hminor, hpatch⟩, hv⟩)
    · exact .major hlt
    · exact .minor hmajor hlt
    · exact .patch hmajor hminor hlt
    · exact .release hmajor hminor hpatch hv h

private theorem not_le_iff_precedes (a b : Version) : ¬ a ≤ b ↔ Precedes b a := by
  rw [le_iff_not_precedes, Classical.not_not]

theorem le_of_precedes {a b : Version} (h : Precedes a b) : a ≤ b := by
  rw [le_iff_not_precedes]
  rw [← compare_eq_lt_iff] at h
  rw [← compare_eq_gt_iff, h]
  exact nofun

/-- Versions tie exactly if each is at most the other one. -/
theorem compare_eq_eq_iff_le_and_le (a b : Version) : compare a b = .eq ↔ b ≤ a ∧ a ≤ b := by
  rw [le_iff_not_precedes, le_iff_not_precedes, ← compare_eq_lt_iff, ← compare_eq_gt_iff]
  cases compare a b <;> decide

end Version

namespace Expression

theorem admits_greater_iff (w v : Version) : (bound .greater w).admits v = true ↔ ¬ v ≤ w := by
  rw [Version.not_le_iff_precedes, ← Version.compare_eq_gt_iff]
  exact Ordering.isGT_iff_eq_gt

private theorem admits_not (e : Expression) (v : Version) :
    Expression.admits (.not e) v = !e.admits v := rfl

private theorem admits_none (v : Version) : none.admits v = false := by
  rw [none, admits_not, admits_any]
  rfl

end Expression

namespace Literal

open Version

variable {p : Literal}

/-! ### One comparison at a time -/

/-- At least a literal are the versions from its zero-filled numbers on. -/
theorem admits_greaterOrEqual_iff (p : Literal) (v : Version) :
    (p.comparison (.is .greaterOrEqual)).admits v = true ↔ p.numbers = [] ∨ p.floor ≤ v := by
  cases p with
  | any => exact iff_of_true (Expression.admits_any v) (.inl rfl)
  | upToMajor | upToMinor | full =>
    exact (Expression.admits_greaterOrEqual_iff _ v).trans (or_iff_right nofun).symm

/-- Below a literal are the versions that precede its pre-releases, or a full one itself. -/
theorem admits_less_iff (p : Literal) (v : Version) :
    (p.comparison (.is .less)).admits v = true ↔
      p.numbers ≠ [] ∧ Precedes v (if p.numbers.length = 3 then p.floor else p.lowest) := by
  cases p with
  | any => exact iff_of_false (Bool.eq_false_iff.mp (Expression.admits_none v)) fun h ↦ h.1 rfl
  | upToMajor | upToMinor | full =>
    exact (Expression.admits_less_iff _ v).trans (and_iff_right nofun).symm

/-- At most a literal are the versions that the upper end of a hyphen range admits. -/
theorem comparison_lessOrEqual_eq {high : Version} {inclusive : Bool}
    (h : (Shorthand.upperEnd p.endpoints).run = some (high, inclusive)) :
    p.comparison (.is .lessOrEqual) = .bound (Constraint.upperComparator inclusive) high := by
  cases p with
  | any => cases h
  | upToMajor | upToMinor | full =>
    cases h
    rfl

/-- Above a literal is what is not at most the literal. -/
theorem admits_greater_eq (p : Literal) (v : Version) :
    (p.comparison (.is .greater)).admits v = !(p.comparison (.is .lessOrEqual)).admits v := by
  rw [Bool.eq_iff_iff, Bool.not_eq_true', ← Bool.not_eq_true]
  cases p with
  | any =>
    refine iff_of_false (Bool.eq_false_iff.mp (Expression.admits_none v)) ?_
    exact not_not_intro (Expression.admits_any v)
  | full w => exact Expression.admits_greater_iff w v
  | upToMajor major =>
    exact (Expression.admits_greaterOrEqual_iff _ v).trans <|
      (le_iff_not_precedes _ v).trans (not_congr (Expression.admits_less_iff _ v).symm)
  | upToMinor major minor =>
    exact (Expression.admits_greaterOrEqual_iff _ v).trans <|
      (le_iff_not_precedes _ v).trans (not_congr (Expression.admits_less_iff _ v).symm)

/-- Equal to a literal is what is at least and at most the literal. -/
theorem admits_equal_iff (p : Literal) (v : Version) :
    (p.comparison (.is .equal)).admits v = true ↔
      (p.comparison (.is .greaterOrEqual)).admits v = true ∧
        (p.comparison (.is .lessOrEqual)).admits v = true := by
  rw [admits_greaterOrEqual_iff]
  cases p with
  | any => exact iff_of_true (Expression.admits_any v) ⟨.inl rfl, Expression.admits_any v⟩
  | full w =>
    rw [or_iff_right nofun]
    exact (Expression.admits_equal_iff w v).trans (compare_eq_eq_iff_le_and_le v w)
  | upToMajor | upToMinor =>
    rw [or_iff_right nofun]
    exact Expression.admits_between_iff _ _ v false

/-- What is above a literal is at least the literal. -/
theorem admits_greaterOrEqual_of_greater {v : Version}
    (h : (p.comparison (.is .greater)).admits v = true) :
    (p.comparison (.is .greaterOrEqual)).admits v = true := by
  rw [admits_greaterOrEqual_iff, Classical.or_iff_not_imp_left]
  intro hnumbers
  obtain ⟨high, inclusive, hend, hhigh⟩ := exists_upperEnd hnumbers
  rw [admits_greater_eq, comparison_lessOrEqual_eq hend, Bool.not_eq_true', ← Bool.not_eq_true,
    hhigh] at h
  -- A version that precedes the literal is at most the literal.
  rw [le_iff_not_precedes]
  intro hprecedes
  apply h
  split
  · exact le_of_precedes hprecedes
  · rw [List.prefix_iff_eq_take.mp p.startsWith_floor, List.length_take_of_le]
    · exact not_take_numbers_lt_of_le (le_of_precedes hprecedes) _
    · exact p.startsWith_floor.length_le

/-! ### Two comparisons at a time -/

/-- Between the versions below a partial literal and those from it on stand the pre-releases of its
zero-filled numbers. -/
theorem not_precedes_lowest_and_not_le_iff (h : p.floor.prerelease = []) (v : Version) :
    ¬ Precedes v p.lowest ∧ ¬ p.floor ≤ v ↔
      v.isPrerelease = true ∧ v.numbers = p.floor.numbers := by
  have hlowest : Precedes v p.lowest ↔ v.numbers < p.floor.numbers := precedes_lowest_iff v _ _ _
  rw [not_le_iff_precedes, precedes_release_iff h, hlowest]
  constructor
  · rintro ⟨hlowest, hlt | ⟨heq, hv⟩⟩
    · exact absurd hlt hlowest
    · exact ⟨hv, heq⟩
  · rintro ⟨hv, heq⟩
    exact ⟨heq ▸ List.lt_irrefl _, .inr ⟨heq, hv⟩⟩

/-- Only a partial literal leaves versions between those below it and those from it on. -/
theorem admits_neither_iff (p : Literal) (v : Version) :
    (p.comparison (.is .less)).admits v = false ∧
      (p.comparison (.is .greaterOrEqual)).admits v = false ↔
    (p.numbers.length = 1 ∨ p.numbers.length = 2) ∧ v.isPrerelease = true ∧
      v.numbers = p.floor.numbers := by
  rw [← Bool.not_eq_true, ← Bool.not_eq_true, admits_less_iff, admits_greaterOrEqual_iff]
  cases p with
  | any => exact iff_of_false (fun h ↦ h.2 (.inl rfl)) (by simp [numbers])
  | full w =>
    have hne : (full w).numbers ≠ [] := by simp [numbers]
    refine iff_of_false ?_ (by simp [numbers])
    rintro ⟨hless, hmore⟩
    rw [or_iff_right hne, not_le_iff_precedes] at hmore
    exact hless ⟨hne, hmore⟩
  | upToMajor major =>
    have hgap := not_precedes_lowest_and_not_le_iff (p := upToMajor major) rfl v
    simpa [numbers] using hgap
  | upToMinor major minor =>
    have hgap := not_precedes_lowest_and_not_le_iff (p := upToMinor major minor) rfl v
    simpa [numbers] using hgap

/-- Nothing is both below a literal and at least the literal. -/
theorem not_admits_greaterOrEqual_of_less {v : Version}
    (h : (p.comparison (.is .less)).admits v = true) :
    (p.comparison (.is .greaterOrEqual)).admits v = false := by
  obtain ⟨hnumbers, hprecedes⟩ := (admits_less_iff p v).mp h
  rw [← Bool.not_eq_true, admits_greaterOrEqual_iff, not_or]
  refine ⟨hnumbers, fun hle ↦ ?_⟩
  split at hprecedes
  · exact (le_iff_not_precedes _ _).mp hle hprecedes
  · exact not_numbers_lt_of_le hle ((precedes_lowest_iff v _ _ _).mp hprecedes)

/-- A hyphen range reaches from at least its lower literal to at most its upper one. -/
theorem admits_hyphen_eq (lower p : Literal) (v : Version) :
    (lower.hyphen p).admits v =
      ((lower.comparison (.is .greaterOrEqual)).admits v &&
        (p.comparison (.is .lessOrEqual)).admits v) := by
  rw [Bool.eq_iff_iff, Bool.and_eq_true, admits_greaterOrEqual_iff]
  by_cases hnumbers : p.numbers = []
  · obtain rfl : p = any := by
      cases p with
      | any => rfl
      | upToMajor | upToMinor | full => cases hnumbers
    have hmost : (any.comparison (.is .lessOrEqual)).admits v = true := Expression.admits_any v
    rw [and_iff_left hmost]
    cases lower with
    | any => exact iff_of_true (Expression.admits_any v) (.inl rfl)
    | upToMajor | upToMinor | full =>
      exact (Expression.admits_greaterOrEqual_iff _ v).trans (or_iff_right nofun).symm
  · obtain ⟨high, inclusive, hend, -⟩ := exists_upperEnd hnumbers
    rw [hyphen_eq hend, comparison_lessOrEqual_eq hend]
    split
    · next hlower => rw [and_iff_right (.inl hlower)]
    · next hlower => rw [or_iff_right hlower, Expression.admits_between_iff]

/-- A tilde keeps the numbers of a partial literal, and so does the literal alone. -/
theorem tilde_eq_wildcard (h : p.numbers.length < 3) : p.tilde = p.wildcard := by
  cases p with
  | any | upToMajor | upToMinor => rfl
  | full => exact absurd h (Nat.lt_irrefl 3)

end Literal

/-! ### Literals of callers -/

namespace UncheckedLiteral.Denotes

variable {k l : UncheckedLiteral} {lower p : Literal}

private theorem wildcard_eq (h : l.Denotes p) :
    Shorthand.wildcard l.endpoints = .ok p.wildcard := by
  rw [h.endpoints_eq]
  cases p <;> rfl

private theorem tilde_eq (h : l.Denotes p) : Shorthand.tilde l.endpoints = .ok p.tilde := by
  rw [h.endpoints_eq]
  cases p <;> rfl

private theorem hyphen_eq (hlower : k.Denotes lower) (h : l.Denotes p) :
    Shorthand.hyphen k.endpoints l.endpoints = .ok (lower.hyphen p) := by
  rw [hlower.endpoints_eq, h.endpoints_eq]
  cases lower <;> cases p <;> rfl

private theorem comparison_eq (h : l.Denotes p) (relation : Relation) :
    Shorthand.comparison relation l.endpoints = .ok (p.comparison relation) := by
  cases relation with
  | isNot =>
    rw [Shorthand.comparison, h.wildcard_eq]
    cases p <;> rfl
  | is comparator =>
    rw [h.endpoints_eq]
    cases comparator <;> cases p <;> rfl

/-- A comparison is named by its sign. -/
theorem comparisonOfSymbol_eq (h : l.Denotes p) {sign : String} {relation : Relation}
    (hsign : Relation.ofSymbol? sign = some relation) :
    Shorthand.comparisonOfSymbol sign l = .ok (p.comparison relation) := by
  rw [Shorthand.comparisonOfSymbol, hsign]
  exact h.comparison_eq relation

end UncheckedLiteral.Denotes

/-! ### All comparisons -/

namespace Literal

/-- The comparisons with a literal are coherent with each other and with hyphen ranges. Of at most
and above exactly one holds, and so of equal and not equal; at least is equal or above. Below and
at least exclude each other, and neither holds exactly of the pre-releases of the zero-filled
numbers of a partial literal. A hyphen range is at least its lower literal and at most its upper
one, and a tilde on a literal that is not full is the literal alone. The literals of callers that
denote these two give the same expressions, by the six signs of comparisons. -/
theorem admits_comparison_coherent (lower p : Literal) (v : Version) :
    let stands (relation : Relation) : Bool := (p.comparison relation).admits v
    stands (.is .lessOrEqual) = !stands (.is .greater) ∧
    stands .isNot = !stands (.is .equal) ∧
    stands (.is .greaterOrEqual) = (stands (.is .equal) || stands (.is .greater)) ∧
    (stands (.is .less) && stands (.is .greaterOrEqual)) = false ∧
    (stands (.is .less) = false ∧ stands (.is .greaterOrEqual) = false ↔
      (p.numbers.length = 1 ∨ p.numbers.length = 2) ∧ v.isPrerelease = true ∧
        v.numbers = p.floor.numbers) ∧
    (lower.hyphen p).admits v =
      ((lower.comparison (.is .greaterOrEqual)).admits v && stands (.is .lessOrEqual)) ∧
    (p.numbers.length < 3 → p.tilde.admits v = p.wildcard.admits v) ∧
    ∀ k l : UncheckedLiteral, k.Denotes lower → l.Denotes p →
      (∀ named ∈ [("=", Relation.is .equal), ("!=", .isNot), (">", .is .greater),
          (">=", .is .greaterOrEqual), ("<", .is .less), ("<=", .is .lessOrEqual)],
        Shorthand.comparisonOfSymbol named.1 l = .ok (p.comparison named.2)) ∧
      Shorthand.comparisonOfSymbol ">=" k = .ok (lower.comparison (.is .greaterOrEqual)) ∧
      Shorthand.hyphen k.endpoints l.endpoints = .ok (lower.hyphen p) ∧
      Shorthand.tilde l.endpoints = .ok p.tilde ∧
      Shorthand.wildcard l.endpoints = .ok p.wildcard := by
  intro stands
  have hgreater : stands (.is .greater) = !stands (.is .lessOrEqual) := admits_greater_eq p v
  have hequal : stands (.is .equal) =
      (stands (.is .greaterOrEqual) && stands (.is .lessOrEqual)) := by
    rw [Bool.eq_iff_iff, Bool.and_eq_true]
    exact admits_equal_iff p v
  refine ⟨by rw [hgreater, Bool.not_not], rfl, ?_, ?_, admits_neither_iff p v,
    admits_hyphen_eq lower p v, fun h ↦ by rw [tilde_eq_wildcard h],
    fun k l hk hl ↦ ⟨?_, ?_, hk.hyphen_eq hl, hl.tilde_eq, hl.wildcard_eq⟩⟩
  · rw [hequal]
    cases hmost : stands (.is .lessOrEqual) with
    | true => rw [hgreater, hmost, Bool.and_true, Bool.not_true, Bool.or_false]
    | false =>
      rw [hmost, Bool.not_false] at hgreater
      rw [hgreater, Bool.or_true]
      exact admits_greaterOrEqual_of_greater hgreater
  · cases hless : stands (.is .less) with
    | false => rfl
    | true => exact not_admits_greaterOrEqual_of_less hless
  · intro named hnamed
    refine hl.comparisonOfSymbol_eq ?_
    revert named
    decide
  · exact hk.comparisonOfSymbol_eq (by decide)

/-- The pre-releases of a minor version are neither below it nor at least it. -/
example :
    let v : Version := ⟨1, 2, 0, [.number 7], []⟩
    ((upToMinor 1 2).comparison (.is .less)).admits v = false ∧
      ((upToMinor 1 2).comparison (.is .greaterOrEqual)).admits v = false := by
  decide

end Literal

end VersionRange
