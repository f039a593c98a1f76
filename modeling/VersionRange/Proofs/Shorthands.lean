import VersionRange.Proofs.Outcomes
import VersionRange.Proofs.Precedence

/-!
# What the shorthands mean

A shorthand is an interval from the version of a literal to the lowest pre-release of some later
numbers. No version with these numbers stands below that pre-release, so that a version lies in
the interval exactly if it does not precede the literal and shares its numbers up to an index. On
this rest the meanings of the carets, tildes, wildcards and hyphen ranges, in which no upper end
occurs any more.
-/

namespace VersionRange

namespace Version

/-! ### Numbers and ends of intervals -/

/-- The three numbers of a version. -/
def numbers (v : Version) : List Nat := [v.major, v.minor, v.patch]

/-- The numbers of a version begin with given ones. -/
def StartsWith (v : Version) (ns : List Nat) : Prop := ns <+: v.numbers

theorem le_iff_not_precedes (a b : Version) : a ≤ b ↔ ¬ Precedes b a := by
  rw [← compare_eq_gt_iff]
  change (compare a b).isLE = true ↔ _
  cases compare a b <;> decide

/-- What stands below a pre-release zero has lower numbers, since its own numbers have no
pre-release below it. -/
theorem precedes_lowest_iff (v : Version) (major minor patch : Nat) :
    Precedes v (lowest major minor patch) ↔ v.numbers < [major, minor, patch] := by
  simp only [numbers, List.cons_lt_cons_iff, List.not_lt_nil, and_false, or_false]
  constructor
  · intro h
    cases h with
    | major h => exact .inl h
    | minor hmajor h => exact .inr ⟨hmajor, .inl h⟩
    | patch hmajor hminor h => exact .inr ⟨hmajor, .inr ⟨hminor, h⟩⟩
    | release _ _ _ _ hlabel => cases hlabel
    | prerelease _ _ _ hlabel _ h => exact absurd h (not_lex_below_zero _ hlabel)
  · rintro (h | ⟨hmajor, h | ⟨hminor, h⟩⟩)
    · exact .major h
    · exact .minor hmajor h
    · exact .patch hmajor hminor h

/-- Precedence regards the numbers first. -/
theorem not_numbers_lt_of_le {a b : Version} (h : a ≤ b) : ¬ b.numbers < a.numbers := by
  rw [le_iff_not_precedes] at h
  intro hlt
  apply h
  simp only [numbers, List.cons_lt_cons_iff, List.not_lt_nil, and_false, or_false] at hlt
  rcases hlt with hlt | ⟨hmajor, hlt | ⟨hminor, hlt⟩⟩
  · exact .major hlt
  · exact .minor hmajor hlt
  · exact .patch hmajor hminor hlt

/-- Whatever numbers are left out at the end, the first ones stand in order. -/
theorem not_take_numbers_lt_of_le {a b : Version} (h : a ≤ b) (count : Nat) :
    ¬ b.numbers.take count < a.numbers.take count := by
  have hle := not_numbers_lt_of_le h
  match count with
  | 0 => exact List.not_lt_nil _
  | 1 | 2 | _ + 3 =>
    simp only [numbers, List.take_succ_cons, List.take_zero, List.take_nil, List.cons_lt_cons_iff,
      List.not_lt_nil, and_false, or_false] at hle ⊢
    omega

end Version

namespace Literal

open Version

/-! ### Ends derived from literals -/

/-- Below the end derived from a literal at an index stand the versions whose numbers up to the
index do not exceed those of the literal. -/
theorem precedes_past_iff (p : Literal) (index : Nat) (v : Version) :
    Precedes v (p.past index) ↔
      ¬ p.floor.numbers.take (index + 1) < v.numbers.take (index + 1) := by
  rw [past, precedes_lowest_iff]
  match index with
  | 0 | 1 | _ + 2 =>
    simp only [raiseAt, Version.numbers, List.take_succ_cons, List.take_zero, List.take_nil,
      List.cons_lt_cons_iff, List.not_lt_nil, and_false, or_false]
    omega

/-- From a literal up to its derived end stand the versions that share its numbers up to the
index. -/
theorem le_and_precedes_past_iff (p : Literal) (index : Nat) (v : Version) :
    p.floor ≤ v ∧ Precedes v (p.past index) ↔
      p.floor ≤ v ∧ v.numbers.take (index + 1) = p.floor.numbers.take (index + 1) := by
  rw [precedes_past_iff]
  constructor
  · rintro ⟨hfloor, hpast⟩
    exact ⟨hfloor, List.le_antisymm hpast (not_take_numbers_lt_of_le hfloor _)⟩
  · rintro ⟨hfloor, heq⟩
    exact ⟨hfloor, heq ▸ List.lt_irrefl _⟩

/-- The numbers that a literal gives are the first ones of its version. -/
theorem startsWith_floor (p : Literal) : p.floor.StartsWith p.numbers := by
  cases p with
  | any => exact List.nil_prefix
  | upToMajor major => exact ⟨[0, 0], rfl⟩
  | upToMinor major minor => exact ⟨[0], rfl⟩
  | full v => exact List.prefix_rfl

theorem startsWith_take_iff {p : Literal} {count : Nat} (h : count ≤ p.numbers.length)
    (v : Version) :
    v.StartsWith (p.numbers.take count) ↔ v.numbers.take count = p.floor.numbers.take count := by
  have hfloor : p.floor.numbers.take count = p.numbers.take count := by
    obtain ⟨rest, hrest⟩ := p.startsWith_floor
    rw [← hrest, List.take_append_of_le_length h]
  rw [StartsWith, List.prefix_iff_eq_take, List.length_take, Nat.min_eq_left h, hfloor, eq_comm]

end Literal

/-! ### Intervals -/

namespace Expression

theorem admits_greaterOrEqual_iff (w v : Version) :
    (bound .greaterOrEqual w).admits v = true ↔ w ≤ v := Std.OrientedCmp.isGE_iff_isLE

theorem admits_lessOrEqual_iff (w v : Version) :
    (bound .lessOrEqual w).admits v = true ↔ v ≤ w := Iff.rfl

theorem admits_less_iff (w v : Version) :
    (bound .less w).admits v = true ↔ v.Precedes w := by
  rw [← Version.compare_eq_lt_iff]
  exact Ordering.isLT_iff_eq_lt

theorem admits_equal_iff (w v : Version) :
    (bound .equal w).admits v = true ↔ compare v w = .eq := Ordering.isEq_iff_eq_eq

theorem admits_any (v : Version) : any.admits v = true := by
  rw [any, admits_greaterOrEqual_iff, Version.le_iff_not_precedes]
  exact v.not_precedes_lowest

/-- An interval holds what satisfies both its bounds. -/
theorem admits_between_iff (lower upper v : Version) (inclusive : Bool) :
    (between lower upper true inclusive).admits v = true ↔
      lower ≤ v ∧ (bound (Constraint.upperComparator inclusive) upper).admits v = true := by
  rw [← admits_greaterOrEqual_iff]
  exact Bool.and_eq_true_iff

end Expression

namespace Literal

/-- The interval from a literal to its derived end holds the versions from the literal on that share
its numbers up to the index. -/
theorem admits_between_past_iff {p : Literal} {index : Nat} (h : index < p.numbers.length)
    (v : Version) :
    (Expression.between p.floor (p.past index)).admits v = true ↔
      p.floor ≤ v ∧ v.StartsWith (p.numbers.take (index + 1)) := by
  rw [Expression.admits_between_iff, startsWith_take_iff h, ← le_and_precedes_past_iff]
  exact and_congr_right fun _ ↦ Expression.admits_less_iff _ _

/-! ### Carets -/

/-- The index of the first number that is not zero, or of the last number if all of them are. -/
def IsPivot (ns : List Nat) (index : Nat) : Prop :=
  (∀ i < index, ns[i]? = some 0) ∧
    ∃ n, ns[index]? = some n ∧ (n ≠ 0 ∨ index + 1 = ns.length)

private theorem IsPivot.lt_length {ns : List Nat} {index : Nat} (h : IsPivot ns index) :
    index < ns.length := by
  obtain ⟨-, n, hn, -⟩ := h
  exact (List.getElem?_eq_some_iff.mp hn).1

private theorem IsPivot.eq {ns : List Nat} {i j : Nat} (hi : IsPivot ns i) (hj : IsPivot ns j) :
    i = j := by
  -- Of two such indices the lower one would belong to a zero that is not the last number.
  have hle {i j : Nat} (hi : IsPivot ns i) (hj : IsPivot ns j) : j ≤ i := by
    obtain ⟨-, n, hn, hlast⟩ := hi
    refine Nat.le_of_not_lt fun hlt ↦ ?_
    have hzero : n = 0 := Option.some.inj (hn.symm.trans (hj.1 i hlt))
    have hlength := hj.lt_length
    rcases hlast with hlast | hlast
    · exact hlast hzero
    · omega
  exact Nat.le_antisymm (hle hj hi) (hle hi hj)

private theorem isPivot_caretIndex {ns : List Nat} (h : ns ≠ []) :
    IsPivot ns (Shorthand.caretIndex (ns.map Int.ofNat)) := by
  induction ns with
  | nil => exact absurd rfl h
  | cons n ns ih =>
    cases ns with
    | nil => exact ⟨nofun, n, rfl, .inr rfl⟩
    | cons m ns =>
      by_cases hn : n = 0
      · subst hn
        obtain ⟨hzeros, k, hk, hlast⟩ := ih (List.cons_ne_nil m ns)
        change IsPivot _ (Shorthand.caretIndex ((m :: ns).map Int.ofNat) + 1)
        refine ⟨fun i hi ↦ ?_, k, hk, hlast.imp_right (congrArg (· + 1))⟩
        cases i with
        | zero => rfl
        | succ i => exact hzeros i (Nat.lt_of_succ_lt_succ hi)
      · have hindex : Shorthand.caretIndex ((n :: m :: ns).map Int.ofNat) = 0 :=
          if_neg (mt Int.ofNat.inj hn)
        rw [hindex]
        exact ⟨nofun, n, rfl, .inl hn⟩

/-! ### The shorthands of literals -/

private theorem caret_eq_between {p : Literal} (h : p.numbers ≠ []) :
    p.caret = .between p.floor (p.past (Shorthand.caretIndex (p.numbers.map Int.ofNat))) := by
  cases p with
  | any => exact absurd rfl h
  | upToMajor | upToMinor | full => rfl

private theorem tilde_eq_between {p : Literal} (h : p.numbers ≠ []) :
    p.tilde = .between p.floor (p.past (min p.numbers.length 2 - 1)) := by
  cases p with
  | any => exact absurd rfl h
  | upToMajor | upToMinor | full => rfl

theorem admits_caret_iff {p : Literal} (h : p.numbers ≠ []) (v : Version) :
    p.caret.admits v = true ↔
      p.floor ≤ v ∧ ∃ i, IsPivot p.numbers i ∧ v.StartsWith (p.numbers.take (i + 1)) := by
  have hpivot := isPivot_caretIndex h
  rw [caret_eq_between h, admits_between_past_iff hpivot.lt_length]
  refine and_congr_right fun _ ↦ ⟨fun hv ↦ ⟨_, hpivot, hv⟩, ?_⟩
  rintro ⟨i, hi, hv⟩
  rwa [hi.eq hpivot] at hv

theorem admits_tilde_iff {p : Literal} (h : p.numbers ≠ []) (v : Version) :
    p.tilde.admits v = true ↔ p.floor ≤ v ∧ v.StartsWith (p.numbers.take 2) := by
  have hlength := List.length_pos_iff.mpr h
  have htake : p.numbers.take 2 = p.numbers.take (min p.numbers.length 2 - 1 + 1) :=
    List.take_eq_take_iff.mpr (by omega)
  rw [tilde_eq_between h, admits_between_past_iff (by omega), htake]

theorem admits_wildcard_iff {p : Literal} (h : p.numbers ≠ []) (v : Version) :
    p.wildcard.admits v = true ↔
      if p.numbers.length = 3 then compare v p.floor = .eq
      else p.floor ≤ v ∧ v.StartsWith p.numbers := by
  cases p with
  | any => exact absurd rfl h
  | upToMajor major =>
    have hlt : 0 < (upToMajor major).numbers.length := Nat.lt_succ_self 0
    exact admits_between_past_iff hlt v
  | upToMinor major minor =>
    have hlt : 1 < (upToMinor major minor).numbers.length := Nat.lt_succ_self 1
    exact admits_between_past_iff hlt v
  | full w => exact Expression.admits_equal_iff w v

/-- The upper end of a hyphen range admits the versions up to a full literal, and those whose
numbers do not exceed the ones of a partial literal. -/
theorem exists_upperEnd {p : Literal} (h : p.numbers ≠ []) :
    ∃ high inclusive, (Shorthand.upperEnd p.endpoints).run = some (high, inclusive) ∧ ∀ v : Version,
      (Expression.bound (Constraint.upperComparator inclusive) high).admits v = true ↔
        if p.numbers.length = 3 then v ≤ p.floor
        else ¬ p.numbers < v.numbers.take p.numbers.length := by
  cases p with
  | any => exact absurd rfl h
  | upToMajor major =>
    refine ⟨_, _, rfl, fun v ↦ ?_⟩
    exact (Expression.admits_less_iff _ v).trans (precedes_past_iff (upToMajor major) 0 v)
  | upToMinor major minor =>
    refine ⟨_, _, rfl, fun v ↦ ?_⟩
    exact (Expression.admits_less_iff _ v).trans (precedes_past_iff (upToMinor major minor) 1 v)
  | full w => exact ⟨_, _, rfl, Expression.admits_lessOrEqual_iff w⟩

theorem hyphen_eq {lower p : Literal} {high : Version} {inclusive : Bool}
    (h : (Shorthand.upperEnd p.endpoints).run = some (high, inclusive)) :
    lower.hyphen p =
      if lower.numbers = [] then .bound (Constraint.upperComparator inclusive) high
      else .between lower.floor high true inclusive := by
  have hend : Shorthand.upperEnd p.endpoints = pure (some (high, inclusive)) := h
  rw [hyphen, Shorthand.hyphen, hend]
  cases lower with
  | any => cases inclusive <;> rfl
  | upToMajor | upToMinor | full => rfl

theorem admits_hyphen_iff {p : Literal} (h : p.numbers ≠ []) (lower : Literal) (v : Version) :
    (lower.hyphen p).admits v = true ↔
      (lower.numbers = [] ∨ lower.floor ≤ v) ∧
        if p.numbers.length = 3 then v ≤ p.floor
        else ¬ p.numbers < v.numbers.take p.numbers.length := by
  obtain ⟨high, inclusive, hend, hhigh⟩ := exists_upperEnd h
  rw [hyphen_eq hend, ← hhigh]
  split
  · next hlower => rw [and_iff_right (.inl hlower)]
  · next hlower => rw [or_iff_right hlower, Expression.admits_between_iff]

end Literal

/-! ### Literals of callers -/

namespace Draft

theorem number_eq_ok_iff {draft : Draft} {part : CorePart} {value : Datum} {n : Nat} :
    draft.number part value = .ok n ↔ value = .integer n := by
  constructor
  · intro h
    rw [number] at h
    split at h
    · next m hm =>
      cases h
      unfold natural? at hm
      split at hm
      · cases hm
        rfl
      · cases hm
    · obtain ⟨_, -, h⟩ := Outcome.bind_eq_ok_iff.mp h
      cases h
  · rintro rfl
    rfl

/-- The numbers of a draft that makes a version are those of the version. -/
theorem numbers_of_version {draft : Draft} {w : Version} (h : draft.version = .ok w) :
    draft.major = .integer w.major ∧ draft.minor = .integer w.minor ∧
      draft.patch = .integer w.patch := by
  simp only [version, Outcome.bind_eq_ok_iff, number_eq_ok_iff, Except.ok.injEq] at h
  obtain ⟨_, hmajor, _, hminor, _, hpatch, _, -, _, -, rfl⟩ := h
  exact ⟨hmajor, hminor, hpatch⟩

end Draft

namespace UncheckedLiteral

/-- A literal of a caller has the numbers of `p`, and its parts make the version of `p`. -/
def Denotes (l : UncheckedLiteral) (p : Literal) : Prop :=
  l.numbers = p.numbers.map Int.ofNat ∧ l.endpoints.floor = .ok p.floor

variable {k l : UncheckedLiteral} {lower p : Literal}

/-- The ends derived from a literal of a caller depend on its numbers alone, whatever its labels. -/
theorem derived_eq (h : l.numbers = p.numbers.map Int.ofNat) :
    l.endpoints.lowest = .ok p.lowest ∧ ∀ index, l.endpoints.past index = .ok (p.past index) := by
  have hnumber : l.number 0 = p.floor.major ∧ l.number 1 = p.floor.minor ∧
      l.number 2 = p.floor.patch := by
    simp only [UncheckedLiteral.number, h]
    cases p <;> exact ⟨rfl, rfl, rfl⟩
  obtain ⟨hmajor, hminor, hpatch⟩ := hnumber
  rw [endpoints, hmajor, hminor, hpatch]
  refine ⟨rfl, fun index ↦ ?_⟩
  match index with
  | 0 | 1 | _ + 2 => rfl

/-- The endpoints of such a literal are versions, the same as those of `p`. -/
theorem Denotes.endpoints_eq (h : l.Denotes p) :
    l.endpoints = ⟨p.numbers.map Int.ofNat, .ok p.floor, .ok p.lowest, fun i ↦ .ok (p.past i)⟩ := by
  obtain ⟨hlowest, hpast⟩ := derived_eq h.1
  change Endpoints.mk l.numbers l.endpoints.floor l.endpoints.lowest l.endpoints.past = _
  rw [h.1, h.2, hlowest, funext hpast]

/-- The literals of callers that denote one: their parts make a version, and they have three numbers
or fewer, but no labels if they are fewer. -/
theorem exists_denotes_iff :
    (∃ p : Literal, l.Denotes p) ↔
      ∃ w, l.endpoints.floor = .ok w ∧ l.numbers.length ≤ 3 ∧
        (l.numbers.length < 3 → w.prerelease = [] ∧ w.build = []) := by
  constructor
  · rintro ⟨p, hnumbers, hfloor⟩
    refine ⟨_, hfloor, ?_⟩
    rw [hnumbers]
    cases p with
    | any | upToMajor | upToMinor => exact ⟨by simp [Literal.numbers], fun _ ↦ ⟨rfl, rfl⟩⟩
    | full => exact ⟨Nat.le_refl 3, fun h ↦ absurd h (Nat.lt_irrefl 3)⟩
  · rintro ⟨⟨major, minor, patch, prerelease, build⟩, hfloor, hlength, hlabels⟩
    have hparts := Draft.numbers_of_version hfloor
    obtain ⟨numbers, _, _⟩ := l
    match numbers with
    | [] =>
      obtain ⟨⟨⟩, ⟨⟩, ⟨⟩⟩ := hparts
      obtain ⟨rfl, rfl⟩ := hlabels (by simp)
      exact ⟨.any, rfl, hfloor⟩
    | [_] =>
      obtain ⟨⟨⟩, ⟨⟩, ⟨⟩⟩ := hparts
      obtain ⟨rfl, rfl⟩ := hlabels (by simp)
      exact ⟨.upToMajor major, rfl, hfloor⟩
    | [_, _] =>
      obtain ⟨⟨⟩, ⟨⟩, ⟨⟩⟩ := hparts
      obtain ⟨rfl, rfl⟩ := hlabels (by simp)
      exact ⟨.upToMinor major minor, rfl, hfloor⟩
    | [_, _, _] =>
      obtain ⟨⟨⟩, ⟨⟩, ⟨⟩⟩ := hparts
      exact ⟨.full ⟨major, minor, patch, prerelease, build⟩, rfl, hfloor⟩
    | _ :: _ :: _ :: _ :: rest => exact absurd hlength (by simp)

end UncheckedLiteral

/-! ### The meanings -/

namespace Literal

open UncheckedLiteral

/-- The shorthands mean what they say of the numbers of a version. A literal without numbers lets
every version pass. From any other one on, a caret keeps the numbers up to the first that is not
zero, a tilde the major and the minor number, a plain literal all numbers; a full plain literal is
met by its version alone. A hyphen range reaches from its lower literal, if that one has numbers,
up to a full literal or up to whatever begins with numbers not above those of a partial one. The
literals of callers that denote these two give the same expressions. -/
theorem admits_shorthands_iff (lower p : Literal) (v : Version) :
    (p.numbers = [] → p.caret.admits v = true ∧ p.tilde.admits v = true ∧
      p.wildcard.admits v = true) ∧
    (p.numbers ≠ [] →
      (p.caret.admits v = true ↔
        p.floor ≤ v ∧ ∃ i, IsPivot p.numbers i ∧ v.StartsWith (p.numbers.take (i + 1))) ∧
      (p.tilde.admits v = true ↔ p.floor ≤ v ∧ v.StartsWith (p.numbers.take 2)) ∧
      (p.wildcard.admits v = true ↔
        if p.numbers.length = 3 then compare v p.floor = .eq
        else p.floor ≤ v ∧ v.StartsWith p.numbers) ∧
      ((lower.hyphen p).admits v = true ↔
        (lower.numbers = [] ∨ lower.floor ≤ v) ∧
          if p.numbers.length = 3 then v ≤ p.floor
          else ¬ p.numbers < v.numbers.take p.numbers.length)) ∧
    ∀ k l : UncheckedLiteral, k.Denotes lower → l.Denotes p →
      Shorthand.caret l.endpoints = .ok p.caret ∧ Shorthand.tilde l.endpoints = .ok p.tilde ∧
      Shorthand.wildcard l.endpoints = .ok p.wildcard ∧
      Shorthand.hyphen k.endpoints l.endpoints = .ok (lower.hyphen p) := by
  refine ⟨fun h ↦ ?_, fun h ↦ ?_, fun k l hk hl ↦ ?_⟩
  · cases p with
    | any => exact ⟨Expression.admits_any v, Expression.admits_any v, Expression.admits_any v⟩
    | upToMajor | upToMinor | full => cases h
  · exact ⟨admits_caret_iff h v, admits_tilde_iff h v, admits_wildcard_iff h v,
      admits_hyphen_iff h lower v⟩
  · rw [hk.endpoints_eq, hl.endpoints_eq]
    refine ⟨?_, ?_, ?_, ?_⟩
    · cases p <;> rfl
    · cases p <;> rfl
    · cases p <;> rfl
    · cases lower <;> cases p <;> rfl

/-- A caret on a patch ends below the pre-releases of the next one. -/
example : (full ⟨0, 0, 3, [], []⟩).caret.admits ⟨0, 0, 4, [.number 0], []⟩ = false := by decide

end Literal

end VersionRange
