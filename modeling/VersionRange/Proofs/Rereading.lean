import VersionRange.Expression.Progress

/-!
# What the text of an expression shows

The text of an expression does not tell how its chains were put together, and writes an interval as
two comparisons. It shows an expression of comparisons alone whose chains lean to the left. That
expression is matched by the same versions, and has the same text.
-/

namespace VersionRange.Expression

open Formula

mutual

/-- The operands of a conjunction before an expression, if there are any, and those that its text
shows there. -/
def conjoin (before : Option Expression) : Expression → Expression
  | .leaf (.bound comparator version) => joinTo .and before (bound comparator version)
  | .leaf (.interval lower upper lowerInclusive upperInclusive) =>
    .and (joinTo .and before (bound (Constraint.lowerComparator lowerInclusive) lower))
      (bound (Constraint.upperComparator upperInclusive) upper)
  | .and left right => conjoin (some (conjoin before left)) right
  | .or left right => joinTo .and before (disjoin (some (disjoin .none left)) right)
  | .not inner => joinTo .and before (.not (disjoin .none inner))
termination_by e => 2 * e.size
decreasing_by all_goals simp only [size]; omega

/-- The alternatives before an expression, if there are any, and those that its text shows there. -/
def disjoin (before : Option Expression) : Expression → Expression
  | .or left right => disjoin (some (disjoin before left)) right
  | e => joinTo .or before (conjoin .none e)
termination_by e => 2 * e.size + 1
decreasing_by
  · simp only [size]
    omega
  · simp only [size]
    omega
  · omega

end

/-- The expression that the text of an expression shows. -/
def shown (e : Expression) : Expression := disjoin .none e

/-! ### Both readings at once -/

theorem disjoin_eq_joinTo {before : Option Expression} {e : Expression}
    (h : ∀ left right, e ≠ .or left right) :
    disjoin before e = joinTo .or before (conjoin .none e) := by
  cases e with
  | or left right => exact absurd rfl (h left right)
  | leaf => rw [disjoin]; exact nofun
  | and => rw [disjoin]; exact nofun
  | not => rw [disjoin]; exact nofun

theorem conjoin_or {before : Option Expression} {left right : Expression} :
    conjoin before (.or left right) = joinTo .and before (disjoin .none (.or left right)) := by
  rw [conjoin, disjoin]

/-- What holds of every expression as an operand of a conjunction, `C`, and what holds of it as a
chain of alternatives, `D`, are proved together. -/
theorem chain_induction {C D : Expression → Prop} (leaf : ∀ c, C (.leaf c))
    (and : ∀ left right, C left → C right → C (.and left right))
    (or : ∀ left right, D left → D right → D (.or left right))
    (group : ∀ left right, D (.or left right) → C (.or left right))
    (not : ∀ inner, D inner → C (.not inner))
    (alone : ∀ e, (∀ left right, e ≠ .or left right) → C e → D e) (e : Expression) : C e ∧ D e := by
  induction e with
  | leaf c => exact ⟨leaf c, alone _ nofun (leaf c)⟩
  | and left right ihleft ihright =>
    have hand := and left right ihleft.1 ihright.1
    exact ⟨hand, alone _ nofun hand⟩
  | or left right ihleft ihright =>
    have hor := or left right ihleft.2 ihright.2
    exact ⟨group left right hor, hor⟩
  | not inner ih =>
    have hnot := not inner ih.2
    exact ⟨hnot, alone _ nofun hnot⟩

/-! ### What does not change -/

/-- A quantity of expressions that is computed node by node. The operands of a chain may be taken
together in any order, and an interval counts as the conjunction of its ends. -/
structure Nodewise {β : Type} (f : Expression → β) where
  and : β → β → β
  or : β → β → β
  not : β → β
  apply_and : ∀ left right, f (.and left right) = and (f left) (f right)
  apply_or : ∀ left right, f (.or left right) = or (f left) (f right)
  apply_not : ∀ inner, f (.not inner) = not (f inner)
  and_assoc : ∀ a b c, and (and a b) c = and a (and b c)
  or_assoc : ∀ a b c, or (or a b) c = or a (or b c)
  apply_between : ∀ lower upper lowerInclusive upperInclusive,
    f (between lower upper lowerInclusive upperInclusive) =
      and (f (bound (Constraint.lowerComparator lowerInclusive) lower))
        (f (bound (Constraint.upperComparator upperInclusive) upper))

namespace Nodewise

variable {β : Type} {f : Expression → β}

/-- A quantity of a chain that ends with an operand, by the quantity of this operand. -/
def behind (f : Expression → β) (join : β → β → β) (before : Option Expression) (b : β) : β :=
  before.elim b fun left ↦ join (f left) b

private theorem apply_joinTo {join : Expression → Expression → Expression} {joined : β → β → β}
    (h : ∀ left right, f (join left right) = joined (f left) (f right)) (before : Option Expression)
    (e : Expression) : f (joinTo join before e) = behind f joined before (f e) := by
  cases before with
  | none => rfl
  | some left => exact h left e

private theorem behind_behind {join : β → β → β}
    (h : ∀ a b c, join (join a b) c = join a (join b c)) (before : Option Expression) (b c : β) :
    join (behind f join before b) c = behind f join before (join b c) := by
  cases before with
  | none => rfl
  | some left => exact h (f left) b c

private theorem apply_conjoin_disjoin (h : Nodewise f) (e : Expression) :
    (∀ before, f (conjoin before e) = behind f h.and before (f e)) ∧
      ∀ before, f (disjoin before e) = behind f h.or before (f e) := by
  refine chain_induction (C := fun e ↦ ∀ before, f (conjoin before e) = behind f h.and before (f e))
    (D := fun e ↦ ∀ before, f (disjoin before e) = behind f h.or before (f e)) ?_ ?_ ?_ ?_ ?_ ?_ e
  · intro c before
    cases c with
    | bound comparator version => rw [conjoin, apply_joinTo h.apply_and, bound]
    | interval lower upper lowerInclusive upperInclusive =>
      have hbetween := h.apply_between lower upper lowerInclusive upperInclusive
      rw [between] at hbetween
      rw [conjoin, h.apply_and, apply_joinTo h.apply_and, behind_behind h.and_assoc, hbetween]
  · intro left right ihleft ihright before
    rw [conjoin, ihright, behind, Option.elim_some, ihleft, behind_behind h.and_assoc, h.apply_and]
  · intro left right ihleft ihright before
    rw [disjoin, ihright, behind, Option.elim_some, ihleft, behind_behind h.or_assoc, h.apply_or]
  · intro left right ih before
    rw [conjoin_or, apply_joinTo h.apply_and, ih]
    rfl
  · intro inner ih before
    rw [conjoin, apply_joinTo h.apply_and, h.apply_not, h.apply_not, ih]
    rfl
  · intro e he ih before
    rw [disjoin_eq_joinTo he, apply_joinTo h.apply_or, ih]
    rfl

/-- The text of an expression shows one of which such a quantity is the same. -/
theorem apply_shown (h : Nodewise f) (e : Expression) : f (shown e) = f e :=
  (h.apply_conjoin_disjoin e).2 .none

end Nodewise

/-- The text of an expression shows one that is matched by the same versions. -/
theorem admits_shown (e : Expression) (v : Version) : admits (shown e) v = admits e v := by
  have h : Nodewise fun e ↦ admits e v := {
    and := and
    or := or
    not := not
    apply_and := fun _ _ ↦ rfl
    apply_or := fun _ _ ↦ rfl
    apply_not := fun _ ↦ rfl
    and_assoc := Bool.and_assoc
    or_assoc := Bool.or_assoc
    apply_between := fun _ _ _ _ ↦ rfl }
  exact h.apply_shown e

/-- The text of an expression shows one whose bounds can be written if its own can. -/
theorem isWritable_shown (e : Expression) :
    (shown e).all Constraint.isWritable = e.all Constraint.isWritable := by
  have h : Nodewise fun e : Expression ↦ e.all Constraint.isWritable := {
    and := and
    or := and
    not := id
    apply_and := fun _ _ ↦ rfl
    apply_or := fun _ _ ↦ rfl
    apply_not := fun _ ↦ rfl
    and_assoc := Bool.and_assoc
    or_assoc := Bool.and_assoc
    apply_between := fun _ _ _ _ ↦ rfl }
  exact h.apply_shown e

/-! ### Text -/

/-- The text of an expression in front of other text. -/
def charsOnto (e : Expression) (rest : List Char) : List Char := renderOnto Constraint.chars e rest

/-- The text of an operand of a conjunction in front of other text. -/
def operandOnto (e : Expression) (rest : List Char) : List Char :=
  renderOnto.conjunct e (charsOnto e) rest

theorem operandOnto_eq_charsOnto {e : Expression} (h : ∀ left right, e ≠ .or left right) :
    operandOnto e = charsOnto e := by
  cases e with
  | or left right => exact absurd rfl (h left right)
  | leaf => rfl
  | and => rfl
  | not => rfl

theorem charsOnto_between (lower upper : Version) (lowerInclusive upperInclusive : Bool)
    (rest : List Char) :
    charsOnto (between lower upper lowerInclusive upperInclusive) rest =
      Constraint.boundChars (Constraint.lowerComparator lowerInclusive) lower ++ ' ' ::
        (Constraint.boundChars (Constraint.upperComparator upperInclusive) upper ++ rest) := by
  change Constraint.chars _ ++ rest = _
  rw [Constraint.chars, List.append_assoc, List.cons_append]

/-- The text of an expression shows one that has the same text. -/
theorem chars_shown (e : Expression) : chars (shown e) = chars e := by
  -- What stands in parentheses depends on where an expression stands, so both texts go together.
  have h : Nodewise fun e ↦ (charsOnto e, operandOnto e) := {
    and := fun a b ↦
      let text rest := a.2 (' ' :: b.2 rest)
      (text, text)
    or := fun a b ↦
      let text rest := a.1 (' ' :: '|' :: '|' :: ' ' :: b.1 rest)
      (text, parenthesized text)
    not := fun a ↦
      let text rest := '!' :: parenthesized a.1 rest
      (text, text)
    apply_and := fun _ _ ↦ rfl
    apply_or := fun _ _ ↦ rfl
    apply_not := fun _ ↦ rfl
    and_assoc := fun _ _ _ ↦ rfl
    or_assoc := fun _ _ _ ↦ rfl
    apply_between := by
      intro lower upper lowerInclusive upperInclusive
      have htext := funext (charsOnto_between lower upper lowerInclusive upperInclusive)
      rw [operandOnto_eq_charsOnto (by rw [between]; exact nofun), htext]
      rfl }
  exact congrFun (congrArg Prod.fst (h.apply_shown e)) []

end VersionRange.Expression
