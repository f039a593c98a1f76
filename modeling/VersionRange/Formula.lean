/-!
# Formulas

Boolean combinations of leaves. Chains of one connective associate in any way: the text of a
formula shows a chain without parentheses, and its evaluation takes the operands of a chain one
after the other and stops at the first that decides it. A formula may be of any depth; the limits
of a call stack are not regarded.
-/

namespace VersionRange

/-- A connective of two operands. Source: `And` and `Or`. -/
inductive Connective
  | and
  | or
  deriving DecidableEq

namespace Connective

variable {α ε : Type}

/-- Decide a chain by tests of its operands that may fail, from left to right; an operand behind one
that decides the chain is not tested. Part of `evaluate`. -/
def decide (c : Connective) (operands : List α) (test : α → Except ε Bool) : Except ε Bool :=
  match c with
  | and => operands.allM test
  | or => operands.anyM test

end Connective

/-- A Boolean combination of leaves. Source: `And`, `Or` and `Not`. -/
inductive Formula (α : Type)
  | leaf (value : α)
  | and (left right : Formula α)
  | or (left right : Formula α)
  | not (inner : Formula α)
  deriving DecidableEq

namespace Formula

variable {α ε : Type}

/-- The number of leaves and connectives. -/
def size : Formula α → Nat
  | leaf _ => 1
  | and left right => left.size + right.size + 1
  | or left right => left.size + right.size + 1
  | not inner => inner.size + 1

/-- The number of leaves and connectives of several formulas. -/
def totalSize : List (Formula α) → Nat
  | [] => 0
  | f :: rest => f.size + totalSize rest

/-- Decide whether all leaves of a formula pass a test. -/
def all (test : α → Bool) : Formula α → Bool
  | leaf a => test a
  | and left right => all test left && all test right
  | or left right => all test left && all test right
  | not inner => all test inner

/-- The two operands of a formula that is formed by a connective. Part of `_flatten`. -/
def operands? : Connective → Formula α → Option (Formula α × Formula α)
  | .and, and left right => some (left, right)
  | .or, or left right => some (left, right)
  | _, _ => none

/-- The formula that joins two operands. Source: `And` and `Or`. -/
def join : Connective → Formula α → Formula α → Formula α
  | .and => and
  | .or => or

theorem operands?_eq_some_iff {c : Connective} {f left right : Formula α} :
    operands? c f = some (left, right) ↔ f = join c left right := by
  cases c <;> cases f <;> simp [operands?, join]

theorem size_join (c : Connective) (left right : Formula α) :
    (join c left right).size = left.size + right.size + 1 := by
  cases c <;> rfl

/-- The operands of the chains of a connective that wait on a stack, left to right. The two operands
of a chain go back on the stack, the left one on top; any other formula is an operand.
Source: `_flatten`. -/
def operands (c : Connective) : List (Formula α) → List (Formula α)
  | [] => []
  | f :: pending =>
    match _h : operands? c f with
    | some (left, right) => operands c (left :: right :: pending)
    | none => f :: operands c pending
termination_by pending => totalSize pending
decreasing_by
  · rw [operands?_eq_some_iff] at _h
    simp only [_h, totalSize, size_join]
    omega
  · have : 0 < f.size := by cases f <;> simp [size]
    simp only [totalSize]
    omega

/-- An operand is no larger than all that waited on the stack. -/
theorem size_le_of_mem_operands {c : Connective} {f : Formula α} {pending : List (Formula α)}
    (h : f ∈ operands c pending) : f.size ≤ totalSize pending := by
  fun_induction operands c pending with
  | case1 => cases h
  | case2 g pending left right hg ih =>
    have hle := ih h
    rw [operands?_eq_some_iff] at hg
    simp only [hg, totalSize, size_join] at hle ⊢
    omega
  | case3 g pending hg ih =>
    rw [totalSize]
    rcases List.mem_cons.mp h with rfl | h
    · exact Nat.le_add_right _ _
    · exact Nat.le_trans (ih h) (Nat.le_add_left _ _)

/-- The operands of a chain are smaller than the chain. -/
theorem size_lt_of_mem_operands {c : Connective} {f left right : Formula α}
    (h : f ∈ operands c [left, right]) : f.size < left.size + right.size + 1 := by
  have := size_le_of_mem_operands h
  simp only [totalSize] at this
  omega

/-- The truth of a formula under a test of its leaves. Source: `evaluate` where no leaf can fail. -/
def holds (test : α → Bool) : Formula α → Bool
  | leaf a => test a
  | and left right => holds test left && holds test right
  | or left right => holds test left || holds test right
  | not inner => !holds test inner

/-- Evaluation with tests that may fail, chain by chain: the operands of a chain are evaluated from
left to right, and those behind the first that decides the chain are not. Source: `evaluate`. -/
def evaluate (test : α → Except ε Bool) : Formula α → Except ε Bool
  | leaf a => test a
  | and left right =>
    Connective.and.decide (operands .and [left, right]).attach fun ⟨f, _⟩ ↦ evaluate test f
  | or left right =>
    Connective.or.decide (operands .or [left, right]).attach fun ⟨f, _⟩ ↦ evaluate test f
  | not inner => (evaluate test inner).map (!·)
termination_by f => f.size
decreasing_by
  · exact size_lt_of_mem_operands ‹_›
  · exact size_lt_of_mem_operands ‹_›
  · simp [size]

/-- Evaluation with tests that may fail, node by node: the right operand of a connective is
evaluated only if the left one leaves the outcome open. -/
def evaluateNodewise (test : α → Except ε Bool) : Formula α → Except ε Bool
  | leaf a => test a
  | and left right => do
    if ← evaluateNodewise test left then evaluateNodewise test right else .ok false
  | or left right => do
    if ← evaluateNodewise test left then .ok true else evaluateNodewise test right
  | not inner => do
    let value ← evaluateNodewise test inner
    .ok (!value)

/-- Text in parentheses, in front of other text. Part of `_group`. -/
def parenthesized (text : List Char → List Char) (rest : List Char) : List Char :=
  '(' :: text (')' :: rest)

/-- The text of a formula in front of other text. A disjunction within a conjunction stands in
parentheses, as does whatever is negated. Source: the texts of `And`, `Or` and `Not` and
`_group`. -/
def renderOnto (leafText : α → List Char) : Formula α → List Char → List Char
  | leaf a, rest => leafText a ++ rest
  | and left right, rest =>
    conjunct left (renderOnto leafText left)
      (' ' :: conjunct right (renderOnto leafText right) rest)
  | or left right, rest =>
    renderOnto leafText left (' ' :: '|' :: '|' :: ' ' :: renderOnto leafText right rest)
  | not inner, rest => '!' :: parenthesized (renderOnto leafText inner) rest
where
  /-- The text of an operand of a conjunction. -/
  conjunct (f : Formula α) (text : List Char → List Char) : List Char → List Char :=
    match f with
    | or _ _ => parenthesized text
    | _ => text

/-- The text of a formula. -/
def render (leafText : α → List Char) (f : Formula α) : List Char := renderOnto leafText f []

/-- What follows a text does not change it in parentheses. -/
theorem parenthesized_eq_append {text : List Char → List Char}
    (h : ∀ rest, text rest = text [] ++ rest) (rest : List Char) :
    parenthesized text rest = parenthesized text [] ++ rest := by
  rw [parenthesized, parenthesized, h, h [')']]
  simp

/-- What follows an operand of a conjunction does not change its text. -/
theorem conjunct_eq_append {text : List Char → List Char}
    (h : ∀ rest, text rest = text [] ++ rest) (f : Formula α) (rest : List Char) :
    renderOnto.conjunct f text rest = renderOnto.conjunct f text [] ++ rest := by
  cases f with
  | or left right => exact parenthesized_eq_append h rest
  | leaf | and | not => exact h rest

/-- What follows a formula does not change its text. -/
theorem renderOnto_eq_append (leafText : α → List Char) (f : Formula α) (rest : List Char) :
    renderOnto leafText f rest = render leafText f ++ rest := by
  rw [render]
  induction f generalizing rest with
  | leaf a => simp [renderOnto]
  | and left right ihl ihr =>
    rw [renderOnto, renderOnto, conjunct_eq_append ihl, conjunct_eq_append ihr,
      conjunct_eq_append ihl left (' ' :: _)]
    simp
  | or left right ihl ihr =>
    rw [renderOnto, renderOnto, ihl, ihr, ihl (' ' :: _)]
    simp
  | not inner ih =>
    rw [renderOnto, renderOnto, parenthesized_eq_append ih]
    simp

end Formula

end VersionRange
