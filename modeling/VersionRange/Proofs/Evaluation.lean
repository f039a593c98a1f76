import VersionRange.Expression

/-!
# Evaluation of chains

Taking chains apart on a stack and deciding them operand by operand has the outcome of plain
recursion on the formula, whatever the tests of the leaves answer and wherever they fail. For an
expression put together by hand the outcome is a truth value, or the failure that shows the first
value reached that is no expression; if there is no such value, it is the truth of the formula.
-/

namespace VersionRange

variable {α β ε : Type}

namespace Connective

/-- The truth value of an operand that leaves a chain open. -/
def neutral : Connective → Bool
  | and => true
  | or => false

/-- The operands behind the first are tested only if the first leaves the chain open. -/
theorem decide_cons (c : Connective) (x : α) (xs : List α) (test : α → Except ε Bool) :
    c.decide (x :: xs) test =
      test x >>= fun value ↦ if value = c.neutral then c.decide xs test else .ok value := by
  cases c with
  | and =>
    rw [decide, List.allM_cons]
    apply bind_congr
    intro value
    cases value <;> rfl
  | or =>
    rw [decide, List.anyM_cons]
    apply bind_congr
    intro value
    cases value <;> rfl

private theorem decide_congr (c : Connective) {xs : List α} {test test' : α → Except ε Bool}
    (h : ∀ x ∈ xs, test x = test' x) : c.decide xs test = c.decide xs test' := by
  induction xs with
  | nil => cases c <;> rfl
  | cons x xs ih =>
    rw [List.forall_mem_cons] at h
    rw [decide_cons, decide_cons, h.1, ih h.2]

private theorem decide_map (c : Connective) (f : β → α) (xs : List β) (test : α → Except ε Bool) :
    c.decide (xs.map f) test = c.decide xs (fun x ↦ test (f x)) := by
  induction xs with
  | nil => cases c <;> rfl
  | cons x xs ih => rw [List.map_cons, decide_cons, decide_cons, ih]

private theorem decide_attach (c : Connective) (xs : List α) (test : α → Except ε Bool) :
    c.decide xs.attach (fun x ↦ test x.1) = c.decide xs test := by
  rw [← decide_map c Subtype.val, List.attach_map_subtype_val]

private theorem decide_singleton (c : Connective) (x : α) (test : α → Except ε Bool) :
    c.decide [x] test = test x := by
  rw [decide_cons]
  cases test x with
  | error e => rfl
  | ok value => cases c <;> cases value <;> rfl

end Connective

namespace Formula

variable (test : α → Except ε Bool)

/-- Node by node, a formula has the outcome of the chain of its two operands. -/
theorem evaluateNodewise_join (c : Connective) (left right : Formula α) :
    (join c left right).evaluateNodewise test =
      c.decide [left, right] (evaluateNodewise test) := by
  rw [Connective.decide_cons, Connective.decide_singleton]
  cases c with
  | and =>
    rw [join, evaluateNodewise]
    apply bind_congr
    intro value
    cases value <;> rfl
  | or =>
    rw [join, evaluateNodewise]
    apply bind_congr
    intro value
    cases value <;> rfl

/-- Taking apart the formula on top of a stack does not change the outcome of the stack. -/
theorem decide_join_cons (c : Connective) (left right : Formula α) (pending : List (Formula α)) :
    c.decide (join c left right :: pending) (evaluateNodewise test) =
      c.decide (left :: right :: pending) (evaluateNodewise test) := by
  rw [Connective.decide_cons, evaluateNodewise_join,
    Connective.decide_cons c left (right :: pending), Connective.decide_cons c right pending,
    Connective.decide_cons c left [right], Connective.decide_singleton, bind_assoc]
  apply bind_congr
  intro value
  by_cases hvalue : value = c.neutral
  · simp only [if_pos hvalue]
  · simp only [if_neg hvalue]
    exact if_neg hvalue

/-- The operands that are taken off a stack decide what the stack decides. -/
theorem decide_operands (c : Connective) (pending : List (Formula α)) :
    c.decide (operands c pending) (evaluateNodewise test) =
      c.decide pending (evaluateNodewise test) := by
  fun_induction operands c pending with
  | case1 => rfl
  | case2 f pending left right hf ih =>
    rw [operands?_eq_some_iff] at hf
    rw [ih, hf, decide_join_cons]
  | case3 f pending _ ih => rw [Connective.decide_cons, Connective.decide_cons, ih]

/-- A chain whose operands have the outcomes of plain recursion has the outcome of plain
recursion. -/
theorem decide_attach_operands (c : Connective) (left right : Formula α)
    (h : ∀ f ∈ operands c [left, right], f.evaluate test = f.evaluateNodewise test) :
    (c.decide (operands c [left, right]).attach fun f ↦ f.1.evaluate test) =
      (join c left right).evaluateNodewise test := by
  rw [Connective.decide_attach c _ (evaluate test), Connective.decide_congr c h, decide_operands,
    evaluateNodewise_join]

/-- Evaluating a formula chain by chain has the outcome of evaluating it node by node. -/
theorem evaluate_eq_evaluateNodewise (f : Formula α) :
    f.evaluate test = f.evaluateNodewise test := by
  fun_induction evaluate test f with
  | case1 a => rfl
  | case2 left right ih => exact decide_attach_operands test .and left right ih
  | case3 left right ih => exact decide_attach_operands test .or left right ih
  | case4 inner ih =>
    rw [ih, evaluateNodewise]
    cases inner.evaluateNodewise test <;> rfl

/-- The same formula of other leaves. -/
def map (leaf' : α → β) : Formula α → Formula β
  | leaf a => leaf (leaf' a)
  | and left right => and (left.map leaf') (right.map leaf')
  | or left right => or (left.map leaf') (right.map leaf')
  | not inner => not (inner.map leaf')

private theorem evaluateNodewise_map (leaf' : β → α) (f : Formula β) :
    (f.map leaf').evaluateNodewise test = f.evaluateNodewise (fun b ↦ test (leaf' b)) := by
  induction f with
  | leaf b => rfl
  | and left right ihl ihr => rw [map, evaluateNodewise, evaluateNodewise, ihl, ihr]
  | or left right ihl ihr => rw [map, evaluateNodewise, evaluateNodewise, ihl, ihr]
  | not inner ih => rw [map, evaluateNodewise, evaluateNodewise, ih]

/-- With tests that cannot fail, evaluating a formula node by node gives its truth. -/
theorem evaluateNodewise_ok (test : α → Bool) (f : Formula α) :
    f.evaluateNodewise (fun a ↦ (.ok (test a) : Except ε Bool)) = .ok (f.holds test) := by
  induction f with
  | leaf a => rfl
  | and left right ihl ihr =>
    rw [evaluateNodewise, ihl, ihr, holds]
    cases left.holds test <;> rfl
  | or left right ihl ihr =>
    rw [evaluateNodewise, ihl, ihr, holds]
    cases left.holds test <;> rfl
  | not inner ih =>
    rw [evaluateNodewise, ih, holds]
    rfl

/-- With tests that cannot fail, evaluating a formula chain by chain gives its truth. -/
theorem evaluate_ok (test : α → Bool) (f : Formula α) :
    f.evaluate (fun a ↦ (.ok (test a) : Except ε Bool)) = .ok (f.holds test) := by
  rw [evaluate_eq_evaluateNodewise, evaluateNodewise_ok]

/-- A formula of other leaves has the outcome of the formula, tested through them. -/
theorem evaluate_map (leaf' : β → α) (f : Formula β) :
    (f.map leaf').evaluate test = f.evaluate (fun b ↦ test (leaf' b)) := by
  rw [evaluate_eq_evaluateNodewise, evaluateNodewise_map, evaluate_eq_evaluateNodewise]

/-- Rewording the failures of the tests rewords the failure of a formula and changes no truth. -/
theorem evaluateNodewise_mapError {δ : Type} (reword : ε → δ) (f : Formula α) :
    f.evaluateNodewise (fun a ↦ (test a).mapError reword) =
      (f.evaluateNodewise test).mapError reword := by
  induction f with
  | leaf a => rfl
  | and left right ihl ihr =>
    rw [evaluateNodewise, evaluateNodewise, ihl, ihr]
    cases left.evaluateNodewise test with
    | error e => rfl
    | ok value => cases value <;> rfl
  | or left right ihl ihr =>
    rw [evaluateNodewise, evaluateNodewise, ihl, ihr]
    cases left.evaluateNodewise test with
    | error e => rfl
    | ok value => cases value <;> rfl
  | not inner ih =>
    rw [evaluateNodewise, evaluateNodewise, ih]
    cases inner.evaluateNodewise test <;> rfl

end Formula

namespace Node

/-- The answer of a leaf, or the value in its place that is no expression. -/
def answer (v : Version) : Node → Except Datum Bool
  | constraint c => .ok (c.admits v)
  | foreign value => .error value

/-- The failure that shows a value in the place of an expression. -/
def refusal (value : Datum) : Failure :=
  match value.writeLiteral with
  | .ok shown => .notExpression (.ofList shown)
  | .error failure => failure

private theorem admits_eq_mapError_answer (v : Version) (node : Node) :
    node.admits v = (node.answer v).mapError refusal := by
  cases node with
  | constraint c => rfl
  | foreign value =>
    change admits v (foreign value) = .error (refusal value)
    rw [admits, refusal]
    cases value.writeLiteral <;> rfl

/-- A value in the place of an expression is refused for being none, and shown. Only where an
integer in it is too long to be written, that is the failure. -/
theorem refusal_eq (value : Datum) :
    refusal value =
      if value.isWritable then .notExpression (.ofList value.literal) else .numberTooLong := by
  rw [refusal, Datum.writeLiteral, ifWritable]
  cases value.isWritable <;> rfl

end Node

namespace Tree

/-- An expression put together by hand has the outcome of plain recursion, in which a value that is
no expression ends the evaluation and is refused. -/
theorem evaluate_eq_mapError_refusal (t : Tree) (v : Version) :
    t.evaluate v = (t.evaluateNodewise (Node.answer v)).mapError Node.refusal := by
  rw [evaluate, Formula.evaluate_eq_evaluateNodewise, ← Formula.evaluateNodewise_mapError]
  congr
  funext node
  exact Node.admits_eq_mapError_answer v node

/-- Evaluation fails only at a value that is no expression, and says so unless an integer in the
value is too long to be written. -/
theorem exists_of_evaluate_eq_error {t : Tree} {v : Version} {failure : Failure}
    (h : t.evaluate v = .error failure) :
    ∃ value, t.evaluateNodewise (Node.answer v) = .error value ∧
      failure =
        if value.isWritable then .notExpression (.ofList value.literal) else .numberTooLong := by
  rw [evaluate_eq_mapError_refusal] at h
  cases hanswer : t.evaluateNodewise (Node.answer v) with
  | ok truth =>
    rw [hanswer] at h
    cases h
  | error value =>
    rw [hanswer] at h
    cases h
    exact ⟨value, rfl, Node.refusal_eq value⟩

/-- An expression put together by hand from constraints alone is evaluated to whether the compiled
expression of the same constraints admits the version. -/
theorem evaluate_map_constraint (e : Expression) (v : Version) :
    Tree.evaluate (e.map Node.constraint) v = .ok (e.admits v) := by
  rw [evaluate, Formula.evaluate_map]
  exact Formula.evaluate_ok (fun c ↦ c.admits v) e

end Tree

/-- Evaluating an expression chain by chain has the outcome of evaluating it node by node: the
same truth value, or the failure that shows the first value reached that is no expression. -/
theorem Tree.evaluate_eq_nodewise (t : Tree) (v : Version) :
    t.evaluate v = t.evaluateNodewise (Node.admits v) ∧
    t.evaluate v = (t.evaluateNodewise (Node.answer v)).mapError Node.refusal := by
  constructor
  · exact Formula.evaluate_eq_evaluateNodewise (Node.admits v) t
  · exact t.evaluate_eq_mapError_refusal v

end VersionRange
