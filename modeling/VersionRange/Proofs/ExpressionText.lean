import VersionRange.Proofs.BoundText
import VersionRange.Proofs.Reading
import VersionRange.Proofs.Rereading

/-!
# Expressions and their texts

The tokens of the text of an expression derive the expression that the text shows, so that this is
what is read from it. Every piece of the text ends where a literal may end, and white space between
the pieces keeps them apart.
-/

namespace VersionRange

open Grammar

namespace Tokenization

variable {y z : Tokenization} {previous : Option TokenKind} {gap rest : List Char}
  {ts : List Token}

/-- In the text of an operand of a conjunction its operands stand behind those before it. -/
def ReadsOperand (e : Expression) : Prop :=
  ∀ (before : Option Expression) {z : Tokenization} {previous : Option TokenKind}
    {gap rest : List Char} {ts : List Token}, z.HasText previous (gap ++ e.operandOnto rest) →
    (∀ c ∈ gap, Text.isBlank c = true) → EndsLiteral rest → OperandsRead ts z.tokens before →
    z.HoldsAt rest (Derives .conjunction ts (Expression.conjoin before e))

/-- In the text of an expression its alternatives stand behind those before it. -/
def ReadsAlternatives (e : Expression) : Prop :=
  ∀ (before : Option Expression) {z : Tokenization} {previous : Option TokenKind}
    {gap rest : List Char} {ts : List Token}, z.HasText previous (gap ++ e.charsOnto rest) →
    (∀ c ∈ gap, Text.isBlank c = true) → EndsLiteral rest → AlternativesRead ts z.tokens before →
    z.HoldsAt rest (Derives .disjunction ts (Expression.disjoin before e))

private theorem endsLiteral_space {cs : List Char} : EndsLiteral (' ' :: cs) :=
  fun _ hc ↦ .inl (Option.some.inj hc).symm

private theorem endsLiteral_closing {cs : List Char} : EndsLiteral (')' :: cs) :=
  fun _ hc ↦ .inr (Option.some.inj hc).symm

/-- An expression in parentheses is a group. -/
theorem ReadsAlternatives.exists_group {e : Expression} (h : ReadsAlternatives e)
    (hz : z.HasText previous (gap ++ Formula.parenthesized e.charsOnto rest))
    (hgap : ∀ c ∈ gap, Text.isBlank c = true) :
    z.HoldsAt rest (Derives .primary z.tokens (Expression.shown e)) := by
  obtain ⟨opening, y, rfl, hopening, hy⟩ := hz.exists_opening hgap
  change y.HasText _ ([] ++ e.charsOnto (')' :: rest)) at hy
  obtain ⟨x, previous', hx, hpasses, hinner⟩ :=
    h .none hy nofun endsLiteral_closing rfl
  change x.HasText _ ([] ++ ')' :: rest) at hx
  obtain ⟨closing, w, rfl, hclosing, hw⟩ := hx.exists_closing (List.forall_mem_nil _)
  refine ⟨w, _, hw, ?_, .group hopening hinner hclosing⟩
  exact (passes_sign hopening).trans (hpasses.trans (passes_sign hclosing))

private theorem readsOperand_leaf {c : Constraint} (hc : c.isWritable = true) :
    ReadsOperand (.leaf c) := by
  intro before z previous gap rest ts hz hgap hrest hbefore
  cases c with
  | bound comparator version =>
    obtain ⟨y, previous', hy, hpasses, hbound⟩ := hz.exists_bound hgap hc hrest
    rw [Expression.conjoin]
    exact ⟨y, previous', hy, hpasses, derives_conjunction hbefore (.primary hbound)⟩
  | interval lower upper lowerInclusive upperInclusive =>
    rw [Constraint.isWritable, Bool.and_eq_true] at hc
    change z.HasText previous (gap ++ Expression.charsOnto (.between lower upper _ _) rest) at hz
    rw [Expression.charsOnto_between] at hz
    obtain ⟨y, _, hy, hpasses, hlower⟩ := hz.exists_bound hgap hc.1 endsLiteral_space
    change y.HasText _ ([' '] ++ (Constraint.boundChars _ upper ++ rest)) at hy
    obtain ⟨x, previous', hx, hpasses', hupper⟩ := hy.exists_bound isBlank_of_mem_space hc.2 hrest
    rw [Expression.conjoin]
    have hlowers := derives_conjunction hbefore (.primary hlower)
    exact ⟨x, previous', hx, hpasses.trans hpasses', .juxtaposed hlowers (.primary hupper)⟩

private theorem ReadsOperand.and {left right : Expression} (hleft : ReadsOperand left)
    (hright : ReadsOperand right) : ReadsOperand (.and left right) := by
  intro before z previous gap rest ts hz hgap hrest hbefore
  change z.HasText previous (gap ++ left.operandOnto (' ' :: right.operandOnto rest)) at hz
  obtain ⟨y, _, hy, hpasses, hconjunction⟩ := hleft before hz hgap endsLiteral_space hbefore
  change y.HasText _ ([' '] ++ right.operandOnto rest) at hy
  obtain ⟨x, previous', hx, hpasses', hconjunction'⟩ :=
    hright (some (Expression.conjoin before left)) hy isBlank_of_mem_space hrest (.inl hconjunction)
  rw [Expression.conjoin]
  exact ⟨x, previous', hx, hpasses.trans hpasses', hconjunction'⟩

private theorem ReadsAlternatives.or {left right : Expression} (hleft : ReadsAlternatives left)
    (hright : ReadsAlternatives right) : ReadsAlternatives (.or left right) := by
  intro before z previous gap rest ts hz hgap hrest hbefore
  change z.HasText previous
    (gap ++ left.charsOnto (' ' :: '|' :: '|' :: ' ' :: right.charsOnto rest)) at hz
  obtain ⟨y, _, hy, hpasses, hdisjunction⟩ := hleft before hz hgap endsLiteral_space hbefore
  change y.HasText _ ([' '] ++ '|' :: '|' :: ([' '] ++ right.charsOnto rest)) at hy
  obtain ⟨t, x, rfl, hkind, hx⟩ := hy.exists_or isBlank_of_mem_space
  obtain ⟨w, previous', hw, hpasses', hdisjunction'⟩ :=
    hright (some (Expression.disjoin before left)) hx isBlank_of_mem_space hrest
      ⟨t, hkind, hdisjunction⟩
  rw [Expression.disjoin]
  have hsign : Passes (cons t x) x := passes_sign hkind
  exact ⟨w, previous', hw, hpasses.trans (hsign.trans hpasses'), hdisjunction'⟩

private theorem ReadsAlternatives.group {left right : Expression}
    (h : ReadsAlternatives (.or left right)) : ReadsOperand (.or left right) := by
  intro before z previous gap rest ts hz hgap _ hbefore
  obtain ⟨y, previous', hy, hpasses, hgroup⟩ := h.exists_group hz hgap
  rw [Expression.conjoin_or]
  exact ⟨y, previous', hy, hpasses, derives_conjunction hbefore (.primary hgroup)⟩

private theorem ReadsAlternatives.not {inner : Expression} (h : ReadsAlternatives inner) :
    ReadsOperand (.not inner) := by
  intro before z previous gap rest ts hz hgap _ hbefore
  change z.HasText previous (gap ++ '!' :: '(' :: inner.charsOnto (')' :: rest)) at hz
  obtain ⟨t, y, rfl, hkind, hy⟩ := hz.exists_not hgap
  change y.HasText _ ([] ++ Formula.parenthesized inner.charsOnto rest) at hy
  obtain ⟨x, previous', hx, hpasses, hgroup⟩ := h.exists_group hy nofun
  have hsign : Passes (cons t y) y := passes_sign hkind
  rw [Expression.conjoin]
  exact ⟨x, previous', hx, hsign.trans hpasses,
    derives_conjunction hbefore (.not hkind (.primary hgroup))⟩

private theorem ReadsOperand.alone {e : Expression} (he : ∀ left right, e ≠ .or left right)
    (h : ReadsOperand e) : ReadsAlternatives e := by
  intro before z previous gap rest ts hz hgap hrest hbefore
  rw [← Expression.operandOnto_eq_charsOnto he] at hz
  obtain ⟨y, previous', hy, hpasses, hconjunction⟩ := h .none hz hgap hrest rfl
  rw [Expression.disjoin_eq_joinTo he]
  exact ⟨y, previous', hy, hpasses, derives_disjunction hbefore hconjunction⟩

/-- The text of an expression is read piece by piece. -/
theorem readsAlternatives_of_isWritable (e : Expression) (h : e.all Constraint.isWritable = true) :
    ReadsAlternatives e := by
  refine (Expression.chain_induction
    (C := fun e ↦ e.all Constraint.isWritable = true → ReadsOperand e)
    (D := fun e ↦ e.all Constraint.isWritable = true → ReadsAlternatives e)
    ?_ ?_ ?_ ?_ ?_ ?_ e).2 h
  · exact fun c hc ↦ readsOperand_leaf hc
  · intro left right hleft hright hall
    rw [Formula.all, Bool.and_eq_true] at hall
    exact (hleft hall.1).and (hright hall.2)
  · intro left right hleft hright hall
    rw [Formula.all, Bool.and_eq_true] at hall
    exact (hleft hall.1).or (hright hall.2)
  · exact fun left right h hall ↦ (h hall).group
  · exact fun inner h hall ↦ (h hall).not
  · exact fun e he h hall ↦ (h hall).alone he

end Tokenization

namespace Expression

/-- The tokens of the text of an expression derive what the text shows. -/
theorem accepts_shown (e : Expression) (h : e.all Constraint.isWritable = true) :
    (∃ position, (Tokenization.ofChars e.chars).stop = .finished position false) ∧
      (∀ t ∈ (Tokenization.ofChars e.chars).tokens, IsShort t) ∧
      Accepts (Tokenization.ofChars e.chars).tokens (shown e) := by
  have hz : (Tokenization.ofChars e.chars).HasText .none ([] ++ e.charsOnto []) := ⟨0, rfl⟩
  obtain ⟨y, previous, hy, hpasses, hshown⟩ := Tokenization.readsAlternatives_of_isWritable e h
    .none hz nofun nofun rfl
  obtain ⟨position, rfl⟩ := Tokenization.eq_of_hasText_nil hy
  exact ⟨⟨position, hpasses.stop⟩, hpasses.short nofun, hshown⟩

theorem write_eq_ok {e : Expression} (h : e.all Constraint.isWritable = true) :
    e.write = .ok (.ofList e.chars) := by
  rw [write, ifWritable, if_pos h]
  rfl

/-- Writing an expression is undone by reading, up to meaning. Within the limits the text of an
expression whose numbers are not too long is read, whatever its shape and however it was put
together. What is read is matched by the same versions, and is written as the same text. -/
theorem parse_write (e : Expression) (limits : Limits)
    (hwritable : e.all Constraint.isWritable = true)
    (hlength : e.chars.length ≤ limits.maxInputLength)
    (hnesting : nesting (Tokenization.ofChars e.chars).tokens ≤ limits.maxDepth) :
    ∃ text e', e.write = .ok text ∧ parse text limits = .ok e' ∧
      (∀ v, admits e' v = admits e v) ∧ e'.write = .ok text := by
  obtain ⟨⟨position, hstop⟩, hshort, haccepts⟩ := accepts_shown e hwritable
  refine ⟨.ofList e.chars, shown e, write_eq_ok hwritable, ?_, admits_shown e, ?_⟩
  · rw [parse, String.toList_ofList, if_neg (Int.not_lt.mpr hlength)]
    rw [ofTokenization_eq_ok_iff ⟨hnesting, hshort⟩
      fun _ ↦ Tokenization.isMarked_of_mem_ofCharsFrom]
    exact ⟨⟨position, false, hstop⟩, haccepts⟩
  · rw [write_eq_ok (by rw [isWritable_shown, hwritable]), chars_shown]

/-- The negation of an interval, which is written as two comparisons in parentheses, is read from
its text within the usual limits. -/
theorem parse_write_negated_interval :
    let e : Expression := .not (between (.lowest 1 0 0) (.lowest 2 0 0) true true)
    e.all Constraint.isWritable = true ∧ e.chars.length ≤ (1024 : Int) ∧
      nesting (Tokenization.ofChars e.chars).tokens ≤ (64 : Int) ∧
      ∃ text e', e.write = .ok text ∧ parse text = .ok e' ∧
        (∀ v, admits e' v = admits e v) ∧ e'.write = .ok text := by
  have hchars : chars (.not (between (.lowest 1 0 0) (.lowest 2 0 0) true true)) =
      "!(>=1.0.0-0 <=2.0.0-0)".toList := by
    decide
  have hwritable : Formula.all Constraint.isWritable
      (.not (between (.lowest 1 0 0) (.lowest 2 0 0) true true)) = true := by
    decide
  have hlength : (chars (.not (between (.lowest 1 0 0) (.lowest 2 0 0) true true))).length ≤
      (1024 : Int) := by
    rw [hchars]
    decide
  have hnesting : nesting (Tokenization.ofChars
      (chars (.not (between (.lowest 1 0 0) (.lowest 2 0 0) true true)))).tokens ≤ (64 : Int) := by
    have htwo : nesting (Tokenization.ofChars "!(>=1.0.0-0 <=2.0.0-0)".toList).tokens = 2 := by
      decide +kernel
    rw [hchars, htwo]
    decide
  exact ⟨hwritable, hlength, hnesting, parse_write _ {} hwritable hlength hnesting⟩

end Expression

end VersionRange
