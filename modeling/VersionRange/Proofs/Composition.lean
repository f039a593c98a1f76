import VersionRange.Proofs.Concatenation
import VersionRange.Proofs.Depth
import VersionRange.Proofs.ExpressionText

/-!
# Ranges that are put together as text

A text that is read as an expression is read as the same expression in parentheses, and texts in
parentheses are joined by the signs between them, by white space, and by a sign for negation. A
disjunction needs no parentheses around its sides. What is read then is grouped to the left, but
shows the same as the disjunction of the two sides.
-/

namespace VersionRange

open Grammar

/-! ### Chains of alternatives -/

/-- The alternatives of two chains with a disjunction sign between them are one chain. -/
theorem Grammar.Derives.exists_or {ts us rest : List Token} {t : Token} {left right : Expression}
    (hleft : Derives .disjunction ts left (t :: us)) (ht : t.kind = .or)
    (hright : Derives .disjunction us right rest) :
    ∃ e, Derives .disjunction ts e rest ∧ e.shown = Expression.shown (.or left right) := by
  generalize hphrase : Phrase.disjunction = phrase at hright
  induction hright with
  | conjunction h => exact ⟨_, .or hleft ht h, rfl⟩
  | @or _ _ _ _ l r _ hkind h ih =>
    obtain ⟨e, he, hshown⟩ := ih hleft hphrase
    refine ⟨.or e r, .or he hkind h, ?_⟩
    simp only [Expression.shown, Expression.disjoin] at hshown ⊢
    rw [hshown]
  | group | comparison | caret | tilde | plain | hyphen | primary | not | operand | juxtaposed
  | and => cases hphrase

namespace Tokenization

/-! ### Texts of expressions -/

/-- A text consists of tokens that derive an expression, and holds no long numerals. -/
structure IsTextOf (cs : List Char) (e : Expression) : Prop where
  stop : ∃ position spaced, (ofChars cs).stop = .finished position spaced
  short : ∀ t ∈ (ofChars cs).tokens, IsShort t
  accepts : Accepts (ofChars cs).tokens e

variable {cs ds gap rest : List Char} {a b e : Expression} {z : Tokenization}
  {previous : Option TokenKind}

/-- The greatest count of groups and negations that a text opens at the same time. -/
def textNesting (cs : List Char) : Nat := nesting (ofChars cs).tokens

/-- The tokens between two places open up to `depth` groups and negations below those that are open
before them. A conjunction or a disjunction has no negation before it. -/
def OpensUpTo (depth : Nat) (ts us : List Token) : Phrase → Prop
  | .primary | .operand => ∀ n : Nesting,
      n.deepest ts ≤ max (n.depth + depth) (Nesting.deepest { groups := n.groups } us)
  | .conjunction | .disjunction => ∀ groups : List Nat,
      Nesting.deepest { groups } ts ≤
        max (Nesting.depth { groups } + depth) (Nesting.deepest { groups } us)

/-- A phrase stands between two places of a text, and opens up to `depth` groups and negations. -/
structure Encloses (phrase : Phrase) (e : Expression) (depth : Nat) (z y : Tokenization) : Prop where
  passes : Passes z y
  derives : Derives phrase z.tokens e y.tokens
  opens : OpensUpTo depth z.tokens y.tokens phrase

namespace Encloses

variable {w x y : Tokenization} {d d' : Nat} {opening closing t : Token}

private theorem operand (h : Encloses .primary e d z y) : Encloses .operand e d z y :=
  ⟨h.passes, .primary h.derives, h.opens⟩

private theorem conjunction (h : Encloses .operand e d z y) : Encloses .conjunction e d z y :=
  ⟨h.passes, .operand h.derives, fun groups ↦ h.opens { groups }⟩

private theorem disjunction (h : Encloses .conjunction e d z y) : Encloses .disjunction e d z y :=
  ⟨h.passes, .conjunction h.derives, h.opens⟩

/-- A group has a disjunction between parentheses. -/
theorem group (hopening : opening.kind = .opening) (h : Encloses .disjunction e d x (cons closing y))
    (hclosing : closing.kind = .closing) : Encloses .primary e (d + 1) (cons opening x) y where
  passes := (passes_sign hopening).trans (h.passes.trans (passes_sign hclosing))
  derives := .group hopening h.derives hclosing
  opens n := by
    have hgroups := n.depth_groups_le
    have htail := Nesting.depth_le_deepest { groups := n.groups } y.tokens
    have hinner := h.opens (n.negations :: n.groups)
    have hfront : n.deepest (cons opening x).tokens = _ := n.deepest_opening x.tokens hopening
    have hback : Nesting.deepest _ (cons closing y).tokens = _ := n.deepest_closing _ hclosing
    rw [hback, n.depth_opened] at hinner
    rw [hfront]
    omega

/-- A negation stands before an operand. -/
theorem not (ht : t.kind = .not) (h : Encloses .operand e d y x) :
    Encloses .operand (.not e) (d + 1) (cons t y) x where
  passes := (passes_sign ht).trans h.passes
  derives := .not ht h.derives
  opens n := by
    have hread := n.depth_read_not
    have hle : _ ≤ max _ (Nesting.deepest { groups := n.groups } x.tokens) :=
      h.opens (n.read .not)
    have hfront : n.deepest (cons t y).tokens = _ := n.deepest_not y.tokens ht
    rw [hfront]
    omega

/-- A conjunction has operands side by side. -/
theorem juxtaposed (h : Encloses .conjunction a d z y) (h' : Encloses .operand b d' y x) :
    Encloses .conjunction (.and a b) (max d d') z x where
  passes := h.passes.trans h'.passes
  derives := .juxtaposed h.derives h'.derives
  opens groups := by
    have hleft := h.opens groups
    have hright : _ ≤ max _ (Nesting.deepest { groups } x.tokens) := h'.opens { groups }
    omega

/-- What phrases open stays the same with a sign between them. -/
theorem opens_sign (groups : List Nat) (ht : t.kind ∉ [.not, .opening, .closing])
    (hleft : Nesting.deepest { groups } z.tokens ≤
      max (Nesting.depth { groups } + d) (Nesting.deepest { groups } (t :: y.tokens)))
    (hright : Nesting.deepest { groups } y.tokens ≤
      max (Nesting.depth { groups } + d') (Nesting.deepest { groups } x.tokens)) :
    Nesting.deepest { groups } z.tokens ≤
      max (Nesting.depth { groups } + max d d') (Nesting.deepest { groups } x.tokens) := by
  have hsign : Nesting.deepest { groups } (t :: y.tokens) =
      max (Nesting.depth { groups }) (Nesting.deepest { groups } y.tokens) :=
    Nesting.deepest_cons_other _ _ ht
  omega

/-- A conjunction may have a sign between its operands. -/
theorem and (h : Encloses .conjunction a d z (cons t y)) (ht : t.kind = .and)
    (h' : Encloses .operand b d' y x) : Encloses .conjunction (.and a b) (max d d') z x where
  passes := h.passes.trans ((passes_sign ht).trans h'.passes)
  derives := .and h.derives ht h'.derives
  opens groups := opens_sign groups (by simp [ht]) (h.opens groups) (h'.opens { groups })

/-- Two disjunctions with a sign between them are one, which shows the same as that of the two. -/
theorem exists_or (h : Encloses .disjunction a d z (cons t y)) (ht : t.kind = .or)
    (h' : Encloses .disjunction b d' y x) :
    ∃ e, e.shown = Expression.shown (.or a b) ∧ Encloses .disjunction e (max d d') z x := by
  obtain ⟨e, hderives, hshown⟩ := h.derives.exists_or ht h'.derives
  refine ⟨e, hshown, h.passes.trans ((passes_sign ht).trans h'.passes), hderives, fun groups ↦ ?_⟩
  exact opens_sign groups (by simp [ht]) (h.opens groups) (h'.opens groups)

/-- What stands before the end of a text is all of its expression. -/
theorem isTextOf (h : Encloses .disjunction e d (ofChars cs) y) (hy : y.HasText previous gap)
    (hgap : ∀ c ∈ gap, Text.isBlank c = true) : IsTextOf cs e ∧ textNesting cs ≤ d := by
  obtain ⟨position, spaced, rfl⟩ := eq_of_hasText_blank hy hgap
  have hle := h.opens []
  change textNesting cs ≤ max (0 + d) 0 at hle
  exact ⟨⟨⟨position, spaced, h.passes.stop⟩, h.passes.short nofun, h.derives⟩, by omega⟩

end Encloses

/-! ### Texts that are put together -/

/-- A text of an expression is a disjunction in front of what ends it, whatever white space stands
before it. -/
theorem IsTextOf.exists_encloses (hcs : IsTextOf cs e)
    (h : z.HasText previous (gap ++ (cs ++ rest))) (hgap : ∀ c ∈ gap, Text.isBlank c = true)
    (hprevious : ∀ kind ∈ previous, kind ∉ [.number, .wildcard, .label]) (hrest : EndsToken rest) :
    ∃ y : Tokenization, Tail z y rest ∧
      (Detached y.tokens → Encloses .disjunction e (textNesting cs) z y) := by
  obtain ⟨position, spaced, hstop⟩ := hcs.stop
  obtain ⟨y, htail, hleads⟩ :=
    h.exists_leads hgap hprevious hrest hstop (Derives.ne_nil hcs.accepts)
  have hvaries := hleads.varies
  refine ⟨y, htail, fun hdetached ↦ ⟨⟨htail.stop, hvaries.isShort hcs.short⟩, ?_, fun groups ↦ ?_⟩⟩
  · obtain ⟨_, _, hrest, hderives⟩ := Derives.exists_of_varies hdetached hcs.accepts hvaries
    cases hrest
    exact hderives
  · rw [hleads.deepest_eq, hcs.accepts.spans groups]
    exact Nat.le_refl _

/-- A text of an expression in parentheses is a group. -/
theorem IsTextOf.exists_group (hcs : IsTextOf cs e)
    (h : z.HasText previous (gap ++ '(' :: (cs ++ ')' :: rest)))
    (hgap : ∀ c ∈ gap, Text.isBlank c = true) :
    ∃ y : Tokenization, y.HasText (some .closing) rest ∧
      Encloses .primary e (textNesting cs + 1) z y := by
  obtain ⟨opening, x, rfl, hopening, hx⟩ := h.exists_opening hgap
  change x.HasText _ ([] ++ (cs ++ ')' :: rest)) at hx
  obtain ⟨w, htail, hinner⟩ := hcs.exists_encloses hx nofun (by simp) endsToken_closing
  obtain ⟨gap', previous', hgap', hw⟩ := htail.hasText
  obtain ⟨closing, y, rfl, hclosing, hy⟩ := hw.exists_closing hgap'
  have hdetached : Detached (closing :: y.tokens) :=
    Progress.detached_cons (by simp [hclosing, TokenKind.continuesLiteral])
  exact ⟨y, hy, .group hopening (hinner hdetached) hclosing⟩

/-- A text in parentheses. -/
def grouped (cs rest : List Char) : List Char := '(' :: (cs ++ ')' :: rest)

/-- Two texts with the sign of a disjunction between them. -/
def alternated (cs ds : List Char) : List Char := cs ++ (' ' :: '|' :: '|' :: ' ' :: ds)

theorem hasText_ofChars (cs : List Char) : (ofChars cs).HasText .none ([] ++ cs) := ⟨0, rfl⟩

private theorem isTextOf_grouped (hcs : IsTextOf cs e) :
    IsTextOf (grouped cs []) e ∧ textNesting (grouped cs []) ≤ textNesting cs + 1 := by
  obtain ⟨y, hy, hgroup⟩ := hcs.exists_group (hasText_ofChars _) (List.forall_mem_nil _)
  exact hgroup.operand.conjunction.disjunction.isTextOf hy nofun

private theorem isTextOf_negated (hcs : IsTextOf cs e) :
    IsTextOf ('!' :: grouped cs []) (.not e) ∧
      textNesting ('!' :: grouped cs []) ≤ textNesting cs + 2 := by
  obtain ⟨t, x, hz, hkind, hx⟩ := (hasText_ofChars _).exists_not (List.forall_mem_nil _)
  change x.HasText _ ([] ++ grouped cs []) at hx
  obtain ⟨y, hy, hgroup⟩ := hcs.exists_group hx (List.forall_mem_nil _)
  have hnot := hgroup.operand.not hkind
  rw [← hz] at hnot
  exact hnot.conjunction.disjunction.isTextOf hy nofun

private theorem isTextOf_juxtaposed (hcs : IsTextOf cs a) (hds : IsTextOf ds b) :
    IsTextOf (grouped cs (' ' :: grouped ds [])) (.and a b) ∧
      textNesting (grouped cs (' ' :: grouped ds [])) ≤
        max (textNesting cs + 1) (textNesting ds + 1) := by
  obtain ⟨y, hy, hleft⟩ := hcs.exists_group (hasText_ofChars _) (List.forall_mem_nil _)
  change y.HasText _ ([' '] ++ grouped ds []) at hy
  obtain ⟨x, hx, hright⟩ := hds.exists_group hy isBlank_of_mem_space
  exact (hleft.operand.conjunction.juxtaposed hright.operand).disjunction.isTextOf hx nofun

private theorem isTextOf_and (hcs : IsTextOf cs a) (hds : IsTextOf ds b) :
    IsTextOf (grouped cs (' ' :: '&' :: '&' :: ' ' :: grouped ds [])) (.and a b) ∧
      textNesting (grouped cs (' ' :: '&' :: '&' :: ' ' :: grouped ds [])) ≤
        max (textNesting cs + 1) (textNesting ds + 1) := by
  obtain ⟨y, hy, hleft⟩ := hcs.exists_group (hasText_ofChars _) (List.forall_mem_nil _)
  change y.HasText _ ([' '] ++ '&' :: '&' :: ' ' :: grouped ds []) at hy
  obtain ⟨t, w, rfl, hkind, hw⟩ := hy.exists_and isBlank_of_mem_space
  change w.HasText _ ([' '] ++ grouped ds []) at hw
  obtain ⟨x, hx, hright⟩ := hds.exists_group hw isBlank_of_mem_space
  exact (hleft.operand.conjunction.and hkind hright.operand).disjunction.isTextOf hx nofun

private theorem isTextOf_alternated (hcs : IsTextOf cs a) (hds : IsTextOf ds b) :
    ∃ e, e.shown = Expression.shown (.or a b) ∧ IsTextOf (alternated cs ds) e ∧
      textNesting (alternated cs ds) ≤ max (textNesting cs) (textNesting ds) := by
  obtain ⟨y, htail, hleft⟩ := hcs.exists_encloses (hasText_ofChars (alternated cs ds))
    (List.forall_mem_nil _) nofun endsToken_space
  obtain ⟨gap, previous, hgap, hy⟩ := htail.hasText
  change y.HasText _ (gap ++ ([' '] ++ _)) at hy
  rw [← List.append_assoc] at hy
  obtain ⟨t, w, rfl, hkind, hw⟩ :=
    hy.exists_or (List.forall_mem_append.mpr ⟨hgap, isBlank_of_mem_space⟩)
  change w.HasText _ ([' '] ++ ds) at hw
  rw [← List.append_nil ds] at hw
  obtain ⟨x, htail', hright⟩ := hds.exists_encloses hw isBlank_of_mem_space (by simp) nofun
  obtain ⟨gap', previous', hgap', hx⟩ := htail'.hasText
  have hend : ∀ c ∈ gap' ++ [], Text.isBlank c = true := by rwa [List.append_nil]
  obtain ⟨position, spaced, rfl⟩ := eq_of_hasText_blank hx hend
  have hdetached : Detached (t :: w.tokens) :=
    Progress.detached_cons (by simp [hkind, TokenKind.continuesLiteral])
  obtain ⟨e, hshown, he⟩ := (hleft hdetached).exists_or hkind (hright Progress.detached_nil)
  exact ⟨e, hshown, he.isTextOf hx hend⟩

end Tokenization

namespace Expression

open Tokenization

/-- The text of a disjunction joins the texts of its sides. -/
theorem write_or (a b : Expression) :
    write (.or a b) = (do
      let left ← a.write
      let right ← b.write
      .ok (left ++ " || " ++ right)) := by
  have hchars : chars (.or a b) = a.chars ++ (' ' :: '|' :: '|' :: ' ' :: b.chars) := by
    rw [chars, Formula.render, Formula.renderOnto, Formula.renderOnto_eq_append]
    rfl
  have htext : String.ofList (chars (.or a b)) =
      .ofList a.chars ++ " || " ++ .ofList b.chars := by
    rw [hchars, ← String.toList_inj]
    simp
  simp only [write, ifWritable, Formula.all, Expression.toString, htext]
  cases a.all Constraint.isWritable with
  | false => rfl
  | true => cases b.all Constraint.isWritable <;> rfl

/-- Expressions that show the same are written alike. -/
theorem write_eq_of_shown {a b : Expression} (h : a.shown = b.shown) : a.write = b.write := by
  rw [write, write, Expression.toString, Expression.toString, ← chars_shown a, ← isWritable_shown a,
    h, chars_shown, isWritable_shown]

/-- A text is read exactly if it is a text of an expression within the limits. -/
theorem parse_eq_ok_iff_isTextOf {text : String} {limits : Limits} {e : Expression} :
    parse text limits = .ok e ↔
      IsTextOf text.toList e ∧ text.toList.length ≤ limits.maxInputLength ∧
        (textNesting text.toList : Int) ≤ max limits.maxDepth 0 := by
  rw [parse_eq_ok_iff]
  constructor
  · rintro ⟨hlength, hnesting, hshort, hstop, haccepts⟩
    exact ⟨⟨hstop, hshort, haccepts⟩, hlength, hnesting⟩
  · rintro ⟨⟨hstop, hshort, haccepts⟩, hlength, hnesting⟩
    exact ⟨hlength, hnesting, hshort, hstop, haccepts⟩

theorem parse_of_isTextOf {text : String} {cs : List Char} {limits : Limits} {e : Expression}
    {depth : Nat} (htext : text.toList = cs) (h : IsTextOf cs e ∧ textNesting cs ≤ depth)
    (hlength : cs.length ≤ limits.maxInputLength) (hdepth : depth ≤ max limits.maxDepth 0) :
    parse text limits = .ok e := by
  subst htext
  exact parse_eq_ok_iff_isTextOf.mpr ⟨h.1, hlength, by omega⟩

/-- Ranges are composed as texts. Within limits that are large enough, a text in parentheses is
read as what the text alone is read as, behind a negation as its negation, and two of them as their
conjunction, with a sign between them or without. Two texts with a disjunction sign between them
are read as an expression that admits what one of them admits, and is written as the two are. -/
theorem parse_composed {textA textB : String} {limitsA limitsB : Limits} {a b : Expression}
    (limits : Limits) (hA : parse textA limitsA = .ok a) (hB : parse textB limitsB = .ok b)
    (hlength : textA.toList.length + textB.toList.length + 8 ≤ limits.maxInputLength)
    (hdepthA : max limitsA.maxDepth 0 + 2 ≤ limits.maxDepth)
    (hdepthB : max limitsB.maxDepth 0 + 2 ≤ limits.maxDepth) :
    parse ("(" ++ textA ++ ")") limits = .ok a ∧
      parse ("!(" ++ textA ++ ")") limits = .ok (.not a) ∧
      parse ("(" ++ textA ++ ") (" ++ textB ++ ")") limits = .ok (.and a b) ∧
      parse ("(" ++ textA ++ ") && (" ++ textB ++ ")") limits = .ok (.and a b) ∧
      ∃ e, parse (textA ++ " || " ++ textB) limits = .ok e ∧
        (∀ v, admits e v = (admits a v || admits b v)) ∧
        e.write = (do
          let left ← a.write
          let right ← b.write
          .ok (left ++ " || " ++ right)) := by
  obtain ⟨hcs, -, hnestingA⟩ := parse_eq_ok_iff_isTextOf.mp hA
  obtain ⟨hds, -, hnestingB⟩ := parse_eq_ok_iff_isTextOf.mp hB
  have hlengths (cs rest : List Char) : (grouped cs rest).length = cs.length + rest.length + 2 := by
    simp [grouped]
    omega
  refine ⟨?_, ?_, ?_, ?_, ?_⟩
  · refine parse_of_isTextOf ?_ (isTextOf_grouped hcs) ?_ (by omega)
    · simp [grouped]
    · rw [hlengths, List.length_nil]
      omega
  · refine parse_of_isTextOf ?_ (isTextOf_negated hcs) ?_ (by omega)
    · simp [grouped]
    · rw [List.length_cons, hlengths, List.length_nil]
      omega
  · refine parse_of_isTextOf ?_ (isTextOf_juxtaposed hcs hds) ?_ (by omega)
    · simp [grouped]
    · rw [hlengths, List.length_cons, hlengths, List.length_nil]
      omega
  · refine parse_of_isTextOf ?_ (isTextOf_and hcs hds) ?_ (by omega)
    · simp [grouped]
    · simp only [hlengths, List.length_cons, List.length_nil]
      omega
  · obtain ⟨e, hshown, he⟩ := isTextOf_alternated hcs hds
    refine ⟨e, parse_of_isTextOf ?_ he ?_ (by omega), fun v ↦ ?_, ?_⟩
    · simp [alternated]
    · simp only [alternated, List.length_append, List.length_cons]
      omega
    · rw [← admits_shown e, hshown, admits_shown]
      rfl
    · rw [write_eq_of_shown hshown, write_or]

/-- A comparison, and the alternative of two, are composed within the usual limits. -/
theorem parse_composed_alternatives :
    let a : Expression := bound .greaterOrEqual ⟨2, 0, 0, [], []⟩
    let b : Expression := .or (bound .less ⟨1, 0, 0, [], []⟩) (bound .equal ⟨1, 5, 0, [], []⟩)
    parse ">=2.0.0" { maxDepth := 0 } = .ok a ∧ parse "<1.0.0||1.5.0" { maxDepth := 0 } = .ok b ∧
      (">=2.0.0".toList.length + "<1.0.0||1.5.0".toList.length + 8 : Int) ≤ 1024 ∧
      max 0 0 + 2 ≤ (64 : Int) ∧
      parse "(>=2.0.0)" = .ok a ∧ parse "!(>=2.0.0)" = .ok (.not a) ∧
      parse "(>=2.0.0) (<1.0.0||1.5.0)" = .ok (.and a b) ∧
      parse "(>=2.0.0) && (<1.0.0||1.5.0)" = .ok (.and a b) ∧
      ∃ e, parse ">=2.0.0 || <1.0.0||1.5.0" = .ok e ∧
        (∀ v, admits e v = (admits a v || admits b v)) ∧
        e.write = .ok ">=2.0.0 || <1.0.0 || =1.5.0" := by
  intro a b
  have hA : parse ">=2.0.0" { maxDepth := 0 } = .ok a := by
    rw [← Outcome.toOption_eq_some_iff]
    decide +kernel
  have hB : parse "<1.0.0||1.5.0" { maxDepth := 0 } = .ok b := by
    rw [← Outcome.toOption_eq_some_iff]
    decide +kernel
  have hlength : (">=2.0.0".toList.length + "<1.0.0||1.5.0".toList.length + 8 : Int) ≤ 1024 := by
    decide
  have hdepth : max 0 0 + 2 ≤ (64 : Int) := by decide
  obtain ⟨hgroup, hnot, hjuxtaposed, hand, e, hor, hadmits, hwrite⟩ :=
    parse_composed {} hA hB hlength hdepth hdepth
  refine ⟨hA, hB, hlength, hdepth, hgroup, hnot, hjuxtaposed, hand, e, hor, hadmits, ?_⟩
  rw [hwrite, ← Outcome.toOption_eq_some_iff]
  decide +kernel

end Expression

end VersionRange
