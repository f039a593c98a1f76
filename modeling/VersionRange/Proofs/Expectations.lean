import VersionRange.Proofs.Completions
import VersionRange.Proofs.Failures
import VersionRange.Proofs.VersionText

/-!
# What a failure expects

A failure to read an expression names the kinds of tokens that it expects in place of the one it
shows, or of the end of the text. For a state that waits for an operand or a literal, and behind an
operand, an expression goes on with every one of them. Within a literal the kinds are named without
regard to where the literal stands and what has been read of it, and some of them mislead.
-/

namespace VersionRange

/-- The kinds of tokens that a failure expects in its place, if it names any. -/
def Failure.expected? : Failure → Option (List TokenKind)
  | unexpectedToken expected _ | unexpectedEnd expected _ => some expected
  | _ => none

/-! ### Failures that expect nothing -/

namespace Spelling

variable {source : String} {s : Spelling} {t : Token} {failure : Failure}

private theorem expected?_of_addPart (h : s.addPart source t = .error failure) :
    failure.expected? = none := by
  rw [addPart] at h
  split at h
  · cases h
  · split at h
    · cases h
      rfl
    · rcases Outcome.bind_eq_error_iff.mp h with h | ⟨_, -, h⟩
      · obtain ⟨_, -, rfl⟩ := Outline.of_readNumber_eq_error h
        rfl
      · cases h

private theorem expected?_of_readLabel {read : Nat → List Char → Except Fault (List Word)}
    {label : Option Token} (h : readLabel source read label = .error failure) :
    failure.expected? = none := by
  obtain ⟨_, _, -, -, rfl⟩ := of_readLabel_eq_error h
  rfl

private theorem expected?_of_literal (h : s.literal source = .error failure) :
    failure.expected? = none := by
  rw [literal] at h
  split at h
  · cases h
  · cases h
  · cases h
  · rcases Outcome.bind_eq_error_iff.mp h with h | ⟨_, -, h⟩
    · exact expected?_of_readLabel h
    · rcases Outcome.bind_eq_error_iff.mp h with h | ⟨_, -, h⟩
      · exact expected?_of_readLabel h
      · rcases Outcome.bind_eq_error_iff.mp h with h | ⟨_, -, h⟩
        · obtain ⟨_, -, rfl⟩ := Outline.of_readIdentifiers_eq_error h
          rfl
        · cases h

end Spelling

/-! ### The kinds that a state names -/

namespace Progress

variable {source : String} {maxDepth : Int} {position : Nat} {p q : Progress} {t : Token}
  {ts : List Token} {kind : TokenKind} {expected : List TokenKind} {failure : Failure}

/-- The kinds that are named behind an operand, outside of all groups and in a group. -/
def kindsBehind (outer : List Level) : List TokenKind :=
  if outer.isEmpty then TokenKind.operandEnd else [.closing]

/-- The kinds that a state names where it refuses a token or the end of the text. -/
def Expects (expected : List TokenKind) : Progress → Prop
  | operand _ => expected = TokenKind.operandStart
  | literal _ _ => expected = TokenKind.literalPart
  | part _ s _ => expected = TokenKind.literalPart ∨ 0 < s.wildcards ∧ expected = [.wildcard]
  | spelling _ s place => expected = TokenKind.literalEnd ∨
      (∃ l, s.literal "" = .ok l) ∧ expected = kindsBehind place.outer
  | operator chain => expected = kindsBehind chain.outer

/-- A part of a literal has to follow. -/
def IsPart : Progress → Prop
  | part _ _ _ => True
  | operand _ | literal _ _ | spelling _ _ _ | operator _ => False

/-- A token is out of place in a state, which names the kinds that it expects. The kind of the token
is among them only if white space separates a part of a literal from its dot. -/
structure Misplaces (p : Progress) (t : Token) (expected : List TokenKind) (failure : Failure) :
    Prop where
  failure_eq : failure = .unexpectedToken expected t
  expects : p.Expects expected
  mem_iff : t.kind ∈ expected ↔ p.IsPart ∧ t.spaced = true ∧ t.kind ∈ TokenKind.literalPart

/-- Other states name no kind that they refuse. -/
theorem misplaces_of_notMem (hexpects : p.Expects expected) (hpart : ¬ p.IsPart)
    (hkind : t.kind ∉ expected) : p.Misplaces t expected (.unexpectedToken expected t) :=
  ⟨rfl, hexpects, iff_of_false hkind fun h ↦ hpart h.1⟩

private theorem expected?_of_firstPart {role : Role} {s : Spelling} {place : Place}
    (h : (do
      let s ← s.addPart source t
      .ok (spelling role s place)) = Except.error failure) : failure.expected? = none := by
  rcases Outcome.bind_eq_error_iff.mp h with h | ⟨_, -, h⟩
  · exact Spelling.expected?_of_addPart h
  · cases h

private theorem expected?_of_enter {place : Place} (h : enter maxDepth t place = .error failure) :
    failure.expected? = none := by
  rw [enter] at h
  split at h
  · cases h
    rfl
  · cases h

/-- Where an operand has to follow, a token is out of place if no operand begins with it. -/
theorem of_stepOperand_eq_error {place : Place}
    (h : stepOperand source maxDepth place t = .error failure)
    (hexpected : failure.expected? = some expected) :
    failure = .unexpectedToken expected t ∧ expected = TokenKind.operandStart ∧
      t.kind ∉ expected := by
  have hnone (hnone : failure.expected? = none) : False := by
    rw [hnone] at hexpected
    cases hexpected
  unfold stepOperand at h
  split at h
  case h_8 =>
    cases h
    cases hexpected
    refine ⟨rfl, rfl, fun hmem ↦ ?_⟩
    simp_all [TokenKind.operandStart]
  · exact (hnone (expected?_of_enter h)).elim
  · exact (hnone (expected?_of_enter h)).elim
  · split at h
    · cases h
    · cases h
      exact (hnone rfl).elim
  · cases h
  · cases h
  · exact (hnone (expected?_of_firstPart h)).elim
  · exact (hnone (expected?_of_firstPart h)).elim

/-- Behind an operand, a token is out of place if it neither joins the operand to another one nor
ends its group. -/
theorem of_stepOperator_eq_error {chain : Chain}
    (h : stepOperator source maxDepth chain t = .error failure)
    (hexpected : failure.expected? = some expected) (hfinish : t.kind ≠ .finish) :
    failure = .unexpectedToken expected t ∧ expected = kindsBehind chain.outer ∧
      t.kind ∉ expected := by
  rw [stepOperator] at h
  split at h
  · cases h
  · next hkind =>
    split at h
    · next houter =>
      cases h
      cases hexpected
      rw [hkind, houter]
      exact ⟨rfl, rfl, by decide⟩
    · cases h
  · next hor hclosing =>
    split at h
    · cases h
    · next hand =>
      split at h
      · next hstart =>
        obtain ⟨-, rfl, hnot⟩ := of_stepOperand_eq_error h hexpected
        exact absurd (List.contains_iff_mem.mp hstart) hnot
      · split at h
        · next houter =>
          cases h
          cases hexpected
          rw [kindsBehind, if_pos houter]
          refine ⟨rfl, rfl, ?_⟩
          simp only [TokenKind.operandEnd, List.mem_cons, List.not_mem_nil, or_false, not_or]
          exact ⟨hand, hfinish, hor⟩
        · next houter =>
          cases h
          cases hexpected
          rw [kindsBehind, if_neg houter]
          exact ⟨rfl, rfl, by simpa using hclosing⟩

private theorem of_stepBehind_eq_error {role : Role} {l : Literal} {place : Place}
    (h : stepBehind source maxDepth role l place t = .error failure)
    (hexpected : failure.expected? = some expected) (hfinish : t.kind ≠ .finish) :
    failure = .unexpectedToken expected t ∧ expected = kindsBehind place.outer ∧
      t.kind ∉ expected := by
  unfold stepBehind at h
  split at h
  · cases h
  · exact of_stepOperator_eq_error h hexpected hfinish

private theorem notMem_literalEnd (h : kind.continuesLiteral = true) :
    kind ∉ TokenKind.literalEnd := by
  revert h
  cases kind <;> decide

/-- Within a literal, a token is out of place if the literal can neither go on nor end with it. -/
theorem of_stepWithin_eq_error {role : Role} {s : Spelling} {place : Place}
    (h : stepWithin role s place t = .error failure)
    (hexpected : failure.expected? = some expected)
    (hcontinues : t.kind.continuesLiteral = true) :
    failure = .unexpectedToken expected t ∧ expected = TokenKind.literalEnd ∧
      t.kind ∉ expected := by
  have hfailure : failure = .unexpectedToken TokenKind.literalEnd t := by
    rw [stepWithin] at h
    split at h
    · split at h <;> cases h
      rfl
    · rcases Outcome.bind_eq_error_iff.mp h with h | ⟨_, -, h⟩
      · exact Spelling.of_addLabel_eq_error h
      · cases h
    · cases h
      rfl
  subst hfailure
  cases hexpected
  exact ⟨rfl, rfl, notMem_literalEnd hcontinues⟩

/-- A step that names expected kinds refuses its token as out of place. -/
theorem misplaces_of_step (h : p.step source maxDepth t = .error failure)
    (hexpected : failure.expected? = some expected) (hfinish : t.kind ≠ .finish) :
    p.Misplaces t expected failure := by
  cases p with
  | operand place =>
    obtain ⟨rfl, hexpects, hkind⟩ := of_stepOperand_eq_error h hexpected
    exact misplaces_of_notMem hexpects id hkind
  | operator chain =>
    obtain ⟨rfl, hexpects, hkind⟩ := of_stepOperator_eq_error h hexpected hfinish
    exact misplaces_of_notMem hexpects id hkind
  | literal role place =>
    rw [step] at h
    split at h
    · rw [expected?_of_firstPart h] at hexpected
      cases hexpected
    · next hkind =>
      cases h
      cases hexpected
      exact misplaces_of_notMem rfl id fun hmem ↦ hkind (List.contains_iff_mem.mpr hmem)
  | part role s place =>
    rw [step] at h
    split at h
    · next hrefused =>
      cases h
      cases hexpected
      refine ⟨rfl, .inl rfl, fun hmem ↦ ⟨trivial, ?_, hmem⟩, fun h ↦ h.2.2⟩
      rw [List.contains_iff_mem.mpr hmem] at hrefused
      simpa using hrefused
    · next hjoined =>
      split at h
      · next hnumber =>
        cases h
        cases hexpected
        rw [Bool.or_eq_true, not_or, Bool.not_eq_true] at hjoined
        rw [Bool.and_eq_true, decide_eq_true_iff, decide_eq_true_iff] at hnumber
        refine ⟨rfl, .inr ⟨hnumber.1, rfl⟩, iff_of_false ?_ fun h ↦ ?_⟩
        · rw [hnumber.2]
          decide
        · rw [hjoined.1] at h
          exact absurd h.2.1 Bool.false_ne_true
      · rw [expected?_of_firstPart h] at hexpected
        cases hexpected
  | spelling role s place =>
    rw [step] at h
    split at h
    · rcases Outcome.bind_eq_error_iff.mp h with h | ⟨l, hl, h⟩
      · rw [Spelling.expected?_of_literal h] at hexpected
        cases hexpected
      · obtain ⟨rfl, hexpects, hkind⟩ := of_stepBehind_eq_error h hexpected hfinish
        exact misplaces_of_notMem (.inr ⟨⟨l, Spelling.literal_of_source "" hl⟩, hexpects⟩) id
          hkind
    · next hends =>
      rw [Bool.or_eq_true, not_or, Bool.not_eq_true', Bool.not_eq_false] at hends
      obtain ⟨rfl, hexpects, hkind⟩ := of_stepWithin_eq_error h hexpected hends.2
      exact misplaces_of_notMem (.inl hexpects) id hkind

private theorem expects_of_finishOperator {chain : Chain}
    (h : finishOperator position chain = .error failure)
    (hexpected : failure.expected? = some expected) :
    failure = .unexpectedEnd expected position ∧ expected = kindsBehind chain.outer := by
  rw [finishOperator] at h
  split at h
  · cases h
  · next houter =>
    cases h
    cases hexpected
    rw [houter]
    exact ⟨rfl, rfl⟩

/-- The end of a text that comes too early is refused by the state behind the text. -/
theorem expects_of_finish (h : p.finish source position = .error failure)
    (hexpected : failure.expected? = some expected) :
    failure = .unexpectedEnd expected position ∧ p.Expects expected := by
  cases p with
  | operand | literal =>
    cases h
    cases hexpected
    exact ⟨rfl, rfl⟩
  | part =>
    cases h
    cases hexpected
    exact ⟨rfl, .inl rfl⟩
  | operator chain => exact expects_of_finishOperator h hexpected
  | spelling role s place =>
    rcases Outcome.bind_eq_error_iff.mp h with h | ⟨l, hl, h⟩
    · rw [Spelling.expected?_of_literal h] at hexpected
      cases hexpected
    · obtain ⟨hfailure, hexpects⟩ := expects_of_finishOperator h hexpected
      exact ⟨hfailure, .inr ⟨⟨l, Spelling.literal_of_source "" hl⟩, hexpects⟩⟩

/-! ### Kinds that mislead -/

/-- A kind that a state names misleads: no expression goes on with it behind the text. White space
separates a part of a literal from its dot, or a number would follow a wildcard; the labels of a
literal are at fault, a hyphen would follow a literal that makes no range of its own, a parenthesis
would close no group, or the text would end within a group. -/
def Misleads (front : List Char) (kind : TokenKind) : Progress → Prop
  | part _ s _ => BlankBefore front front.length ∨ 0 < s.wildcards ∧ kind = .number
  | spelling role s place =>
    (∀ l, s.literal "" ≠ .ok l) ∨ kind = .hyphen ∧ role ≠ .plain ∨
      kind = .closing ∧ place.outer = [] ∨ kind = .finish ∧ place.outer ≠ []
  | operand _ | literal _ _ | operator _ => False

end Progress

namespace Expression

open Progress Remainder

variable {front : List Char} {p q : Progress} {t : Token} {ts : List Token} {kind : TokenKind}
  {expected : List TokenKind} {chain : Chain} {source : String} {maxDepth : Int} {position : Nat}
  {e : Expression} {failure : Failure}

/-- Behind an operand a text goes on with signs between operands, and with the end of its group. -/
theorem continues_behind (h : ReadsTo front ts p) (hends : p.Ends chain)
    (hkind : kind ∈ [.and, .finish, .or, .closing])
    (hclosing : kind = .closing → chain.outer ≠ []) (hfinish : kind = .finish → chain.outer = []) :
    Continues front kind := by
  simp only [List.mem_cons, List.not_mem_nil, or_false] at hkind
  rcases hkind with rfl | rfl | rfl | rfl
  · exact continues_of_admits h (hends.admits_sign (.inl rfl)) (by decide)
  · exact continues_of_ends h hends (hfinish rfl)
  · exact continues_of_admits h (hends.admits_sign (.inr rfl)) (by decide)
  · obtain ⟨level, outer, houter⟩ := List.exists_cons_of_ne_nil (hclosing rfl)
    have hadmits : p.Admits .closing :=
      fun position ↦ ⟨0, _, hends.step_closing houter 0 position, trivial⟩
    exact continues_of_admits h hadmits (by decide)

private theorem kindsBehind_subset {outer : List Level} (h : kind ∈ kindsBehind outer) :
    kind ∈ [.and, .finish, .or, .closing] ∧ (kind = .closing → outer ≠ []) ∧
      (kind = .finish → outer = []) := by
  cases outer with
  | nil =>
    refine ⟨?_, ?_, fun _ ↦ rfl⟩
    · revert h
      cases kind <;> decide
    · rintro rfl
      exact absurd h (by decide)
  | cons level outer =>
    obtain rfl := List.mem_singleton.mp h
    exact ⟨by decide, fun _ ↦ List.cons_ne_nil _ _, nofun⟩

/-- A text goes on with every kind that the state behind it names, if the kind does not mislead. -/
theorem continues_of_expects (h : ReadsTo front ts q) (hexpects : q.Expects expected)
    (hkind : kind ∈ expected) (hmisleads : ¬ q.Misleads front kind) : Continues front kind := by
  cases q with
  | operand place =>
    obtain rfl : expected = _ := hexpects
    refine continues_of_admits h (admits_operand place hkind) ?_
    revert hkind
    cases kind <;> decide
  | literal role place =>
    obtain rfl : expected = _ := hexpects
    refine continues_of_admits h (admits_literal role place hkind) ?_
    revert hkind
    cases kind <;> decide
  | part role s place =>
    obtain ⟨hblank, hwildcard⟩ := not_or.mp hmisleads
    refine continues_of_part h hblank ?_ fun hpos hnumber ↦ hwildcard ⟨hpos, hnumber⟩
    rcases hexpects with rfl | ⟨-, rfl⟩
    · exact hkind
    · obtain rfl := List.mem_singleton.mp hkind
      decide
  | operator chain =>
    obtain rfl : expected = _ := hexpects
    obtain ⟨hmem, hclosing, hfinish⟩ := kindsBehind_subset hkind
    exact continues_behind h rfl hmem hclosing hfinish
  | spelling role s place =>
    simp only [Misleads, not_or, not_and, not_forall, not_not] at hmisleads
    obtain ⟨⟨l, hl⟩, hhyphen, hclosing, hfinish⟩ := hmisleads
    have hends : (Progress.spelling role s place).Ends (place.ended (role.expression l)) :=
      ⟨l, hl, rfl⟩
    have hmem : kind = .hyphen ∨ kind ∈ [.and, .finish, .or, .closing] := by
      rcases hexpects with rfl | ⟨-, rfl⟩
      · revert hkind
        cases kind <;> decide
      · exact .inr (kindsBehind_subset hkind).1
    rcases hmem with rfl | hmem
    · obtain rfl := hhyphen rfl
      exact continues_of_admits h (admits_hyphen hl) (by decide)
    · exact continues_behind h hends hmem hclosing hfinish

/-! ### Texts that go on -/

/-- What tokens are read up to depends neither on the limit on depth nor on the text that failures
quote. -/
theorem eq_of_foldlM_step {source' : String} {maxDepth' : Int}
    (h : ts.foldlM (step source maxDepth) p = .ok q) {q' : Progress}
    (h' : ts.foldlM (step source' maxDepth') p = .ok q') : q = q' := by
  have hread := foldlM_step_of_le (foldlM_step_of_source source' h)
    (Int.le_max_left maxDepth maxDepth')
  rw [foldlM_step_of_le h' (Int.le_max_right maxDepth maxDepth')] at hread
  exact (Except.ok.inj hread).symm

/-- If a text goes on to an expression, the state behind it is resumed up to the end of this
expression, and behind white space with a token that has white space before it. -/
theorem Continues.exists_resume (h : Continues front kind) (hread : ReadsTo front ts q) :
    ∃ source maxDepth position e us, resume source maxDepth position q us = .ok e ∧
      nextKind us = kind ∧
      (BlankBefore front front.length → ∀ t ∈ us.head?, t.spaced = true) := by
  obtain ⟨text, limits, e, index, hparse, ⟨behind, hfront⟩, hsplits, hkind⟩ := h
  obtain ⟨-, spaced, hstop, hresume⟩ := resume_of_parse hparse
  rw [← hfront] at hsplits hkind hstop hresume
  obtain ⟨position, previous, gap, hgap, hdrop, -, hcut⟩ :=
    Tokenization.exists_cut hstop hsplits
  -- The text in front of the cut has the tokens before it, and white space behind them.
  have hbefore := hcut [] nofun
  rw [List.append_nil, List.append_nil, Tokenization.ofCharsFrom_of_blank hgap,
    List.append_nil] at hbefore
  obtain ⟨spaced', htokens⟩ := hread.tokens
  have hts : ts = (Tokenization.ofChars (front ++ behind)).tokens.take index :=
    congrArg Tokenization.tokens (htokens.symm.trans hbefore)
  obtain ⟨_, hrun⟩ := hread.run
  rw [← List.take_append_drop index (Tokenization.ofChars (front ++ behind)).tokens] at hresume
  obtain ⟨q', hfirst, hrest⟩ := resume_append_eq_ok_iff.mp hresume
  rw [← hts] at hfirst
  obtain rfl := eq_of_foldlM_step hrun hfirst
  refine ⟨text, limits.maxDepth, _, e, _, hrest, hkind, fun hblank ↦ ?_⟩
  have hfits := (Tokenization.accounts_tokens front).2.2
  rw [hbefore] at hfits
  have hne : gap ≠ [] := by
    rintro rfl
    rw [← hfits.1] at hblank
    exact Bool.false_ne_true (hfits.2.mpr hblank)
  rw [hdrop]
  obtain ⟨c, gap, rfl⟩ := List.exists_cons_of_ne_nil hne
  exact Tokenization.HasText.spaced_of_head ⟨position, rfl⟩ (hgap c List.mem_cons_self)

/-- Behind a literal a hyphen is read only if the literal makes a range of its own, a closing
parenthesis only in a group, and the mark of the end never. -/
theorem step_ne_ok_of_misleads {role : Role} {s : Spelling} {place : Place} {l : Literal}
    (hl : s.literal source = .ok l)
    (hkind : t.kind = .hyphen ∧ role ≠ .plain ∨ t.kind = .closing ∧ place.outer = [] ∨
      t.kind = .finish) :
    (Progress.spelling role s place).step source maxDepth t ≠ .ok q := by
  have hends : t.kind.continuesLiteral = false := by
    rcases hkind with ⟨hkind, -⟩ | ⟨hkind, -⟩ | hkind <;> rw [hkind] <;> rfl
  rw [step, hends, Bool.not_false, Bool.or_true, if_pos rfl, hl]
  intro hstep
  change stepBehind source maxDepth role l place t = .ok q at hstep
  unfold stepBehind at hstep
  split at hstep
  · next hhyphen =>
    rw [hhyphen] at hkind
    obtain ⟨-, hrole⟩ | ⟨⟨⟩, -⟩ | ⟨⟨⟩⟩ := hkind
    exact hrole rfl
  · rcases hkind with ⟨hhyphen, -⟩ | ⟨hclosing, houter⟩ | hfinish
    · exact stepOperator_ne_ok (.inl hhyphen) hstep
    · simp only [stepOperator, hclosing, Place.ended, houter] at hstep
      cases hstep
    · exact stepOperator_ne_ok (.inr hfinish) hstep

/-- A part of a literal is read directly behind its dot, and no number behind a wildcard. -/
theorem of_step_part {role : Role} {s : Spelling} {place : Place}
    (h : (Progress.part role s place).step source maxDepth t = .ok q) :
    t.spaced = false ∧ ¬ (0 < s.wildcards ∧ t.kind = .number) := by
  rw [step] at h
  split at h
  · cases h
  · next hjoined =>
    split at h
    · cases h
    · next hnumber =>
      rw [Bool.or_eq_true, not_or, Bool.not_eq_true] at hjoined
      rw [Bool.and_eq_true, decide_eq_true_iff, decide_eq_true_iff] at hnumber
      exact ⟨hjoined.1, hnumber⟩

/-- Within a group no expression ends. -/
theorem finish_ne_ok {role : Role} {s : Spelling} {place : Place} {l : Literal}
    (hl : s.literal source = .ok l) (houter : place.outer ≠ []) :
    (Progress.spelling role s place).finish source position ≠ .ok e := by
  obtain ⟨level, outer, houter⟩ := List.exists_cons_of_ne_nil houter
  rw [finish, hl]
  intro h
  change finishOperator position (place.ended (role.expression l)) = .ok e at h
  simp only [finishOperator, Place.ended, houter] at h
  cases h

/-- No text goes on with a kind that misleads. -/
theorem Continues.not_misleads (h : Continues front kind) (hread : ReadsTo front ts q) :
    ¬ q.Misleads front kind := by
  obtain ⟨source, maxDepth, position, e, us, hresume, hkind, hspaced⟩ := h.exists_resume hread
  intro hmisleads
  cases q with
  | operand | literal | operator => exact hmisleads
  | part role s place =>
    cases us with
    | nil => cases hresume
    | cons t us =>
      obtain rfl : t.kind = kind := hkind
      rw [resume_cons] at hresume
      obtain ⟨q, hstep, -⟩ := Outcome.bind_eq_ok_iff.mp hresume
      obtain ⟨hjoined, hnumber⟩ := of_step_part hstep
      rcases hmisleads with hblank | hwildcard
      · rw [hspaced hblank t rfl] at hjoined
        cases hjoined
      · exact hnumber hwildcard
  | spelling role s place =>
    obtain ⟨l, hl⟩ := exists_literal_of_resume hresume
    rcases hmisleads with hnone | hmisleads
    · exact hnone l (Spelling.literal_of_source "" hl)
    · cases us with
      | nil =>
        obtain ⟨⟨⟩, -⟩ | ⟨⟨⟩, -⟩ | ⟨-, houter⟩ := hkind ▸ hmisleads
        exact finish_ne_ok hl houter hresume
      | cons t us =>
        obtain rfl : t.kind = kind := hkind
        rw [resume_cons] at hresume
        obtain ⟨q, hstep, -⟩ := Outcome.bind_eq_ok_iff.mp hresume
        refine step_ne_ok_of_misleads hl ?_ hstep
        exact hmisleads.imp_right (Or.imp_right And.left)

/-! ### What a failure names -/

/-- The tokens before another one are those of the text before it. -/
theorem readsTo_of_tokens {source : List Char} {before behind : List Token}
    (htokens : (Tokenization.ofChars source).tokens = before ++ t :: behind)
    (hrun : before.foldlM (step "" maxDepth) .start = .ok q) :
    ReadsTo (source.take t.position) before q := by
  obtain ⟨haccounts, -, hfits⟩ := Tokenization.accounts_tokens source
  have hwithin := (haccounts.within t (by simp [htokens])).2
  have hlength : (source.take t.position).length = t.position := by
    rw [List.length_take]
    have := hfits.position_le
    omega
  rw [htokens] at haccounts
  have hsplits := haccounts.splits_position
  rw [← htokens] at hsplits
  have hcut : source.take t.position ++ source.drop t.position = source :=
    List.take_append_drop ..
  obtain ⟨spaced, hread⟩ := @Tokenization.ofChars_of_splits (source.take t.position)
    (source.drop t.position) before.length (by rwa [hcut, hlength]) (by rw [hcut, hlength]; omega)
  rw [hcut, htokens, List.take_left] at hread
  exact ⟨⟨spaced, hread⟩, maxDepth, hrun⟩

/-- A failure that names expected kinds is met behind a text that has been read: a token is out of
place there, or the text ends. -/
theorem exists_readsTo_of_parse {text : String} {limits : Limits}
    (h : parse text limits = .error failure) (hexpected : failure.expected? = some expected)
    (hposition : failure.position = some position) :
    ∃ ts q, ReadsTo (text.toList.take position) ts q ∧
      ts.foldlM (step text limits.maxDepth) .start = .ok q ∧ q.Expects expected ∧
      ∀ t, failure = .unexpectedToken expected t → q.Misplaces t expected failure := by
  obtain ⟨-, hkinds, -⟩ := Tokenization.accounts_tokens text.toList
  rw [parse] at h
  split at h
  · cases h
    cases hexpected
  · rw [ofTokenization] at h
    rcases Outcome.bind_eq_error_iff.mp h with hrun | ⟨q, hrun, h⟩
    · obtain ⟨before, t, behind, q, htokens, hbefore, hstep⟩ :=
        Outcome.exists_of_foldlM_eq_error hrun
      have hmisplaces := misplaces_of_step hstep hexpected (hkinds t (by simp [htokens])).1
      obtain rfl := hmisplaces.failure_eq
      obtain rfl : t.position = position := Option.some.inj hposition
      refine ⟨before, q, readsTo_of_tokens htokens (foldlM_step_of_source "" hbefore), hbefore,
        hmisplaces.expects, fun u hu ↦ ?_⟩
      cases hu
      exact hmisplaces
    · split at h
      · next limit spaced hstop =>
        obtain ⟨rfl, hexpects⟩ := expects_of_finish h hexpected
        obtain rfl : limit = position := Option.some.inj hposition
        obtain rfl := Tokenization.eq_length_of_finished hstop
        rw [List.take_length]
        refine ⟨_, q, ⟨⟨spaced, ?_⟩, _, foldlM_step_of_source "" hrun⟩, hrun, hexpects,
          fun t ht ↦ Failure.noConfusion ht⟩
        rw [← hstop]
      · cases h
        cases hexpected

/-- Of the kinds of tokens that a failure names, expressions go on behind the text before its
position with all but those that mislead in the state which is reached there. The kind of the token
that is refused is named too if it is a part of a literal that white space separates from its dot,
and in no other case. -/
theorem expected_continues_iff {text : String} {limits : Limits} {failure : Failure}
    {expected : List TokenKind} {position : Nat} (h : parse text limits = .error failure)
    (hexpected : failure.expected? = some expected) (hposition : failure.position = some position) :
    let front := text.toList.take position
    ∃ q, (Tokenization.ofChars front).tokens.foldlM (step text limits.maxDepth) .start = .ok q ∧
      (∀ kind ∈ expected, Continues front kind ↔ ¬ q.Misleads front kind) ∧
      ∀ t, failure = .unexpectedToken expected t →
        (t.kind ∈ expected ↔
          q.IsPart ∧ t.spaced = true ∧ t.kind ∈ TokenKind.literalPart) := by
  intro front
  obtain ⟨ts, q, hread, hrun, hexpects, hmisplaces⟩ :=
    exists_readsTo_of_parse h hexpected hposition
  obtain ⟨spaced, htokens⟩ := hread.tokens
  refine ⟨q, ?_, fun kind hkind ↦ ⟨?_, ?_⟩, fun t ht ↦ (hmisplaces t ht).mem_iff⟩
  · rw [htokens]
    exact hrun
  · exact fun hcontinues ↦ hcontinues.not_misleads hread
  · exact continues_of_expects hread hexpects hkind

/-- A number behind white space is refused although a number is expected, and no text goes on with
either kind that is named. -/
theorem expected_continues_iff_spaced_part :
    let t : Token := ⟨.number, ['2'], 3, true⟩
    let failure : Failure := .unexpectedToken TokenKind.literalPart t
    parse "1. 2" = .error failure ∧ failure.expected? = some TokenKind.literalPart ∧
      failure.position = some 3 ∧ t.kind ∈ TokenKind.literalPart ∧
      ∀ kind ∈ TokenKind.literalPart, ¬ Continues ['1', '.', ' '] kind := by
  intro t failure
  have hparse : parse "1. 2" = .error failure := by decide +kernel
  refine ⟨hparse, rfl, rfl, by decide, ?_⟩
  obtain ⟨q, -, hcontinues, hrefused⟩ := expected_continues_iff hparse rfl rfl
  have hpart : q.IsPart := ((hrefused t rfl).mp (by decide)).1
  have hblank : BlankBefore ['1', '.', ' '] 3 := ⟨2, ' ', rfl, rfl, by decide⟩
  intro kind hkind hkindContinues
  refine (hcontinues kind hkind).mp hkindContinues ?_
  cases q with
  | part role s place => exact .inl hblank
  | operand | literal | spelling | operator => exact hpart.elim

/-- Outside of all groups a closing parenthesis is named behind a literal, though no expression goes
on with it. -/
theorem expected_closing_outside_groups :
    parse "1.2.3.4" = .error (.unexpectedToken TokenKind.literalEnd ⟨.dot, ['.'], 5, false⟩) ∧
      .closing ∈ TokenKind.literalEnd ∧ ¬ Continues "1.2.3".toList .closing := by
  have htokens : Tokenization.ofChars "1.2.3".toList =
      ⟨[⟨.number, ['1'], 0, false⟩, ⟨.dot, ['.'], 1, false⟩, ⟨.number, ['2'], 2, false⟩,
        ⟨.dot, ['.'], 3, false⟩, ⟨.number, ['3'], 4, false⟩], .finished 5 false⟩ := by
    decide +kernel
  have hread : ReadsTo "1.2.3".toList _ (.spelling .plain { numbers := [1, 2, 3] } {}) :=
    ⟨⟨false, htokens⟩, 64, rfl⟩
  refine ⟨by decide +kernel, by decide, fun hcontinues ↦ ?_⟩
  exact hcontinues.not_misleads hread (.inr (.inr (.inl ⟨rfl, rfl⟩)))

end Expression

end VersionRange
