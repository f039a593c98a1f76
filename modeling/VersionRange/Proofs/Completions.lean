import VersionRange.Proofs.Truncation

/-!
# Texts that go on to an expression

What has been read of an expression can be completed: behind a token that may stand there, a number
ends the operand that is still to come, and parentheses close the groups that are open. A text
therefore goes on with a token of a kind as soon as the next step may read one.
-/

namespace VersionRange

/-! ### Signs -/

namespace TokenKind

/-- The text of a token of a kind; a label and the mark of the end have no text of their own. -/
def sign : TokenKind → List Char
  | number => ['1']
  | dot => ['.']
  | hyphen => ['-']
  | comparator => ['=']
  | caret => ['^']
  | tilde => ['~']
  | wildcard => ['*']
  | and => ['&', '&']
  | or => ['|', '|']
  | not => ['!']
  | opening => ['(']
  | closing => [')']
  | label | finish => []

/-- A sign is a token of its kind. -/
theorem classify?_sign_none {kind : TokenKind} (h : kind ∉ [.label, .finish]) :
    ∃ c tail, kind.sign = c :: tail ∧ Text.isBlank c = false ∧ (kind ≠ .hyphen → c ≠ '-') ∧
      c ≠ '+' ∧ classify? none c tail = some (kind, tail.length) := by
  cases kind with
  | label | finish => simp at h
  | _ => exact ⟨_, _, rfl, by decide, by decide, by decide, by decide⟩

end TokenKind

/-- A token with the text of its kind. -/
def Token.ofKind (kind : TokenKind) (position : Nat) (spaced : Bool) : Token :=
  ⟨kind, kind.sign, position, spaced⟩

/-! ### Tokens behind a text -/

namespace Tokenization

open Remainder

variable {front : List Char} {ts : List Token} {kind : TokenKind} {spaced : Bool}

/-- A sign is one token behind white space, and behind anything else if it is no hyphen. -/
theorem ofCharsFrom_sign (position : Nat) (previous : Option TokenKind) (gap : List Char)
    (hkind : kind ∉ [.label, .finish]) (hgap : gap ≠ [] ∨ kind ≠ .hyphen)
    (hblank : ∀ c ∈ gap, Text.isBlank c = true) :
    ofCharsFrom position previous (gap ++ kind.sign) =
      ⟨[.ofKind kind (position + gap.length) (!gap.isEmpty)],
        .finished (position + gap.length + kind.sign.length) false⟩ := by
  obtain ⟨c, tail, hsign, hc, hhyphen, hplus, hclass⟩ := TokenKind.classify?_sign_none hkind
  have hprevious : classify? (if gap.isEmpty then previous else none) c tail =
      some (kind, tail.length) := by
    split
    · next hempty =>
      have hne := hgap.resolve_left fun hne ↦ hne (List.isEmpty_iff.mp hempty)
      rw [classify?_eq_none_of_ne (hhyphen hne) hplus, hclass]
    · exact hclass
  have hscan : scan position previous (gap ++ kind.sign) =
      .token (.ofKind kind (position + gap.length) (!gap.isEmpty)) [] := by
    rw [hsign]
    refine scan_eq_token_iff.mpr ⟨gap, c, tail, tail.length, rfl, hblank, hc, hprevious, ?_, ?_⟩
    · rw [List.take_length, ← hsign]
      rfl
    · rw [List.drop_length]
  rw [ofCharsFrom_of_token hscan, ofCharsFrom_of_blank (List.forall_mem_nil _)]
  rfl

/-- A sign that white space separates from a text is one token more. -/
theorem ofChars_append_space (h : ofChars front = ⟨ts, .finished front.length spaced⟩)
    (hkind : kind ∉ [.label, .finish]) :
    ofChars (front ++ ' ' :: kind.sign) =
      ⟨ts ++ [.ofKind kind (front.length + 1) true],
        .finished (front ++ ' ' :: kind.sign).length false⟩ := by
  obtain ⟨position, previous, gap, hscans, hgap, hposition, -⟩ := exists_scans_of_finished h
  have htokens : ofChars (front ++ ' ' :: kind.sign) = _ :=
    (hscans.append endsToken_space).tokenization_eq
  have hsign := ofCharsFrom_sign position previous (gap ++ [' ']) hkind (.inl (by simp))
    (List.forall_mem_append.mpr ⟨hgap, isBlank_of_mem_space⟩)
  have hspaced : (!(gap ++ [' ']).isEmpty) = true := by simp
  rw [← List.append_cons, hspaced] at hsign
  simp only [tokenization, hsign] at htokens
  rw [htokens]
  simp only [List.length_append, List.length_cons, List.length_nil, ← hposition, Nat.add_assoc]
  congr 2
  omega

/-- A sign directly behind a dot is one token more. -/
theorem ofChars_append_dot (h : ofChars front = ⟨ts, .finished front.length spaced⟩)
    (hkind : kind ∉ [.label, .finish]) (hhyphen : kind ≠ .hyphen)
    (hdot : ∃ t ∈ ts.getLast?, t.kind = .dot) (hblank : ¬ BlankBefore front front.length) :
    ofChars (front ++ kind.sign) =
      ⟨ts ++ [.ofKind kind front.length false], .finished (front ++ kind.sign).length false⟩ := by
  obtain ⟨position, previous, gap, hscans, -, hposition, hgap⟩ := exists_scans_of_finished h
  obtain rfl : gap = [] := by
    by_contra hne
    exact hblank (hgap.mp hne)
  have htokens : ofChars (front ++ kind.sign) = _ :=
    (hscans.append_of_dot hdot kind.sign).tokenization_eq
  have hsign := ofCharsFrom_sign position previous [] hkind (.inr hhyphen) (List.forall_mem_nil _)
  simp only [tokenization, hsign] at htokens
  rw [htokens]
  simp only [List.length_append, ← hposition]
  rfl

end Tokenization

/-! ### Steps behind a sign -/

namespace Progress

variable {source : String} {maxDepth limit : Int} {p q : Progress} {t : Token} {ts : List Token}
  {kind : TokenKind} {place : Place} {chain : Chain}

/-- What is read within one limit on depth is read within every higher one. -/
theorem step_of_le (h : p.step source maxDepth t = .ok q) (hle : maxDepth ≤ limit) :
    p.step source limit t = .ok q := by
  have hdepth := (follows_of_step h).le_of_read h
  exact (follows_of_step h).read_eq_ok (by omega)

theorem foldlM_step_of_le (h : ts.foldlM (step source maxDepth) p = .ok q)
    (hle : maxDepth ≤ limit) : ts.foldlM (step source limit) p = .ok q :=
  Outcome.foldlM_eq_ok_of_forall (fun _ _ _ hstep ↦ step_of_le hstep hle) h

/-- What has been read is the beginning of an expression: nothing in it is at fault, and white space
may follow. -/
def Ready : Progress → Prop
  | part _ _ _ => False
  | spelling _ s _ => ∃ l, s.literal "" = .ok l
  | operand _ | literal _ _ | operator _ => True

/-- An operand may have ended, and made a chain. -/
def Ends (chain : Chain) : Progress → Prop
  | spelling role s place => ∃ l, s.literal "" = .ok l ∧ chain = place.ended (role.expression l)
  | operator c => chain = c
  | operand _ | literal _ _ | part _ _ _ => False

/-- The sign of a kind may follow behind white space. -/
def Admits (p : Progress) (kind : TokenKind) : Prop :=
  ∀ position, ∃ maxDepth q, p.step "" maxDepth (.ofKind kind position true) = .ok q ∧ q.Ready

/-- A sign of a part is a part of a literal, and no label. -/
theorem exists_addPart (s : Spelling) (position : Nat) (spaced : Bool)
    (h : kind ∈ TokenKind.literalPart) :
    ∃ s', s.addPart "" (.ofKind kind position spaced) = .ok s' ∧ s'.isLabeled = s.isLabeled := by
  simp only [TokenKind.literalPart, List.mem_cons, List.not_mem_nil, or_false] at h
  rcases h with rfl | rfl
  · exact ⟨{ s with numbers := s.numbers ++ [1] }, rfl, rfl⟩
  · exact ⟨{ s with wildcards := s.wildcards + 1 }, rfl, rfl⟩

private theorem ready_of_unlabeled {role : Role} {s : Spelling} (h : s.isLabeled = false) :
    (spelling role s place).Ready :=
  Spelling.exists_literal_of_unlabeled "" h

private theorem enter_depth (t : Token) (place : Place) :
    enter place.depth t place = .ok (operand place) :=
  if_neg (Int.lt_irrefl _)

/-- Every sign that begins an operand may stand in its place. -/
theorem admits_operand (place : Place) (h : kind ∈ TokenKind.operandStart) :
    (operand place).Admits kind := by
  intro position
  simp only [TokenKind.operandStart, List.mem_cons, List.not_mem_nil, or_false] at h
  rcases h with rfl | rfl | rfl | rfl | rfl | rfl | rfl
  · exact ⟨0, literal .caret place, rfl, trivial⟩
  · exact ⟨0, literal (.comparison (.is .equal)) place, rfl, trivial⟩
  · exact ⟨_, _, enter_depth _ ⟨{}, place.level :: place.outer⟩, trivial⟩
  · exact ⟨_, _, enter_depth _ _, trivial⟩
  · exact ⟨0, spelling .plain { numbers := [1] } place, rfl, ready_of_unlabeled rfl⟩
  · exact ⟨0, literal .tilde place, rfl, trivial⟩
  · exact ⟨0, spelling .plain { wildcards := 1 } place, rfl, ready_of_unlabeled rfl⟩

theorem admits_literal (role : Role) (place : Place) (h : kind ∈ TokenKind.literalPart) :
    (literal role place).Admits kind := by
  intro position
  simp only [TokenKind.literalPart, List.mem_cons, List.not_mem_nil, or_false] at h
  rcases h with rfl | rfl
  · exact ⟨0, spelling role { numbers := [1] } place, rfl, ready_of_unlabeled rfl⟩
  · exact ⟨0, spelling role { wildcards := 1 } place, rfl, ready_of_unlabeled rfl⟩

/-- Where an operand may have ended, a sign is read behind it, if it makes no hyphen range. -/
theorem Ends.step_eq (h : p.Ends chain) (hkind : kind ≠ .hyphen) (position : Nat) :
    p.step "" maxDepth (.ofKind kind position true) =
      stepOperator "" maxDepth chain (.ofKind kind position true) := by
  cases p with
  | spelling role s place =>
    obtain ⟨l, hl, rfl⟩ := h
    rw [step, hl]
    change stepBehind "" maxDepth role l place _ = _
    unfold stepBehind
    split
    · next hhyphen => exact absurd hhyphen hkind
    · rfl
  | operator c =>
    obtain rfl : chain = c := h
    rfl
  | operand | literal | part => exact h.elim

private theorem Ends.finish_eq (h : p.Ends chain) (position : Nat) :
    p.finish source position = finishOperator position chain := by
  cases p with
  | spelling role s place =>
    obtain ⟨l, hl, rfl⟩ := h
    rw [finish, Spelling.literal_of_source source hl]
    rfl
  | operator c =>
    obtain rfl : chain = c := h
    rfl
  | operand | literal | part => exact h.elim

/-- Signs between operands may follow an operand. -/
theorem Ends.admits_sign (h : p.Ends chain) (hkind : kind = .and ∨ kind = .or) :
    p.Admits kind := by
  intro position
  rcases hkind with rfl | rfl
  · exact ⟨0, _, h.step_eq (by decide) position, trivial⟩
  · exact ⟨0, _, h.step_eq (by decide) position, trivial⟩

/-- In a group the operand may be its last one. -/
theorem Ends.step_closing {level : Level} {outer : List Level} (h : p.Ends chain)
    (houter : chain.outer = level :: outer) (maxDepth : Int) (position : Nat) :
    p.step "" maxDepth (.ofKind .closing position true) =
      .ok (operator (Place.ended ⟨level, outer⟩ chain.expression)) := by
  rw [h.step_eq (by decide)]
  simp only [stepOperator, Token.ofKind, houter]

/-- A hyphen may stand behind a literal that makes a range of its own. -/
theorem admits_hyphen {s : Spelling} {l : Literal} (hl : s.literal "" = .ok l) :
    (spelling .plain s place).Admits .hyphen := by
  intro position
  refine ⟨0, literal (.upperEnd l) place, ?_, trivial⟩
  rw [step, hl]
  rfl

private theorem firstPart_ne_part {role role' : Role} {s s' : Spelling} {place' : Place} :
    (do
      let s ← s'.addPart source t
      .ok (spelling role' s place')) ≠ Except.ok (part role s place) := by
  intro h
  obtain ⟨_, -, h⟩ := Outcome.bind_eq_ok_iff.mp h
  cases h

private theorem stepOperand_ne_part {role : Role} {s : Spelling} {place' : Place} :
    stepOperand source maxDepth place' t ≠ .ok (part role s place) := by
  intro h
  unfold stepOperand at h
  split at h
  · cases eq_operand_of_enter h
  · cases eq_operand_of_enter h
  · split at h <;> cases h
  · cases h
  · cases h
  · exact firstPart_ne_part h
  · exact firstPart_ne_part h
  · cases h

private theorem stepOperator_ne_part {role : Role} {s : Spelling} :
    stepOperator source maxDepth chain t ≠ .ok (part role s place) := by
  intro h
  unfold stepOperator at h
  split at h
  · cases h
  · split at h <;> cases h
  · split at h
    · cases h
    · split at h
      · exact stepOperand_ne_part h
      · split at h <;> cases h

/-- Only behind the dot of a literal without labels a part of it has to follow. -/
theorem of_step_eq_part {role : Role} {s : Spelling}
    (h : p.step source maxDepth t = .ok (part role s place)) :
    t.kind = .dot ∧ s.isLabeled = false := by
  cases p with
  | operand => exact absurd h stepOperand_ne_part
  | operator => exact absurd h stepOperator_ne_part
  | literal =>
    rw [step] at h
    split at h
    · exact absurd h firstPart_ne_part
    · cases h
  | part =>
    rw [step] at h
    split at h
    · cases h
    · split at h
      · cases h
      · exact absurd h firstPart_ne_part
  | spelling =>
    rw [step] at h
    split at h
    · obtain ⟨l, -, h⟩ := Outcome.bind_eq_ok_iff.mp h
      unfold stepBehind at h
      split at h
      · cases h
      · exact absurd h stepOperator_ne_part
    · unfold stepWithin at h
      split at h
      · next hdot =>
        split at h
        · cases h
        · next hfree =>
          cases h
          rw [Bool.or_eq_true, not_or, Bool.not_eq_true] at hfree
          exact ⟨hdot, hfree.1⟩
      · obtain ⟨_, -, h⟩ := Outcome.bind_eq_ok_iff.mp h
        cases h
      · cases h

/-! ### Texts behind a sign -/

/-- A text has been read up to its end within some limit on depth: its tokens, and the state behind
them. -/
structure ReadsTo (front : List Char) (ts : List Token) (q : Progress) : Prop where
  tokens : ∃ spaced, Tokenization.ofChars front = ⟨ts, .finished front.length spaced⟩
  run : ∃ maxDepth, ts.foldlM (step "" maxDepth) start = .ok q

variable {front front' : List Char}

private theorem ReadsTo.snoc (h : ReadsTo front ts p)
    (htokens : ∃ spaced, Tokenization.ofChars front' = ⟨ts ++ [t], .finished front'.length spaced⟩)
    (hstep : p.step "" maxDepth t = .ok q) : ReadsTo front' (ts ++ [t]) q where
  tokens := htokens
  run := by
    obtain ⟨limit, hrun⟩ := h.run
    refine ⟨max limit maxDepth, ?_⟩
    rw [List.foldlM_append, foldlM_step_of_le hrun (Int.le_max_left ..)]
    change [t].foldlM (step "" (max limit maxDepth)) p = _
    rw [List.foldlM_cons, step_of_le hstep (Int.le_max_right ..)]
    rfl

private theorem ReadsTo.snoc_space (h : ReadsTo front ts p) (hkind : kind ∉ [.label, .finish])
    (hstep : p.step "" maxDepth (.ofKind kind (front.length + 1) true) = .ok q) :
    ReadsTo (front ++ ' ' :: kind.sign) (ts ++ [.ofKind kind (front.length + 1) true]) q := by
  obtain ⟨spaced, htokens⟩ := h.tokens
  exact h.snoc ⟨false, Tokenization.ofChars_append_space htokens hkind⟩ hstep

/-- Behind a text that a part of a literal has to follow, a dot is the last token. -/
theorem ReadsTo.exists_dot {role : Role} {s : Spelling}
    (h : ReadsTo front ts (part role s place)) :
    (∃ t ∈ ts.getLast?, t.kind = .dot) ∧ s.isLabeled = false := by
  obtain ⟨maxDepth, hrun⟩ := h.run
  rcases List.eq_nil_or_concat ts with rfl | ⟨init, t, rfl⟩
  · cases hrun
  · rw [List.concat_eq_append, List.foldlM_append] at hrun
    obtain ⟨p, -, hrun⟩ := Outcome.bind_eq_ok_iff.mp hrun
    rw [List.foldlM_cons] at hrun
    obtain ⟨q, hstep, hrun⟩ := Outcome.bind_eq_ok_iff.mp hrun
    cases hrun
    obtain ⟨hdot, hunlabeled⟩ := of_step_eq_part hstep
    exact ⟨⟨t, by simp, hdot⟩, hunlabeled⟩

/-- A text that is read as an expression begins with a text and its tokens. -/
def Completes (front : List Char) (ts : List Token) : Prop :=
  ∃ (text : String) (limits : Limits) (e : Expression), Expression.parse text limits = .ok e ∧
    front <+: text.toList ∧ ts <+: (Tokenization.ofChars text.toList).tokens

private theorem Completes.of_append {more : List Char} {us : List Token}
    (h : Completes (front ++ more) (ts ++ us)) : Completes front ts := by
  obtain ⟨text, limits, e, hparse, hfront, hts⟩ := h
  exact ⟨text, limits, e, hparse, (List.prefix_append ..).trans hfront,
    (List.prefix_append ..).trans hts⟩

/-- Outside of all groups an expression has been read where an operand may have ended. -/
theorem ReadsTo.exists_parse (h : ReadsTo front ts p) (hends : p.Ends chain)
    (houter : chain.outer = []) :
    ∃ limits, Expression.parse (.ofList front) limits = .ok chain.expression := by
  obtain ⟨spaced, htokens⟩ := h.tokens
  obtain ⟨maxDepth, hrun⟩ := h.run
  refine ⟨⟨front.length, maxDepth⟩, ?_⟩
  rw [Expression.parse, String.toList_ofList, if_neg (Int.lt_irrefl _), htokens,
    Expression.ofTokenization]
  simp only [foldlM_step_of_source (.ofList front) hrun]
  refine (hends.finish_eq front.length).trans ?_
  rw [finishOperator, houter]

/-- Where an operand may have ended, closing the groups that are open makes an expression. -/
theorem ReadsTo.completes_of_ends (h : ReadsTo front ts p) (hends : p.Ends chain) :
    Completes front ts := by
  obtain ⟨alternatives, conjunction, outer⟩ := chain
  induction outer generalizing front ts p alternatives conjunction with
  | nil =>
    obtain ⟨spaced, htokens⟩ := h.tokens
    obtain ⟨limits, hparse⟩ := h.exists_parse hends rfl
    refine ⟨.ofList front, limits, _, hparse, ?_, ?_⟩
    · simp only [String.toList_ofList, List.prefix_refl]
    · simp only [String.toList_ofList, htokens, List.prefix_refl]
  | cons level outer ih =>
    have hclosed := h.snoc_space (by decide) (hends.step_closing rfl 0 _)
    exact (ih hclosed _ _ rfl).of_append

/-- Whatever stands behind a state that nothing is at fault in, an expression can be made of it. -/
theorem ReadsTo.completes_of_ready (h : ReadsTo front ts p) (hready : p.Ready) :
    Completes front ts := by
  -- A number ends every operand that is still to come.
  have hnumber {role : Role} {place : Place}
      (hstep : p.step "" 0 (.ofKind .number (front.length + 1) true) =
        .ok (spelling role { numbers := [1] } place)) : Completes front ts :=
    ((h.snoc_space (by decide) hstep).completes_of_ends ⟨_, rfl, rfl⟩).of_append
  cases p with
  | operand place => exact hnumber rfl
  | literal role place => exact hnumber rfl
  | part role s place => exact hready.elim
  | spelling role s place =>
    obtain ⟨l, hl⟩ := hready
    exact h.completes_of_ends ⟨l, hl, rfl⟩
  | operator chain => exact h.completes_of_ends rfl

end Progress

namespace Expression

open Progress Remainder

/-- The kind of the first token that is left, or of the mark of the end if there is none. -/
def nextKind : List Token → TokenKind
  | [] => .finish
  | t :: _ => t.kind

/-- A text that is read as an expression within some limits begins with a text, and the next token
behind this has a certain kind. -/
def Continues (front : List Char) (kind : TokenKind) : Prop :=
  ∃ (text : String) (limits : Limits) (e : Expression) (index : Nat),
    parse text limits = .ok e ∧ front <+: text.toList ∧
      Splits (Tokenization.ofChars text.toList).tokens front.length index ∧
      nextKind ((Tokenization.ofChars text.toList).tokens.drop index) = kind

variable {front front' : List Char} {p q : Progress} {t : Token} {ts : List Token}
  {kind : TokenKind} {chain : Chain} {maxDepth : Int}

/-- A text goes on with a token that is read behind it, if what is read then can be completed. -/
theorem continues_of_step (h : ReadsTo front ts p) (h' : ReadsTo front' (ts ++ [t]) q)
    (hready : q.Ready) (hfront : front <+: front') (hposition : front.length ≤ t.position) :
    Continues front t.kind := by
  obtain ⟨text, limits, e, hparse, htext, more, hmore⟩ := h'.completes_of_ready hready
  obtain ⟨spaced, htokens⟩ := h.tokens
  have hbefore := (Tokenization.accounts_tokens front).1
  rw [htokens] at hbefore
  rw [List.append_assoc] at hmore
  have hsplits := (Tokenization.accounts_tokens text.toList).1
  rw [← hmore] at hsplits
  refine ⟨text, limits, e, ts.length, hparse, hfront.trans htext, ⟨?_, ?_⟩, ?_⟩
  · rw [← hmore, List.take_left]
    exact fun u hu ↦ (hbefore.within u hu).2
  · rw [← hmore]
    exact fun u hu ↦ Nat.le_trans hposition (hsplits.splits_position.behind u hu)
  · rw [← hmore, List.drop_left]
    rfl

/-- A text goes on with the kinds that the state behind it admits. -/
theorem continues_of_admits (h : ReadsTo front ts p) (hadmits : p.Admits kind)
    (hkind : kind ∉ [.label, .finish]) : Continues front kind := by
  obtain ⟨maxDepth, q, hstep, hready⟩ := hadmits (front.length + 1)
  exact continues_of_step h (h.snoc_space hkind hstep) hready (List.prefix_append ..)
    (Nat.le_succ _)

/-- Outside of all groups a text may end where an operand may have ended. -/
theorem continues_of_ends (h : ReadsTo front ts p) (hends : p.Ends chain)
    (houter : chain.outer = []) : Continues front .finish := by
  obtain ⟨limits, hparse⟩ := h.exists_parse hends houter
  obtain ⟨spaced, htokens⟩ := h.tokens
  have haccounts := (Tokenization.accounts_tokens front).1
  rw [htokens] at haccounts
  refine ⟨.ofList front, limits, _, ts.length, hparse, ?_, ?_, ?_⟩
  · simp only [String.toList_ofList, List.prefix_refl]
  · rw [String.toList_ofList, htokens]
    exact haccounts.splits_limit
  · rw [String.toList_ofList, htokens, List.drop_length]
    rfl

/-- Directly behind its dot a literal goes on with a part, but not with a number behind a
wildcard. -/
theorem continues_of_part {role : Role} {s : Spelling} {place : Place}
    (h : ReadsTo front ts (.part role s place)) (hblank : ¬ BlankBefore front front.length)
    (hkind : kind ∈ TokenKind.literalPart) (hwildcard : 0 < s.wildcards → kind ≠ .number) :
    Continues front kind := by
  obtain ⟨spaced, htokens⟩ := h.tokens
  obtain ⟨hdot, hunlabeled⟩ := h.exists_dot
  obtain ⟨s', hadd, hlabels⟩ := exists_addPart s front.length false hkind
  have hother : kind ∉ [.label, .finish] ∧ kind ≠ .hyphen := by
    simp only [TokenKind.literalPart, List.mem_cons, List.not_mem_nil, or_false] at hkind
    rcases hkind with rfl | rfl <;> decide
  have hstep : (Progress.part role s place).step "" 0 (.ofKind kind front.length false) =
      .ok (.spelling role s' place) := by
    rw [step, if_neg, if_neg, hadd]
    · rfl
    · rw [Bool.and_eq_true, decide_eq_true_iff, decide_eq_true_iff, not_and]
      exact hwildcard
    · simpa [Token.ofKind] using hkind
  have hread := Tokenization.ofChars_append_dot htokens hother.1 hother.2 hdot hblank
  exact continues_of_step h (h.snoc ⟨false, hread⟩ hstep)
    (ready_of_unlabeled (hlabels.trans hunlabeled)) (List.prefix_append ..) (Nat.le_refl _)

end Expression

end VersionRange
