import Mathlib.Logic.Relation
import VersionRange.Proofs.Composition
import VersionRange.Proofs.Cuts

/-!
# White space between terms

White space counts only within version literals. Elsewhere it may be put in, and wherever there is
some it may be more, less or other white space; a conjunction sign may be replaced by a space. The
text that results is read as the same expression.
-/

namespace VersionRange

namespace Grammar

variable {ts us rest : List Token} {t : Token} {i : Nat}

/-! ### Literals among tokens -/

/-- The place before token `i` is within a literal: the literal begins before this place, and has
not ended there. -/
def InsideLiteral (ts : List Token) (i : Nat) : Prop :=
  ∃ j l rest, j < i ∧ LiteralAt (ts.drop j) l rest ∧ rest.length + i < ts.length

private theorem InsideLiteral.append (h : InsideLiteral ts i) (pre : List Token) :
    InsideLiteral (pre ++ ts) (pre.length + i) := by
  obtain ⟨j, l, rest, hlt, hliteral, hrest⟩ := h
  refine ⟨pre.length + j, l, rest, by omega, ?_, ?_⟩
  · rwa [List.drop_length_add_append]
  · rw [List.length_append]
    omega

/-- No literal goes on before a sign or behind it. -/
theorem not_insideLiteral_of_sign (ht : ts[i]? = some t) (hsign : ¬ InLiteral t) :
    ¬ InsideLiteral ts i ∧ ¬ InsideLiteral ts (i + 1) := by
  have houtside {k : Nat} (hle : i ≤ k) (hge : k ≤ i + 1) : ¬ InsideLiteral ts k := by
    rintro ⟨j, l, rest, hlt, hliteral, hrest⟩
    obtain ⟨pre, hpre, -, hkinds⟩ := hliteral.exists_eq_append
    have hlength : ts.length - j = pre.length + rest.length := by
      rw [← List.length_drop, hpre, List.length_append]
    have hmem : t ∈ pre := by
      refine List.mem_of_getElem? (i := i - j) ?_
      rw [← ht, ← List.getElem?_append_left (by omega), ← hpre, List.getElem?_drop,
        Nat.add_sub_of_le (by omega)]
    exact hsign (hkinds t hmem)
  exact ⟨houtside (Nat.le_refl _) (Nat.le_succ _), houtside (Nat.le_succ _) (Nat.le_refl _)⟩

/-- The last token before a place is no dot. -/
def BehindNoDot (ts rest : List Token) : Prop := ∃ pre t, ts = pre ++ t :: rest ∧ t.kind ≠ .dot

private theorem PartsAt.behindNoDot {numbers : List Nat} {wildcards : Nat}
    (h : PartsAt ts numbers wildcards rest) : BehindNoDot ts rest := by
  induction h with
  | number hn => exact ⟨[], _, rfl, by simp [hn.1]⟩
  | wildcard hkind => exact ⟨[], _, rfl, by simp [hkind]⟩
  | @nextNumber _ _ dot u _ _ _ _ hn ih =>
    obtain ⟨pre, t, rfl, -⟩ := ih
    exact ⟨pre ++ [t, dot], u, by simp, by simp [hn.1]⟩
  | @nextWildcard _ _ dot u _ _ _ _ hkind ih =>
    obtain ⟨pre, t, rfl, -⟩ := ih
    exact ⟨pre ++ [t, dot], u, by simp, by simp [hkind]⟩

private theorem LabelAt.behindNoDot {mark : Char} {isIdentifier : List Char → Bool}
    {words : List Word} (h : LabelAt mark isIdentifier us words rest) (hus : BehindNoDot ts us) :
    BehindNoDot ts rest := by
  cases h with
  | absent => exact hus
  | @present u _ _ _ hkind =>
    obtain ⟨pre, t, rfl, -⟩ := hus
    exact ⟨pre ++ [t], u, by simp, by simp [hkind]⟩

private theorem LiteralAt.behindNoDot {l : Literal} (h : LiteralAt ts l rest) :
    BehindNoDot ts rest := by
  cases h with
  | any hparts => exact hparts.behindNoDot
  | upToMajor hparts => exact hparts.behindNoDot
  | upToMinor hparts => exact hparts.behindNoDot
  | full hparts hprerelease hmetadata =>
    exact hmetadata.behindNoDot (hprerelease.behindNoDot hparts.behindNoDot)

/-- Up to a place, tokens are literals and other tokens side by side. -/
inductive Segments : List Token → List Token → Prop
  | nil {ts : List Token} : Segments ts ts
  | sign {t : Token} {ts rest : List Token} (h : ¬ InLiteral t) (behind : Segments ts rest) :
      Segments (t :: ts) rest
  | literal {ts us rest : List Token} {l : Literal} (h : LiteralAt ts l us)
      (behind : Segments us rest) : Segments ts rest

theorem Segments.trans (h : Segments ts us) (h' : Segments us rest) : Segments ts rest := by
  induction h with
  | nil => exact h'
  | sign hsign _ ih => exact .sign hsign (ih h')
  | literal hliteral _ ih => exact .literal hliteral (ih h')

private theorem not_inLiteral_of_kind {kind : TokenKind} (hkind : t.kind = kind)
    (h : kind ∉ [.number, .wildcard, .dot, .label] := by decide) : ¬ InLiteral t := by
  rwa [InLiteral, hkind]

private theorem Derives.segments {phrase : Phrase} {e : Expression} (h : Derives phrase ts e rest) :
    Segments ts rest := by
  induction h with
  | group hopening _ hclosing ih =>
    exact .sign (not_inLiteral_of_kind hopening)
      (ih.trans (.sign (not_inLiteral_of_kind hclosing) .nil))
  | comparison hkind _ hliteral =>
    exact .sign (not_inLiteral_of_kind hkind) (.literal hliteral .nil)
  | caret hkind hliteral => exact .sign (not_inLiteral_of_kind hkind) (.literal hliteral .nil)
  | tilde hkind hliteral => exact .sign (not_inLiteral_of_kind hkind) (.literal hliteral .nil)
  | plain hliteral => exact .literal hliteral .nil
  | hyphen hlow hkind hhigh =>
    exact .literal hlow (.sign (not_inLiteral_of_kind hkind) (.literal hhigh .nil))
  | primary _ ih => exact ih
  | not hkind _ ih => exact .sign (not_inLiteral_of_kind hkind) ih
  | operand _ ih => exact ih
  | juxtaposed _ _ ihleft ihright => exact ihleft.trans ihright
  | and _ hkind _ ihleft ihright =>
    exact ihleft.trans (.sign (not_inLiteral_of_kind hkind) ihright)
  | conjunction _ ih => exact ih
  | or _ hkind _ ihleft ihright =>
    exact ihleft.trans (.sign (not_inLiteral_of_kind hkind) ihright)

/-- A literal holds its dots and labels within it: neither stands first, and no dot stands last. -/
theorem LiteralAt.insideLiteral {l : Literal} (h : LiteralAt ts l rest) (ht : ts[i]? = some t)
    (hlt : rest.length + i < ts.length) :
    (t.kind = .dot ∨ t.kind = .label → InsideLiteral ts i) ∧
      (t.kind = .dot → InsideLiteral ts (i + 1)) := by
  refine ⟨fun hkind ↦ ⟨0, l, rest, ?_, h, hlt⟩, fun hkind ↦ ⟨0, l, rest, Nat.succ_pos i, h, ?_⟩⟩
  · -- The first token of a literal is a number or a wildcard.
    obtain ⟨s, _, rfl, hs⟩ := h.head
    rw [Nat.pos_iff_ne_zero]
    rintro rfl
    obtain rfl : s = t := Option.some.inj ht
    rcases hs with hs | hs <;> simp [hs] at hkind
  · -- The last token of a literal is no dot.
    obtain ⟨pre, s, hpre, hs⟩ := h.behindNoDot
    by_contra hge
    have hlast : i = pre.length := by
      have hlength : ts.length = pre.length + (rest.length + 1) := by
        rw [hpre, List.length_append, List.length_cons]
      omega
    rw [hpre, hlast, List.getElem?_append_right (Nat.le_refl _), Nat.sub_self] at ht
    obtain rfl : s = t := Option.some.inj ht
    exact hs hkind

/-- Literals among other tokens hold their dots and labels within them. -/
theorem Segments.insideLiteral (h : Segments ts rest) (ht : ts[i]? = some t)
    (hlt : rest.length + i < ts.length) :
    (t.kind = .dot ∨ t.kind = .label → InsideLiteral ts i) ∧
      (t.kind = .dot → InsideLiteral ts (i + 1)) := by
  induction h generalizing i with
  | nil => omega
  | @sign s ts rest hsign _ ih =>
    cases i with
    | zero =>
      obtain rfl : s = t := Option.some.inj ht
      refine ⟨fun hkind ↦ absurd ?_ hsign, fun hkind ↦ absurd ?_ hsign⟩
      · rcases hkind with hkind | hkind <;> simp [InLiteral, hkind]
      · simp [InLiteral, hkind]
    | succ i =>
      obtain ⟨hwithin, hdot⟩ := ih ht (by simpa [← Nat.add_assoc] using hlt)
      have hshift {k : Nat} (h : InsideLiteral ts k) : InsideLiteral (s :: ts) (k + 1) := by
        rw [Nat.add_comm]
        exact h.append [s]
      exact ⟨fun h ↦ hshift (hwithin h), fun h ↦ hshift (hdot h)⟩
  | @literal ts us rest l hliteral _ ih =>
    obtain ⟨pre, rfl, -⟩ := hliteral.exists_eq_append
    rw [List.length_append] at hlt
    by_cases hi : i < pre.length
    · exact hliteral.insideLiteral ht (by rw [List.length_append]; omega)
    · rw [List.getElem?_append_right (by omega)] at ht
      obtain ⟨hwithin, hdot⟩ := ih ht (by omega)
      have hshift {k : Nat} (h : InsideLiteral us (i - pre.length + k)) :
          InsideLiteral (pre ++ us) (i + k) := by
        have := h.append pre
        rwa [show pre.length + (i - pre.length + k) = i + k by omega] at this
      exact ⟨fun h ↦ hshift (k := 0) (hwithin h), fun h ↦ hshift (k := 1) (hdot h)⟩

/-- Outside of literals neither a dot nor a label stands behind a place, nor a dot before it. -/
theorem Accepts.free_of_not_insideLiteral {e : Expression} (h : Accepts ts e)
    (ht : ts[i]? = some t) (houtside : ¬ InsideLiteral ts i) :
    (ts.take i).getLast?.map Token.kind ≠ some .dot ∧ t.kind ∉ [.dot, .label] := by
  have hlt : i < ts.length := (List.getElem?_eq_some_iff.mp ht).1
  constructor
  · intro hdot
    obtain ⟨s, hs, hkind⟩ := Option.map_eq_some_iff.mp hdot
    obtain ⟨init, hinit⟩ := List.getLast?_eq_some_iff.mp hs
    have hlength : i = init.length + 1 := by
      have := congrArg List.length hinit
      rw [List.length_take, Nat.min_eq_left (Nat.le_of_lt hlt), List.length_append] at this
      exact this
    have hs' : ts[init.length]? = some s := by
      rw [← List.getElem?_take_of_lt (by omega : init.length < i), hinit]
      simp
    have := ((Derives.segments h).insideLiteral hs' (by rw [List.length_nil]; omega)).2 hkind
    rw [← hlength] at this
    exact houtside this
  · intro hkind
    refine houtside (((Derives.segments h).insideLiteral ht (by rw [List.length_nil]; omega)).1 ?_)
    simpa using hkind

end Grammar

/-! ### Signs among tokens -/

namespace Progress

variable {source : String} {maxDepth : Int} {position : Nat} {p q : Progress} {t : Token}
  {before behind : List Token} {e : Expression}

/-- A conjunction sign is read where no negation is open, and an operand follows it. -/
theorem of_step_and (h : p.step source maxDepth t = .ok q) (ht : t.kind = .and) :
    p.nesting.negations = 0 ∧ ∃ place, q = operand place := by
  have hoperator {chain : Chain} (h : stepOperator source maxDepth chain t = .ok q) :
      ∃ place, q = operand place := by
    simp only [stepOperator, ht, if_pos] at h
    exact ⟨_, (Except.ok.inj h).symm⟩
  cases p with
  | operand place =>
    simp only [step, stepOperand, ht] at h
    cases h
  | literal role place =>
    rw [step, ht, if_neg (by decide)] at h
    cases h
  | part role s place =>
    rw [step, ht, if_pos (by simp [TokenKind.literalPart])] at h
    cases h
  | spelling role s place =>
    rw [step, ht, if_pos (by simp [TokenKind.continuesLiteral])] at h
    obtain ⟨l, -, h⟩ := Outcome.bind_eq_ok_iff.mp h
    unfold stepBehind at h
    split at h
    · next hkind _ =>
      rw [ht] at hkind
      cases hkind
    · exact ⟨rfl, hoperator h⟩
  | operator chain => exact ⟨rfl, hoperator h⟩

private theorem operandStart_of_stepOperand {place : Place}
    (h : stepOperand source maxDepth place t = .ok q) :
    TokenKind.operandStart.contains t.kind = true := by
  unfold stepOperand at h
  split at h
  case h_8 => cases h
  all_goals
    next hkind =>
      rw [hkind]
      rfl

/-- In front of a conjunction sign there is no negation, and behind it an operand begins. -/
theorem of_resume_and (h : resume source maxDepth position p (before ++ t :: behind) = .ok e)
    (ht : t.kind = .and) :
    (∀ s ∈ before.getLast?, s.kind ≠ .not) ∧
      ∀ u ∈ behind.head?, TokenKind.operandStart.contains u.kind = true := by
  obtain ⟨p', hbefore, h⟩ := resume_append_eq_ok_iff.mp h
  rw [resume_cons] at h
  obtain ⟨q, hstep, hbehind⟩ := Outcome.bind_eq_ok_iff.mp h
  obtain ⟨hnegations, place, rfl⟩ := of_step_and hstep ht
  constructor
  · intro s hs hnot
    obtain ⟨init, rfl⟩ := List.getLast?_eq_some_iff.mp hs
    rw [List.foldlM_append] at hbefore
    obtain ⟨p'', -, hlast⟩ := Outcome.bind_eq_ok_iff.mp hbefore
    rw [List.foldlM_cons] at hlast
    obtain ⟨_, hlast, heq⟩ := Outcome.bind_eq_ok_iff.mp hlast
    cases heq
    rw [(follows_of_step hlast).nesting_eq, hnot] at hnegations
    cases hnegations
  · intro u hu
    obtain ⟨rest, rfl⟩ := List.head?_eq_some_iff.mp hu
    rw [resume_cons] at hbehind
    obtain ⟨_, hfirst, -⟩ := Outcome.bind_eq_ok_iff.mp hbehind
    exact operandStart_of_stepOperand hfirst

end Progress

namespace Tokenization

open Grammar Remainder

variable {position position' end' : Nat} {previous previous' : Option TokenKind} {spaced : Bool}
  {gap gap' rest cs cs' : List Char} {t : Token}

/-- The tokens of a text are the same wherever it stands. -/
theorem fronts_of_position (position' : Nat)
    (hstop : (ofCharsFrom position previous cs).stop = .finished end' spaced) :
    (∃ end' spaced, (ofCharsFrom position' previous cs).stop = .finished end' spaced) ∧
      Fronts [] (ofCharsFrom position previous cs).tokens
        (ofCharsFrom position' previous cs).tokens := by
  have hends : EndsToken [] := nofun
  obtain ⟨y, htail, hfronts⟩ := exists_fronts position' hends hstop
  obtain ⟨gap, kind, hgap, hy⟩ := htail.hasText
  rw [List.append_nil] at hy
  obtain ⟨end'', spaced', rfl⟩ := eq_of_hasText_blank hy hgap
  have hstop' := htail.stop
  rw [List.append_nil] at hstop' hfronts
  exact ⟨⟨end'', spaced', hstop'⟩, hfronts⟩

/-- White space at the front of a text stands before its first character that is none. -/
theorem exists_of_blank_append {before behind : List Char} {c : Char}
    (h : gap ++ cs = before ++ c :: behind) (hgap : ∀ d ∈ gap, Text.isBlank d = true)
    (hc : Text.isBlank c = false) : ∃ inner, before = gap ++ inner ∧ cs = inner ++ c :: behind := by
  rcases List.append_eq_append_iff.mp h with hinner | ⟨more, hmore, hbehind⟩
  · exact hinner
  · cases more with
    | nil => exact ⟨[], by rw [hmore, List.append_nil, List.append_nil], hbehind.symm⟩
    | cons d more =>
      obtain rfl : c = d := (List.cons.inj hbehind).1
      rw [hgap c (by simp [hmore])] at hc
      cases hc

/-- A token that is no label is the same whatever stands before it. -/
theorem classify?_none_of_ne_label {c : Char} {kind : TokenKind} {more : Nat}
    (h : classify? previous c cs = some (kind, more)) (hkind : kind ≠ .label) :
    classify? none c cs = some (kind, more) := by
  rw [classify?] at h ⊢
  split at h
  · next hdigit => rw [if_pos hdigit, h]
  · next hdigit =>
    split at h
    · cases h
      contradiction
    · rw [if_neg hdigit, if_neg (by exact Bool.false_ne_true)]
      exact h

/-- The first token behind white space is the same behind other white space, if it is no label. -/
theorem exists_scan_of_blank (position' : Nat) (previous' : Option TokenKind)
    (h : scan position previous (gap ++ cs) = .token t rest)
    (hgap : ∀ c ∈ gap, Text.isBlank c = true) (hgap' : ∀ c ∈ gap', Text.isBlank c = true)
    (hne : gap' ≠ []) (ht : t.spaced = true ∨ t.kind ≠ .label) :
    ∃ u, scan position' previous' (gap' ++ cs) = .token u rest ∧ t.kind = u.kind ∧
      t.text = u.text ∧ u.spaced = true := by
  obtain ⟨before, c, tail, more, hsource, hbefore, hc, hclass, htoken, rfl⟩ :=
    scan_eq_token_iff.mp h
  obtain ⟨inner, rfl, hcs⟩ := exists_of_blank_append hsource hgap hc
  have hspaced : t.spaced = !(gap ++ inner).isEmpty := by rw [htoken]
  have hnone : classify? none c tail = some (t.kind, more) := by
    split at hclass
    · next hempty =>
      rw [hempty] at hspaced
      rw [hspaced] at ht
      exact classify?_none_of_ne_label hclass (ht.resolve_left nofun)
    · exact hclass
  refine ⟨⟨t.kind, c :: tail.take more, position' + (gap' ++ inner).length, true⟩, ?_, rfl, ?_, rfl⟩
  · refine scan_eq_token_iff.mpr ⟨gap' ++ inner, c, tail, more, ?_, ?_, hc, ?_, ?_, rfl⟩
    · rw [hcs, List.append_assoc]
    · rw [List.forall_mem_append] at hbefore
      exact List.forall_mem_append.mpr ⟨hgap', hbefore.2⟩
    · rw [if_neg (by simp [hne])]
      exact hnone
    · simp [hne]
  · rw [htoken]

/-- Tokens behind white space differ from those behind other white space in nothing that a
derivation sees, unless they go on with a literal. -/
theorem varies_of_blank {before : Option TokenKind} (position' : Nat)
    (previous' : Option TokenKind)
    (hstop : (ofCharsFrom position previous (gap ++ cs)).stop = .finished end' spaced)
    (hgap : ∀ c ∈ gap, Text.isBlank c = true) (hgap' : ∀ c ∈ gap', Text.isBlank c = true)
    (hne : gap' ≠ [])
    (hfirst : ∀ t ∈ (ofCharsFrom position previous (gap ++ cs)).tokens.head?,
      t.spaced = true ∨ before ≠ some .dot ∧ t.kind ∉ [.dot, .label]) :
    (∃ end' spaced,
        (ofCharsFrom position' previous' (gap' ++ cs)).stop = .finished end' spaced) ∧
      Varies [] before (ofCharsFrom position previous (gap ++ cs)).tokens
        (ofCharsFrom position' previous' (gap' ++ cs)).tokens ∧
      ∀ u ∈ (ofCharsFrom position' previous' (gap' ++ cs)).tokens.head?, u.spaced = true := by
  cases hscan : scan position previous (gap ++ cs) with
  | finish limit spaced' =>
    obtain ⟨hblank, -, -⟩ := blank_of_finish hscan
    rw [List.forall_mem_append] at hblank
    rw [ofCharsFrom_of_blank (List.forall_mem_append.mpr hblank),
      ofCharsFrom_of_blank (List.forall_mem_append.mpr ⟨hgap', hblank.2⟩)]
    exact ⟨⟨_, _, rfl⟩, .nil, nofun⟩
  | illegal cause =>
    rw [ofCharsFrom_of_illegal hscan] at hstop
    cases hstop
  | token t rest =>
    rw [ofCharsFrom_of_token hscan] at hstop hfirst ⊢
    have ht := hfirst t rfl
    obtain ⟨u, hu, hkind, htext, hspaced⟩ :=
      exists_scan_of_blank position' previous' hscan hgap hgap' hne
        (ht.imp_right fun h hlabel ↦ h.2 (by simp [hlabel]))
    obtain ⟨hstop', hfronts⟩ := fronts_of_position (u.position + u.text.length) hstop
    rw [ofCharsFrom_of_token hu, ← hkind]
    refine ⟨hstop', .cons hkind htext ?_ (hfronts.varies _), ?_⟩
    · rcases ht with ht | ⟨hdot, ht⟩
      · exact .of_eq _ (ht.trans hspaced.symm)
      · exact .inr (.inr ⟨hspaced, hdot, ht⟩)
    · intro v hv
      obtain rfl : u = v := Option.some.inj hv
      exact hspaced

/-! ### Texts that are respaced -/

end Tokenization

open Grammar Remainder Tokenization

private theorem Grammar.Varies.append {tail ts us : List Token} {previous : Option TokenKind}
    (pre : List Token) (h : Varies tail ((pre.getLast?.map Token.kind).or previous) ts us) :
    Varies tail previous (pre ++ ts) (pre ++ us) := by
  induction pre generalizing previous with
  | nil => exact h
  | cons t pre ih =>
    refine .cons rfl rfl (.of_eq previous rfl) (ih ?_)
    rw [List.getLast?_cons] at h
    cases hlast : pre.getLast? with
    | none =>
      rw [hlast] at h
      exact h
    | some u =>
      rw [hlast] at h
      exact h

/-- A text is the other one with other white space in place of some, or with more of it outside of
version literals, or with a space in place of a conjunction sign. -/
inductive Respaced : List Char → List Char → Prop
  | replace {before run run' behind : List Char} (hne : run ≠ []) (hne' : run' ≠ [])
      (hrun : ∀ c ∈ run, Text.isBlank c = true) (hrun' : ∀ c ∈ run', Text.isBlank c = true) :
      Respaced (before ++ (run ++ behind)) (before ++ (run' ++ behind))
  | insert {before run behind : List Char} {i : Nat} (hne : run ≠ [])
      (hrun : ∀ c ∈ run, Text.isBlank c = true)
      (hsplits : Splits (ofChars (before ++ behind)).tokens before.length i)
      (houtside : ¬ InsideLiteral (ofChars (before ++ behind)).tokens i) :
      Respaced (before ++ behind) (before ++ (run ++ behind))
  | separate {before behind : List Char} {t : Token}
      (ht : t ∈ (ofChars (before ++ '&' :: '&' :: behind)).tokens) (hkind : t.kind = .and)
      (hposition : t.position = before.length) :
      Respaced (before ++ '&' :: '&' :: behind) (before ++ ' ' :: behind)

variable {cs cs' before behind run : List Char} {e : Expression} {i : Nat}

/-- White space may be put before a text. -/
theorem Respaced.front (hne : run ≠ []) (hrun : ∀ c ∈ run, Text.isBlank c = true) :
    Respaced cs (run ++ cs) :=
  @insert [] run cs 0 hne hrun (splits_zero _) fun ⟨_, _, _, h, _⟩ ↦ Nat.not_lt_zero _ h

/-- White space may be put behind a text. -/
theorem Respaced.back (hne : run ≠ []) (hrun : ∀ c ∈ run, Text.isBlank c = true) :
    Respaced cs (cs ++ run) := by
  obtain ⟨haccounts, -, hfits⟩ := accounts_tokens cs
  have hsplits : Splits (ofChars (cs ++ [])).tokens cs.length (ofChars cs).tokens.length := by
    rw [List.append_nil]
    refine ⟨fun t ht ↦ ?_, ?_⟩
    · exact Nat.le_trans (haccounts.splits_limit.before t ht) hfits.position_le
    · rw [List.drop_length]
      exact List.forall_mem_nil _
  have houtside : ¬ InsideLiteral (ofChars (cs ++ [])).tokens (ofChars cs).tokens.length := by
    rw [List.append_nil]
    rintro ⟨_, _, rest, -, -, hlt⟩
    omega
  have hspaced := Respaced.insert hne hrun hsplits houtside
  rwa [List.append_nil, List.append_nil] at hspaced

/-- A text whose tokens differ from those of another one in nothing that a derivation sees is a text
of the same expression. -/
theorem Tokenization.IsTextOf.of_varies (h : IsTextOf cs e)
    (hstop : ∃ position spaced, (ofChars cs').stop = .finished position spaced)
    (hvaries : Varies [] none (ofChars cs).tokens (ofChars cs').tokens) :
    IsTextOf cs' e ∧ textNesting cs' ≤ textNesting cs := by
  obtain ⟨_, _, hrest, haccepts⟩ :=
    Derives.exists_of_varies Progress.detached_nil h.accepts hvaries
  cases hrest
  have hdeepest := hvaries.deepest_le {} fun _ ↦ rfl
  rw [List.append_nil] at hdeepest
  exact ⟨⟨hstop, hvaries.isShort h.short nofun, haccepts⟩, hdeepest⟩

/-- White space splits the tokens of a text. -/
theorem exists_splits_of_blank (hne : run ≠ []) (hrun : ∀ c ∈ run, Text.isBlank c = true) :
    ∃ i, Splits (ofChars (before ++ (run ++ behind))).tokens before.length i := by
  obtain ⟨haccounts, -, -⟩ := accounts_tokens (before ++ (run ++ behind))
  refine exists_splits (haccounts.apart.imp And.left) fun t ht ↦ ?_
  by_contra hover
  -- A token that reached over the place would have its character there.
  obtain ⟨c, run, rfl⟩ := List.exists_cons_of_ne_nil hne
  have hc : c ∈ t.text := by
    rw [← haccounts.slice t ht]
    refine List.mem_of_getElem? (i := before.length - t.position) ?_
    rw [List.getElem?_take_of_lt (by omega), List.getElem?_drop, Nat.add_sub_of_le (by omega),
      List.getElem?_append_right (Nat.le_refl _), Nat.sub_self]
    rfl
  have hblank := hrun c List.mem_cons_self
  rw [isBlank_of_mem_ofCharsFrom ht c hc] at hblank
  cases hblank

/-- Behind white space the first token has white space before it. -/
theorem Tokenization.spaced_of_blank {position : Nat} {previous : Option TokenKind}
    {gap : List Char} (hne : gap ≠ []) (hgap : ∀ c ∈ gap, Text.isBlank c = true) :
    ∀ t ∈ (ofCharsFrom position previous (gap ++ behind)).tokens.head?, t.spaced = true := by
  cases gap with
  | nil => exact absurd rfl hne
  | cons c gap => exact HasText.spaced_of_head ⟨position, rfl⟩ (hgap c List.mem_cons_self)

/-- White space behind a cut may be replaced by other white space, and may be put there outside of
literals. -/
theorem Tokenization.IsTextOf.respaced_behind {gap gap' : List Char}
    (h : IsTextOf (before ++ (gap ++ behind)) e)
    (hsplits : Splits (ofChars (before ++ (gap ++ behind))).tokens before.length i)
    (hgap : ∀ c ∈ gap, Text.isBlank c = true) (hgap' : ∀ c ∈ gap', Text.isBlank c = true)
    (hne : gap' ≠ [])
    (houtside : gap ≠ [] ∨ ¬ InsideLiteral (ofChars (before ++ (gap ++ behind))).tokens i) :
    IsTextOf (before ++ (gap' ++ behind)) e ∧
      textNesting (before ++ (gap' ++ behind)) ≤ textNesting (before ++ (gap ++ behind)) := by
  obtain ⟨end', spaced, hstop⟩ := h.stop
  obtain ⟨position, previous, inner, hinner, hdrop, hstop', hcut⟩ := exists_cut hstop hsplits
  have htokens := hcut (gap' ++ behind) (endsToken_of_blank hne hgap')
  rw [← List.append_assoc inner] at hdrop hstop' htokens
  have hfirst : ∀ t ∈ (ofCharsFrom position previous (inner ++ gap ++ behind)).tokens.head?,
      t.spaced = true ∨ ((ofChars (before ++ (gap ++ behind))).tokens.take i).getLast?.map
        Token.kind ≠ some .dot ∧ t.kind ∉ [.dot, .label] := by
    intro t ht
    rcases houtside with hspace | houtside
    · have hspaces := List.forall_mem_append.mpr ⟨hinner, hgap⟩
      exact .inl (spaced_of_blank (by simp [hspace]) hspaces t ht)
    · rw [← hdrop, List.head?_drop] at ht
      exact .inr (h.accepts.free_of_not_insideLiteral ht houtside)
  obtain ⟨hfinished, hvaries, -⟩ := varies_of_blank position previous (hstop'.symm.trans hstop)
    (List.forall_mem_append.mpr ⟨hinner, hgap⟩) (List.forall_mem_append.mpr ⟨hinner, hgap'⟩)
    (by simp [hne]) hfirst
  refine h.of_varies ?_ ?_
  · rwa [htokens]
  · have happend : Varies [] none ((ofChars (before ++ (gap ++ behind))).tokens.take i ++
        (ofCharsFrom position previous (inner ++ gap ++ behind)).tokens)
        ((ofChars (before ++ (gap ++ behind))).tokens.take i ++
          (ofCharsFrom position previous (inner ++ gap' ++ behind)).tokens) :=
      .append _ (by rwa [Option.or_none])
    rw [← hdrop, List.take_append_drop] at happend
    rw [htokens]
    exact happend

private theorem Tokenization.exists_scan_and (position : Nat) (previous : Option TokenKind)
    (rest : List Char) {gap : List Char} (hgap : ∀ c ∈ gap, Text.isBlank c = true) :
    ∃ t, t.kind = .and ∧ scan position previous (gap ++ '&' :: '&' :: rest) = .token t rest := by
  refine ⟨⟨.and, ['&', '&'], position + gap.length, !gap.isEmpty⟩, rfl, ?_⟩
  refine scan_eq_token_iff.mpr ⟨gap, '&', '&' :: rest, 1, rfl, hgap, rfl, ?_, rfl, rfl⟩
  rw [classify?_sign rfl (by decide)]
  rfl

private theorem notMem_of_operandStart {kind : TokenKind}
    (h : TokenKind.operandStart.contains kind = true) : kind ∉ [.dot, .label] := by
  revert h
  cases kind <;> decide

/-- A conjunction sign may be replaced by a space. -/
theorem Tokenization.IsTextOf.separated {t : Token}
    (h : IsTextOf (before ++ '&' :: '&' :: behind) e)
    (ht : t ∈ (ofChars (before ++ '&' :: '&' :: behind)).tokens)
    (hposition : t.position = before.length) :
    IsTextOf (before ++ ' ' :: behind) e ∧
      textNesting (before ++ ' ' :: behind) ≤ textNesting (before ++ '&' :: '&' :: behind) := by
  obtain ⟨end', spaced, hstop⟩ := h.stop
  obtain ⟨pre, post, htokens⟩ := List.append_of_mem ht
  have hsplits : Splits (ofChars (before ++ '&' :: '&' :: behind)).tokens before.length
      pre.length := by
    have haccounts := (accounts_tokens (before ++ '&' :: '&' :: behind)).1
    rw [htokens] at haccounts ⊢
    rw [← hposition]
    exact haccounts.splits_position
  obtain ⟨position, previous, gap, hgap, hdrop, hstop', hcut⟩ := exists_cut hstop hsplits
  -- The sign stands behind the cut, and is followed by the tokens of the text behind it.
  obtain ⟨sign, hkind, hscan⟩ := exists_scan_and position previous behind hgap
  rw [htokens, List.drop_left, ofCharsFrom_of_token hscan] at hdrop
  rw [ofCharsFrom_of_token hscan] at hstop'
  obtain ⟨rfl, hpost⟩ := List.cons.inj hdrop
  have hresume : Progress.resume "" _ 0 .start (ofChars (before ++ '&' :: '&' :: behind)).tokens =
      .ok e := Progress.resume_of_accepts h.accepts ⟨Int.le_refl _, h.short⟩
  rw [htokens] at hresume
  obtain ⟨hnot, hstart⟩ := Progress.of_resume_and hresume hkind
  have hfirst : ∀ u ∈ (ofCharsFrom (t.position + t.text.length) (some t.kind)
      ([] ++ behind)).tokens.head?, u.spaced = true ∨
        some TokenKind.and ≠ some .dot ∧ u.kind ∉ [.dot, .label] := by
    exact fun u hu ↦ .inr ⟨by decide, notMem_of_operandStart (hstart u (hpost ▸ hu))⟩
  have hgap' : ∀ c ∈ gap ++ [' '], Text.isBlank c = true :=
    List.forall_mem_append.mpr ⟨hgap, isBlank_of_mem_space⟩
  obtain ⟨hfinished, hvaries, hspaced⟩ := varies_of_blank position previous
    (hstop'.symm.trans hstop) (List.forall_mem_nil _) hgap' (by simp) hfirst
  have htokens' := hcut (' ' :: behind) endsToken_space
  rw [htokens, List.take_left] at htokens'
  rw [List.append_assoc] at hfinished hvaries hspaced
  change Varies _ _ (ofCharsFrom _ _ behind).tokens _ at hvaries
  refine h.of_varies ?_ ?_
  · rw [htokens']
    exact hfinished
  · rw [htokens, htokens', hpost]
    refine .append pre (.drop hkind ?_ hspaced hvaries)
    rw [Option.or_none, ne_eq, Option.map_eq_some_iff, not_exists]
    exact fun s hs ↦ hnot s hs.1 hs.2

/-- Every change of white space keeps what a text is a text of, and nests it no deeper. -/
theorem Tokenization.IsTextOf.respaced (h : IsTextOf cs e) (hspace : Respaced cs cs') :
    IsTextOf cs' e ∧ textNesting cs' ≤ textNesting cs := by
  cases hspace with
  | replace hne hne' hrun hrun' =>
    obtain ⟨i, hsplits⟩ := exists_splits_of_blank hne hrun
    exact h.respaced_behind hsplits hrun hrun' hne' (.inl hne)
  | @insert before run behind i hne hrun hsplits houtside =>
    have hnone : IsTextOf (before ++ ([] ++ behind)) e := h
    exact hnone.respaced_behind hsplits (List.forall_mem_nil _) hrun hne (.inr houtside)
  | separate ht _ hposition => exact h.separated ht hposition

/-- So does any number of them. -/
theorem Tokenization.IsTextOf.respacings (h : IsTextOf cs e)
    (hspaces : Relation.ReflTransGen Respaced cs cs') :
    IsTextOf cs' e ∧ textNesting cs' ≤ textNesting cs := by
  induction hspaces with
  | refl => exact ⟨h, Nat.le_refl _⟩
  | tail _ hspace ih =>
    obtain ⟨h', hle⟩ := ih.1.respaced hspace
    exact ⟨h', Nat.le_trans hle ih.2⟩

namespace Expression

/-- A text that is read as an expression may have other white space in place of some, more of it
before and behind and wherever no version literal goes on, and spaces in place of conjunction signs:
it is read as the same expression, unless the limit on length forbids what is put in. -/
theorem parse_respaced {text text' : String} {limits : Limits} {e : Expression} {length : Int}
    (h : parse text limits = .ok e)
    (hspaces : Relation.ReflTransGen Respaced text.toList text'.toList)
    (hlength : text'.toList.length ≤ length) :
    parse text' { limits with maxInputLength := length } = .ok e := by
  obtain ⟨htext, -, hnesting⟩ := parse_eq_ok_iff_isTextOf.mp h
  obtain ⟨htext', hle⟩ := htext.respacings hspaces
  exact parse_eq_ok_iff_isTextOf.mpr
    ⟨htext', hlength, Int.le_trans (Int.ofNat_le.mpr hle) hnesting⟩

/-- A sign becomes a space, spaces become a tab, and spaces are put behind the comparator and at
both ends. -/
theorem parse_respaced_juxtaposed :
    let text := "1.x &&>=2"
    let text' := " 1.x\t>= 2 "
    Relation.ReflTransGen Respaced text.toList text'.toList ∧
      text'.toList.length ≤ (1024 : Int) ∧ ∃ e, parse text = .ok e ∧ parse text' = .ok e := by
  intro text text'
  have htext : text.toList = "1.x ".toList ++ '&' :: '&' :: ">=2".toList := by decide
  have htext' : text'.toList = [' '] ++ ("1.x\t>=".toList ++ ([' '] ++ "2".toList) ++ [' ']) := by
    decide
  have htokens : (ofChars ("1.x\t>=".toList ++ "2".toList)).tokens =
      [⟨.number, ['1'], 0, false⟩, ⟨.dot, ['.'], 1, false⟩, ⟨.wildcard, ['x'], 2, false⟩,
        ⟨.comparator, ['>', '='], 4, true⟩, ⟨.number, ['2'], 6, false⟩] := by
    decide +kernel
  have hseparate : Respaced text.toList ("1.x ".toList ++ ' ' :: ">=2".toList) := by
    have hsign : (⟨.and, ['&', '&'], 4, true⟩ : Token) ∈ (ofChars text.toList).tokens := by
      decide +kernel
    rw [htext] at hsign ⊢
    exact .separate hsign rfl (by decide)
  have hreplace : Respaced ("1.x".toList ++ ([' ', ' '] ++ ">=2".toList))
      ("1.x".toList ++ (['\t'] ++ ">=2".toList)) :=
    .replace (by decide) (by decide)
      (List.forall_mem_cons.mpr ⟨rfl, isBlank_of_mem_space⟩) (List.forall_mem_singleton.mpr rfl)
  have hleft : "1.x ".toList ++ ' ' :: ">=2".toList =
      "1.x".toList ++ ([' ', ' '] ++ ">=2".toList) := by decide
  have hright : "1.x".toList ++ (['\t'] ++ ">=2".toList) = "1.x\t>=".toList ++ "2".toList := by
    decide
  rw [← hleft, hright] at hreplace
  have hinsert : Respaced ("1.x\t>=".toList ++ "2".toList)
      ("1.x\t>=".toList ++ ([' '] ++ "2".toList)) := by
    refine .insert (i := 4) (by decide) isBlank_of_mem_space ?_ ?_
    · rw [htokens]
      exact ⟨by decide, by decide⟩
    · rw [htokens]
      exact (not_insideLiteral_of_sign rfl (not_inLiteral_of_kind rfl)).2
  have hback : Respaced ("1.x\t>=".toList ++ ([' '] ++ "2".toList))
      ("1.x\t>=".toList ++ ([' '] ++ "2".toList) ++ [' ']) :=
    .back (by decide) isBlank_of_mem_space
  have hfront : Respaced ("1.x\t>=".toList ++ ([' '] ++ "2".toList) ++ [' ']) text'.toList := by
    rw [htext']
    exact .front (by decide) isBlank_of_mem_space
  have hspaces : Relation.ReflTransGen Respaced text.toList text'.toList :=
    ((((Relation.ReflTransGen.single hseparate).tail hreplace).tail hinsert).tail hback).tail hfront
  have hlength : text'.toList.length ≤ (1024 : Int) := by decide
  have hparse : (parse text).isOk = true := by decide +kernel
  obtain ⟨e, he⟩ := Outcome.exists_of_isOk hparse
  exact ⟨hspaces, hlength, e, he, parse_respaced he hspaces hlength⟩

end Expression

end VersionRange
