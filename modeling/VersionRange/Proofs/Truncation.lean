import VersionRange.Proofs.Cuts
import VersionRange.Proofs.Depth

/-!
# Truncated texts

A text that is read as an expression, cut behind one of its tokens, is read up to its end: what
stands there is an expression by itself, or its end comes too early. No other failure can be met,
since the tokens before the cut are read as in the whole text, and the literal that they end with
has been read there too.
-/

namespace VersionRange

private theorem Outcome.toOption_bind {α β ε : Type} (x : Except ε α) (f : α → Except ε β) :
    (x >>= f).toOption = x.toOption.bind fun a ↦ (f a).toOption := by
  cases x <;> rfl

private theorem Outcome.toOption_mapError {α ε δ : Type} (x : Except ε α) (f : ε → δ) :
    (x.mapError f).toOption = x.toOption := by
  cases x <;> rfl

/-! ### What is read does not depend on the text that failures quote -/

namespace Spelling

variable {s s' : Spelling} {source : String} {t : Token} {l : Literal}

private theorem toOption_addPart (source source' : String) (s : Spelling) (t : Token) :
    (s.addPart source t).toOption = (s.addPart source' t).toOption := by
  unfold addPart
  split
  · rfl
  · split <;> rfl

private theorem toOption_literal (source source' : String) (s : Spelling) :
    (s.literal source).toOption = (s.literal source').toOption := by
  have hlabel (read : Nat → List Char → Except Fault (List Word)) (label : Option Token) :
      (readLabel source read label).toOption = (readLabel source' read label).toOption := by
    cases label with
    | none => rfl
    | some t => rw [readLabel, readLabel, Outcome.toOption_mapError, Outcome.toOption_mapError]
  unfold literal
  split
  · rfl
  · rfl
  · rfl
  · simp only [Outcome.toOption_bind, hlabel]

/-- A literal is read alike whatever text its failures would quote. -/
theorem literal_of_source (source' : String) (h : s.literal source = .ok l) :
    s.literal source' = .ok l := by
  rwa [← Outcome.toOption_eq_some_iff, toOption_literal source' source,
    Outcome.toOption_eq_some_iff]

/-- What is read of a literal with one more label is read without that label. -/
theorem exists_literal_of_addLabel (hadd : s.addLabel t = .ok s')
    (h : s'.literal source = .ok l) : ∃ l, s.literal source = .ok l := by
  rw [addLabel] at hadd
  split at hadd
  · cases hadd
  · next hfree =>
    simp only [Bool.or_eq_true, Bool.and_eq_true, not_or, not_and, bne_iff_ne, ne_eq,
      Decidable.not_not, Bool.not_eq_true, Option.isSome_eq_false_iff,
      Option.isNone_iff_eq_none] at hfree
    obtain ⟨major, minor, patch, hnumbers⟩ := List.length_eq_three.mp hfree.1.1
    split at hadd
    · next hhyphen =>
      cases hadd
      simp only [literal, hnumbers, Outcome.bind_eq_ok_iff] at h ⊢
      obtain ⟨-, -, build, hbuild, -⟩ := h
      exact ⟨_, [], by rw [hfree.2 hhyphen]; rfl, build, hbuild, [], rfl, rfl⟩
    · cases hadd
      simp only [literal, hnumbers, Outcome.bind_eq_ok_iff] at h ⊢
      obtain ⟨words, hwords, -, -, identifiers, hidentifiers, -⟩ := h
      exact ⟨_, words, hwords, [], by rw [hfree.1.2]; rfl, identifiers, hidentifiers, rfl⟩

/-- Parts without labels make a literal. -/
theorem exists_literal_of_unlabeled (source : String) (h : s.isLabeled = false) :
    ∃ l, s.literal source = .ok l := by
  rw [isLabeled, Bool.or_eq_false_iff, Option.isSome_eq_false_iff, Option.isSome_eq_false_iff,
    Option.isNone_iff_eq_none, Option.isNone_iff_eq_none] at h
  rw [literal, h.1, h.2]
  split
  · exact ⟨_, rfl⟩
  · exact ⟨_, rfl⟩
  · exact ⟨_, rfl⟩
  · exact ⟨_, rfl⟩

end Spelling

namespace Progress

variable {source : String} {maxDepth : Int} {position : Nat} {p q : Progress} {t : Token}
  {ts : List Token} {e : Expression}

private theorem toOption_stepOperand (source source' : String) (maxDepth : Int) (place : Place)
    (t : Token) :
    (stepOperand source maxDepth place t).toOption =
      (stepOperand source' maxDepth place t).toOption := by
  unfold stepOperand
  split <;> try rfl
  · rw [Outcome.toOption_bind, Outcome.toOption_bind, Spelling.toOption_addPart source source']
  · rw [Outcome.toOption_bind, Outcome.toOption_bind, Spelling.toOption_addPart source source']

private theorem toOption_stepOperator (source source' : String) (maxDepth : Int) (chain : Chain)
    (t : Token) :
    (stepOperator source maxDepth chain t).toOption =
      (stepOperator source' maxDepth chain t).toOption := by
  unfold stepOperator
  split
  · rfl
  · rfl
  · split
    · rfl
    · split
      · exact toOption_stepOperand ..
      · rfl

private theorem toOption_stepBehind (source source' : String) (maxDepth : Int) (role : Role)
    (l : Literal) (place : Place) (t : Token) :
    (stepBehind source maxDepth role l place t).toOption =
      (stepBehind source' maxDepth role l place t).toOption := by
  unfold stepBehind
  split
  · rfl
  · exact toOption_stepOperator ..

private theorem toOption_step (source source' : String) (maxDepth : Int) (p : Progress)
    (t : Token) : (p.step source maxDepth t).toOption = (p.step source' maxDepth t).toOption := by
  unfold step
  split
  · exact toOption_stepOperand ..
  · split
    · rw [Outcome.toOption_bind, Outcome.toOption_bind, Spelling.toOption_addPart source source']
    · rfl
  · split
    · rfl
    · split
      · rfl
      · rw [Outcome.toOption_bind, Outcome.toOption_bind, Spelling.toOption_addPart source source']
  · split
    · simp only [Outcome.toOption_bind, Spelling.toOption_literal source source',
        toOption_stepBehind source source']
    · rfl
  · exact toOption_stepOperator ..

/-- Tokens that are read in one text are read in every other. -/
theorem foldlM_step_of_source (source' : String)
    (h : ts.foldlM (step source maxDepth) p = .ok q) :
    ts.foldlM (step source' maxDepth) p = .ok q := by
  refine Outcome.foldlM_eq_ok_of_forall (fun p t q hstep ↦ ?_) h
  rwa [← Outcome.toOption_eq_some_iff, toOption_step source' source, Outcome.toOption_eq_some_iff]

/-! ### Ends -/

/-- A literal that is read on to the end of a text is a literal wherever it may go on. -/
theorem exists_literal_of_resume {role : Role} {s : Spelling} {place : Place}
    (h : resume source maxDepth position (spelling role s place) ts = .ok e) :
    ∃ l, s.literal source = .ok l := by
  induction ts generalizing s with
  | nil =>
    change (spelling role s place).finish source position = .ok e at h
    obtain ⟨l, hl, -⟩ := Outcome.bind_eq_ok_iff.mp h
    exact ⟨l, hl⟩
  | cons t ts ih =>
    rw [resume_cons, step] at h
    obtain ⟨q, hstep, hrun⟩ := Outcome.bind_eq_ok_iff.mp h
    split at hstep
    · obtain ⟨l, hl, -⟩ := Outcome.bind_eq_ok_iff.mp hstep
      exact ⟨l, hl⟩
    · rw [stepWithin] at hstep
      split at hstep
      · split at hstep
        · cases hstep
        · next hopen =>
          rw [Bool.or_eq_true, not_or, Bool.not_eq_true] at hopen
          exact Spelling.exists_literal_of_unlabeled source hopen.1
      · obtain ⟨s', hadd, hstep⟩ := Outcome.bind_eq_ok_iff.mp hstep
        cases hstep
        obtain ⟨l, hl⟩ := ih hrun
        exact Spelling.exists_literal_of_addLabel hadd hl
      · cases hstep

private theorem finishOperator_ok_or_unexpectedEnd (position : Nat) (chain : Chain) :
    (∃ e, finishOperator position chain = .ok e) ∨
      ∃ expected, finishOperator position chain = .error (.unexpectedEnd expected position) := by
  unfold finishOperator
  split
  · exact .inl ⟨_, rfl⟩
  · exact .inr ⟨_, rfl⟩

/-- Tokens that can be read on to the end of a text make an expression, or are too few. -/
theorem finish_ok_or_unexpectedEnd (source' : String) (position' : Nat)
    (h : resume source maxDepth position q ts = .ok e) :
    (∃ e, q.finish source' position' = .ok e) ∨
      ∃ expected, q.finish source' position' = .error (.unexpectedEnd expected position') := by
  cases q with
  | operand place => exact .inr ⟨_, rfl⟩
  | literal role place => exact .inr ⟨_, rfl⟩
  | part role s place => exact .inr ⟨_, rfl⟩
  | operator chain => exact finishOperator_ok_or_unexpectedEnd position' chain
  | spelling role s place =>
    obtain ⟨l, hl⟩ := exists_literal_of_resume h
    rw [finish, Spelling.literal_of_source source' hl]
    exact finishOperator_ok_or_unexpectedEnd position' _

end Progress

namespace Expression

open Remainder

/-- A text that is read is read token by token, and its tokens reach to its end. -/
theorem resume_of_parse {text : String} {limits : Limits} {e : Expression}
    (h : parse text limits = .ok e) :
    text.toList.length ≤ limits.maxInputLength ∧ ∃ spaced,
      (Tokenization.ofChars text.toList).stop = .finished text.toList.length spaced ∧
        Progress.resume text limits.maxDepth text.toList.length .start
          (Tokenization.ofChars text.toList).tokens = .ok e := by
  rw [parse] at h
  split at h
  · cases h
  · next hlength =>
    rw [ofTokenization] at h
    obtain ⟨q, hrun, h⟩ := Outcome.bind_eq_ok_iff.mp h
    split at h
    · next position spaced hstop =>
      obtain rfl := Tokenization.eq_length_of_finished hstop
      refine ⟨Int.not_lt.mp hlength, spaced, hstop, ?_⟩
      rw [Progress.resume, hrun]
      exact h
    · cases h

/-- A text that is read, cut where no token reaches over the cut, is read too, or ends too early. -/
theorem parse_of_splits {text front : String} {limits : Limits} {e : Expression}
    {behind : List Char} {index : Nat} (h : parse text limits = .ok e)
    (hfront : text.toList = front.toList ++ behind)
    (hsplits : Splits (Tokenization.ofChars text.toList).tokens front.toList.length index) :
    (∃ e, parse front limits = .ok e) ∨
      ∃ expected, parse front limits = .error (.unexpectedEnd expected front.toList.length) := by
  obtain ⟨hlength, spaced, hstop, hresume⟩ := resume_of_parse h
  have hle : front.toList.length ≤ text.toList.length := by
    rw [hfront, List.length_append]
    omega
  have hreach : front.toList.length ≤ (Tokenization.ofChars text.toList).stop.position := by
    rw [hstop]
    exact hle
  rw [hfront] at hsplits hreach
  obtain ⟨spaced', htokens⟩ := Tokenization.ofChars_of_splits hsplits hreach
  rw [← hfront] at htokens
  rw [← List.take_append_drop index (Tokenization.ofChars text.toList).tokens] at hresume
  obtain ⟨q, hbefore, hafter⟩ := Progress.resume_append_eq_ok_iff.mp hresume
  rw [parse, if_neg (by omega), htokens, ofTokenization]
  simp only [Progress.foldlM_step_of_source front hbefore]
  exact Progress.finish_ok_or_unexpectedEnd front front.toList.length hafter

/-- A text that is read as an expression, cut behind one of its tokens or before all of them, is
either read as well, or its end is reported to come too early, at the cut. No other failure is
met. -/
theorem parse_truncated {text front : String} {limits : Limits} {e : Expression}
    (h : parse text limits = .ok e)
    (hfront : front = "" ∨ ∃ t ∈ (Tokenization.ofChars text.toList).all,
      front.toList = text.toList.take (t.position + t.text.length)) :
    (∃ e, parse front limits = .ok e) ∨
      ∃ expected, parse front limits = .error (.unexpectedEnd expected front.toList.length) := by
  rcases hfront with rfl | ⟨t, ht, hfront⟩
  · have htext : text.toList = "".toList ++ text.toList := rfl
    exact parse_of_splits h htext (splits_zero _)
  · obtain ⟨hle, index, hsplits⟩ := Tokenization.exists_splits_of_mem ht
    have htext : text.toList = front.toList ++ text.toList.drop (t.position + t.text.length) := by
      rw [hfront, List.take_append_drop]
    have hlength : front.toList.length = t.position + t.text.length := by
      rw [hfront, List.length_take, Nat.min_eq_left hle]
    exact parse_of_splits h htext (hlength ▸ hsplits)

/-- Within an open group, the text ends too early behind the sign of a disjunction. -/
theorem parse_truncated_open_group :
    let text := "(1.x || >=2)"
    let sign : Token := ⟨.or, ['|', '|'], 5, true⟩
    (∃ e, parse text = .ok e) ∧ sign ∈ (Tokenization.ofChars text.toList).all ∧
      "(1.x ||".toList = text.toList.take (sign.position + sign.text.length) ∧
      ∃ expected, parse "(1.x ||" = .error (.unexpectedEnd expected 7) := by
  intro text sign
  have hparse : (parse text).isOk = true := by decide +kernel
  have hsign : sign ∈ (Tokenization.ofChars text.toList).all := by decide +kernel
  have hfront : "(1.x ||".toList = text.toList.take (sign.position + sign.text.length) := by
    decide
  obtain ⟨e, he⟩ := Outcome.exists_of_isOk hparse
  refine ⟨⟨e, he⟩, hsign, hfront, ?_⟩
  rcases parse_truncated he (.inr ⟨sign, hsign, hfront⟩) with ⟨e', he'⟩ | hend
  · have hfails : (parse "(1.x ||").isOk = false := by decide +kernel
    rw [he'] at hfails
    cases hfails
  · exact hend

end Expression

end VersionRange
