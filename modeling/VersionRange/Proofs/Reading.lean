import VersionRange.Expression.Parser
import VersionRange.Proofs.Completeness
import VersionRange.Proofs.Scanning

/-!
# Expressions and the grammar

A text within the limits is read as an expression exactly if its tokens, all of them, derive this
expression. In particular tokens derive at most one expression.
-/

namespace VersionRange.Expression

open Grammar

/-- The tokens of a text are read as an expression exactly if they derive it and are all the
tokens of the text. -/
theorem ofTokenization_eq_ok_iff {source : String} {maxDepth : Int} {t : Tokenization}
    {e : Expression} (hreadable : Readable maxDepth {} t.tokens)
    (hmarked : ∀ u ∈ t.tokens, IsMarked u) :
    ofTokenization source maxDepth t = .ok e ↔
      (∃ position spaced, t.stop = .finished position spaced) ∧ Accepts t.tokens e := by
  obtain ⟨tokens, stop⟩ := t
  rw [ofTokenization]
  cases stop with
  | finished position spaced =>
    change Progress.resume source maxDepth position .start tokens = .ok e ↔ _
    constructor
    · intro h
      exact ⟨⟨position, spaced, rfl⟩, Progress.accepts_of_resume Progress.readAt_start hmarked h⟩
    · rintro ⟨-, h⟩
      exact Progress.resume_of_accepts h hreadable
  | illegal illegal =>
    constructor
    · intro h
      obtain ⟨_, -, h⟩ := Outcome.bind_eq_ok_iff.mp h
      cases h
    · rintro ⟨⟨_, _, h⟩, -⟩
      cases h

/-- Tokens derive at most one expression. -/
theorem eq_of_accepts {ts : List Token} {e e' : Expression} (hshort : ∀ t ∈ ts, IsShort t)
    (h : Accepts ts e) (h' : Accepts ts e') : e = e' := by
  -- The parser has one answer, whatever depth it is allowed.
  have hreadable : Readable (nesting ts) {} ts := ⟨Int.le_refl _, hshort⟩
  have hread : Progress.resume "" (nesting ts) 0 .start ts = .ok e :=
    Progress.resume_of_accepts h hreadable
  rw [Progress.resume_of_accepts h' hreadable, Except.ok.injEq] at hread
  exact hread.symm

/-- A range expression is read exactly if the whole text consists of tokens that derive it, and is
the expression that they derive: within the limits, and unless a number is too long. -/
theorem parse_eq_ok_iff_accepts (text : String) (limits : Limits)
    (hlength : text.toList.length ≤ limits.maxInputLength)
    (hnesting : nesting (Tokenization.ofChars text.toList).tokens ≤ limits.maxDepth)
    (hshort : ∀ t ∈ (Tokenization.ofChars text.toList).tokens, IsShort t) (e : Expression) :
    parse text limits = .ok e ↔
      (∃ position spaced, (Tokenization.ofChars text.toList).stop = .finished position spaced) ∧
        Accepts (Tokenization.ofChars text.toList).tokens e := by
  rw [parse, if_neg (Int.not_lt.mpr hlength)]
  exact ofTokenization_eq_ok_iff ⟨hnesting, hshort⟩ fun _ ↦ Tokenization.isMarked_of_mem_ofCharsFrom

/-- A partial literal in a group behind a negation is read within the usual limits. -/
theorem parse_eq_ok_iff_accepts_negated_group :
    let text := "!(1.x)"
    let t := Tokenization.ofChars text.toList
    text.toList.length ≤ (1024 : Int) ∧ nesting t.tokens ≤ (64 : Int) ∧
      (∀ u ∈ t.tokens, IsShort u) ∧ ∀ e, parse text = .ok e ↔
        (∃ position spaced, t.stop = .finished position spaced) ∧ Accepts t.tokens e := by
  have htokens : (Tokenization.ofChars "!(1.x)".toList).tokens =
      [⟨.not, ['!'], 0, false⟩, ⟨.opening, ['('], 1, false⟩, ⟨.number, ['1'], 2, false⟩,
        ⟨.dot, ['.'], 3, false⟩, ⟨.wildcard, ['x'], 4, false⟩, ⟨.closing, [')'], 5, false⟩] := by
    decide +kernel
  have hlength : "!(1.x)".toList.length ≤ (1024 : Int) := by decide
  have hnesting : nesting (Tokenization.ofChars "!(1.x)".toList).tokens ≤ (64 : Int) := by
    rw [htokens]
    decide
  have hshort : ∀ u ∈ (Tokenization.ofChars "!(1.x)".toList).tokens, IsShort u := by
    rw [htokens]
    simp [IsShort, Text.maxDigits]
  exact ⟨hlength, hnesting, hshort, parse_eq_ok_iff_accepts "!(1.x)" {} hlength hnesting hshort⟩

/-- No label stands behind a partial literal, no number behind a wildcard, no white space within a
literal, and no comparator before a hyphen range. -/
example : ["1*", "1. 2", "1.x.0", "1.2-b", ">=1 - 2"].all fun text ↦ !(parse text).isOk := by
  decide +kernel

end VersionRange.Expression
