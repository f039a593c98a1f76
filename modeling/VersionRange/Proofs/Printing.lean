import VersionRange.CommandLine.Report
import VersionRange.Proofs.Coverage
import VersionRange.Proofs.Depth
import VersionRange.Proofs.VersionText

/-!
# What is printed

Style sequences begin with an escape. Neither a version nor a text that is read as a range has one
in it, so that a line which is put together from such texts is printed as it is.
-/

namespace VersionRange

/-! ### Texts without escapes -/

namespace Text

private theorem ne_escape_of_isBlank {c : Char} (h : isBlank c = true) : c ≠ '\x1b' := by
  rintro rfl
  exact absurd h (by decide)

private theorem ne_escape_of_isVersionChar {c : Char} (h : isVersionChar c = true) :
    c ≠ '\x1b' := by
  rintro rfl
  exact absurd h (by decide)

private theorem ne_escape_of_isIdentifierChar {c : Char} (h : isIdentifierChar c = true) :
    c ≠ '\x1b' := by
  apply ne_escape_of_isVersionChar
  simp [isVersionChar, h]

/-- A style sequence begins with an escape. -/
theorem afterStyle?_eq_none {cs : List Char} (h : ∀ c ∈ cs, c ≠ '\x1b') :
    afterStyle? cs = none := by
  unfold afterStyle?
  split
  · exact absurd rfl (h '\x1b' List.mem_cons_self)
  · rfl

/-- A text without escapes is plain. -/
theorem plain_eq_self {cs : List Char} (h : ∀ c ∈ cs, c ≠ '\x1b') : plain cs = cs := by
  fun_induction plain cs with
  | case1 cs tail hstyle =>
    rw [afterStyle?_eq_none h] at hstyle
    cases hstyle
  | case2 => rfl
  | case3 c cs _ ih =>
    rw [List.forall_mem_cons] at h
    rw [ih h.2]

end Text

theorem Version.ne_escape_of_mem_toString (v : Version) {c : Char} (h : c ∈ v.toString.toList) :
    c ≠ '\x1b' := by
  rw [Version.toString, String.toList_ofList] at h
  exact Text.ne_escape_of_isVersionChar (v.isVersionChar_of_mem_chars h)

/-! ### Tokens without escapes -/

/-- No token has an escape in it. -/
theorem ne_escape_of_classify? {previous : Option TokenKind} {c : Char} {rest : List Char}
    {kind : TokenKind} {more : Nat} (h : classify? previous c rest = some (kind, more)) :
    ∀ d ∈ c :: rest.take more, d ≠ '\x1b' := by
  have hdigit (d : Char) (hd : d.isDigit = true) : d ≠ '\x1b' := by
    apply Text.ne_escape_of_isIdentifierChar
    simp [isIdentifierChar, Char.isAlphanum, hd]
  have hlabel (d : Char) (hd : isLabelChar d = true) : d ≠ '\x1b' := by
    apply Text.ne_escape_of_isVersionChar
    rw [isLabelChar] at hd
    simp [Text.isVersionChar, hd]
  rw [List.forall_mem_cons]
  cases begins_of_classify? h with
  | number hc => exact ⟨hdigit c hc, of_mem_row hdigit rest⟩
  | label hc =>
    refine ⟨?_, of_mem_row hlabel rest⟩
    rcases mark_of_beginsLabel hc with rfl | rfl <;> decide
  | hyphen hc =>
    subst hc
    exact ⟨by decide, List.forall_mem_nil _⟩
  | letter hc =>
    refine ⟨?_, List.forall_mem_nil _⟩
    rcases hc with rfl | rfl <;> decide
  | @pair d _ hd hpair =>
    have hsigns : c ≠ '\x1b' ∧ d ≠ '\x1b' := by
      unfold pairKind? at hpair
      split at hpair <;> first | decide | cases hpair
    obtain ⟨tail, rfl⟩ := List.head?_eq_some_iff.mp hd
    simpa using hsigns
  | single hsingle =>
    refine ⟨?_, List.forall_mem_nil _⟩
    unfold singleKind? at hsingle
    split at hsingle <;> first | decide | cases hsingle

/-- A text that consists of tokens has no escape in it. -/
theorem Tokenization.ne_escape_of_finished {position limit : Nat} {previous : Option TokenKind}
    {source : List Char} {spaced : Bool}
    (h : (ofCharsFrom position previous source).stop = .finished limit spaced) :
    ∀ c ∈ source, c ≠ '\x1b' := by
  fun_induction ofCharsFrom position previous source with
  | case1 _ _ _ _ _ hscan =>
    exact fun c hc ↦ Text.ne_escape_of_isBlank ((blank_of_finish hscan).1 c hc)
  | case2 => cases h
  | case3 _ _ _ token rest hscan _ ih =>
    obtain ⟨gap, c, tail, more, rfl, hgap, -, hclass, -, rfl⟩ := scan_eq_token_iff.mp hscan
    have htoken := ne_escape_of_classify? hclass
    have hrest := ih h
    intro d hd
    rw [← List.take_append_drop more tail, ← List.cons_append] at hd
    rcases List.mem_append.mp hd with hd | hd
    · exact Text.ne_escape_of_isBlank (hgap d hd)
    · rcases List.mem_append.mp hd with hd | hd
      · exact htoken d hd
      · exact hrest d hd

/-- A text that is read as a range has no escape in it. -/
theorem Expression.ne_escape_of_parse {text : String} {limits : Limits} {e : Expression}
    (h : parse text limits = .ok e) : ∀ c ∈ text.toList, c ≠ '\x1b' := by
  obtain ⟨-, -, -, ⟨position, spaced, hstop⟩, -⟩ := parse_eq_ok_iff.mp h
  exact Tokenization.ne_escape_of_finished hstop

/-! ### Lines -/

namespace CommandLine

/-- Texts as lines, each with its end. -/
def lines (texts : List String) : String := .ofList (texts.flatMap fun text ↦ text.toList ++ ['\n'])

/-- Texts without escapes are printed as they are. -/
theorem printed_eq_lines {texts : List String} (h : ∀ text ∈ texts, ∀ c ∈ text.toList, c ≠ '\x1b') :
    Report.printed texts = lines texts := by
  rw [Report.printed, lines]
  congr 1
  apply List.flatMap_congr
  intro text htext
  rw [Text.plain_eq_self (h text htext)]

end CommandLine

end VersionRange
