import VersionRange.Expression
import VersionRange.Proofs.Characters
import VersionRange.Proofs.Grammar
import VersionRange.Proofs.Numerals
import VersionRange.Token.Tokenization

/-!
# The tokens of texts

Where white space, if there is any, and the characters of a token stand first in a text, this
token is the first one, and the tokens of the text behind it follow. Positions are of no account
here; a tokenization is known by the text and the kind of the token before it.
-/

namespace VersionRange

open Grammar

/-! ### Kinds -/

private theorem pairKind?_ne_label (c d : Char) : pairKind? c d ≠ some .label := by
  unfold pairKind?
  split <;> exact nofun

private theorem singleKind?_ne_label (c : Char) : singleKind? c ≠ some .label := by
  unfold singleKind?
  split <;> exact nofun

/-- A label begins with one of two marks. -/
theorem mark_of_beginsLabel {c : Char} {previous : Option TokenKind}
    (h : beginsLabel c previous = true) : c = '-' ∨ c = '+' := by
  unfold beginsLabel at h
  split at h
  · simpa using h
  · simpa using h
  · exact .inr (by simpa using h)
  · cases h

/-- A token of a kind begins with a character and takes a number of the characters behind it. -/
inductive Begins (previous : Option TokenKind) (c : Char) (rest : List Char) :
    TokenKind → Nat → Prop
  | number (h : c.isDigit = true) :
      Begins previous c rest .number (rest.takeWhile Char.isDigit).length
  | label (h : beginsLabel c previous = true) :
      Begins previous c rest .label (rest.takeWhile isLabelChar).length
  | hyphen (h : c = '-') : Begins previous c rest .hyphen 0
  | letter (h : c = 'x' ∨ c = 'X') : Begins previous c rest .wildcard 0
  | pair {d : Char} {kind : TokenKind} (hd : rest.head? = some d) (h : pairKind? c d = some kind) :
      Begins previous c rest kind 1
  | single {kind : TokenKind} (h : singleKind? c = some kind) : Begins previous c rest kind 0

theorem begins_of_classify? {previous : Option TokenKind} {c : Char} {rest : List Char}
    {kind : TokenKind} {more : Nat} (h : classify? previous c rest = some (kind, more)) :
    Begins previous c rest kind more := by
  rw [classify?] at h
  split at h
  · next hdigit =>
    cases h
    exact .number hdigit
  · split at h
    · next hbegins =>
      cases h
      exact .label hbegins
    · split at h
      · next hhyphen =>
        cases h
        exact .hyphen (eq_of_beq hhyphen)
      · split at h
        · next hletter =>
          split at h <;> cases h
          exact .letter (by simpa using hletter)
        · split at h
          · next hpair =>
            cases h
            obtain ⟨d, hd, hpair⟩ := Option.bind_eq_some_iff.mp hpair
            exact .pair hd hpair
          · obtain ⟨kind, hsingle, hkind⟩ := Option.map_eq_some_iff.mp h
            cases hkind
            exact .single hsingle

private theorem mark_of_classify? {previous : Option TokenKind} {c : Char} {rest : List Char}
    {more : Nat} (h : classify? previous c rest = some (.label, more)) : c = '-' ∨ c = '+' := by
  cases begins_of_classify? h with
  | label hbegins => exact mark_of_beginsLabel hbegins
  | pair _ hpair => exact absurd hpair (pairKind?_ne_label _ _)
  | single hsingle => exact absurd hsingle (singleKind?_ne_label _)

/-- The longest row at the front of a text, up to the first character of another class. -/
theorem takeWhile_append_of_head? {inside : Char → Bool} {cs rest : List Char}
    (hcs : ∀ c ∈ cs, inside c = true) (hrest : ∀ c ∈ rest.head?, inside c = false) :
    (cs ++ rest).takeWhile inside = cs := by
  rw [List.takeWhile_append_of_pos hcs]
  cases rest with
  | nil => rw [List.takeWhile_nil, List.append_nil]
  | cons c rest =>
    rw [List.takeWhile_cons_of_neg, List.append_nil]
    simpa using hrest c rfl

theorem beginsLabel_eq_false {previous : Option TokenKind} {c : Char} (hhyphen : c ≠ '-')
    (hplus : c ≠ '+') : beginsLabel c previous = false := by
  rw [Bool.eq_false_iff]
  exact fun h ↦ (mark_of_beginsLabel h).elim hhyphen hplus

/-- A sign is a token whatever stands before it, together with the character behind it or alone. -/
theorem classify?_sign {previous : Option TokenKind} {c : Char} {rest : List Char}
    (hdigit : c.isDigit = false) (hc : c ∉ ['-', '+', 'x', 'X']) :
    classify? previous c rest =
      ((rest.head?.bind (pairKind? c)).map (·, 1)).or ((singleKind? c).map (·, 0)) := by
  simp only [List.mem_cons, List.not_mem_nil, or_false, not_or] at hc
  obtain ⟨hhyphen, hplus, hsmall, hlarge⟩ := hc
  rw [classify?, hdigit, beginsLabel_eq_false hhyphen hplus, beq_false_of_ne hhyphen,
    beq_false_of_ne hsmall, beq_false_of_ne hlarge]
  cases rest.head?.bind (pairKind? c) <;> rfl

theorem classify?_dot (previous : Option TokenKind) (rest : List Char) :
    classify? previous '.' rest = some (.dot, 0) := by
  have hpair : rest.head?.bind (pairKind? '.') = none := by cases rest <;> rfl
  rw [classify?_sign rfl (by decide), hpair]
  rfl

/-! ### The first token -/

theorem isBlank_of_mem_space : ∀ c ∈ [' '], Text.isBlank c = true :=
  List.forall_mem_singleton.mpr rfl

/-- The first token of a text stands behind all white space at its front. -/
theorem scan_eq_token_iff {position : Nat} {previous : Option TokenKind} {source rest : List Char}
    {t : Token} :
    scan position previous source = .token t rest ↔
      ∃ gap c tail more, source = gap ++ c :: tail ∧ (∀ d ∈ gap, Text.isBlank d = true) ∧
        Text.isBlank c = false ∧
        classify? (if gap.isEmpty then previous else none) c tail = some (t.kind, more) ∧
        t = ⟨t.kind, c :: tail.take more, position + gap.length, !gap.isEmpty⟩ ∧
        rest = tail.drop more := by
  have hspaced (gap : List Char) : (gap.length != 0) = !gap.isEmpty := by
    cases gap <;> rfl
  have hbehind (gap : List Char) : (if (!gap.isEmpty) = true then none else previous) =
      if gap.isEmpty then previous else none := by
    cases gap <;> rfl
  constructor
  · intro h
    simp only [scan, hspaced, hbehind] at h
    split at h
    · cases h
    · next c tail hdrop =>
      split at h
      · cases h
      · next kind more hclass =>
        cases h
        have hsource := List.takeWhile_append_dropWhile (p := Text.isBlank) (l := source)
        have hc := List.head?_dropWhile_not Text.isBlank source
        rw [hdrop] at hsource hc
        refine ⟨_, c, tail, more, hsource.symm, ?_, by simpa using hc, hclass, rfl, rfl⟩
        exact List.all_eq_true.mp List.all_takeWhile
  · rintro ⟨gap, c, tail, more, rfl, hgap, hc, hclass, ht, rfl⟩
    have htake : (gap ++ c :: tail).takeWhile Text.isBlank = gap := by
      rw [List.takeWhile_append_of_pos hgap, List.takeWhile_cons_of_neg (by simp [hc]),
        List.append_nil]
    have hdrop : (gap ++ c :: tail).dropWhile Text.isBlank = c :: tail := by
      rw [List.dropWhile_append_of_pos hgap, List.dropWhile_cons_of_neg (by simp [hc])]
    simp only [scan, htake, hdrop, hspaced, hbehind, hclass]
    rw [← ht]

private theorem isMarked_of_scan {position : Nat} {previous : Option TokenKind}
    {source rest : List Char}
    {t : Token} (h : scan position previous source = .token t rest) : IsMarked t := by
  intro hkind
  obtain ⟨gap, c, tail, more, -, -, -, hclass, ht, -⟩ := scan_eq_token_iff.mp h
  rw [hkind] at hclass
  rw [ht, List.head?_cons, Option.some.injEq, Option.some.injEq]
  exact mark_of_classify? hclass

namespace Tokenization

/-- The tokens of a text of which the first one has been scanned. -/
def ofScan : Scan → Tokenization
  | .token t rest =>
    let tail := ofCharsFrom (t.position + t.text.length) (some t.kind) rest
    ⟨t :: tail.tokens, tail.stop⟩
  | .finish position spaced => ⟨[], .finished position spaced⟩
  | .illegal cause => ⟨[], .illegal cause⟩

theorem ofCharsFrom_eq_ofScan (position : Nat) (previous : Option TokenKind) (source : List Char) :
    ofCharsFrom position previous source = ofScan (scan position previous source) := by
  rw [ofCharsFrom]
  split <;> next hscan => rw [hscan]; rfl

theorem ofCharsFrom_of_token {position : Nat} {previous : Option TokenKind}
    {source rest : List Char} {t : Token} (h : scan position previous source = .token t rest) :
    ofCharsFrom position previous source =
      let tail := ofCharsFrom (t.position + t.text.length) (some t.kind) rest
      ⟨t :: tail.tokens, tail.stop⟩ := by
  rw [ofCharsFrom_eq_ofScan, h]
  rfl

theorem ofCharsFrom_of_illegal {position : Nat} {previous : Option TokenKind}
    {source : List Char} {cause : Illegal} (h : scan position previous source = .illegal cause) :
    ofCharsFrom position previous source = ⟨[], .illegal cause⟩ := by
  rw [ofCharsFrom_eq_ofScan, h]
  rfl

/-- What holds of every token that is scanned holds of all tokens of a text. -/
theorem of_mem_ofCharsFrom {good : Token → Prop}
    (hscan : ∀ {position previous source t rest}, scan position previous source = .token t rest →
      good t) {position : Nat} {previous : Option TokenKind} {source : List Char} {t : Token}
    (h : t ∈ (ofCharsFrom position previous source).tokens) : good t := by
  fun_induction ofCharsFrom position previous source with
  | case1 => cases h
  | case2 => cases h
  | case3 _ _ _ token rest heq _ ih =>
    rcases List.mem_cons.mp h with rfl | h
    · exact hscan heq
    · exact ih h

theorem isMarked_of_mem_ofCharsFrom {position : Nat} {previous : Option TokenKind}
    {source : List Char} {t : Token} (h : t ∈ (ofCharsFrom position previous source).tokens) :
    IsMarked t :=
  of_mem_ofCharsFrom isMarked_of_scan h

/-- The tokens of a text that stands behind a token of some kind, wherever it stands. -/
def HasText (z : Tokenization) (previous : Option TokenKind) (text : List Char) : Prop :=
  ∃ position, z = ofCharsFrom position previous text

/-- A token in front of others. -/
def cons (t : Token) (z : Tokenization) : Tokenization := ⟨t :: z.tokens, z.stop⟩

variable {z : Tokenization} {previous : Option TokenKind} {rest : List Char}

theorem eq_of_hasText_nil (h : z.HasText previous []) :
    ∃ position, z = ⟨[], .finished position false⟩ := by
  obtain ⟨position, rfl⟩ := h
  refine ⟨position, ?_⟩
  rw [ofCharsFrom]
  rfl

/-- Behind white space the first token has white space before it. -/
theorem HasText.spaced_of_head {c : Char} (h : z.HasText previous (c :: rest))
    (hc : Text.isBlank c = true) : ∀ t ∈ z.tokens.head?, t.spaced = true := by
  obtain ⟨position, rfl⟩ := h
  intro t ht
  rw [ofCharsFrom] at ht
  split at ht
  · cases ht
  · cases ht
  · next token tail hscan =>
    obtain rfl : token = t := by simpa using ht
    obtain ⟨gap, d, _, _, hsource, -, hd, -, htoken, -⟩ := scan_eq_token_iff.mp hscan
    cases gap with
    | nil =>
      obtain rfl : c = d := (List.cons.inj hsource).1
      rw [hc] at hd
      cases hd
    | cons => rw [htoken]; rfl

/-- White space and a token behind it, or a token without white space before it. -/
theorem HasText.exists_token {c : Char} {kind : TokenKind} {more : Nat} (gap : List Char)
    (h : z.HasText previous (gap ++ c :: rest)) (hgap : ∀ d ∈ gap, Text.isBlank d = true)
    (hc : Text.isBlank c = false)
    (hclass : classify? (if gap.isEmpty then previous else none) c rest = some (kind, more)) :
    ∃ (t : Token) (y : Tokenization), z = cons t y ∧ t.kind = kind ∧ t.text = c :: rest.take more ∧
      t.spaced = !gap.isEmpty ∧ y.HasText (some kind) (rest.drop more) := by
  obtain ⟨position, rfl⟩ := h
  have hscan : scan position previous (gap ++ c :: rest) =
      .token ⟨kind, c :: rest.take more, position + gap.length, !gap.isEmpty⟩ (rest.drop more) :=
    scan_eq_token_iff.mpr ⟨gap, c, rest, more, rfl, hgap, hc, hclass, rfl, rfl⟩
  exact ⟨_, _, ofCharsFrom_of_token hscan, rfl, rfl, rfl, _, rfl⟩

/-! ### Tokens of each kind -/

/-- A numeral is a token up to its last digit. -/
theorem HasText.exists_number {n : Nat} (h : z.HasText previous (Text.numeral n ++ rest))
    (hrest : ∀ c ∈ rest.head?, c.isDigit = false) :
    ∃ (t : Token) (y : Tokenization), z = cons t y ∧ Numeral t n ∧ t.text = Text.numeral n ∧
      t.spaced = false ∧ y.HasText (some .number) rest := by
  have hnumeral := Text.isNumeral_numeral n
  rw [Text.isNumeral, Bool.and_eq_true, Bool.not_eq_true'] at hnumeral
  obtain ⟨c, digits, hcons, hdigit, hdigits⟩ := Text.exists_numeral_eq_cons n
  have hc : isIdentifierChar c = true := by
    simp [isIdentifierChar, Char.isAlphanum, hdigit]
  have hclass : classify? previous c (digits ++ rest) = some (.number, digits.length) := by
    rw [classify?, if_pos hdigit, takeWhile_append_of_head? hdigits hrest]
  rw [hcons] at h
  change z.HasText previous ([] ++ c :: (digits ++ rest)) at h
  obtain ⟨t, y, hz, hkind, htext, hspaced, hy⟩ :=
    HasText.exists_token [] h (List.forall_mem_nil _) (Text.isBlank_of_isIdentifierChar hc) hclass
  rw [List.take_left, ← hcons] at htext
  rw [List.drop_left] at hy
  refine ⟨t, y, hz, ⟨hkind, ?_, ?_⟩, htext, hspaced, hy⟩
  · rw [htext, hnumeral.2]
  · rw [htext, Text.numeralValue_numeral]

/-- A label is a token up to the last character that a label may have. -/
theorem HasText.exists_label {kind : TokenKind} {mark : Char} {label : List Char}
    (h : z.HasText (some kind) (mark :: label ++ rest))
    (hmark : beginsLabel mark (some kind) = true)
    (hlabel : ∀ c ∈ label, isLabelChar c = true) (hrest : ∀ c ∈ rest.head?, isLabelChar c = false) :
    ∃ (t : Token) (y : Tokenization), z = cons t y ∧ t.kind = .label ∧ t.text = mark :: label ∧
      t.spaced = false ∧ y.HasText (some .label) rest := by
  have hmarks := mark_of_beginsLabel hmark
  have hblank : Text.isBlank mark = false := by
    rcases hmarks with rfl | rfl <;> rfl
  have hdigit : mark.isDigit = false := by
    rcases hmarks with rfl | rfl <;> rfl
  have hclass : classify? (some kind) mark (label ++ rest) = some (.label, label.length) := by
    rw [classify?, hdigit, if_neg nofun, if_pos hmark, takeWhile_append_of_head? hlabel hrest]
  change z.HasText (some kind) ([] ++ mark :: (label ++ rest)) at h
  obtain ⟨t, y, hz, hkind, htext, hspaced, hy⟩ :=
    HasText.exists_token [] h (List.forall_mem_nil _) hblank hclass
  rw [List.take_left] at htext
  rw [List.drop_left] at hy
  exact ⟨t, y, hz, hkind, htext, hspaced, hy⟩

/-- A sign is a token, perhaps with white space before it. -/
theorem HasText.exists_sign {gap : List Char} {c : Char} {kind : TokenKind} {more : Nat}
    (h : z.HasText previous (gap ++ c :: rest)) (hgap : ∀ d ∈ gap, Text.isBlank d = true)
    (hc : Text.isBlank c = false) (hdigit : c.isDigit = false) (hother : c ∉ ['-', '+', 'x', 'X'])
    (hkind : ((rest.head?.bind (pairKind? c)).map (·, 1)).or ((singleKind? c).map (·, 0)) =
      some (kind, more)) :
    ∃ (t : Token) (y : Tokenization), z = cons t y ∧ t.kind = kind ∧ t.text = c :: rest.take more ∧
      y.HasText (some kind) (rest.drop more) := by
  obtain ⟨t, y, hz, hkind, htext, -, hy⟩ :=
    h.exists_token gap hgap hc ((classify?_sign hdigit hother).trans hkind)
  exact ⟨t, y, hz, hkind, htext, hy⟩

/-- A dot is a token. -/
theorem HasText.exists_dot (h : z.HasText previous ('.' :: rest)) :
    ∃ (t : Token) (y : Tokenization), z = cons t y ∧ t.kind = .dot ∧ t.spaced = false ∧
      y.HasText (some .dot) rest := by
  change z.HasText previous ([] ++ '.' :: rest) at h
  obtain ⟨t, y, hz, hkind, -, hspaced, hy⟩ :=
    h.exists_token [] (List.forall_mem_nil _) rfl (classify?_dot _ rest)
  exact ⟨t, y, hz, hkind, hspaced, hy⟩

/-- A comparator is a token if no sign follows it. -/
theorem HasText.exists_comparator {gap : List Char} {comparator : Comparator}
    (h : z.HasText previous (gap ++ (comparator.symbol.toList ++ rest)))
    (hgap : ∀ d ∈ gap, Text.isBlank d = true)
    (hrest : ∀ c ∈ rest.head?, c ∉ ['|', '&', '=']) :
    ∃ (t : Token) (y : Tokenization), z = cons t y ∧ t.kind = .comparator ∧
      t.text = comparator.symbol.toList ∧ y.HasText (some .comparator) rest := by
  have hpair (c : Char) : rest.head?.bind (pairKind? c) = none := by
    rw [Option.bind_eq_none_iff]
    intro d hd
    have hsign := hrest d hd
    unfold pairKind?
    split <;> first | rfl | simp at hsign
  cases comparator with
  | equal =>
    change z.HasText previous (gap ++ '=' :: rest) at h
    exact h.exists_sign hgap rfl rfl (by decide) (by rw [hpair]; rfl)
  | greater =>
    change z.HasText previous (gap ++ '>' :: rest) at h
    exact h.exists_sign hgap rfl rfl (by decide) (by rw [hpair]; rfl)
  | greaterOrEqual =>
    change z.HasText previous (gap ++ '>' :: '=' :: rest) at h
    exact h.exists_sign hgap rfl rfl (by decide) rfl
  | less =>
    change z.HasText previous (gap ++ '<' :: rest) at h
    exact h.exists_sign hgap rfl rfl (by decide) (by rw [hpair]; rfl)
  | lessOrEqual =>
    change z.HasText previous (gap ++ '<' :: '=' :: rest) at h
    exact h.exists_sign hgap rfl rfl (by decide) rfl

/-- A disjunction sign is a token. -/
theorem HasText.exists_or {gap : List Char} (h : z.HasText previous (gap ++ '|' :: '|' :: rest))
    (hgap : ∀ d ∈ gap, Text.isBlank d = true) :
    ∃ (t : Token) (y : Tokenization), z = cons t y ∧ t.kind = .or ∧ y.HasText (some .or) rest := by
  obtain ⟨t, y, hz, hkind, -, hy⟩ := h.exists_sign hgap rfl rfl (by decide) rfl
  exact ⟨t, y, hz, hkind, hy⟩

/-- A conjunction sign is a token. -/
theorem HasText.exists_and {gap : List Char} (h : z.HasText previous (gap ++ '&' :: '&' :: rest))
    (hgap : ∀ d ∈ gap, Text.isBlank d = true) :
    ∃ (t : Token) (y : Tokenization), z = cons t y ∧ t.kind = .and ∧
      y.HasText (some .and) rest := by
  obtain ⟨t, y, hz, hkind, -, hy⟩ := h.exists_sign hgap rfl rfl (by decide) rfl
  exact ⟨t, y, hz, hkind, hy⟩

/-- A negation sign in front of a group is a token. -/
theorem HasText.exists_not {gap : List Char} (h : z.HasText previous (gap ++ '!' :: '(' :: rest))
    (hgap : ∀ d ∈ gap, Text.isBlank d = true) :
    ∃ (t : Token) (y : Tokenization), z = cons t y ∧ t.kind = .not ∧
      y.HasText (some .not) ('(' :: rest) := by
  obtain ⟨t, y, hz, hkind, -, hy⟩ := h.exists_sign hgap rfl rfl (by decide) rfl
  exact ⟨t, y, hz, hkind, hy⟩

/-- The sign that opens a group is a token. -/
theorem HasText.exists_opening {gap : List Char} (h : z.HasText previous (gap ++ '(' :: rest))
    (hgap : ∀ d ∈ gap, Text.isBlank d = true) :
    ∃ (t : Token) (y : Tokenization), z = cons t y ∧ t.kind = .opening ∧
      y.HasText (some .opening) rest := by
  have hpair : rest.head?.bind (pairKind? '(') = none := by cases rest <;> rfl
  obtain ⟨t, y, hz, hkind, -, hy⟩ := h.exists_sign hgap rfl rfl (by decide) (by rw [hpair]; rfl)
  exact ⟨t, y, hz, hkind, hy⟩

/-- The sign that closes a group is a token. -/
theorem HasText.exists_closing {gap : List Char} (h : z.HasText previous (gap ++ ')' :: rest))
    (hgap : ∀ d ∈ gap, Text.isBlank d = true) :
    ∃ (t : Token) (y : Tokenization), z = cons t y ∧ t.kind = .closing ∧
      y.HasText (some .closing) rest := by
  have hpair : rest.head?.bind (pairKind? ')') = none := by cases rest <;> rfl
  obtain ⟨t, y, hz, hkind, -, hy⟩ := h.exists_sign hgap rfl rfl (by decide) (by rw [hpair]; rfl)
  exact ⟨t, y, hz, hkind, hy⟩

end Tokenization

end VersionRange
