import VersionRange.Proofs.Coverage
import VersionRange.Proofs.Spacing

/-!
# Texts in front of others

A text that ends before white space or a closing parenthesis has the same tokens there as alone,
wherever it begins and whatever white space stands before it: only the positions differ, and
whether white space stands before the first of them. A derivation does not look at either, so that
what the tokens of a text derive alone they derive in front of others too.
-/

namespace VersionRange

open Grammar

/-! ### The ends of tokens -/

/-- Every token that stands before the text ends there. -/
def EndsToken (rest : List Char) : Prop :=
  ∀ c ∈ rest.head?, Text.isBlank c = true ∨ c = ')'

/-- White space ends every token. -/
theorem endsToken_of_blank {gap rest : List Char} (hne : gap ≠ [])
    (hgap : ∀ c ∈ gap, Text.isBlank c = true) : EndsToken (gap ++ rest) := by
  cases gap with
  | nil => exact absurd rfl hne
  | cons c gap =>
    intro d hd
    obtain rfl : c = d := Option.some.inj hd
    exact .inl (hgap c List.mem_cons_self)

theorem endsToken_of_isBlank {gap rest : List Char} (hgap : ∀ c ∈ gap, Text.isBlank c = true)
    (hrest : EndsToken rest) : EndsToken (gap ++ rest) := by
  cases gap with
  | nil => exact hrest
  | cons c gap => exact endsToken_of_blank (List.cons_ne_nil c gap) hgap

theorem endsToken_space {rest : List Char} : EndsToken (' ' :: rest) := by
  exact endsToken_of_blank (List.cons_ne_nil ' ' []) isBlank_of_mem_space

theorem endsToken_closing {rest : List Char} : EndsToken (')' :: rest) :=
  fun _ hc ↦ .inr (Option.some.inj hc).symm

/-- A character that ends tokens continues none of them. -/
theorem not_of_ends {c : Char} (h : Text.isBlank c = true ∨ c = ')') :
    isLabelChar c = false ∧ c.isAlphanum = false ∧ c.isDigit = false ∧
      ∀ d, pairKind? d c = none := by
  rcases h with h | rfl
  · have hidentifier : isIdentifierChar c = false := by
      rw [Bool.eq_false_iff]
      intro hc
      rw [Text.isBlank_of_isIdentifierChar hc] at h
      cases h
    have halphanum : c.isAlphanum = false := by
      simp only [isIdentifierChar, Bool.or_eq_false_iff] at hidentifier
      exact hidentifier.1
    refine ⟨?_, halphanum, ?_, fun d ↦ ?_⟩
    · rw [isLabelChar, hidentifier, Bool.false_or, beq_eq_false_iff_ne]
      rintro rfl
      cases h
    · rw [Char.isAlphanum, Bool.or_eq_false_iff] at halphanum
      exact halphanum.2
    · unfold pairKind?
      split <;> first | rfl | cases h
  · refine ⟨rfl, rfl, rfl, fun d ↦ ?_⟩
    unfold pairKind?
    split <;> first | rfl | contradiction

private theorem takeWhile_append_of_ends {inside : Char → Bool} {cs rest : List Char}
    (h : ∀ c ∈ rest.head?, inside c = false) :
    (cs ++ rest).takeWhile inside = cs.takeWhile inside := by
  induction cs with
  | nil => exact takeWhile_append_of_head? (List.forall_mem_nil _) h
  | cons c cs ih =>
    rw [List.cons_append, List.takeWhile_cons, List.takeWhile_cons, ih]

private theorem head?_bind_append {β : Type} {f : Char → Option β} {cs rest : List Char}
    (h : ∀ c ∈ rest.head?, f c = none) : (cs ++ rest).head?.bind f = cs.head?.bind f := by
  cases cs with
  | nil => exact Option.bind_eq_none_iff.mpr h
  | cons => rfl

private theorem head?_any_append {f : Char → Bool} {cs rest : List Char}
    (h : ∀ c ∈ rest.head?, f c = false) : (cs ++ rest).head?.any f = cs.head?.any f := by
  cases cs with
  | cons => rfl
  | nil =>
    cases rest with
    | nil => rfl
    | cons c => exact h c rfl

/-- A token is the same in front of a text that ends it. -/
theorem classify?_append {previous : Option TokenKind} {c : Char} {cs rest : List Char}
    {kind : TokenKind} {more : Nat} (hrest : EndsToken rest)
    (h : classify? previous c cs = some (kind, more)) :
    classify? previous c (cs ++ rest) = some (kind, more) := by
  have hends (d : Char) (hd : d ∈ rest.head?) := not_of_ends (hrest d hd)
  rw [← h, classify?, classify?,
    takeWhile_append_of_ends fun d hd ↦ (hends d hd).1,
    takeWhile_append_of_ends fun d hd ↦ (hends d hd).2.2.1,
    head?_any_append fun d hd ↦ (hends d hd).2.1,
    head?_bind_append fun d hd ↦ (hends d hd).2.2.2 c]

/-- A token takes no more characters than there are. -/
theorem le_length_of_classify? {previous : Option TokenKind} {c : Char} {cs : List Char}
    {kind : TokenKind} {more : Nat} (h : classify? previous c cs = some (kind, more)) :
    more ≤ cs.length := by
  cases begins_of_classify? h with
  | number => exact (List.takeWhile_prefix _).length_le
  | label => exact (List.takeWhile_prefix _).length_le
  | hyphen | letter | single => exact Nat.zero_le _
  | pair hd =>
    obtain ⟨tail, rfl⟩ := List.head?_eq_some_iff.mp hd
    exact Nat.succ_le_succ (Nat.zero_le _)

/-- A label begins only behind a number, a wildcard or another label. -/
theorem classify?_eq_none_of_other {previous : Option TokenKind} {c : Char} {cs : List Char}
    (h : ∀ kind ∈ previous, kind ∉ [.number, .wildcard, .label]) :
    classify? previous c cs = classify? .none c cs := by
  have hbegins : beginsLabel c previous = false := by
    unfold beginsLabel
    split
    · simp at h
    · simp at h
    · simp at h
    · rfl
  rw [classify?, classify?, hbegins]
  rfl

/-- A token that cannot begin a label is the same whatever stands before it. -/
theorem classify?_eq_none_of_ne {previous : Option TokenKind} {c : Char} {cs : List Char}
    (hhyphen : c ≠ '-') (hplus : c ≠ '+') : classify? previous c cs = classify? none c cs := by
  rw [classify?, classify?, beginsLabel_eq_false hhyphen hplus]
  rfl

/-- The first token of a text is the same in front of a text that ends it, and behind white space
unless the kind of the token before it counts. -/
theorem exists_scan_append {position : Nat} {previous : Option TokenKind} {cs tail rest : List Char}
    {t : Token} (position' : Nat) (previous' : Option TokenKind) (gap : List Char)
    (hrest : EndsToken rest) (h : scan position previous cs = .token t tail)
    (hgap : ∀ c ∈ gap, Text.isBlank c = true)
    (hprevious : ∀ c more, classify? (if gap.isEmpty then previous' else none) c more =
      classify? previous c more) :
    ∃ u, scan position' previous' (gap ++ (cs ++ rest)) = .token u (tail ++ rest) ∧
      t.kind = u.kind ∧ t.text = u.text ∧ (gap = [] → t.spaced = u.spaced) := by
  obtain ⟨before, c, more, count, rfl, hbefore, hc, hclass, ht, rfl⟩ := scan_eq_token_iff.mp h
  have hkind : classify? (if (gap ++ before).isEmpty then previous' else none) c (more ++ rest) =
      some (t.kind, count) := by
    refine classify?_append hrest ?_
    rw [← hclass]
    cases before with
    | nil => rw [List.append_nil, hprevious]; rfl
    | cons d before => cases gap <;> rfl
  have hcount := le_length_of_classify? hclass
  refine ⟨⟨t.kind, c :: (more ++ rest).take count, position' + (gap ++ before).length,
    !(gap ++ before).isEmpty⟩, ?_, rfl, ?_, ?_⟩
  · refine scan_eq_token_iff.mpr ⟨gap ++ before, c, more ++ rest, count, by simp, ?_, hc, hkind,
      rfl, ?_⟩
    · exact List.forall_mem_append.mpr ⟨hgap, hbefore⟩
    · rw [List.drop_append_of_le_length hcount]
  · rw [ht, List.take_append_of_le_length hcount]
  · rintro rfl
    rw [ht]
    rfl

/-! ### The tokens of a text in front of others -/

namespace Grammar

/-- The second of two lists of tokens begins with the tokens of the first one, wherever they stand,
and goes on with others. -/
inductive Fronts (tail : List Token) : List Token → List Token → Prop
  | nil : Fronts tail [] tail
  | cons {t u : Token} {ts us : List Token} (kind : t.kind = u.kind) (text : t.text = u.text)
      (spaced : t.spaced = u.spaced) (h : Fronts tail ts us) : Fronts tail (t :: ts) (u :: us)

/-- The same, but it does not matter whether white space stands before the first token. -/
inductive Leads (tail : List Token) : List Token → List Token → Prop
  | mk {t u : Token} {ts us : List Token} (kind : t.kind = u.kind) (text : t.text = u.text)
      (h : Fronts tail ts us) : Leads tail (t :: ts) (u :: us)

end Grammar

namespace Tokenization

/-- The tokens behind a text are those of another one, perhaps with white space before it. -/
structure Tail (z y : Tokenization) (rest : List Char) : Prop where
  stop : z.stop = y.stop
  hasText : ∃ (gap : List Char) (previous : Option TokenKind),
    (∀ c ∈ gap, Text.isBlank c = true) ∧ y.HasText previous (gap ++ rest)

/-- White space has no tokens. -/
theorem ofCharsFrom_of_blank {position : Nat} {previous : Option TokenKind} {cs : List Char}
    (hcs : ∀ c ∈ cs, Text.isBlank c = true) :
    ofCharsFrom position previous cs = ⟨[], .finished (position + cs.length) (!cs.isEmpty)⟩ := by
  rw [ofCharsFrom]
  split
  · next hscan =>
    obtain ⟨-, rfl, rfl⟩ := blank_of_finish hscan
    rfl
  · next hscan =>
    obtain ⟨gap, rest, rfl, -, -, hc⟩ := exists_gap_of_illegal hscan
    rw [hcs _ (by simp)] at hc
    cases hc
  · next hscan =>
    obtain ⟨gap, c, rest, _, rfl, -, hc, -⟩ := scan_eq_token_iff.mp hscan
    rw [hcs c (by simp)] at hc
    cases hc

theorem eq_of_hasText_blank {z : Tokenization} {previous : Option TokenKind} {cs : List Char}
    (h : z.HasText previous cs) (hcs : ∀ c ∈ cs, Text.isBlank c = true) :
    ∃ position spaced, z = ⟨[], .finished position spaced⟩ := by
  obtain ⟨position, rfl⟩ := h
  exact ⟨_, _, ofCharsFrom_of_blank hcs⟩

/-- The tokens of a text are the same in front of others. -/
theorem exists_fronts {position end' : Nat} {previous : Option TokenKind} {spaced : Bool}
    {cs rest : List Char} (position' : Nat) (hrest : EndsToken rest)
    (hstop : (ofCharsFrom position previous cs).stop = .finished end' spaced) :
    ∃ y : Tokenization, Tail (ofCharsFrom position' previous (cs ++ rest)) y rest ∧
      Fronts y.tokens (ofCharsFrom position previous cs).tokens
        (ofCharsFrom position' previous (cs ++ rest)).tokens := by
  fun_induction ofCharsFrom position previous cs generalizing position' with
  | case1 _ previous cs _ _ hscan =>
    exact ⟨_, ⟨rfl, cs, previous, (blank_of_finish hscan).1, position', rfl⟩, .nil⟩
  | case2 => cases hstop
  | case3 position previous cs token tail hscan _ ih =>
    obtain ⟨u, hu, hkind, htext, hspaced⟩ :=
      exists_scan_append position' previous [] hrest hscan (List.forall_mem_nil _) fun _ _ ↦ rfl
    obtain ⟨y, htail, hfronts⟩ := ih (u.position + u.text.length) hstop
    rw [← List.nil_append (cs ++ rest), ofCharsFrom_of_token hu, ← hkind]
    exact ⟨y, ⟨htail.stop, htail.hasText⟩, .cons hkind htext (hspaced rfl) hfronts⟩

private theorem exists_scan_of_ne_nil {position : Nat} {previous : Option TokenKind}
    {cs : List Char} (h : (ofCharsFrom position previous cs).tokens ≠ []) :
    ∃ t tail, scan position previous cs = .token t tail := by
  rw [ofCharsFrom] at h
  split at h
  · contradiction
  · contradiction
  · next token tail hscan => exact ⟨token, tail, hscan⟩

/-- The tokens of a text are the same behind white space and other kinds of tokens than those of
literals, and in front of others. -/
theorem HasText.exists_leads {z : Tokenization} {previous : Option TokenKind}
    {gap cs rest : List Char} {end' : Nat} {spaced : Bool}
    (h : z.HasText previous (gap ++ (cs ++ rest))) (hgap : ∀ c ∈ gap, Text.isBlank c = true)
    (hprevious : ∀ kind ∈ previous, kind ∉ [.number, .wildcard, .label]) (hrest : EndsToken rest)
    (hstop : (ofChars cs).stop = .finished end' spaced) (hne : (ofChars cs).tokens ≠ []) :
    ∃ y : Tokenization, Tail z y rest ∧ Leads y.tokens (ofChars cs).tokens z.tokens := by
  obtain ⟨position, rfl⟩ := h
  obtain ⟨token, tail, hscan⟩ := exists_scan_of_ne_nil hne
  have hother (c : Char) (more : List Char) :
      classify? (if gap.isEmpty then previous else none) c more = classify? none c more := by
    split
    · exact classify?_eq_none_of_other hprevious
    · rfl
  obtain ⟨u, hu, hkind, htext, -⟩ :=
    exists_scan_append position previous gap hrest hscan hgap hother
  rw [ofChars, ofCharsFrom_of_token hscan] at hstop ⊢
  obtain ⟨y, htail, hfronts⟩ := exists_fronts (u.position + u.text.length) hrest hstop
  rw [ofCharsFrom_of_token hu, ← hkind]
  exact ⟨y, ⟨htail.stop, htail.hasText⟩, hkind, htext, hfronts⟩

end Tokenization

/-! ### Derivations and limits in front of others -/

namespace Grammar

variable {tail ts us : List Token}

/-- A derivation does not see where tokens stand. -/
theorem Fronts.varies (h : Fronts tail ts us) (previous : Option TokenKind) :
    Varies tail previous ts us := by
  induction h generalizing previous with
  | nil => exact .nil
  | cons hkind htext hspaced _ ih => exact .cons hkind htext (.of_eq previous hspaced) (ih _)

theorem Leads.varies (h : Leads tail ts us) : Varies tail none ts us := by
  cases h with
  | mk hkind htext h => exact .cons hkind htext (.inl rfl) (h.varies _)

private theorem Fronts.deepest_eq (h : Fronts tail ts us) (n : Nesting) :
    n.deepest us = n.deepest (ts ++ tail) := by
  induction h generalizing n with
  | nil => rfl
  | cons hkind _ _ _ ih => rw [List.cons_append, Nesting.deepest, Nesting.deepest, ih, hkind]

theorem Leads.deepest_eq (h : Leads tail ts us) (n : Nesting) :
    n.deepest us = n.deepest (ts ++ tail) := by
  cases h with
  | mk hkind _ h => rw [List.cons_append, Nesting.deepest, Nesting.deepest, h.deepest_eq, hkind]

end Grammar

end VersionRange
