import VersionRange.Proofs.Scanning

/-!
# Nothing of a text is lost

The tokens of a text are slices of it, one behind the other, with nothing but white space between
them, up to the end of the text or to a character that begins no token. What one scan takes off
the front of a text is a gap and a token; from this the account of the whole text is put together
token by token.
-/

namespace VersionRange

/-! ### One scan -/

/-- What holds of all characters of a class holds of a row of them. -/
theorem of_mem_row {inside : Char → Bool} {good : Char → Prop}
    (h : ∀ c, inside c = true → good c) (rest : List Char) :
    ∀ c ∈ rest.take (rest.takeWhile inside).length, good c := by
  rw [← List.prefix_iff_eq_take.mp (List.takeWhile_prefix inside)]
  exact fun c hc ↦ h c (List.all_eq_true.mp List.all_takeWhile c hc)

private theorem isBlank_of_pairKind? {c d : Char} {kind : TokenKind}
    (h : pairKind? c d = some kind) : Text.isBlank d = false := by
  unfold pairKind? at h
  split at h <;> first | rfl | cases h

/-- The characters that a token takes behind its first one are no white space. -/
theorem isBlank_of_mem_take {previous : Option TokenKind} {c : Char} {rest : List Char}
    {kind : TokenKind} {more : Nat} (h : classify? previous c rest = some (kind, more)) :
    ∀ d ∈ rest.take more, Text.isBlank d = false := by
  cases begins_of_classify? h with
  | number =>
    refine of_mem_row (fun d hd ↦ Text.isBlank_of_isIdentifierChar ?_) rest
    simp [isIdentifierChar, Char.isAlphanum, hd]
  | label =>
    refine of_mem_row (fun d hd ↦ ?_) rest
    rcases Bool.or_eq_true_iff.mp hd with hd | hd
    · exact Text.isBlank_of_isIdentifierChar hd
    · rw [eq_of_beq hd]
      rfl
  | pair hd hpair =>
    obtain ⟨tail, rfl⟩ := List.head?_eq_some_iff.mp hd
    simpa using isBlank_of_pairKind? hpair
  | hyphen | letter | single => exact List.forall_mem_nil _

/-- No character of a text is taken for the mark of its end. -/
theorem classify?_ne_finish (previous : Option TokenKind) (c : Char) (rest : List Char)
    (more : Nat) : classify? previous c rest ≠ some (.finish, more) := by
  intro h
  cases begins_of_classify? h with
  | pair _ hpair =>
    unfold pairKind? at hpair
    split at hpair <;> cases hpair
  | single hsingle =>
    unfold singleKind? at hsingle
    split at hsingle <;> cases hsingle

/-- A scan takes a gap of white space and a token off the front of a text. -/
theorem exists_gap_of_token {position : Nat} {previous : Option TokenKind}
    {source rest : List Char} {t : Token} (h : scan position previous source = .token t rest) :
    ∃ gap, source = gap ++ t.text ++ rest ∧ (∀ c ∈ gap, Text.isBlank c = true) ∧
      t.position = position + gap.length ∧ t.spaced = !gap.isEmpty ∧ t.text ≠ [] ∧
      (∀ c ∈ t.text, Text.isBlank c = false) ∧ t.kind ≠ .finish := by
  obtain ⟨gap, c, tail, more, rfl, hgap, hc, hclass, ht, rfl⟩ := scan_eq_token_iff.mp h
  refine ⟨gap, ?_, hgap, ?_, ?_, ?_, ?_, ?_⟩
  · rw [ht, List.append_assoc, List.cons_append, List.take_append_drop]
  · rw [ht]
  · rw [ht]
  · rw [ht]
    exact List.cons_ne_nil _ _
  · rw [ht]
    exact List.forall_mem_cons.mpr ⟨hc, isBlank_of_mem_take hclass⟩
  · intro hkind
    rw [hkind] at hclass
    exact classify?_ne_finish _ _ _ _ hclass

/-- No token has white space in it. -/
theorem Tokenization.isBlank_of_mem_ofCharsFrom {position : Nat} {previous : Option TokenKind}
    {source : List Char} {t : Token} (h : t ∈ (ofCharsFrom position previous source).tokens) :
    ∀ c ∈ t.text, Text.isBlank c = false := by
  refine @of_mem_ofCharsFrom (fun t ↦ ∀ c ∈ t.text, Text.isBlank c = false) ?_ _ _ _ _ h
  intro _ _ _ _ _ hscan
  obtain ⟨-, -, -, -, -, -, hblank, -⟩ := exists_gap_of_token hscan
  exact hblank

/-- A scan ends at the end of a text that is nothing but white space. -/
theorem blank_of_finish {position limit : Nat} {previous : Option TokenKind} {source : List Char}
    {spaced : Bool} (h : scan position previous source = .finish limit spaced) :
    (∀ c ∈ source, Text.isBlank c = true) ∧ limit = position + source.length ∧
      spaced = !source.isEmpty := by
  simp only [scan] at h
  split at h
  · next hdrop =>
    have htake := List.takeWhile_append_dropWhile (p := Text.isBlank) (l := source)
    rw [hdrop, List.append_nil] at htake
    have hblank := List.all_eq_true.mp (List.all_takeWhile (p := Text.isBlank) (l := source))
    cases h
    rw [htake] at hblank ⊢
    exact ⟨hblank, rfl, by cases source <;> rfl⟩
  · split at h <;> cases h

/-- A scan stops at the first character that is no white space and begins no token. -/
theorem exists_gap_of_illegal {position : Nat} {previous : Option TokenKind} {source : List Char}
    {illegal : Illegal} (h : scan position previous source = .illegal illegal) :
    ∃ gap rest, source = gap ++ illegal.character :: rest ∧ (∀ c ∈ gap, Text.isBlank c = true) ∧
      illegal.position = position + gap.length ∧ Text.isBlank illegal.character = false := by
  simp only [scan] at h
  split at h
  · cases h
  · next c tail hdrop =>
    split at h
    · cases h
      have hsource := List.takeWhile_append_dropWhile (p := Text.isBlank) (l := source)
      have hc := List.head?_dropWhile_not Text.isBlank source
      rw [hdrop] at hsource hc
      exact ⟨_, tail, hsource.symm, List.all_eq_true.mp List.all_takeWhile, rfl, by simpa using hc⟩
    · cases h

/-! ### Accounts of a text -/

/-- White space stands immediately before a position of a text. -/
def BlankBefore (source : List Char) (position : Nat) : Prop :=
  ∃ i c, position = i + 1 ∧ source[i]? = some c ∧ Text.isBlank c = true

private theorem not_blankBefore_zero (source : List Char) : ¬ BlankBefore source 0 := nofun

theorem blankBefore_succ_iff (before : List Char) (c : Char) (rest : List Char) :
    BlankBefore (before ++ c :: rest) (before.length + 1) ↔ Text.isBlank c = true := by
  constructor
  · rintro ⟨i, d, hi, hd, hblank⟩
    cases hi
    rw [List.getElem?_append_right (Nat.le_refl _), Nat.sub_self] at hd
    cases hd
    exact hblank
  · intro h
    refine ⟨before.length, c, rfl, ?_, h⟩
    rw [List.getElem?_append_right (Nat.le_refl _), Nat.sub_self]
    rfl

/-- Behind a nonempty piece of a text the last character of the piece decides. -/
theorem blankBefore_append_iff {piece : List Char} {blank : Bool} (before rest : List Char)
    (hne : piece ≠ []) (h : ∀ c ∈ piece, Text.isBlank c = blank) :
    BlankBefore (before ++ (piece ++ rest)) (before.length + piece.length) ↔ blank = true := by
  obtain ⟨init, c, rfl⟩ := List.eq_nil_or_concat piece |>.resolve_left hne
  rw [← h c (by simp), ← blankBefore_succ_iff (before ++ init) c rest]
  simp [Nat.add_assoc]

theorem blankBefore_gap_iff {before gap rest : List Char}
    (hbefore : ¬ BlankBefore (before ++ (gap ++ rest)) before.length)
    (hgap : ∀ c ∈ gap, Text.isBlank c = true) :
    (!gap.isEmpty) = true ↔ BlankBefore (before ++ (gap ++ rest)) (before.length + gap.length) := by
  cases gap with
  | nil => exact iff_of_false nofun hbefore
  | cons c gap =>
    rw [blankBefore_append_iff before rest (List.cons_ne_nil c gap) hgap]
    exact Iff.rfl

private theorem mem_of_getElem?_append {before piece rest : List Char} {i : Nat} {c : Char}
    (hstart : before.length ≤ i) (hlimit : i < before.length + piece.length)
    (h : (before ++ (piece ++ rest))[i]? = some c) : c ∈ piece := by
  rw [List.getElem?_append_right hstart, List.getElem?_append_left (by omega)] at h
  exact List.mem_of_getElem? h

/-- Tokens account for a text from one position up to another: each is the slice of the text at its
position, they stand apart and in order, what stands between them is white space, and each tells
whether there is white space before it. -/
structure Accounts (source : List Char) (start limit : Nat) (ts : List Token) : Prop where
  slice : ∀ t ∈ ts, (source.drop t.position).take t.text.length = t.text
  within : ∀ t ∈ ts, start ≤ t.position ∧ t.position + t.text.length ≤ limit
  apart : ts.Pairwise fun t u ↦
    t.position < u.position ∧ t.position + t.text.length ≤ u.position
  blank : ∀ i c, start ≤ i → i < limit → source[i]? = some c →
    (∀ t ∈ ts, i < t.position ∨ t.position + t.text.length ≤ i) → Text.isBlank c = true
  spaced : ∀ t ∈ ts, (t.spaced = true ↔ BlankBefore source t.position)

namespace Accounts

variable {source : List Char} {start limit : Nat} {t : Token} {ts : List Token}

/-- A gap of white space needs no token. -/
theorem nil (h : ∀ i c, start ≤ i → i < limit → source[i]? = some c → Text.isBlank c = true) :
    Accounts source start limit [] where
  slice := List.forall_mem_nil _
  within := List.forall_mem_nil _
  apart := .nil
  blank i c hi hlimit hc _ := h i c hi hlimit hc
  spaced := List.forall_mem_nil _

/-- A gap and a token stand before what other tokens account for. -/
theorem cons (hstart : start ≤ t.position) (hlimit : t.position + t.text.length ≤ limit)
    (hslice : (source.drop t.position).take t.text.length = t.text) (htext : t.text ≠ [])
    (hgap : ∀ i c, start ≤ i → i < t.position → source[i]? = some c → Text.isBlank c = true)
    (hspaced : t.spaced = true ↔ BlankBefore source t.position)
    (h : Accounts source (t.position + t.text.length) limit ts) :
    Accounts source start limit (t :: ts) where
  slice := List.forall_mem_cons.mpr ⟨hslice, h.slice⟩
  within := by
    refine List.forall_mem_cons.mpr ⟨⟨hstart, hlimit⟩, fun u hu ↦ ?_⟩
    have hwithin := h.within u hu
    exact ⟨by omega, hwithin.2⟩
  apart := by
    refine List.pairwise_cons.mpr ⟨fun u hu ↦ ?_, h.apart⟩
    have hwithin := h.within u hu
    have hlength := List.length_pos_iff.mpr htext
    exact ⟨by omega, hwithin.1⟩
  blank i c hi hlim hc houtside := by
    rw [List.forall_mem_cons] at houtside
    rcases houtside.1 with hbefore | hbehind
    · exact hgap i c hi hbefore hc
    · exact h.blank i c hbehind hlim hc houtside.2
  spaced := List.forall_mem_cons.mpr ⟨hspaced, h.spaced⟩

/-- The mark of the end takes no characters. -/
theorem snoc_endToken {spaced : Bool} (h : Accounts source start limit ts) (hstart : start ≤ limit)
    (htext : ∀ t ∈ ts, t.text ≠ []) (hspaced : spaced = true ↔ BlankBefore source limit) :
    Accounts source start limit (ts ++ [Stop.endToken limit spaced]) where
  slice := List.forall_mem_append.mpr ⟨h.slice, List.forall_mem_singleton.mpr rfl⟩
  within :=
    List.forall_mem_append.mpr ⟨h.within, List.forall_mem_singleton.mpr ⟨hstart, Nat.le_refl limit⟩⟩
  apart := by
    refine List.pairwise_append.mpr ⟨h.apart, List.pairwise_singleton _ _, fun t ht u hu ↦ ?_⟩
    have hwithin := (h.within t ht).2
    have hlength := List.length_pos_iff.mpr (htext t ht)
    obtain rfl := List.mem_singleton.mp hu
    change t.position < limit ∧ t.position + t.text.length ≤ limit
    omega
  blank i c hi hlimit hc houtside :=
    h.blank i c hi hlimit hc (List.forall_mem_append.mp houtside).1
  spaced := List.forall_mem_append.mpr ⟨h.spaced, List.forall_mem_singleton.mpr hspaced⟩

end Accounts

/-! ### Whole texts -/

namespace Stop

/-- Where the tokens of a text end. -/
def position : Stop → Nat
  | finished position _ => position
  | illegal cause => cause.position

/-- The tokens of a text end with the text, or at a character that is no white space. -/
def Fits (source : List Char) : Stop → Prop
  | finished position spaced =>
    position = source.length ∧ (spaced = true ↔ BlankBefore source position)
  | illegal cause =>
    source[cause.position]? = some cause.character ∧ Text.isBlank cause.character = false

end Stop

namespace Tokenization

/-- The text that is left is accounted for, wherever it begins, if no white space stands directly
before it. -/
theorem accounts_ofCharsFrom {position : Nat} {previous : Option TokenKind} {source : List Char}
    (before : List Char) (hposition : position = before.length)
    (hbefore : ¬ BlankBefore (before ++ source) position) :
    let z := ofCharsFrom position previous source
    Accounts (before ++ source) position z.stop.position z.tokens ∧
      (∀ t ∈ z.tokens, t.kind ≠ .finish ∧ t.text ≠ []) ∧ position ≤ z.stop.position ∧
      z.stop.Fits (before ++ source) := by
  -- Every scan leaves a text behind a character that is no white space.
  fun_induction ofCharsFrom position previous source generalizing before with
  | case1 position previous source limit spaced hscan =>
    subst hposition
    obtain ⟨hblank, rfl, rfl⟩ := blank_of_finish hscan
    rw [← List.append_nil source] at hbefore ⊢
    refine ⟨.nil fun i c hi hlimit hc ↦ hblank c (mem_of_getElem?_append hi ?_ hc),
      List.forall_mem_nil _, Nat.le_add_right _ _, ?_, ?_⟩
    · simpa [Stop.position] using hlimit
    · simp
    · simpa using blankBefore_gap_iff hbefore hblank
  | case2 position previous source illegal hscan =>
    subst hposition
    obtain ⟨gap, rest, rfl, hgap, hposition, hcharacter⟩ := exists_gap_of_illegal hscan
    refine ⟨.nil fun i c hi hlimit hc ↦ hgap c (mem_of_getElem?_append hi ?_ hc),
      List.forall_mem_nil _, ?_, ?_, hcharacter⟩
    · rw [← hposition]
      exact hlimit
    · exact Nat.le_trans (Nat.le_add_right _ _) (Nat.le_of_eq hposition.symm)
    · rw [hposition, ← List.append_assoc, ← List.length_append,
        List.getElem?_append_right (Nat.le_refl _), Nat.sub_self]
      rfl
  | case3 position previous source t rest hscan tail ih =>
    subst hposition
    obtain ⟨gap, hsource, hgap, hposition, hspaced, htext, hblank, hkind⟩ :=
      exists_gap_of_token hscan
    subst hsource
    have hassoc : before ++ (gap ++ t.text ++ rest) = before ++ gap ++ (t.text ++ rest) := by
      simp only [List.append_assoc]
    have hlength : t.position = (before ++ gap).length := by rw [hposition, List.length_append]
    have hend : ¬ BlankBefore (before ++ gap ++ (t.text ++ rest)) (t.position + t.text.length) := by
      rw [hlength, blankBefore_append_iff _ _ htext hblank]
      exact Bool.false_ne_true
    rw [hassoc] at hbefore ⊢
    obtain ⟨haccounts, htokens, hle, hfits⟩ := ih (before ++ gap ++ t.text)
      (by rw [List.length_append, hlength]) (by rwa [List.append_assoc])
    rw [List.append_assoc _ t.text] at haccounts hfits
    refine ⟨haccounts.cons ?_ hle ?_ htext (fun i c hi hlimit hc ↦ hgap c ?_) ?_,
      List.forall_mem_cons.mpr ⟨⟨hkind, htext⟩, htokens⟩, ?_, hfits⟩
    · omega
    · rw [hlength, List.drop_left, List.take_left]
    · rw [List.append_assoc] at hc
      exact mem_of_getElem?_append hi (hposition ▸ hlimit) hc
    · rw [List.append_assoc] at hbefore ⊢
      rw [hspaced, hposition]
      exact blankBefore_gap_iff hbefore hgap
    · exact Nat.le_trans (by omega) hle

/-- The tokens of a text account for it up to where they end. -/
theorem accounts_tokens (source : List Char) :
    Accounts source 0 (ofChars source).stop.position (ofChars source).tokens ∧
      (∀ t ∈ (ofChars source).tokens, t.kind ≠ .finish ∧ t.text ≠ []) ∧
      (ofChars source).stop.Fits source := by
  obtain ⟨haccounts, htokens, -, hfits⟩ :=
    @accounts_ofCharsFrom 0 none source [] rfl (not_blankBefore_zero _)
  exact ⟨haccounts, htokens, hfits⟩

/-- The tokens of a text that no illegal character stops reach to its end. -/
theorem eq_length_of_finished {source : List Char} {limit : Nat} {spaced : Bool}
    (h : (ofChars source).stop = .finished limit spaced) : limit = source.length := by
  have hfits := (accounts_tokens source).2.2
  rw [h] at hfits
  exact hfits.1

/-- Tokenization loses nothing. The tokens are slices of the text that take at least one character
each; they stand in order and apart, nothing but white space is between them, and each tells whether
there is white space before it. They reach to the end of the text, which one mark of no characters
stands for, or to a character that is no white space and begins no token. -/
theorem accounts_ofChars (source : List Char) :
    Accounts source 0 (ofChars source).stop.position (ofChars source).all ∧
      (∀ t ∈ (ofChars source).tokens, t.kind ≠ .finish ∧ t.text ≠ []) ∧
      match (ofChars source).stop with
      | .finished position spaced =>
        position = source.length ∧
          (ofChars source).all = (ofChars source).tokens ++ [⟨.finish, [], source.length, spaced⟩]
      | .illegal cause =>
        source[cause.position]? = some cause.character ∧ Text.isBlank cause.character = false ∧
          (ofChars source).all = (ofChars source).tokens := by
  obtain ⟨haccounts, htokens, hle, hfits⟩ :=
    @accounts_ofCharsFrom 0 none source [] rfl (not_blankBefore_zero _)
  change Accounts source 0 (ofChars source).stop.position (ofChars source).tokens at haccounts
  change (ofChars source).stop.Fits source at hfits
  rw [all]
  cases hstop : (ofChars source).stop with
  | finished position spaced =>
    rw [hstop] at haccounts hfits
    obtain ⟨rfl, hspaced⟩ := hfits
    exact ⟨haccounts.snoc_endToken (Nat.zero_le _) (fun t ht ↦ (htokens t ht).2) hspaced, htokens,
      rfl, rfl⟩
  | illegal cause =>
    rw [hstop] at haccounts hfits
    rw [Stop.marker, List.append_nil]
    exact ⟨haccounts, htokens, hfits.1, hfits.2, rfl⟩

/-- A letter that stands before a digit begins no token; the tokens before it are kept. -/
example :
    ofChars " >=1 x2".toList =
      ⟨[⟨.comparator, ['>', '='], 1, true⟩, ⟨.number, ['1'], 3, false⟩], .illegal ⟨'x', 5⟩⟩ := by
  decide +kernel

end Tokenization

end VersionRange
