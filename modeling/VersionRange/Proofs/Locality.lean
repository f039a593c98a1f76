import VersionRange.Proofs.Cuts

/-!
# Texts apart

White space between two texts keeps their tokens apart: the tokens of both together are those of
the first one and behind them those of the second one. The tokens of a text that begins elsewhere
are the same but for their positions, and white space in front of a text takes away what the kind
of the token before it has to do with the first of its tokens. Both are seen in one scan and carried
to the tokens of a whole text.
-/

namespace VersionRange

/-! ### Tokens in other places -/

namespace Token

/-- The same token so much further behind. -/
def shift (offset : Nat) (t : Token) : Token := { t with position := offset + t.position }

/-- The same token with white space before it. -/
def withSpace (t : Token) : Token := { t with spaced := true }

end Token

/-- The same character so much further behind. -/
def Illegal.shift (offset : Nat) (cause : Illegal) : Illegal :=
  { cause with position := offset + cause.position }

namespace Stop

/-- The same end so much further behind. -/
def shift (offset : Nat) : Stop → Stop
  | finished position spaced => finished (offset + position) spaced
  | illegal cause => illegal (cause.shift offset)

/-- The same end with white space before it; before an illegal character it is of no account. -/
def withSpace : Stop → Stop
  | finished position _ => finished position true
  | illegal cause => illegal cause

private theorem marker_shift (offset : Nat) (stop : Stop) :
    (stop.shift offset).marker = stop.marker.map (Token.shift offset) := by
  cases stop <;> rfl

private theorem marker_withSpace (stop : Stop) :
    stop.withSpace.marker = stop.marker.modifyHead Token.withSpace := by
  cases stop <;> rfl

theorem shift_eq_illegal_iff {offset : Nat} {stop : Stop} {cause : Illegal} :
    stop.shift offset = illegal cause ↔ ∃ i, stop = illegal i ∧ cause = i.shift offset := by
  cases stop with
  | finished => simp [shift]
  | illegal => simp [shift, eq_comm]

theorem withSpace_eq_illegal_iff {stop : Stop} {cause : Illegal} :
    stop.withSpace = illegal cause ↔ stop = illegal cause := by
  cases stop <;> simp [withSpace]

end Stop

namespace Scan

/-- What stands first in the same text so much further behind. -/
def shift (offset : Nat) : Scan → Scan
  | token t rest => token (t.shift offset) rest
  | finish position spaced => finish (offset + position) spaced
  | illegal cause => illegal (cause.shift offset)

/-- What stands first in the same text with white space before it. -/
def withSpace : Scan → Scan
  | token t rest => token t.withSpace rest
  | finish position _ => finish position true
  | illegal cause => illegal cause

end Scan

/-- A scan does not look at the place where its text begins. -/
theorem scan_shift (offset position : Nat) (previous : Option TokenKind) (source : List Char) :
    scan (offset + position) previous source = (scan position previous source).shift offset := by
  simp only [scan, Nat.add_assoc]
  cases source.dropWhile Text.isBlank with
  | nil => rfl
  | cons c rest =>
    dsimp only
    generalize classify? _ c rest = first
    cases first <;> rfl

/-- Behind white space a scan does not look at the token before it. -/
theorem scan_append_of_blank {gap : List Char} (hne : gap ≠ [])
    (hgap : ∀ c ∈ gap, Text.isBlank c = true) (position : Nat) (previous : Option TokenKind)
    (source : List Char) :
    scan position previous (gap ++ source) =
      (scan (position + gap.length) none source).withSpace := by
  have hspaced : ((gap ++ source.takeWhile Text.isBlank).length != 0) = true := by
    cases gap with
    | nil => contradiction
    | cons => rfl
  simp only [scan, List.takeWhile_append_of_pos hgap, List.dropWhile_append_of_pos hgap, hspaced,
    if_true, ite_self]
  rw [List.length_append, ← Nat.add_assoc]
  cases source.dropWhile Text.isBlank with
  | nil => rfl
  | cons c rest =>
    dsimp only
    generalize classify? none c rest = first
    cases first <;> rfl

namespace Tokenization

open Remainder

/-- The same tokens so much further behind. -/
def shift (offset : Nat) (z : Tokenization) : Tokenization :=
  ⟨z.tokens.map (Token.shift offset), z.stop.shift offset⟩

/-- The same tokens with white space before the first one, or before the end if there is none. -/
def withSpace (z : Tokenization) : Tokenization :=
  match z.tokens with
  | [] => ⟨[], z.stop.withSpace⟩
  | t :: ts => ⟨t.withSpace :: ts, z.stop⟩

private theorem all_shift (offset : Nat) (z : Tokenization) :
    (z.shift offset).all = z.all.map (Token.shift offset) := by
  rw [all, all, shift, Stop.marker_shift, List.map_append]

private theorem all_withSpace (z : Tokenization) :
    z.withSpace.all = z.all.modifyHead Token.withSpace := by
  obtain ⟨ts, stop⟩ := z
  cases ts with
  | nil => exact stop.marker_withSpace
  | cons => rfl

theorem stop_withSpace_eq_illegal_iff {z : Tokenization} {cause : Illegal} :
    z.withSpace.stop = .illegal cause ↔ z.stop = .illegal cause := by
  obtain ⟨ts, stop⟩ := z
  cases ts with
  | nil => exact Stop.withSpace_eq_illegal_iff
  | cons => exact Iff.rfl

/-- The tokens of a text are the same wherever it begins, but for their positions. -/
theorem ofCharsFrom_shift (offset position : Nat) (previous : Option TokenKind)
    (source : List Char) :
    ofCharsFrom (offset + position) previous source =
      (ofCharsFrom position previous source).shift offset := by
  rw [ofCharsFrom_eq_ofScan, scan_shift]
  fun_induction ofCharsFrom position previous source with
  | case1 _ _ _ _ _ hscan => rw [hscan]; rfl
  | case2 _ _ _ _ hscan => rw [hscan]; rfl
  | case3 _ _ _ t rest hscan _ ih =>
    rw [← scan_shift, ← ofCharsFrom_eq_ofScan, ← Nat.add_assoc] at ih
    rw [hscan]
    exact congrArg (cons (t.shift offset)) ih

/-- White space before a text stands before the first of its tokens. -/
theorem ofCharsFrom_append_of_blank {gap : List Char} (hne : gap ≠ [])
    (hgap : ∀ c ∈ gap, Text.isBlank c = true) (position : Nat) (previous : Option TokenKind)
    (source : List Char) :
    ofCharsFrom position previous (gap ++ source) =
      (ofCharsFrom (position + gap.length) none source).withSpace := by
  rw [ofCharsFrom_eq_ofScan, ofCharsFrom_eq_ofScan, scan_append_of_blank hne hgap]
  cases scan (position + gap.length) none source <;> rfl

/-- White space between two texts keeps their tokens apart. -/
theorem ofChars_append_of_blank {front gap : List Char} {limit : Nat} {spaced : Bool}
    (hstop : (ofChars front).stop = .finished limit spaced) (hne : gap ≠ [])
    (hgap : ∀ c ∈ gap, Text.isBlank c = true) (behind : List Char) :
    let z := ((ofChars behind).shift (front.length + gap.length)).withSpace
    ofChars (front ++ (gap ++ behind)) = ⟨(ofChars front).tokens ++ z.tokens, z.stop⟩ := by
  have hfront : ofChars front = ⟨(ofChars front).tokens, .finished front.length spaced⟩ := by
    rw [← eq_length_of_finished hstop, ← hstop]
  obtain ⟨position, previous, blanks, hscans, hblanks, hposition, -⟩ :=
    exists_scans_of_finished hfront
  -- What is left behind the tokens of the first text is all the white space before the second one.
  have hrest : tokenization ⟨position, previous, blanks ++ (gap ++ behind)⟩ =
      ((ofChars behind).shift (front.length + gap.length)).withSpace := by
    have hoffset : position + (blanks ++ gap).length = front.length + gap.length + 0 := by
      rw [List.length_append]
      omega
    rw [tokenization, ← List.append_assoc, ofCharsFrom_append_of_blank (by simp [hne])
      (List.forall_mem_append.mpr ⟨hblanks, hgap⟩), hoffset, ofCharsFrom_shift]
    rfl
  have hends : EndsToken (gap ++ behind) := endsToken_of_blank hne hgap
  have hwhole := (hscans.append hends).tokenization_eq
  rw [hrest] at hwhole
  exact hwhole

/-- Tokens are local across white space. If a text is all tokens, then in front of white space and
another text it has the same tokens. Behind them come those of the other text with the mark of its
end, moved by the length of all that stands in front of them, and the first one has white space
before it. The tokens of the whole end at an illegal character exactly if those of the other text
do, and at the same one. -/
theorem all_ofChars_apart {front gap : List Char} {limit : Nat} {spaced : Bool}
    (hstop : (ofChars front).stop = .finished limit spaced) (hne : gap ≠ [])
    (hgap : ∀ c ∈ gap, Text.isBlank c = true) (behind : List Char) :
    let offset := front.length + gap.length
    (ofChars (front ++ (gap ++ behind))).all =
        (ofChars front).tokens ++
          ((ofChars behind).all.map (Token.shift offset)).modifyHead Token.withSpace ∧
      ∀ cause, (ofChars (front ++ (gap ++ behind))).stop = .illegal cause ↔
        ∃ i, (ofChars behind).stop = .illegal i ∧ cause = i.shift offset := by
  intro offset
  rw [ofChars_append_of_blank hstop hne hgap behind]
  constructor
  · rw [all, List.append_assoc, ← all_shift, ← all_withSpace]
    rfl
  · intro cause
    exact stop_withSpace_eq_illegal_iff.trans Stop.shift_eq_illegal_iff

/-- Behind white space a hyphen begins no label, and what stands behind it is at fault. -/
theorem all_ofChars_apart_hyphen :
    (ofChars ['1']).stop = .finished 1 false ∧ [' '] ≠ [] ∧
      (∀ c ∈ [' '], Text.isBlank c = true) ∧
      (ofChars ['1', ' ', '-', 'x', '1']).all =
        [⟨.number, ['1'], 0, false⟩, ⟨.hyphen, ['-'], 2, true⟩] ∧
      (ofChars ['1', ' ', '-', 'x', '1']).stop = .illegal ⟨'x', 3⟩ := by
  have hfront : ofChars ['1'] = ⟨[⟨.number, ['1'], 0, false⟩], .finished 1 false⟩ := by
    decide +kernel
  have hbehind : ofChars ['-', 'x', '1'] = ⟨[⟨.hyphen, ['-'], 0, false⟩], .illegal ⟨'x', 1⟩⟩ := by
    decide +kernel
  have hstop : (ofChars ['1']).stop = .finished 1 false := by rw [hfront]
  have hne : [' '] ≠ [] := List.cons_ne_nil ' ' []
  obtain ⟨hall, hfails⟩ := all_ofChars_apart hstop hne isBlank_of_mem_space ['-', 'x', '1']
  rw [hfront, hbehind] at hall
  rw [hbehind] at hfails
  exact ⟨hstop, hne, isBlank_of_mem_space, hall, (hfails ⟨'x', 3⟩).mpr ⟨⟨'x', 1⟩, rfl, rfl⟩⟩

end Tokenization

end VersionRange
