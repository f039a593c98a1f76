import VersionRange.Proofs.Concatenation

/-!
# Cut texts

A text may be cut wherever no token reaches over the cut. The part before the cut then has the same
tokens alone, and they are taken off the front of every text that continues it without continuing
its last token.
-/

namespace VersionRange

/-! ### Tokens without the text behind them -/

private theorem takeWhile_eq_of_append {inside : Char → Bool} {cs rest : List Char}
    (h : ((cs ++ rest).takeWhile inside).length ≤ cs.length) :
    cs.takeWhile inside = (cs ++ rest).takeWhile inside := by
  rw [List.takeWhile_append] at h ⊢
  split
  · next hall =>
    rw [if_pos hall, List.length_append] at h
    have hcs := (List.takeWhile_prefix inside (l := cs)).eq_of_length hall
    rw [List.length_eq_zero_iff.mp (by omega : (rest.takeWhile inside).length = 0),
      List.append_nil, hcs]
  · rfl

/-- A token is the same without the text behind it. -/
theorem classify?_of_append {previous : Option TokenKind} {c : Char} {cs rest : List Char}
    {kind : TokenKind} {more : Nat} (h : classify? previous c (cs ++ rest) = some (kind, more))
    (hmore : more ≤ cs.length) : classify? previous c cs = some (kind, more) := by
  rw [classify?] at h ⊢
  split at h
  · next hdigit =>
    cases h
    rw [if_pos hdigit, takeWhile_eq_of_append hmore]
  · next hdigit =>
    rw [if_neg hdigit]
    split at h
    · next hbegins =>
      cases h
      rw [if_pos hbegins, takeWhile_eq_of_append hmore]
    · next hbegins =>
      rw [if_neg hbegins]
      cases cs with
      | cons => exact h
      | nil =>
        -- Nothing is left that a wildcard could continue or that could make a pair.
        split at h
        · next hhyphen => rw [if_pos hhyphen, h]
        · next hhyphen =>
          rw [if_neg hhyphen]
          split at h
          · next hletter =>
            rw [if_pos hletter]
            split at h
            · cases h
            · exact h
          · next hletter =>
            rw [if_neg hletter]
            split at h
            · cases h
              cases hmore
            · exact h

/-- A token that does not reach to the end of a text is the same in front of any other text. -/
theorem classify?_append_of_lt {previous : Option TokenKind} {c : Char} {cs : List Char}
    {kind : TokenKind} {more : Nat} (rest : List Char)
    (h : classify? previous c cs = some (kind, more)) (hmore : more < cs.length) :
    classify? previous c (cs ++ rest) = some (kind, more) := by
  rw [classify?] at h ⊢
  split at h
  · next hdigit =>
    cases h
    rw [if_pos hdigit, List.takeWhile_append, if_neg (Nat.ne_of_lt hmore)]
  · next hdigit =>
    rw [if_neg hdigit]
    split at h
    · next hbegins =>
      cases h
      rw [if_pos hbegins, List.takeWhile_append, if_neg (Nat.ne_of_lt hmore)]
    · next hbegins =>
      rw [if_neg hbegins]
      cases cs with
      | nil => cases hmore
      | cons => exact h

private theorem dot_of_classify? {previous : Option TokenKind} {c : Char} {cs : List Char}
    {more : Nat} (h : classify? previous c cs = some (.dot, more)) : c = '.' ∧ more = 0 := by
  cases begins_of_classify? h with
  | pair _ hpair =>
    unfold pairKind? at hpair
    split at hpair <;> cases hpair
  | single hsingle =>
    unfold singleKind? at hsingle
    split at hsingle <;> simp_all

/-! ### Scans of several tokens -/

/-- What is left of a text: where it begins, the kind of the token before it, and its characters. -/
structure Remainder where
  position : Nat
  previous : Option TokenKind
  source : List Char

namespace Remainder

/-- The tokens of what is left. -/
def tokenization (r : Remainder) : Tokenization :=
  .ofCharsFrom r.position r.previous r.source

/-- A whole text. -/
def whole (source : List Char) : Remainder := ⟨0, none, source⟩

/-- Tokens are taken off the front, one by one. -/
inductive Scans : Remainder → List Token → Remainder → Prop
  | nil {r : Remainder} : Scans r [] r
  | cons {r r' : Remainder} {t : Token} {ts : List Token} {rest : List Char}
      (first : scan r.position r.previous r.source = .token t rest)
      (h : Scans ⟨t.position + t.text.length, some t.kind, rest⟩ ts r') : Scans r (t :: ts) r'

/-- Tokens end before a position or begin behind it, according to an index. -/
structure Splits (ts : List Token) (position index : Nat) : Prop where
  before : ∀ t ∈ ts.take index, t.position + t.text.length ≤ position
  behind : ∀ t ∈ ts.drop index, position ≤ t.position

variable {r r' : Remainder} {ts : List Token} {t : Token} {position : Nat}
  {front behind rest : List Char}

private theorem tokenization_of_token (h : scan r.position r.previous r.source = .token t rest) :
    r.tokenization = .cons t (tokenization ⟨t.position + t.text.length, some t.kind, rest⟩) :=
  Tokenization.ofCharsFrom_of_token h

theorem Scans.tokenization_eq (h : Scans r ts r') :
    r.tokenization = ⟨ts ++ r'.tokenization.tokens, r'.tokenization.stop⟩ := by
  induction h with
  | nil => rfl
  | cons hfirst _ ih =>
    rw [tokenization_of_token hfirst, ih]
    rfl

/-- The first token is the same in front of other text if its kind and its length are. -/
theorem scan_append (behind : List Char)
    (hclass : ∀ previous c tail more, classify? previous c tail = some (t.kind, more) →
      rest = tail.drop more → classify? previous c (tail ++ behind) = some (t.kind, more))
    (h : scan r.position r.previous r.source = .token t rest) :
    scan r.position r.previous (r.source ++ behind) = .token t (rest ++ behind) := by
  obtain ⟨gap, c, tail, more, hsource, hgap, hc, hkind, ht, hrest⟩ := scan_eq_token_iff.mp h
  have hmore := le_length_of_classify? hkind
  refine scan_eq_token_iff.mpr ⟨gap, c, tail ++ behind, more, ?_, hgap, hc,
    hclass _ _ _ _ hkind hrest, ?_, ?_⟩
  · rw [hsource, List.append_assoc, List.cons_append]
  · rw [List.take_append_of_le_length hmore]
    exact ht
  · rw [hrest, List.drop_append_of_le_length hmore]

/-- The first token is the same in front of a text that ends it. -/
theorem scan_append_of_endsToken (hrest : EndsToken rest)
    (h : scan r.position r.previous r.source = .token t front) :
    scan r.position r.previous (r.source ++ rest) = .token t (front ++ rest) :=
  scan_append rest (fun _ _ _ _ hclass _ ↦ classify?_append hrest hclass) h

/-- Tokens are taken off the same in front of a text that ends them. -/
theorem Scans.append (h : Scans r ts r') (hrest : EndsToken rest) :
    Scans { r with source := r.source ++ rest } ts { r' with source := r'.source ++ rest } := by
  induction h with
  | nil => exact .nil
  | cons hfirst _ ih => exact .cons (scan_append_of_endsToken hrest hfirst) ih

/-- Tokens of which the last one is a dot are taken off the same in front of any text. -/
theorem Scans.append_of_dot (h : Scans r ts r') (hdot : ∃ t ∈ ts.getLast?, t.kind = .dot)
    (behind : List Char) :
    Scans { r with source := r.source ++ behind } ts { r' with source := r'.source ++ behind } := by
  induction h with
  | nil =>
    obtain ⟨_, ht, -⟩ := hdot
    cases ht
  | @cons _ _ t _ rest hfirst h ih =>
    cases h with
    | nil =>
      obtain ⟨u, hu, hkind⟩ := hdot
      obtain rfl : t = u := Option.some.inj hu
      refine .cons (scan_append behind (fun previous c tail more hclass _ ↦ ?_) hfirst) .nil
      rw [hkind] at hclass ⊢
      obtain ⟨rfl, rfl⟩ := dot_of_classify? hclass
      exact classify?_dot previous (tail ++ behind)
    | cons hnext hbehind =>
      refine .cons (scan_append behind (fun _ _ tail more hclass hrest ↦ ?_) hfirst) (ih hdot)
      -- More tokens follow, so that this one does not reach to the end.
      have hlength := length_lt_of_scan hnext
      rw [hrest, List.length_drop] at hlength
      exact classify?_append_of_lt behind hclass (by omega)

/-- A token that ends before a cut is the same without the text behind the cut. -/
theorem scan_of_append (hsource : r.source = front ++ behind)
    (h : scan r.position r.previous r.source = .token t rest)
    (hend : t.position + t.text.length ≤ r.position + front.length) :
    ∃ middle, rest = middle ++ behind ∧ scan r.position r.previous front = .token t middle ∧
      t.position + t.text.length + middle.length = r.position + front.length := by
  obtain ⟨gap, c, tail, more, hgap, hblank, hc, hclass, ht, rfl⟩ := scan_eq_token_iff.mp h
  have hmore := le_length_of_classify? hclass
  have hposition : t.position = r.position + gap.length := by rw [ht]
  have hlength : t.text.length = more + 1 := by
    rw [ht, List.length_cons, List.length_take, Nat.min_eq_left hmore]
  -- The cut lies in the text behind the first character of the token.
  have hinit : gap ++ [c] <+: front := by
    refine List.prefix_of_prefix_length_le ⟨tail, ?_⟩ (List.prefix_append front behind) ?_
    · rw [← hsource, hgap, List.append_assoc]
      rfl
    · rw [List.length_append, List.length_singleton]
      omega
  obtain ⟨inner, rfl⟩ := hinit
  have htail : tail = inner ++ behind := by
    rw [hsource, List.append_assoc, List.append_assoc, List.append_cancel_left_eq] at hgap
    exact (List.cons.inj hgap).2.symm
  subst htail
  have hinner : more ≤ inner.length := by
    simp only [List.length_append, List.length_singleton] at hend
    omega
  refine ⟨inner.drop more, List.drop_append_of_le_length hinner, ?_, ?_⟩
  · refine scan_eq_token_iff.mpr ⟨gap, c, inner, more, ?_, hblank, hc,
      classify?_of_append hclass hinner, ?_, rfl⟩
    · rw [List.append_assoc]
      rfl
    · rw [← List.take_append_of_le_length hinner]
      exact ht
  · rw [hposition, hlength, List.length_drop]
    simp only [List.length_append, List.length_singleton]
    omega

theorem splits_zero (ts : List Token) : Splits ts 0 0 :=
  ⟨List.forall_mem_nil _, fun t _ ↦ Nat.zero_le t.position⟩

private theorem splits_cons_zero (h : Splits (t :: ts) position 0) : position ≤ t.position :=
  h.behind t List.mem_cons_self

private theorem splits_cons_succ {index : Nat} (h : Splits (t :: ts) position (index + 1)) :
    t.position + t.text.length ≤ position ∧ Splits ts position index :=
  ⟨h.before t List.mem_cons_self, fun u hu ↦ h.before u (List.mem_cons_of_mem t hu), h.behind⟩

/-- White space stands before a cut that lies before the first token. -/
theorem isBlank_of_front {gap : List Char} (hsource : front ++ behind = gap ++ rest)
    (hgap : ∀ c ∈ gap, Text.isBlank c = true) (hle : front.length ≤ gap.length) :
    ∀ c ∈ front, Text.isBlank c = true := by
  have hinit : front <+: gap := by
    refine List.prefix_of_prefix_length_le (List.prefix_append front behind) ?_ hle
    rw [hsource]
    exact List.prefix_append gap rest
  exact fun c hc ↦ hgap c (hinit.subset hc)

/-- The tokens before a cut are taken off the front of the text, with the cut and without the text
behind it; what is left of the part before the cut is white space. -/
theorem exists_scans_of_splits {index : Nat} (hsource : r.source = front ++ behind)
    (hsplits : Splits r.tokenization.tokens (r.position + front.length) index)
    (hstop : r.position + front.length ≤ r.tokenization.stop.position) :
    ∃ position previous gap, Scans r (r.tokenization.tokens.take index)
        ⟨position, previous, gap ++ behind⟩ ∧
      Scans { r with source := front } (r.tokenization.tokens.take index)
        ⟨position, previous, gap⟩ ∧
      (∀ c ∈ gap, Text.isBlank c = true) ∧
      position + gap.length = r.position + front.length := by
  obtain ⟨position, previous, source⟩ := r
  simp only [tokenization] at hsource hsplits hstop ⊢
  -- The scans before the cut are repeated without the text behind it.
  fun_induction Tokenization.ofCharsFrom position previous source generalizing front index with
  | case1 position previous source limit spaced hscan =>
    obtain ⟨hblank, -, -⟩ := blank_of_finish hscan
    rw [List.take_nil, hsource]
    exact ⟨position, previous, front, .nil, .nil,
      fun c hc ↦ hblank c (by rw [hsource]; exact List.mem_append_left behind hc), rfl⟩
  | case2 position previous source illegal hscan =>
    obtain ⟨gap, rest, hgap, hblank, hposition, -⟩ := exists_gap_of_illegal hscan
    have hle : position + front.length ≤ illegal.position := hstop
    rw [List.take_nil]
    rw [hsource] at hgap
    rw [hsource]
    exact ⟨position, previous, front, .nil, .nil, isBlank_of_front hgap hblank (by omega), rfl⟩
  | case3 position previous source t rest hscan =>
    rename_i ih
    cases index with
    | zero =>
      obtain ⟨gap, hgap, hblank, hposition, -⟩ := exists_gap_of_token hscan
      have hle := splits_cons_zero hsplits
      rw [hsource, List.append_assoc] at hgap
      rw [List.take_zero, hsource]
      exact ⟨position, previous, front, .nil, .nil, isBlank_of_front hgap hblank (by omega), rfl⟩
    | succ index =>
      obtain ⟨hend, hsplits⟩ := splits_cons_succ hsplits
      obtain ⟨middle, hrest, hmiddle, hlength⟩ :=
        scan_of_append (r := ⟨position, previous, source⟩) hsource hscan hend
      obtain ⟨position', previous', gap, hscans, hfront, hgap, hposition⟩ :=
        ih hrest (by rwa [hlength]) (by rwa [hlength])
      exact ⟨position', previous', gap, .cons hscan hscans, .cons hmiddle hfront, hgap,
        hposition.trans hlength⟩

/-- A position that no token reaches over splits tokens that stand in order. -/
theorem exists_splits (hapart : ts.Pairwise fun t u ↦ t.position < u.position)
    (h : ∀ t ∈ ts, t.position + t.text.length ≤ position ∨ position ≤ t.position) :
    ∃ index, Splits ts position index := by
  induction ts with
  | nil => exact ⟨0, List.forall_mem_nil _, List.forall_mem_nil _⟩
  | cons t ts ih =>
    rw [List.forall_mem_cons] at h
    rw [List.pairwise_cons] at hapart
    rcases h.1 with hend | hbegin
    · obtain ⟨index, hsplits⟩ := ih hapart.2 h.2
      exact ⟨index + 1, List.forall_mem_cons.mpr ⟨hend, hsplits.before⟩, hsplits.behind⟩
    · refine ⟨0, List.forall_mem_nil _, List.forall_mem_cons.mpr ⟨hbegin, fun u hu ↦ ?_⟩⟩
      exact Nat.le_trans hbegin (Nat.le_of_lt (hapart.1 u hu))

end Remainder

namespace Accounts

open Remainder

variable {source : List Char} {start limit : Nat} {t : Token} {before behind : List Token}

theorem splits_position (h : Accounts source start limit (before ++ t :: behind)) :
    Splits (before ++ t :: behind) t.position before.length := by
  have hapart := h.apart
  rw [List.pairwise_append, List.pairwise_cons] at hapart
  constructor
  · rw [List.take_left]
    exact fun u hu ↦ (hapart.2.2 u hu t List.mem_cons_self).2
  · rw [List.drop_left]
    exact List.forall_mem_cons.mpr
      ⟨Nat.le_refl _, fun u hu ↦ Nat.le_of_lt (hapart.2.1.1 u hu).1⟩

private theorem splits_end (h : Accounts source start limit (before ++ t :: behind)) :
    Splits (before ++ t :: behind) (t.position + t.text.length) (before ++ [t]).length := by
  have hsplits := h.splits_position
  have hapart := h.apart
  rw [List.pairwise_append, List.pairwise_cons] at hapart
  rw [List.append_cons]
  constructor
  · rw [List.take_left, List.forall_mem_append, List.forall_mem_singleton]
    refine ⟨fun u hu ↦ ?_, Nat.le_refl _⟩
    exact Nat.le_trans (hapart.2.2 u hu t List.mem_cons_self).2 (Nat.le_add_right ..)
  · rw [List.drop_left]
    exact fun u hu ↦ (hapart.2.1.1 u hu).2

theorem splits_limit {ts : List Token} (h : Accounts source start limit ts) :
    Splits ts limit ts.length := by
  constructor
  · rw [List.take_length]
    exact fun u hu ↦ (h.within u hu).2
  · rw [List.drop_length]
    exact List.forall_mem_nil _

end Accounts

/-- The tokens of a text end within it. -/
theorem Stop.Fits.position_le {source : List Char} {stop : Stop} (h : stop.Fits source) :
    stop.position ≤ source.length := by
  cases stop with
  | finished => exact Nat.le_of_eq h.1
  | illegal => exact Nat.le_of_lt (List.getElem?_eq_some_iff.mp h.1).1

namespace Tokenization

open Remainder

/-- A text that is cut where no token reaches over has the tokens before the cut, and no others. -/
theorem ofChars_of_splits {front behind : List Char} {index : Nat}
    (hsplits : Splits (ofChars (front ++ behind)).tokens front.length index)
    (hstop : front.length ≤ (ofChars (front ++ behind)).stop.position) :
    ∃ spaced, ofChars front =
      ⟨(ofChars (front ++ behind)).tokens.take index, .finished front.length spaced⟩ := by
  obtain ⟨position, previous, gap, -, hfront, hgap, hposition⟩ :=
    exists_scans_of_splits (r := whole (front ++ behind)) rfl (by simpa [whole]) (by simpa [whole])
  have hrest : tokenization ⟨position, previous, gap⟩ =
      ⟨[], .finished (position + gap.length) (!gap.isEmpty)⟩ := ofCharsFrom_of_blank hgap
  refine ⟨!gap.isEmpty, hfront.tokenization_eq.trans ?_⟩
  rw [hrest, hposition, List.append_nil, whole, Nat.zero_add]
  rfl

/-- The tokens of a text that is all tokens are taken off up to the white space at its end. -/
theorem exists_scans_of_finished {front : List Char} {ts : List Token} {spaced : Bool}
    (h : ofChars front = ⟨ts, .finished front.length spaced⟩) :
    ∃ position previous gap, Scans (whole front) ts ⟨position, previous, gap⟩ ∧
      (∀ c ∈ gap, Text.isBlank c = true) ∧ position + gap.length = front.length ∧
      (gap ≠ [] ↔ BlankBefore front front.length) := by
  obtain ⟨haccounts, -, hfits⟩ := accounts_tokens front
  rw [h] at haccounts hfits
  have hwhole : (whole front).tokenization = ⟨ts, .finished front.length spaced⟩ := h
  have hsplits : Splits (whole front).tokenization.tokens (0 + front.length) ts.length := by
    rw [hwhole, Nat.zero_add]
    exact haccounts.splits_limit
  have hstop : 0 + front.length ≤ (whole front).tokenization.stop.position := by
    rw [hwhole, Nat.zero_add]
    exact Nat.le_refl _
  obtain ⟨position, previous, gap, -, hscans, hgap, hposition⟩ :=
    exists_scans_of_splits (r := whole front) (List.append_nil front).symm hsplits hstop
  rw [hwhole, List.take_length] at hscans
  have hend := congrArg Tokenization.stop hscans.tokenization_eq
  have hblank : tokenization ⟨position, previous, gap⟩ = _ := ofCharsFrom_of_blank hgap
  rw [hblank] at hend
  change (ofChars front).stop = _ at hend
  rw [h] at hend
  obtain ⟨-, rfl⟩ := Stop.finished.inj hend
  refine ⟨position, previous, gap, hscans, hgap, hposition.trans (Nat.zero_add _), ?_⟩
  rw [← hfits.2]
  cases gap <;> simp

/-- The tokens before a cut are the same in every text that goes on from there with white space, or
with anything else that ends them. -/
theorem exists_cut {before behind : List Char} {index end' : Nat} {spaced : Bool}
    (hstop : (ofChars (before ++ behind)).stop = .finished end' spaced)
    (hsplits : Splits (ofChars (before ++ behind)).tokens before.length index) :
    ∃ position previous gap, (∀ c ∈ gap, Text.isBlank c = true) ∧
      (ofChars (before ++ behind)).tokens.drop index =
        (ofCharsFrom position previous (gap ++ behind)).tokens ∧
      (ofChars (before ++ behind)).stop = (ofCharsFrom position previous (gap ++ behind)).stop ∧
      ∀ behind', EndsToken behind' → ofChars (before ++ behind') =
        ⟨(ofChars (before ++ behind)).tokens.take index ++
          (ofCharsFrom position previous (gap ++ behind')).tokens,
          (ofCharsFrom position previous (gap ++ behind')).stop⟩ := by
  have hreach : before.length ≤ (ofChars (before ++ behind)).stop.position := by
    rw [hstop]
    change before.length ≤ end'
    rw [eq_length_of_finished hstop, List.length_append]
    exact Nat.le_add_right ..
  obtain ⟨position, previous, gap, hscans, hbefore, hgap, -⟩ :=
    exists_scans_of_splits (r := whole (before ++ behind)) rfl (by simpa [whole]) (by simpa [whole])
  have htokens := congrArg Tokenization.tokens hscans.tokenization_eq
  have hend := congrArg Tokenization.stop hscans.tokenization_eq
  refine ⟨position, previous, gap, hgap, ?_, hend, fun behind' h ↦ ?_⟩
  · exact List.append_cancel_left ((List.take_append_drop index _).trans htokens)
  · exact (hbefore.append h).tokenization_eq

/-- The end of a token splits the tokens of a text, and so does the end of the text. -/
theorem exists_splits_of_mem {source : List Char} {t : Token} (h : t ∈ (ofChars source).all) :
    t.position + t.text.length ≤ source.length ∧
      ∃ index, Splits (ofChars source).tokens (t.position + t.text.length) index := by
  obtain ⟨haccounts, -, hfits⟩ := accounts_tokens source
  rw [all, List.mem_append] at h
  rcases h with htoken | hmarker
  · refine ⟨Nat.le_trans (haccounts.within t htoken).2 hfits.position_le, ?_⟩
    obtain ⟨before, behind, heq⟩ := List.append_of_mem htoken
    rw [heq] at haccounts ⊢
    exact ⟨_, haccounts.splits_end⟩
  · cases hstop : (ofChars source).stop with
    | illegal cause =>
      rw [hstop] at hmarker
      cases hmarker
    | finished position spaced =>
      rw [hstop] at hmarker hfits haccounts
      obtain rfl := List.mem_singleton.mp hmarker
      exact ⟨Nat.le_of_eq hfits.1, _, haccounts.splits_limit⟩

end Tokenization

end VersionRange
