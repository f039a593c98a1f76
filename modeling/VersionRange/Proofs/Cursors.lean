import VersionRange.Proofs.Coverage
import VersionRange.Token.Cursor

/-!
# Cursors and the tokens of a text

A cursor reads a text lazily, through a slot for one token and with memories of the end and of an
error. To its callers it is nevertheless an index into the tokens of the whole text: whatever is
asked of it in whatever order, the answers are those of an index that stands still when a token is
shown and moves on when one is handed out, and that stays at the mark of the end or at the error.
-/

namespace VersionRange

/-! ### An index into the tokens -/

/-- What may be asked of a cursor. -/
inductive Request
  /-- Show the next token. -/
  | peek
  /-- Hand out the next token. -/
  | next
  /-- Tell whether the next token is of one of some kinds. -/
  | positive (kinds : List TokenKind)
  /-- Hand out the next token if it is of one of some kinds. -/
  | consume (kinds : List TokenKind)
  /-- Hand out tokens one by one through the mark of the end. -/
  | iterate

/-- An answer to a request. -/
inductive Answer
  | token (token : Token)
  | decision (holds : Bool)
  | perhaps (token : Option Token)
  /-- The tokens handed out, and the error that took the place of the next one. -/
  | tokens (tokens : List Token) (ending : Option (Ending Illegal))
  | failed (ending : Ending Illegal)
  deriving DecidableEq

namespace Stop

/-- What takes the place of a token where the tokens end: their mark, or an error for ever. -/
def read : Stop → Except (Ending Illegal) Token
  | finished position spaced => .ok (endToken position spaced)
  | illegal cause => .error (.failed cause)

/-- The error that ends the tokens, if one does. -/
def ending : Stop → Option (Ending Illegal)
  | finished _ _ => none
  | illegal cause => some (.failed cause)

end Stop

namespace Tokenization

/-- What stands at an index of the tokens. -/
def read (z : Tokenization) (index : Nat) : Except (Ending Illegal) Token :=
  match z.tokens[index]? with
  | some token => .ok token
  | none => z.stop.read

/-- The index behind another one; it does not move beyond the end of the tokens. -/
def advance (z : Tokenization) (index : Nat) : Nat := min (index + 1) z.tokens.length

/-- How a request is answered at an index, and the index behind it. -/
def answer (z : Tokenization) (index : Nat) : Request → Answer × Nat
  | .peek =>
    match z.read index with
    | .ok token => (.token token, index)
    | .error ending => (.failed ending, index)
  | .next =>
    match z.read index with
    | .ok token => (.token token, z.advance index)
    | .error ending => (.failed ending, index)
  | .positive kinds =>
    match z.read index with
    | .ok token => (.decision (kinds.contains token.kind), index)
    | .error ending => (.failed ending, index)
  | .consume kinds =>
    match z.read index with
    | .ok token =>
      if kinds.contains token.kind then (.perhaps (some token), z.advance index)
      else (.perhaps none, index)
    | .error ending => (.failed ending, index)
  | .iterate => (.tokens (z.all.drop index) z.stop.ending, z.tokens.length)

/-- The answers to requests one after the other, from an index on. -/
def answers (z : Tokenization) (index : Nat) : List Request → List Answer
  | [] => []
  | request :: rest =>
    (z.answer index request).1 :: answers z (z.answer index request).2 rest

end Tokenization

namespace Cursor

/-- How a cursor answers a request, and the cursor behind it. -/
def answer (c : Cursor) : Request → Answer × Cursor
  | .peek =>
    match c.peek with
    | (.ok token, d) => (.token token, d)
    | (.error ending, d) => (.failed ending, d)
  | .next =>
    match c.next with
    | (.ok token, d) => (.token token, d)
    | (.error ending, d) => (.failed ending, d)
  | .positive kinds =>
    match c.positive kinds with
    | (.ok holds, d) => (.decision holds, d)
    | (.error ending, d) => (.failed ending, d)
  | .consume kinds =>
    match c.consume kinds with
    | (.ok token, d) => (.perhaps token, d)
    | (.error ending, d) => (.failed ending, d)
  | .iterate =>
    match c.iterate with
    | ((tokens, ending), d) => (.tokens tokens ending, d)

/-- The answers of a cursor to requests one after the other. -/
def answers (c : Cursor) : List Request → List Answer
  | [] => []
  | request :: rest => (c.answer request).1 :: answers (c.answer request).2 rest

end Cursor

/-! ### What a cursor stands for -/

/-- A scanner has the tokens `ts` to read, which end as `stop` says. -/
def Scanner.Leaves (s : Scanner) (ts : List Token) (stop : Stop) : Prop :=
  ∃ position previous rest, s = ⟨position, previous, some rest⟩ ∧
    Tokenization.ofCharsFrom position previous rest = ⟨ts, stop⟩

/-- A scanner pulls the first token of those that are left. -/
theorem Scanner.Leaves.pull_cons {s : Scanner} {t : Token} {ts : List Token} {stop : Stop}
    (h : s.Leaves (t :: ts) stop) :
    t.kind ≠ .finish ∧ ∃ s' : Scanner, s.pull = .ok (t, s') ∧ s'.Leaves ts stop := by
  obtain ⟨position, previous, rest, rfl, hleft⟩ := h
  rw [Tokenization.ofCharsFrom] at hleft
  split at hleft
  · cases hleft
  · cases hleft
  · next token tail hscan =>
    cases hleft
    obtain ⟨_, -, -, -, -, -, -, hkind⟩ := exists_gap_of_token hscan
    refine ⟨hkind, ⟨_, _, some tail⟩, ?_, _, _, tail, rfl, rfl⟩
    simp only [pull, hscan]

/-- Where no tokens are left, a scanner pulls what takes their place. -/
theorem Scanner.Leaves.pull_nil {s : Scanner} {stop : Stop} (h : s.Leaves [] stop) :
    ∃ s' : Scanner, s.pull = stop.read.map (·, s') := by
  obtain ⟨position, previous, rest, rfl, hleft⟩ := h
  rw [Tokenization.ofCharsFrom] at hleft
  split at hleft
  · next position spaced hscan =>
    cases hleft
    refine ⟨⟨position, some .finish, none⟩, ?_⟩
    simp only [pull, hscan]
    rfl
  · next hscan =>
    cases hleft
    refine ⟨⟨0, none, none⟩, ?_⟩
    simp only [pull, hscan]
    rfl
  · cases hleft

namespace Tokenization

variable {z : Tokenization} {index : Nat}

private theorem read_of_drop_eq_cons {t : Token} {ts : List Token}
    (h : z.tokens.drop index = t :: ts) : z.read index = .ok t := by
  have hget : z.tokens[index]? = some t := by rw [← List.head?_drop, h, List.head?_cons]
  rw [read, hget]

private theorem read_length (z : Tokenization) : z.read z.tokens.length = z.stop.read := by
  rw [read, List.getElem?_eq_none (Nat.le_refl _)]

private theorem advance_of_drop_eq_cons {t : Token} {ts : List Token}
    (h : z.tokens.drop index = t :: ts) :
    z.advance index = index + 1 ∧ index + 1 ≤ z.tokens.length ∧ z.tokens.drop (index + 1) = ts := by
  have hlength := congrArg List.length h
  rw [List.length_drop, List.length_cons] at hlength
  have hle : index + 1 ≤ z.tokens.length := by omega
  refine ⟨Nat.min_eq_left hle, hle, ?_⟩
  rw [← List.drop_drop, h, List.drop_one, List.tail_cons]

private theorem advance_length (z : Tokenization) : z.advance z.tokens.length = z.tokens.length :=
  Nat.min_eq_right (Nat.le_succ _)

end Tokenization

namespace Cursor

/-- A cursor stands at an index of some tokens: it has the tokens from there on to read, or from the
next one on with one in its slot; or the tokens end there and it remembers how. -/
inductive StandsAt (z : Tokenization) : Cursor → Nat → Prop
  | reading {s : Scanner} {index : Nat} (hindex : index ≤ z.tokens.length)
      (h : s.Leaves (z.tokens.drop index) z.stop) : StandsAt z ⟨⟨s, none, none⟩, none⟩ index
  | showing {s : Scanner} {t : Token} {ts : List Token} {index : Nat} (hkind : t.kind ≠ .finish)
      (htokens : z.tokens.drop index = t :: ts) (h : s.Leaves ts z.stop) :
      StandsAt z ⟨⟨s, some t, none⟩, none⟩ index
  | finished {tokens : Lookahead Scanner} {position : Nat} {spaced : Bool}
      (h : z.stop = .finished position spaced) :
      StandsAt z ⟨tokens, some (Stop.endToken position spaced)⟩ z.tokens.length
  | failed {s : Scanner} {slot : Option Token} {cause : Illegal} (h : z.stop = .illegal cause) :
      StandsAt z ⟨⟨s, slot, some (.failed cause)⟩, none⟩ z.tokens.length

namespace StandsAt

variable {z : Tokenization} {c : Cursor} {index : Nat}

/-- At the start of a text a cursor stands at its first token. -/
theorem ofChars (source : List Char) :
    StandsAt (Tokenization.ofChars source) (Cursor.ofChars source) 0 :=
  .reading (Nat.zero_le _) ⟨0, none, source, rfl, rfl⟩

private theorem le_length (h : StandsAt z c index) : index ≤ z.tokens.length := by
  cases h with
  | reading hindex => exact hindex
  | showing _ htokens =>
    have := (Tokenization.advance_of_drop_eq_cons htokens).2.1
    omega
  | finished | failed => exact Nat.le_refl _

/-- What the stream behind a cursor at an index shows, and the stream behind that: a token, which
then is in the slot; the mark of the end; or the error, which is kept. -/
inductive Shows (z : Tokenization) (index : Nat) :
    Except (Ending Illegal) Token × Lookahead Scanner → Prop
  | token {s : Scanner} {t : Token} {ts : List Token} (hkind : t.kind ≠ .finish)
      (htokens : z.tokens.drop index = t :: ts) (h : s.Leaves ts z.stop) :
      Shows z index (.ok t, ⟨s, some t, none⟩)
  | finish {tokens : Lookahead Scanner} {position : Nat} {spaced : Bool}
      (hindex : index = z.tokens.length) (h : z.stop = .finished position spaced) :
      Shows z index (.ok (Stop.endToken position spaced), tokens)
  | failure {s : Scanner} {slot : Option Token} {cause : Illegal}
      (hindex : index = z.tokens.length) (h : z.stop = .illegal cause) :
      Shows z index (.error (.failed cause), ⟨s, slot, some (.failed cause)⟩)

private theorem shows_peek {tokens : Lookahead Scanner} (h : StandsAt z ⟨tokens, none⟩ index) :
    Shows z index tokens.peek := by
  cases h with
  | @reading s _ hindex hleaves =>
    cases htokens : z.tokens.drop index with
    | cons t ts =>
      rw [htokens] at hleaves
      obtain ⟨hkind, s', hpull, hleaves⟩ := hleaves.pull_cons
      have hpeek : Lookahead.peek ⟨s, none, none⟩ = (.ok t, ⟨s', some t, none⟩) := by
        simp only [Lookahead.peek, Source.pull, hpull]
        rfl
      rw [hpeek]
      exact .token hkind htokens hleaves
    | nil =>
      rw [htokens] at hleaves
      obtain ⟨s', hpull⟩ := hleaves.pull_nil
      have hend : index = z.tokens.length :=
        Nat.le_antisymm hindex (List.drop_eq_nil_iff.mp htokens)
      cases hstop : z.stop with
      | finished position spaced =>
        have hpeek : Lookahead.peek ⟨s, none, none⟩ = (.ok (Stop.endToken position spaced),
            ⟨s', some (Stop.endToken position spaced), none⟩) := by
          simp only [Lookahead.peek, Source.pull, hpull, hstop]
          rfl
        rw [hpeek]
        exact .finish hend hstop
      | illegal cause =>
        have hpeek : Lookahead.peek ⟨s, none, none⟩ =
            (.error (.failed cause), ⟨s, none, some (.failed cause)⟩) := by
          simp only [Lookahead.peek, Source.pull, hpull, hstop]
          rfl
        rw [hpeek]
        exact .failure hend hstop
  | showing hkind htokens hleaves => exact .token hkind htokens hleaves
  | failed hstop => exact .failure rfl hstop

/-- A cursor that has met the mark of the end stands there. -/
theorem eq_of_finish {tokens : Lookahead Scanner} {t : Token}
    (h : StandsAt z ⟨tokens, some t⟩ index) : z.read index = .ok t ∧ index = z.tokens.length := by
  cases h with
  | finished hstop => exact ⟨by rw [Tokenization.read_length, hstop]; rfl, rfl⟩

/-- Showing a token leaves a cursor where it stands. -/
theorem peek (h : StandsAt z c index) :
    ∃ d, c.peek = (z.read index, d) ∧ StandsAt z d index := by
  obtain ⟨tokens, finish⟩ := c
  cases finish with
  | some t =>
    rw [h.eq_of_finish.1]
    exact ⟨_, rfl, h⟩
  | none =>
    simp only [Cursor.peek]
    generalize hresult : tokens.peek = result
    cases hresult ▸ h.shows_peek with
    | token hkind htokens hleaves =>
      rw [Tokenization.read_of_drop_eq_cons htokens]
      refine ⟨_, rfl, ?_⟩
      rw [keepFinish_eq_none hkind]
      exact .showing hkind htokens hleaves
    | finish hindex hstop =>
      subst hindex
      rw [Tokenization.read_length, hstop]
      exact ⟨_, rfl, .finished hstop⟩
    | failure hindex hstop =>
      subst hindex
      rw [Tokenization.read_length, hstop]
      exact ⟨_, rfl, .failed hstop⟩

/-- Handing out a token moves a cursor to the next one, if there is one. -/
theorem next (h : StandsAt z c index) :
    ∃ d, c.next = (z.read index, d) ∧ StandsAt z d (z.advance index) := by
  obtain ⟨tokens, finish⟩ := c
  cases finish with
  | some t =>
    obtain ⟨hread, rfl⟩ := h.eq_of_finish
    rw [hread, Tokenization.advance_length]
    exact ⟨_, rfl, h⟩
  | none =>
    simp only [Cursor.next, Lookahead.next]
    generalize hresult : tokens.peek = result
    cases hresult ▸ h.shows_peek with
    | token hkind htokens hleaves =>
      obtain ⟨hadvance, hle, hdrop⟩ := Tokenization.advance_of_drop_eq_cons htokens
      rw [Tokenization.read_of_drop_eq_cons htokens, hadvance]
      refine ⟨_, rfl, ?_⟩
      rw [keepFinish_eq_none hkind]
      exact .reading hle (hdrop ▸ hleaves)
    | finish hindex hstop =>
      subst hindex
      rw [Tokenization.read_length, hstop, Tokenization.advance_length]
      exact ⟨_, rfl, .finished hstop⟩
    | failure hindex hstop =>
      subst hindex
      rw [Tokenization.read_length, hstop, Tokenization.advance_length]
      exact ⟨_, rfl, .failed hstop⟩

/-- A cursor stands at a token, or where the tokens end. -/
theorem exists_drop_or_eq_length (h : StandsAt z c index) :
    (∃ t ts, z.tokens.drop index = t :: ts ∧ t.kind ≠ .finish ∧ c.finish = none) ∨
      index = z.tokens.length := by
  cases h with
  | reading hindex hleaves =>
    cases htokens : z.tokens.drop index with
    | cons t ts =>
      rw [htokens] at hleaves
      exact .inl ⟨t, ts, rfl, hleaves.pull_cons.1, rfl⟩
    | nil => exact .inr (Nat.le_antisymm hindex (List.drop_eq_nil_iff.mp htokens))
  | showing hkind htokens => exact .inl ⟨_, _, htokens, hkind, rfl⟩
  | finished | failed => exact .inr rfl

private theorem advance_of_error (h : StandsAt z c index) {ending : Ending Illegal}
    (hread : z.read index = .error ending) : z.advance index = index := by
  rcases h.exists_drop_or_eq_length with ⟨t, ts, htokens, -⟩ | rfl
  · rw [Tokenization.read_of_drop_eq_cons htokens] at hread
    cases hread
  · exact z.advance_length

/-- Where the tokens end, there is nothing to hand out but their mark. -/
theorem iterate_length (h : StandsAt z c z.tokens.length) :
    ∃ d, c.iterate = ((z.stop.marker, z.stop.ending), d) ∧ StandsAt z d z.tokens.length := by
  obtain ⟨d, hnext, hd⟩ := h.next
  rw [z.read_length] at hnext
  rw [z.advance_length] at hd
  refine ⟨d, ?_, hd⟩
  cases hstop : z.stop with
  | finished position spaced =>
    rw [hstop] at hnext
    exact iterate_of_finish hnext rfl
  | illegal cause =>
    rw [hstop] at hnext
    exact iterate_of_error hnext

/-- Handing out tokens one by one moves a cursor to the end of the tokens. -/
theorem iterate (h : StandsAt z c index) :
    ∃ d, c.iterate = ((z.all.drop index, z.stop.ending), d) ∧ StandsAt z d z.tokens.length := by
  induction hcount : z.tokens.length - index generalizing c index with
  | zero =>
    obtain rfl : index = z.tokens.length :=
      Nat.le_antisymm h.le_length (Nat.le_of_sub_eq_zero hcount)
    rw [Tokenization.all, List.drop_left]
    exact h.iterate_length
  | succ count ih =>
    rcases h.exists_drop_or_eq_length with ⟨t, ts, htokens, hkind, hfinish⟩ | rfl
    · obtain ⟨hadvance, hle, hdrop⟩ := Tokenization.advance_of_drop_eq_cons htokens
      obtain ⟨d, hnext, hd⟩ := h.next
      rw [Tokenization.read_of_drop_eq_cons htokens] at hnext
      rw [hadvance] at hd
      obtain ⟨e, hiterate, he⟩ := ih hd (by omega)
      have hall : z.all.drop index = t :: z.all.drop (index + 1) := by
        rw [Tokenization.all, List.drop_append_of_le_length h.le_length, htokens,
          List.drop_append_of_le_length hle, hdrop, List.cons_append]
      rw [iterate_of_token hfinish hnext hkind, hiterate, hall]
      exact ⟨e, rfl, he⟩
    · omega

/-! ### Requests -/

/-- A cursor answers a request as the index does at which it stands. -/
theorem answer (h : StandsAt z c index) (request : Request) :
    (c.answer request).1 = (z.answer index request).1 ∧
      StandsAt z (c.answer request).2 (z.answer index request).2 := by
  cases request with
  | peek =>
    obtain ⟨d, hpeek, hd⟩ := h.peek
    rw [Cursor.answer, Tokenization.answer, hpeek]
    cases z.read index <;> exact ⟨rfl, hd⟩
  | next =>
    obtain ⟨d, hnext, hd⟩ := h.next
    rw [Cursor.answer, Tokenization.answer, hnext]
    cases hread : z.read index with
    | ok t => exact ⟨rfl, hd⟩
    | error ending => exact ⟨rfl, h.advance_of_error hread ▸ hd⟩
  | positive kinds =>
    obtain ⟨d, hpeek, hd⟩ := h.peek
    rw [Cursor.answer, Tokenization.answer, positive, hpeek]
    cases z.read index <;> exact ⟨rfl, hd⟩
  | consume kinds =>
    obtain ⟨d, hpeek, hd⟩ := h.peek
    obtain ⟨e, hnext, he⟩ := hd.next
    rw [Cursor.answer, Tokenization.answer, consume, positive, hpeek]
    cases hread : z.read index with
    | ok t =>
      rw [hread] at hnext
      dsimp only
      cases kinds.contains t.kind with
      | true =>
        simp only [hnext]
        exact ⟨rfl, he⟩
      | false => exact ⟨rfl, hd⟩
    | error ending => exact ⟨rfl, hd⟩
  | iterate =>
    obtain ⟨d, hiterate, hd⟩ := h.iterate
    rw [Cursor.answer, Tokenization.answer, hiterate]
    exact ⟨rfl, hd⟩

/-- A cursor answers requests one after the other as the index does at which it stands. -/
theorem answers (h : StandsAt z c index) (requests : List Request) :
    c.answers requests = z.answers index requests := by
  induction requests generalizing c index with
  | nil => rfl
  | cons request rest ih =>
    obtain ⟨hanswer, hbehind⟩ := h.answer request
    rw [Cursor.answers, Tokenization.answers, hanswer, ih hbehind]

end StandsAt

/-- A cursor on a text is an index into its tokens. Whatever is asked of it, in whatever order, it
answers as `Tokenization.answer` does at an index that starts at the first token: a token that is
shown or tested stays the next one, a token that is handed out is followed by the one behind it, and
where the tokens end their mark or the error is the answer for ever. -/
theorem answers_ofChars (source : List Char) (requests : List Request) :
    (Cursor.ofChars source).answers requests =
      (Tokenization.ofChars source).answers 0 requests :=
  (StandsAt.ofChars source).answers requests

/-- The token before an error is handed out once, and then the error answers every request. -/
example :
    (Cursor.ofChars "1 $".toList).answers
        [.peek, .consume [.dot], .iterate, .positive [.finish], .next] =
      [.token ⟨.number, ['1'], 0, false⟩, .perhaps none,
        .tokens [⟨.number, ['1'], 0, false⟩] (some (.failed ⟨'$', 2⟩)), .failed (.failed ⟨'$', 2⟩),
        .failed (.failed ⟨'$', 2⟩)] := by
  decide +kernel

end Cursor

end VersionRange
