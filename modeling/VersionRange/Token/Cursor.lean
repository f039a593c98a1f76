import VersionRange.Lookahead
import VersionRange.Token.Tokenization

/-!
# Cursors

A cursor reads the tokens of a text lazily, with one token of lookahead. The mark of the end is
the last token and is handed out again for ever; so is the error of a character that begins no
token, once it is met.
-/

namespace VersionRange

/-- The text that is left to be read; none once the mark of the end has been handed out. -/
structure Scanner where
  position : Nat
  previous : Option TokenKind
  rest : Option (List Char)

namespace Scanner

/-- The next token of a text, the mark of the end being the last one. Source: `tokenize`. -/
def pull (s : Scanner) : Except (Ending Illegal) (Token × Scanner) :=
  match s.rest with
  | none => .error .exhausted
  | some rest =>
    match scan s.position s.previous rest with
    | .illegal illegal => .error (.failed illegal)
    | .finish position spaced =>
      .ok (Stop.endToken position spaced, ⟨position, some .finish, none⟩)
    | .token token rest =>
      .ok (token, ⟨token.position + token.text.length, some token.kind, some rest⟩)

/-- A bound on the number of tokens that are left. -/
def size (s : Scanner) : Nat :=
  match s.rest with
  | none => 0
  | some rest => rest.length + 1

theorem size_pull {s t : Scanner} {token : Token} (h : s.pull = .ok (token, t)) :
    t.size < s.size := by
  simp only [pull] at h
  split at h
  · cases h
  · next rest hrest =>
    split at h
    · cases h
    · injection h with h
      injection h with _ ht
      subst ht
      simp [size, hrest]
    · next hscan =>
      injection h with h
      injection h with _ ht
      subst ht
      have := length_lt_of_scan hscan
      simp only [size, hrest]
      omega

instance : Source Scanner Token Illegal where
  pull := pull
  size := size
  isVoid _ := false
  size_pull := size_pull

end Scanner

/-- A reader of tokens; it keeps the mark of the end once it has met it. Source: `Lexer`. -/
structure Cursor where
  tokens : Lookahead Scanner
  finish : Option Token := none

namespace Cursor

/-- The cursor at the start of a text. Source: `Lexer`. -/
def ofChars (source : List Char) : Cursor := ⟨⟨⟨0, none, some source⟩, none, none⟩, none⟩

/-- Keep a token if it is the mark of the end. Part of `Lexer._fill`. -/
def keepFinish (token : Token) : Option Token :=
  if token.kind = .finish then some token else none

theorem keepFinish_eq_none {token : Token} (h : token.kind ≠ .finish) : keepFinish token = none :=
  if_neg h

/-- Show the next token. Source: `ElementStream.peek` and `Lexer._fill`. -/
def peek (c : Cursor) : Except (Ending Illegal) Token × Cursor :=
  match c.finish with
  | some token => (.ok token, c)
  | none =>
    match c.tokens.peek with
    | (.error ending, tokens) => (.error ending, { c with tokens })
    | (.ok token, tokens) => (.ok token, ⟨tokens, keepFinish token⟩)

/-- Hand out the next token. Source: `ElementStream.next` and `Lexer._fill`. -/
def next (c : Cursor) : Except (Ending Illegal) Token × Cursor :=
  match c.finish with
  | some token => (.ok token, c)
  | none =>
    match c.tokens.next with
    | (.error ending, tokens) => (.error ending, { c with tokens })
    | (.ok token, tokens) => (.ok token, ⟨tokens, keepFinish token⟩)

/-- Decide whether the next token is of one of some kinds. Source: `Lexer.positive`. -/
def positive (c : Cursor) (kinds : List TokenKind) : Except (Ending Illegal) Bool × Cursor :=
  match c.peek with
  | (.error ending, d) => (.error ending, d)
  | (.ok token, d) => (.ok (kinds.contains token.kind), d)

/-- Hand out the next token if it is of one of some kinds. Source: `Lexer.consume`. -/
def consume (c : Cursor) (kinds : List TokenKind) :
    Except (Ending Illegal) (Option Token) × Cursor :=
  match c.positive kinds with
  | (.error ending, d) => (.error ending, d)
  | (.ok false, d) => (.ok none, d)
  | (.ok true, d) =>
    match d.next with
    | (.error ending, e) => (.error ending, e)
    | (.ok token, e) => (.ok (some token), e)

private theorem size_next {c d : Cursor} {token : Token} (h : c.next = (.ok token, d))
    (hkind : token.kind ≠ .finish) (hfinish : c.finish = none) :
    d.tokens.size < c.tokens.size ∧ d.finish = none := by
  simp only [next, hfinish] at h
  split at h
  · cases h
  · next hnext =>
    injection h with ht hd
    injection ht with ht
    subst ht hd
    exact ⟨Lookahead.size_next hnext, keepFinish_eq_none hkind⟩

/-- Hand out tokens one by one through the mark of the end or up to an error: the tokens, and the
error if there is one. Source: iteration over `Lexer`. -/
def iterate (c : Cursor) : (List Token × Option (Ending Illegal)) × Cursor :=
  match _hfinish : c.finish with
  | some token => (([token], none), c)
  | none =>
    match _h : c.next with
    | (.error ending, d) => (([], some ending), d)
    | (.ok token, d) =>
      if _hkind : token.kind = .finish then (([token], none), d)
      else
        match iterate d with
        | ((tokens, ending), e) => ((token :: tokens, ending), e)
termination_by c.tokens.size
decreasing_by exact (size_next _h _hkind _hfinish).1

theorem iterate_of_error {c d : Cursor} {ending : Ending Illegal}
    (h : c.next = (.error ending, d)) : c.iterate = (([], some ending), d) := by
  rw [iterate]
  split
  · next hfinish =>
    simp only [next, hfinish] at h
    cases h
  · split
    · next h' =>
      cases h.symm.trans h'
      rfl
    · next h' => cases h.symm.trans h'

theorem iterate_of_finish {c d : Cursor} {token : Token} (h : c.next = (.ok token, d))
    (hkind : token.kind = .finish) : c.iterate = (([token], none), d) := by
  rw [iterate]
  split
  · next hfinish =>
    simp only [next, hfinish] at h
    cases h
    rfl
  · split
    · next h' => cases h.symm.trans h'
    · next h' =>
      cases h.symm.trans h'
      rw [dif_pos hkind]

theorem iterate_of_token {c d : Cursor} {token : Token} (hfinish : c.finish = none)
    (h : c.next = (.ok token, d)) (hkind : token.kind ≠ .finish) :
    c.iterate = ((token :: d.iterate.1.1, d.iterate.1.2), d.iterate.2) := by
  rw [iterate]
  split
  · next hfinish' => cases hfinish.symm.trans hfinish'
  · split
    · next h' => cases h.symm.trans h'
    · next h' =>
      cases h.symm.trans h'
      rw [dif_neg hkind]

/-- The list of the tokens through the mark of the end. An error takes the place of the tokens
before it, which are lost. Source: iteration over `Lexer`. -/
def rest (c : Cursor) : Except (Ending Illegal) (List Token) × Cursor :=
  match c.iterate with
  | ((tokens, none), d) => (.ok tokens, d)
  | ((_, some ending), d) => (.error ending, d)

end Cursor

end VersionRange
