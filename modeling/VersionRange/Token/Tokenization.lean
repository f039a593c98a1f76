import VersionRange.Text.Blank
import VersionRange.Token
import VersionRange.Version.Identifier

/-!
# Tokenization

The tokens of a range expression, read one by one from the text that is left. White space
separates tokens and is dropped. Digits form the longest possible number. Directly behind a
number or a wildcard a hyphen or a plus sign begins a label, behind a label only a plus sign
does, and a label takes every letter, digit, dot and hyphen that follows.
-/

namespace VersionRange

/-- A character that continues a label. Source: `_LABEL_CHARS`. -/
def isLabelChar (c : Char) : Bool := isIdentifierChar c || c == '.'

/-- The kind of a token of two characters. Source: `_DOUBLE`. -/
def pairKind? : Char → Char → Option TokenKind
  | '|', '|' => some .or
  | '&', '&' => some .and
  | '<', '=' => some .comparator
  | '>', '=' => some .comparator
  | '!', '=' => some .comparator
  | _, _ => none

/-- The kind of a token of one character, numbers, labels, hyphens and letters aside.
Part of `_SINGLE` and `tokenize`. -/
def singleKind? : Char → Option TokenKind
  | '<' => some .comparator
  | '>' => some .comparator
  | '=' => some .comparator
  | '!' => some .not
  | '.' => some .dot
  | '^' => some .caret
  | '~' => some .tilde
  | '*' => some .wildcard
  | '(' => some .opening
  | ')' => some .closing
  | _ => none

/-- Decide whether a character begins a label directly behind a token of a given kind.
Part of `_LABEL_ANCHORS` and `tokenize`. -/
def beginsLabel (c : Char) : Option TokenKind → Bool
  | some .number | some .wildcard => c == '-' || c == '+'
  | some .label => c == '+'
  | _ => false

/-- The kind of the token that begins with `c`, and how many of the characters behind belong to it;
`previous` is the kind of the token directly before it. Part of `tokenize`. -/
def classify? (previous : Option TokenKind) (c : Char) (rest : List Char) :
    Option (TokenKind × Nat) :=
  if c.isDigit then some (.number, (rest.takeWhile Char.isDigit).length)
  else if beginsLabel c previous then some (.label, (rest.takeWhile isLabelChar).length)
  else if c == '-' then some (.hyphen, 0)
  else if c == 'x' || c == 'X' then
    if rest.head?.any Char.isAlphanum then none else some (.wildcard, 0)
  else match rest.head?.bind (pairKind? c) with
  | some kind => some (kind, 1)
  | none => (singleKind? c).map (·, 0)

/-- A character that begins no token, and its position. Source: `UnexpectedCharacterException`. -/
structure Illegal where
  character : Char
  position : Nat
  deriving DecidableEq

/-- What stands first in the text that is left. -/
inductive Scan
  /-- A token, and the text behind it. -/
  | token (token : Token) (rest : List Char)
  /-- Nothing, or nothing but white space. -/
  | finish (position : Nat) (spaced : Bool)
  /-- A character that begins no token. -/
  | illegal (illegal : Illegal)

/-- Read the first token of the text that is left. The text begins at `position`, and `previous` is
the kind of the token before it. Part of `tokenize`. -/
def scan (position : Nat) (previous : Option TokenKind) (source : List Char) : Scan :=
  let blanks := (source.takeWhile Text.isBlank).length
  let spaced := blanks != 0
  match source.dropWhile Text.isBlank with
  | [] => .finish (position + blanks) spaced
  | c :: rest =>
    match classify? (if spaced then none else previous) c rest with
    | none => .illegal ⟨c, position + blanks⟩
    | some (kind, more) =>
      .token ⟨kind, c :: rest.take more, position + blanks, spaced⟩ (rest.drop more)

/-- A token takes at least one character. -/
theorem length_lt_of_scan {position : Nat} {previous : Option TokenKind} {source rest : List Char}
    {token : Token} (h : scan position previous source = .token token rest) :
    rest.length < source.length := by
  have hle : (source.dropWhile Text.isBlank).length ≤ source.length :=
    (List.dropWhile_suffix Text.isBlank).length_le
  simp only [scan] at h
  split at h
  · cases h
  · next c tail hdrop =>
    rw [hdrop, List.length_cons] at hle
    split at h
    · cases h
    · next kind more _ =>
      injection h with _ hrest
      have : (tail.drop more).length ≤ tail.length := by simp
      rw [← hrest]
      omega

/-- Why the tokens of a text end: it has no more characters, or one that begins no token. -/
inductive Stop
  | finished (position : Nat) (spaced : Bool)
  | illegal (illegal : Illegal)
  deriving DecidableEq

namespace Stop

/-- The token that marks the end of a text. Part of `tokenize`. -/
def endToken (position : Nat) (spaced : Bool) : Token := ⟨.finish, [], position, spaced⟩

/-- The mark of the end of a text, if it was reached. -/
def marker : Stop → List Token
  | finished position spaced => [endToken position spaced]
  | illegal _ => []

end Stop

/-- The tokens of a text, and why there are no more. -/
structure Tokenization where
  tokens : List Token
  stop : Stop
  deriving DecidableEq

namespace Tokenization

/-- The tokens of the text that is left, which begins at `position`. Part of `tokenize`. -/
def ofCharsFrom (position : Nat) (previous : Option TokenKind) (source : List Char) :
    Tokenization :=
  match _h : scan position previous source with
  | .finish position spaced => ⟨[], .finished position spaced⟩
  | .illegal illegal => ⟨[], .illegal illegal⟩
  | .token token rest =>
    let tail := ofCharsFrom (token.position + token.text.length) (some token.kind) rest
    ⟨token :: tail.tokens, tail.stop⟩
termination_by source.length
decreasing_by exact length_lt_of_scan _h

/-- The tokens of a text. Source: `tokenize`. -/
def ofChars (source : List Char) : Tokenization := ofCharsFrom 0 none source

/-- The tokens with the mark of the end, if it was reached. -/
def all (t : Tokenization) : List Token := t.tokens ++ t.stop.marker

end Tokenization

end VersionRange
