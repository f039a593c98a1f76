import VersionRange.Text.Numeral

/-!
# Identifiers

The parts of a version's labels. A word is a nonempty row of ASCII letters, digits and hyphens;
build metadata consists of words. A pre-release identifier is a number or a word that is not all
digits, so that two identifiers are the same only if they are equal as values.
-/

namespace VersionRange

/-- A character that may stand in an identifier: an ASCII letter, a digit or the hyphen.
Source: `_IDENTIFIER_CHARS`. -/
def isIdentifierChar (c : Char) : Bool := c.isAlphanum || c == '-'

/-- A nonempty row of identifier characters. -/
def isWord (cs : List Char) : Bool := !cs.isEmpty && cs.all isIdentifierChar

/-- A nonempty row of ASCII letters, digits and hyphens. -/
structure Word where
  chars : List Char
  valid : isWord chars = true
  deriving DecidableEq

namespace Word

/-- The word that consists of some characters, unless they are none or one is not allowed. -/
def ofChars? (cs : List Char) : Option Word :=
  if h : isWord cs = true then some ⟨cs, h⟩ else none

/-- Decide whether a word is all digits. Source: `_is_numeric`. -/
def isNumeric (w : Word) : Bool := w.chars.all Char.isDigit

/-- The number that the digits of a word denote; leading zeros do not count. -/
def value (w : Word) : Nat := Text.numeralValue w.chars

theorem isWord_of_isDigits {cs : List Char} (h : Text.isDigits cs = true) : isWord cs = true := by
  simp only [Text.isDigits, Bool.and_eq_true, List.all_eq_true] at h
  simp only [isWord, Bool.and_eq_true, List.all_eq_true]
  refine ⟨h.1, fun c hc ↦ ?_⟩
  simp [isIdentifierChar, Char.isAlphanum, h.2 c hc]

/-- The numeral of a number, as a word. -/
def ofNat (n : Nat) : Word := ⟨Text.numeral n, isWord_of_isDigits (Text.isDigits_numeral n)⟩

/-- Words are ordered character by character, by code point. -/
instance : Ord Word where compare a b := compare a.chars b.chars

end Word

/-- A pre-release identifier: a number, or a word that is not all digits. Source: `Identifier`. -/
inductive Identifier
  | number (value : Nat)
  | name (word : Word) (notNumeric : word.isNumeric = false)
  deriving DecidableEq

namespace Identifier

/-- The identifier that a word denotes: a word of digits denotes a number.
Part of `_as_identifiers`. -/
def ofWord (w : Word) : Identifier :=
  if h : w.isNumeric = true then number w.value else name w (by simpa using h)

/-- The word that writes an identifier. -/
def toWord : Identifier → Word
  | number n => Word.ofNat n
  | name w _ => w

/-- The text of an identifier. -/
def chars (i : Identifier) : List Char := i.toWord.chars

/-- Decide whether an identifier is not a number that is too long to be written. -/
def isWritable : Identifier → Bool
  | number n => Text.isWritable n
  | name _ _ => true

/-- Numbers are ordered by value and stand below names; names are ordered as words.
Part of `_compare_identifiers`. -/
def compare : Identifier → Identifier → Ordering
  | number m, number n => Ord.compare m n
  | number _, name _ _ => .lt
  | name _ _, number _ => .gt
  | name v _, name w _ => Ord.compare v w

instance : Ord Identifier where compare := Identifier.compare

end Identifier

end VersionRange
