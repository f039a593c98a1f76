/-!
# Tokens

The lexemes of range expressions. A token records whether white space stands before it, since
that tells a hyphen range from a pre-release label and ends a version literal.
-/

namespace VersionRange

/-- The kinds of tokens. Source: `TokenKind`. -/
inductive TokenKind
  | number
  | dot
  | hyphen
  | comparator
  | caret
  | tilde
  | wildcard
  | and
  | or
  | not
  | opening
  | closing
  | label
  | finish
  deriving DecidableEq

namespace TokenKind

/-- The name of a kind in messages. Source: `TokenKind`. -/
def name : TokenKind → String
  | number => "NUMBER"
  | dot => "DOT"
  | hyphen => "HYPHEN"
  | comparator => "COMPARATOR"
  | caret => "CARET"
  | tilde => "TILDE"
  | wildcard => "WILDCARD"
  | and => "AND"
  | or => "OR"
  | not => "NOT"
  | opening => "LPAREN"
  | closing => "RPAREN"
  | label => "IDENTIFIER"
  | finish => "END"

/-- All kinds, in the order of their names. -/
def all : List TokenKind :=
  [and, caret, comparator, dot, finish, hyphen, label, opening, not, number, or, closing, tilde,
    wildcard]

/-- The kind with a given name. -/
def ofName? (name : String) : Option TokenKind := all.find? (·.name == name)

/-- What may stand in a place, in words: one kind by its name, several as a choice.
Source: `_describe`. -/
def describe : List TokenKind → String
  | [kind] => kind.name
  | kinds => "one of " ++ ", ".intercalate (kinds.map name)

end TokenKind

/-- A lexeme with its kind, the position of its first character, and whether white space stands
immediately before it. A label keeps its leading hyphen or plus sign. Source: `Token`. -/
structure Token where
  kind : TokenKind
  text : List Char
  position : Nat
  spaced : Bool
  deriving DecidableEq

end VersionRange
