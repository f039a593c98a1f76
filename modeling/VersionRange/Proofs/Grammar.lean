import VersionRange.Shorthand
import VersionRange.Token
import VersionRange.Version.Grammar

/-!
# The grammar of range expressions

What the tokens of an expression derive, and the expression that the grammar makes of them. Each
relation takes tokens from the front of a list and leaves the rest, so that a rule can look at
what follows: a literal ends only where nothing continues it.

Chains are derived to the left, and operands may follow each other with or without a conjunction
sign. The depth of tokens counts the groups and the negations that are open at the same time.
-/

namespace VersionRange.Grammar

/-! ### Literals -/

/-- A token stands directly behind a dot that stands directly behind what comes before it. -/
def Joined (dot t : Token) : Prop :=
  dot.kind = .dot ∧ dot.spaced = false ∧ t.spaced = false

/-- A token is the numeral of a number, without a needless zero. -/
def Numeral (t : Token) (n : Nat) : Prop :=
  t.kind = .number ∧ Text.hasLeadingZero t.text = false ∧ n = Text.numeralValue t.text

/-- The tokens begin with numbers, and wildcards behind them, joined by dots. -/
inductive PartsAt : List Token → List Nat → Nat → List Token → Prop
  | number {t : Token} {rest : List Token} {n : Nat} (h : Numeral t n) :
      PartsAt (t :: rest) [n] 0 rest
  | wildcard {t : Token} {rest : List Token} (h : t.kind = .wildcard) :
      PartsAt (t :: rest) [] 1 rest
  | nextNumber {ts rest : List Token} {dot t : Token} {numbers : List Nat} {n : Nat}
      (before : PartsAt ts numbers 0 (dot :: t :: rest)) (joined : Joined dot t) (h : Numeral t n) :
      PartsAt ts (numbers ++ [n]) 0 rest
  | nextWildcard {ts rest : List Token} {dot t : Token} {numbers : List Nat} {wildcards : Nat}
      (before : PartsAt ts numbers wildcards (dot :: t :: rest)) (joined : Joined dot t)
      (h : t.kind = .wildcard) : PartsAt ts numbers (wildcards + 1) rest

/-- The tokens begin with a label of some words behind its mark, or there is no such label. -/
inductive LabelAt (mark : Char) (isIdentifier : List Char → Bool) :
    List Token → List Word → List Token → Prop
  | absent {ts : List Token} : LabelAt mark isIdentifier ts [] ts
  | present {t : Token} {rest : List Token} {label : List Char} {words : List Word}
      (kind : t.kind = .label) (attached : t.spaced = false) (text : t.text = mark :: label)
      (h : Outline.words? isIdentifier (some label) = some words) :
      LabelAt mark isIdentifier (t :: rest) words rest

/-- No token follows that would continue a literal: such a token has white space before it. -/
def Detached (rest : List Token) : Prop :=
  ∀ t ∈ rest.head?, t.spaced = false → t.kind ∉ [.dot, .label, .number, .wildcard]

/-- The tokens begin with a literal. It has one to three parts, and only three numbers have
labels, the pre-release label before the build metadata. -/
inductive LiteralAt : List Token → Literal → List Token → Prop
  | any {ts rest : List Token} {wildcards : Nat} (parts : PartsAt ts [] wildcards rest)
      (count : wildcards ≤ 3) (detached : Detached rest) : LiteralAt ts .any rest
  | upToMajor {ts rest : List Token} {major wildcards : Nat}
      (parts : PartsAt ts [major] wildcards rest) (count : wildcards ≤ 2)
      (detached : Detached rest) : LiteralAt ts (.upToMajor major) rest
  | upToMinor {ts rest : List Token} {major minor wildcards : Nat}
      (parts : PartsAt ts [major, minor] wildcards rest) (count : wildcards ≤ 1)
      (detached : Detached rest) : LiteralAt ts (.upToMinor major minor) rest
  | full {ts us vs rest : List Token} {major minor patch : Nat} {words build : List Word}
      (parts : PartsAt ts [major, minor, patch] 0 us)
      (prerelease : LabelAt '-' Outline.isPrereleaseField us words vs)
      (metadata : LabelAt '+' isWord vs build rest) (detached : Detached rest) :
      LiteralAt ts
        (.full { major, minor, patch, prerelease := words.map Identifier.ofWord, build }) rest

/-! ### Expressions -/

/-- What a derivation derives: alternatives, operands that all have to hold, a range form or a
group behind negations, or a range form or a group alone. -/
inductive Phrase
  | disjunction
  | conjunction
  | operand
  | primary

/-- The tokens begin with a phrase that means an expression. -/
inductive Derives : Phrase → List Token → Expression → List Token → Prop
  | group {opening closing : Token} {ts rest : List Token} {e : Expression}
      (hopening : opening.kind = .opening) (inner : Derives .disjunction ts e (closing :: rest))
      (hclosing : closing.kind = .closing) : Derives .primary (opening :: ts) e rest
  | comparison {t : Token} {ts rest : List Token} {relation : Relation} {l : Literal}
      (kind : t.kind = .comparator) (sign : Relation.ofSymbol? (.ofList t.text) = some relation)
      (literal : LiteralAt ts l rest) : Derives .primary (t :: ts) (l.comparison relation) rest
  | caret {t : Token} {ts rest : List Token} {l : Literal} (kind : t.kind = .caret)
      (literal : LiteralAt ts l rest) : Derives .primary (t :: ts) l.caret rest
  | tilde {t : Token} {ts rest : List Token} {l : Literal} (kind : t.kind = .tilde)
      (literal : LiteralAt ts l rest) : Derives .primary (t :: ts) l.tilde rest
  | plain {ts rest : List Token} {l : Literal} (literal : LiteralAt ts l rest) :
      Derives .primary ts l.wildcard rest
  | hyphen {t : Token} {ts us rest : List Token} {lower upper : Literal}
      (low : LiteralAt ts lower (t :: us)) (kind : t.kind = .hyphen)
      (high : LiteralAt us upper rest) : Derives .primary ts (lower.hyphen upper) rest
  | primary {ts rest : List Token} {e : Expression} (h : Derives .primary ts e rest) :
      Derives .operand ts e rest
  | not {t : Token} {ts rest : List Token} {e : Expression} (kind : t.kind = .not)
      (inner : Derives .operand ts e rest) : Derives .operand (t :: ts) (.not e) rest
  | operand {ts rest : List Token} {e : Expression} (h : Derives .operand ts e rest) :
      Derives .conjunction ts e rest
  | juxtaposed {ts us rest : List Token} {left right : Expression}
      (hleft : Derives .conjunction ts left us) (hright : Derives .operand us right rest) :
      Derives .conjunction ts (.and left right) rest
  | and {t : Token} {ts us rest : List Token} {left right : Expression}
      (hleft : Derives .conjunction ts left (t :: us)) (kind : t.kind = .and)
      (hright : Derives .operand us right rest) : Derives .conjunction ts (.and left right) rest
  | conjunction {ts rest : List Token} {e : Expression} (h : Derives .conjunction ts e rest) :
      Derives .disjunction ts e rest
  | or {t : Token} {ts us rest : List Token} {left right : Expression}
      (hleft : Derives .disjunction ts left (t :: us)) (kind : t.kind = .or)
      (hright : Derives .conjunction us right rest) : Derives .disjunction ts (.or left right) rest

/-- The tokens, all of them, are an expression. -/
def Accepts (ts : List Token) (e : Expression) : Prop := Derives .disjunction ts e []

/-! ### Depth -/

/-- The negations directly before a place, and those before each group that is open there, the
innermost first. -/
structure Nesting where
  negations : Nat := 0
  groups : List Nat := []

namespace Nesting

/-- The count of groups and negations that are open: a negation is open until its operand, which
may be a group, has ended. -/
def depth (n : Nesting) : Nat :=
  n.groups.foldr (fun negations depth ↦ negations + 1 + depth) n.negations

/-- The nesting behind a token. -/
def read (n : Nesting) : TokenKind → Nesting
  | .not => { n with negations := n.negations + 1 }
  | .opening => { groups := n.negations :: n.groups }
  | .closing => { groups := n.groups.tail }
  | _ => { groups := n.groups }

/-- The greatest depth within some tokens. -/
def deepest (n : Nesting) : List Token → Nat
  | [] => n.depth
  | t :: ts => max n.depth (deepest (n.read t.kind) ts)

end Nesting

/-- The greatest count of groups and negations that tokens open at the same time. -/
def nesting (ts : List Token) : Nat := Nesting.deepest {} ts

/-! ### Tokens -/

/-- A label begins with one of the two marks. -/
def IsMarked (t : Token) : Prop :=
  t.kind = .label → t.text.head? = some '-' ∨ t.text.head? = some '+'

/-- The numerals in a token are not too long to be read: the number that it is, or the numeric
identifiers of the pre-release label that it is. -/
def IsShort (t : Token) : Prop :=
  (t.kind = .number → t.text.length ≤ Text.maxDigits) ∧
    (t.kind = .label → t.text.head? = some '-' →
      ∀ field ∈ Text.fields t.text.tail, Text.isDigits field = true →
        field.length ≤ Text.maxDigits)

/-- Tokens of other kinds than numbers and labels hold no numerals. -/
theorem isShort_of_kind {kind : TokenKind} {t : Token} (hkind : t.kind = kind)
    (h : kind ∉ [.number, .label] := by decide) : IsShort t := by
  subst hkind
  simp only [List.mem_cons, List.not_mem_nil, or_false, not_or] at h
  exact ⟨fun hnumber ↦ absurd hnumber h.1, fun hlabel ↦ absurd hlabel h.2⟩

end VersionRange.Grammar
