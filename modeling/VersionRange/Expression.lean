import VersionRange.Datum
import VersionRange.Formula
import VersionRange.Version.Order

/-!
# Expressions

A compiled range expression is a formula over constraints, each of which compares a version with
one bound or with two. Whether a version matches depends on precedence alone. Expressions that
were put together by hand may hold values that are no expressions; such a value is shown like any
other and fails when it is evaluated.
-/

namespace VersionRange

/-- How a version may have to stand to a bound. Source: `Operator`. -/
inductive Comparator
  | equal
  | greater
  | greaterOrEqual
  | less
  | lessOrEqual
  deriving DecidableEq

namespace Comparator

/-- The sign of a comparator. Source: `Operator`. -/
def symbol : Comparator → String
  | equal => "="
  | greater => ">"
  | greaterOrEqual => ">="
  | less => "<"
  | lessOrEqual => "<="

/-- All comparators. -/
def all : List Comparator := [equal, greater, greaterOrEqual, less, lessOrEqual]

/-- The comparator with a given sign. Part of `comparison`. -/
def ofSymbol? (sign : String) : Option Comparator := all.find? (·.symbol == sign)

/-- Decide whether an outcome of a comparison satisfies a comparator. Source: `_OPERATORS`. -/
def admits : Comparator → Ordering → Bool
  | equal, o => o.isEq
  | greater, o => o.isGT
  | greaterOrEqual, o => o.isGE
  | less, o => o.isLT
  | lessOrEqual, o => o.isLE

end Comparator

/-- A condition on one version: a comparison with a bound, or an interval whose ends may belong to
it or not. Source: `Comparison` and `Range`. -/
inductive Constraint
  | bound (comparator : Comparator) (version : Version)
  | interval (lower upper : Version) (lowerInclusive upperInclusive : Bool)
  deriving DecidableEq

namespace Constraint

/-- The comparison that the lower end of an interval stands for. Part of the text of `Range` and
`evaluate`. -/
def lowerComparator (inclusive : Bool) : Comparator :=
  if inclusive then .greaterOrEqual else .greater

/-- The comparison that the upper end of an interval stands for. Part of the text of `Range` and
`evaluate`. -/
def upperComparator (inclusive : Bool) : Comparator :=
  if inclusive then .lessOrEqual else .less

/-- Decide whether a version satisfies a constraint. Part of `evaluate`. -/
def admits : Constraint → Version → Bool
  | bound comparator version, v => comparator.admits (compare v version)
  | interval lower upper lowerInclusive upperInclusive, v =>
    (lowerComparator lowerInclusive).admits (compare v lower) &&
      (upperComparator upperInclusive).admits (compare v upper)

/-- Decide whether the bounds of a constraint can be written. -/
def isWritable : Constraint → Bool
  | bound _ version => version.isWritable
  | interval lower upper _ _ => lower.isWritable && upper.isWritable

/-- A comparison as it is written. Source: the text of `Comparison`. -/
def boundChars (comparator : Comparator) (version : Version) : List Char :=
  comparator.symbol.toList ++ version.chars

/-- A constraint as it is written; an interval is written as two comparisons.
Source: the texts of `Comparison` and `Range`. -/
def chars : Constraint → List Char
  | bound comparator version => boundChars comparator version
  | interval lower upper lowerInclusive upperInclusive =>
    boundChars (lowerComparator lowerInclusive) lower ++
      ' ' :: boundChars (upperComparator upperInclusive) upper

end Constraint

/-- A compiled range expression. Source: `Expression`. -/
abbrev Expression := Formula Constraint

namespace Expression

/-- Decide whether a version satisfies an expression. Source: `evaluate`. -/
def admits (e : Expression) (v : Version) : Bool := e.holds (·.admits v)

/-- The canonical text of an expression. Source: the texts of `And`, `Or` and `Not`. -/
def chars (e : Expression) : List Char := e.render Constraint.chars

/-- The canonical text of an expression. -/
protected def toString (e : Expression) : String := .ofList (chars e)

/-- The canonical text of an expression, unless a number in it is too long to be written. -/
def write (e : Expression) : Except Failure String :=
  ifWritable (e.all Constraint.isWritable) (Expression.toString e)

end Expression

/-- A leaf of an expression put together by hand. Part of `evaluate`. -/
inductive Node
  | constraint (constraint : Constraint)
  | foreign (value : Datum)

namespace Node

/-- The text of a leaf. -/
def chars : Node → List Char
  | constraint c => c.chars
  | foreign value => value.display

/-- Decide whether a leaf can be written. -/
def isWritable : Node → Bool
  | constraint c => c.isWritable
  | foreign value => value.isWritable

/-- Decide whether a version satisfies a leaf; a value that is no expression cannot tell.
Part of `evaluate`. -/
def admits (v : Version) : Node → Except Failure Bool
  | constraint c => .ok (c.admits v)
  | foreign value => do
    let shown ← value.writeLiteral
    .error (.notExpression (.ofList shown))

end Node

/-- An expression put together by hand. -/
abbrev Tree := Formula Node

namespace Tree

/-- Decide whether a version satisfies an expression put together by hand. Source: `evaluate`. -/
def evaluate (t : Tree) (v : Version) : Except Failure Bool := Formula.evaluate (Node.admits v) t

/-- The text of an expression put together by hand. -/
protected def toString (t : Tree) : String := .ofList (t.render Node.chars)

/-- The text of an expression put together by hand, unless a number in it is too long to be
written. -/
def write (t : Tree) : Except Failure String :=
  ifWritable (t.all Node.isWritable) (Tree.toString t)

end Tree

end VersionRange
