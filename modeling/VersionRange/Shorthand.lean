import VersionRange.Expression
import VersionRange.Literal

/-!
# Shorthands

What the shorthand forms of ranges mean, as expressions over the endpoints of their literals. An
upper end that a shorthand derives is the lowest pre-release of the next version, so that the
pre-releases of that version stay outside; an end that is written out in full is taken as it is.

`^1.2.3` is `>=1.2.3 <2.0.0-0`, `^0.2.3` is `>=0.2.3 <0.3.0-0`, `~1.2.3` is `>=1.2.3 <1.3.0-0`,
`1.2` is `>=1.2.0 <1.3.0-0`, `1.2.3 - 2.3` is `>=1.2.3 <2.4.0-0`, `>1.2` is `>=1.3.0-0`, and `*`
is every version.
-/

namespace VersionRange

/-- The operator of a comparison in a range: a comparator, or the sign for "not equal".
Part of `comparison`. -/
inductive Relation
  | is (comparator : Comparator)
  | isNot
  deriving DecidableEq

/-- The relation with a given sign. Part of `comparison`. -/
def Relation.ofSymbol? (sign : String) : Option Relation :=
  if sign = "!=" then some .isNot else (Comparator.ofSymbol? sign).map .is

/-- Decide whether an outcome of a comparison satisfies a relation. -/
def Relation.admits : Relation → Ordering → Bool
  | is comparator, o => comparator.admits o
  | isNot, o => o.isNe

/-- Decide whether a version stands in a relation to another one.
Source: the comparisons of `Version`. -/
def Version.stands (a : Version) (relation : Relation) (b : Version) : Bool :=
  relation.admits (compare a b)

namespace Expression

/-- A comparison with a version. Source: `equal`, `greater`, `greater_or_equal`, `less` and
`less_or_equal`. -/
def bound (comparator : Comparator) (v : Version) : Expression := .leaf (.bound comparator v)

/-- An interval; unless stated otherwise its lower end belongs to it and its upper end does not.
Source: `between`. -/
def between (lower upper : Version) (lowerInclusive : Bool := true)
    (upperInclusive : Bool := false) : Expression :=
  .leaf (.interval lower upper lowerInclusive upperInclusive)

/-- Every version. Source: `any_version` and `MIN_VERSION`. -/
def any : Expression := bound .greaterOrEqual (Version.lowest 0 0 0)

/-- No version. Source: `no_version`. -/
def none : Expression := .not any

end Expression

namespace Shorthand

variable {m : Type → Type} [Monad m]

/-- Versions that share the numbers given by a literal; all three numbers give one version.
Source: `wildcard`. -/
def wildcard (l : Endpoints m) : m Expression :=
  match l.numbers.length with
  | 0 => pure .any
  | 3 => do
    let version ← l.floor
    pure (.bound .equal version)
  | count + 1 => do
    let lower ← l.floor
    let upper ← l.past count
    pure (.between lower upper)

/-- The index of the first number that is not zero, or of the last number. Part of `caret`. -/
def caretIndex : List Int → Nat
  | [] | [_] => 0
  | n :: rest => if n = 0 then caretIndex rest + 1 else 0

/-- Versions that keep the first number which is not zero. Source: `caret`. -/
def caret (l : Endpoints m) : m Expression :=
  if l.numbers.isEmpty then pure .any
  else do
    let upper ← l.past (caretIndex l.numbers)
    let lower ← l.floor
    pure (.between lower upper)

/-- Versions that keep the minor number, or the major one if no other is given. Source: `tilde`. -/
def tilde (l : Endpoints m) : m Expression :=
  if l.numbers.isEmpty then pure .any
  else do
    let upper ← l.past (if l.numbers.length = 1 then 0 else 1)
    let lower ← l.floor
    pure (.between lower upper)

/-- The upper end of a hyphen range, and whether it belongs to the range: the version of a full
literal does, and a partial one takes in all versions that share its numbers. Part of `hyphen`. -/
def upperEnd (l : Endpoints m) : m (Option (Version × Bool)) :=
  match l.numbers.length with
  | 0 => pure none
  | 3 => do
    let version ← l.floor
    pure (some (version, true))
  | count + 1 => do
    let version ← l.past count
    pure (some (version, false))

/-- Versions from one literal to another; a literal without numbers leaves its side open.
Source: `hyphen`. -/
def hyphen (lower upper : Endpoints m) : m Expression := do
  let low ← if lower.numbers.isEmpty then pure none else do
    let version ← lower.floor
    pure (some version)
  let high ← upperEnd upper
  match low, high with
  | some low, some (high, inclusive) => pure (.between low high true inclusive)
  | some low, none => pure (.bound .greaterOrEqual low)
  | none, some (high, true) => pure (.bound .lessOrEqual high)
  | none, some (high, false) => pure (.bound .less high)
  | none, none => pure .any

/-- Versions that stand in a relation to a literal. A partial literal stands for all versions that
share its numbers: above it is above all of them, below it is below all of them.
Source: `comparison`. -/
def comparison (relation : Relation) (l : Endpoints m) : m Expression :=
  match relation with
  | .is .equal => wildcard l
  | .isNot => do
    let expression ← wildcard l
    pure (.not expression)
  | .is comparator =>
    match l.numbers.length with
    | 0 => pure (if comparator.admits .eq then .any else .none)
    | 3 => do
      let version ← l.floor
      pure (.bound comparator version)
    | count + 1 =>
      match comparator with
      | .greater => do
        let version ← l.past count
        pure (.bound .greaterOrEqual version)
      | .less => do
        let version ← l.lowest
        pure (.bound .less version)
      | .lessOrEqual => do
        let version ← l.past count
        pure (.bound .less version)
      | _ => do
        let version ← l.floor
        pure (.bound .greaterOrEqual version)

/-- Versions that stand in a relation, named by its sign, to a literal of a caller.
Source: `comparison`. -/
def comparisonOfSymbol (sign : String) (l : UncheckedLiteral) : Except Failure Expression :=
  match Relation.ofSymbol? sign with
  | some relation => comparison relation l.endpoints
  | none => .error (.unknownOperator sign)

end Shorthand

namespace Literal

/-- Versions that share the numbers given by a literal. Source: `wildcard`. -/
def wildcard (l : Literal) : Expression := Shorthand.wildcard l.endpoints

/-- Versions that keep the first number of a literal which is not zero. Source: `caret`. -/
def caret (l : Literal) : Expression := Shorthand.caret l.endpoints

/-- Versions that keep the minor number of a literal, or the major one if no other is given.
Source: `tilde`. -/
def tilde (l : Literal) : Expression := Shorthand.tilde l.endpoints

/-- Versions from one literal to another. Source: `hyphen`. -/
def hyphen (lower upper : Literal) : Expression := Shorthand.hyphen lower.endpoints upper.endpoints

/-- Versions that stand in a relation to a literal. Source: `comparison`. -/
def comparison (relation : Relation) (l : Literal) : Expression :=
  Shorthand.comparison relation l.endpoints

end Literal

end VersionRange
