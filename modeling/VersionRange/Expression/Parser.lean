import VersionRange.Expression.Progress
import VersionRange.Limits
import VersionRange.Version.Parser

/-!
# Reading expressions

A range expression is read from its tokens within given limits. Of several faults the first in
the text is reported; a text that is too long is not examined at all. Beside the limits given none
is regarded, such as those of a call stack.
-/

namespace VersionRange

namespace Expression

/-- Read an expression from the tokens of a text. Source: `_ParserState.parse`. -/
def ofTokenization (source : String) (maxDepth : Int) (t : Tokenization) :
    Except Failure Expression := do
  let progress ← t.tokens.foldlM (Progress.step source maxDepth) Progress.start
  match t.stop with
  | .finished position _ => progress.finish source position
  | .illegal ⟨character, position⟩ => .error (.illegalExpression character position)

/-- Read a range expression. Source: `ExpressionParser.parse`. -/
def parse (text : String) (limits : Limits := {}) : Except Failure Expression :=
  let cs := text.toList
  if limits.maxInputLength < cs.length then
    .error (.inputTooLong cs.length limits.maxInputLength)
  else ofTokenization text limits.maxDepth (.ofChars cs)

/-- Read a range expression from a value that may not be text. Source: `parse_expression`. -/
def ofDatum (value : Datum) (limits : Limits := {}) : Except Failure Expression :=
  match value with
  | .text s => parse s limits
  | value => .error (.expressionNotText value.typeName)

/-- Read a range expression and hand over a failure to read it as a value. Only a number that is too
long remains a failure. Source: `try_parse_expression`. -/
def tryParse (value : Datum) (limits : Limits := {}) :
    Except Failure (Except Failure Expression) :=
  match ofDatum value limits with
  | .ok e => .ok (.ok e)
  | .error failure => if failure.isParseFailure then .ok (.error failure) else .error failure

end Expression

namespace Version

/-- Decide whether a version satisfies a range expression. Source: `Version.satisfies`. -/
def satisfies (v : Version) (range : String) (limits : Limits := {}) : Except Failure Bool := do
  let e ← Expression.parse range limits
  .ok (Expression.admits e v)

/-- A version set against a value that is no version: it differs from it, and has no order to it.
Part of the comparisons of `Version`. -/
def compareForeign (relation : Relation) (other : Datum) : Except Failure Bool :=
  match relation with
  | .isNot => .ok true
  | .is .equal => .ok false
  | .is comparator => .error (.incomparable comparator.symbol other.typeName)

end Version

end VersionRange
