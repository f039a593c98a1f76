import VersionRange.Text.Numeral
import VersionRange.Token
import VersionRange.Version.Fault

/-!
# Failures

The causes for which an operation on versions or ranges fails, each with what a caller needs to
report it. The wording of all of them is `Failure.message`.
-/

namespace VersionRange

/-- Why an operation failed. Source: `VersionException` with its subclasses, each named where it
belongs; the other causes are failures of the operations that the program is built from. -/
inductive Failure
  /-- Text, or a set of parts, that is not a version; `text` is all of it: `MalformedVersion`. -/
  | malformedVersion (text : String) (position : Option Nat) (reason : Reason)
  /-- A character that begins no token: `UnexpectedCharacterException`. -/
  | unexpectedCharacter (character : Char) (position : Nat)
  /-- A range expression with a character that begins no token: `LexerException`. -/
  | illegalExpression (character : Char) (position : Nat)
  /-- A token in a place where only tokens of other kinds may stand: `UnexpectedTokenException`. -/
  | unexpectedToken (expected : List TokenKind) (token : Token)
  /-- An expression that ends too early: `UnexpectedElementException`. -/
  | unexpectedEnd (expected : List TokenKind) (position : Nat)
  /-- A range expression with more characters than allowed: `InputTooLongError`. -/
  | inputTooLong (length : Nat) (limit : Int)
  /-- Groups and negations within each other beyond the allowed depth: `NestingTooDeepError`. -/
  | nestingTooDeep (limit : Int) (position : Nat)
  /-- A value of another type where a range expression is expected: `ParseException`. -/
  | expressionNotText (typeName : String)
  /-- A release whose pre-release label is to be incremented: `VersionException`. -/
  | noPrerelease (version : String)
  /-- A version without build metadata whose build metadata is to be incremented:
  `VersionException`. -/
  | noBuild (version : String)
  /-- A numeral that is too long to be read as a number. -/
  | tooManyDigits (count : Nat)
  /-- A number whose numeral is too long to be written. -/
  | numberTooLong
  /-- A part of build metadata that is not text, where the parts are shown as they are. -/
  | buildPartNotText (index : Nat) (typeName : String)
  /-- An index at which a collection has no member. -/
  | noMember
  /-- An index beyond the reach of any collection. -/
  | indexTooLarge
  /-- Text that is no comparison operator. -/
  | unknownOperator (text : String)
  /-- A value that is no expression, in the place of one. -/
  | notExpression (literal : String)
  /-- A version compared by order with something that is no version. -/
  | incomparable (operator : String) (typeName : String)
  deriving DecidableEq

namespace Failure

/-- The position in the text at which a failure is shown, if it has one.
Part of `VersionException`. -/
def position : Failure → Option Nat
  | malformedVersion _ position _ => position
  | unexpectedCharacter _ position => some position
  | illegalExpression _ position => some position
  | unexpectedToken _ token => some token.position
  | unexpectedEnd _ position => some position
  | nestingTooDeep _ position => some position
  | _ => none

/-- Decide whether a failure says that text is not a version or not a range expression.
Source: `ParseException`. -/
def isParseFailure : Failure → Bool
  | malformedVersion .. | unexpectedCharacter .. | illegalExpression .. | unexpectedToken ..
  | unexpectedEnd .. | inputTooLong .. | nestingTooDeep .. | expressionNotText .. => true
  | _ => false

private def characterMessage (character : Char) (position : Nat) : String :=
  "Unexpected character " ++ .ofList (Text.quoted [character]) ++ " at position " ++
    toString position

private def digitsMessage (detail : String) : String :=
  "Exceeds the limit (" ++ toString Text.maxDigits ++
    " digits) for integer string conversion" ++ detail ++
    "; use sys.set_int_max_str_digits() to increase the limit"

/-- The wording of a failure. Source: `VersionException` and `_describe`. -/
def message : Failure → String
  | malformedVersion text position reason =>
    let place := match position with
      | some p => " at position " ++ toString p
      | none => ""
    "Invalid semantic version: " ++ .ofList (Text.quoted text.toList) ++ " (" ++ reason.wording ++
      place ++ ")"
  | unexpectedCharacter character position => characterMessage character position
  | illegalExpression character position =>
    "Illegal range expression: " ++ characterMessage character position
  | unexpectedToken expected token =>
    "Expected " ++ TokenKind.describe expected ++ " but found " ++ token.kind.name ++ " " ++
      .ofList (Text.quoted token.text) ++ " at position " ++ toString token.position
  | unexpectedEnd expected position =>
    "Unexpected end of input at position " ++ toString position ++ ", expected " ++
      TokenKind.describe expected
  | inputTooLong length limit =>
    "Input is " ++ toString length ++ " characters long, the limit is " ++ toString limit
  | nestingTooDeep limit position =>
    "Expression nesting exceeds the limit of " ++ toString limit ++ " at position " ++
      toString position
  | expressionNotText typeName => "Range expression must be a string, got " ++ typeName
  | noPrerelease version =>
    "Version " ++ version ++ " has no pre-release identifiers to increment"
  | noBuild version => "Version " ++ version ++ " has no build metadata to increment"
  | tooManyDigits count => digitsMessage (": value has " ++ toString count ++ " digits")
  | numberTooLong => digitsMessage ""
  | buildPartNotText index typeName =>
    "sequence item " ++ toString index ++ ": expected str instance, " ++ typeName ++ " found"
  | noMember => "list index out of range"
  | indexTooLarge => "cannot fit 'int' into an index-sized integer"
  | unknownOperator text => .ofList (Text.quoted text.toList) ++ " is not a valid Operator"
  | notExpression literal => "Not an expression node: " ++ literal
  | incomparable operator typeName =>
    "'" ++ operator ++ "' not supported between instances of 'Version' and '" ++ typeName ++ "'"

end Failure

/-- Read a numeral that is not too long. Part of `_ParserState._component` and `parse_version`. -/
def readNumber (digits : List Char) : Except Failure Nat :=
  if Text.maxDigits < digits.length then .error (.tooManyDigits digits.length)
  else .ok (Text.numeralValue digits)

/-- Something that is written, unless a number in it is too long for that. -/
def ifWritable {α : Type} (writable : Bool) (a : α) : Except Failure α :=
  if writable then .ok a else .error .numberTooLong

end VersionRange
