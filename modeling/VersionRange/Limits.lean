import VersionRange.Text.Blank
import VersionRange.Text.DecimalDigit
import VersionRange.Text.Quoted
import VersionRange.Failure

/-!
# Limits

The limits within which range expressions are read: their length in characters, and the depth of
groups and negations within each other. They may be set in the environment, as positive integers;
a value may have a sign, the digits of any script and single underscores between digits.
-/

namespace VersionRange

/-- The limits on range expressions. Source: `EngineConfig`. -/
structure Limits where
  maxInputLength : Int := 1024
  maxDepth : Int := 64
  deriving DecidableEq

/-- Why limits cannot be taken from the environment. Source: `ConfigError`. -/
inductive LimitsFailure
  | notInteger (name : String) (value : List Char)
  | notPositive (name : String) (value : Int)
  deriving DecidableEq

/-- The wording of a failure. Source: `_positive_int`. -/
def LimitsFailure.message : LimitsFailure → String
  | notInteger name value =>
    name ++ " must be an integer, got " ++ .ofList (Text.quoted value)
  | notPositive name value => name ++ " must be positive, got " ++ toString value

/-- The digits of a number of any script, with single underscores between them. -/
def digitValues? : List Char → Option (List Nat)
  | [] => none
  | [c] => (Text.decimalDigit? c).map ([·])
  | c :: '_' :: rest => do
    let digit ← Text.decimalDigit? c
    let digits ← digitValues? rest
    some (digit :: digits)
  | c :: rest => do
    let digit ← Text.decimalDigit? c
    let digits ← digitValues? rest
    some (digit :: digits)

/-- The natural number that is written with digits of any script, if they are not too many. -/
def naturalOfDigits? (cs : List Char) : Option Nat := do
  let digits ← digitValues? cs
  if Text.maxDigits < digits.length then none
  else some (digits.foldl (fun value digit ↦ 10 * value + digit) 0)

/-- The integer that a text denotes, if it denotes one. Part of `_positive_int`. -/
def integerOfChars? : List Char → Option Int
  | '+' :: rest => (naturalOfDigits? rest).map Int.ofNat
  | '-' :: rest => (naturalOfDigits? rest).map (-Int.ofNat ·)
  | cs => (naturalOfDigits? cs).map Int.ofNat

namespace Limits

/-- The environment variable for the length of expressions. Source: `ENV_MAX_INPUT_LENGTH`. -/
def inputLengthVariable : String := "RANGEVER_MAX_INPUT_LENGTH"

/-- The environment variable for the depth of groups and negations. Source: `ENV_MAX_DEPTH`. -/
def depthVariable : String := "RANGEVER_MAX_DEPTH"

/-- The limit that a variable of the environment sets; blank or missing, it leaves the usual one.
Source: `_positive_int`. -/
def fromVariable (environment : String → Option String) (name : String) (usual : Int) :
    Except LimitsFailure Int :=
  let raw := Text.trim ((environment name).getD "").toList
  if raw.isEmpty then .ok usual
  else match integerOfChars? raw with
  | none => .error (.notInteger name raw)
  | some value => if value ≤ 0 then .error (.notPositive name value) else .ok value

/-- The limits that the environment sets. Source: `EngineConfig.from_env`. -/
def fromEnvironment (environment : String → Option String) : Except LimitsFailure Limits := do
  let usual : Limits := {}
  let maxInputLength ← fromVariable environment inputLengthVariable usual.maxInputLength
  let maxDepth ← fromVariable environment depthVariable usual.maxDepth
  .ok { maxInputLength, maxDepth }

end Limits

/-- The limits of a process: taken from the environment when first asked for, and then kept. A
failure is not kept. Source: `default_config`. -/
structure ProcessLimits where
  kept : Option Limits := none

/-- The limits of a process, and what is kept of them. Source: `default_config`. -/
def ProcessLimits.get (p : ProcessLimits) (environment : String → Option String) :
    Except LimitsFailure Limits × ProcessLimits :=
  match p.kept with
  | some limits => (.ok limits, p)
  | none =>
    match Limits.fromEnvironment environment with
    | .ok limits => (.ok limits, ⟨some limits⟩)
    | .error failure => (.error failure, p)

end VersionRange
