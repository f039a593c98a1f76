import VersionRange.Text.Quoted

/-!
# Faults of a version

What can be wrong with the text or the parts of a version, and at which character. Every fault
of a text has a position; faults of values that never were text have none.
-/

namespace VersionRange

/-- The three numbers of a version. Source: `_CORE_NAMES`. -/
inductive CorePart
  | major
  | minor
  | patch
  deriving DecidableEq

namespace CorePart

/-- The name of a number in messages. Source: `_CORE_NAMES`. -/
def name : CorePart → String
  | major => "major"
  | minor => "minor"
  | patch => "patch"

/-- All three, in the order in which they are written. Source: `_CORE_NAMES`. -/
def all : List CorePart := [major, minor, patch]

end CorePart

/-- Why something is not a version. Source: `MalformedVersion`. -/
inductive Reason
  /-- A value of another type stands where a version's text is expected. -/
  | notText (typeName : String)
  /-- There is no text but white space. -/
  | empty
  /-- A character that occurs in no version, or not in this place. -/
  | unexpectedCharacter (character : Char)
  /-- A fourth number. -/
  | tooManyNumbers
  /-- A number without digits. -/
  | missingDigits (part : CorePart)
  /-- A number with a character that is no digit. -/
  | notNumeric (part : CorePart)
  /-- A number with a needless zero in front. -/
  | leadingZero (part : CorePart)
  /-- Fewer than three numbers. -/
  | missingNumber (part : CorePart)
  /-- A label with nothing between two dots, or between a dot and its end. -/
  | emptyIdentifier
  /-- A pre-release identifier of digits with a needless zero in front. -/
  | identifierLeadingZero (identifier : List Char)
  /-- The text is no version, and nothing more is known. -/
  | noMatch
  /-- A given number is negative, or not an integer at all. -/
  | notNatural (part : CorePart)
  /-- A number of a range with a needless zero in front. -/
  | rangeLeadingZero (number : List Char)
  deriving DecidableEq

/-- The wording of a reason. Source: `_diagnose`, `_check_identifiers` and `parse_version`. -/
def Reason.wording : Reason → String
  | notText typeName => "version must be a string, got " ++ typeName
  | empty => "version string cannot be empty"
  | unexpectedCharacter c => "unexpected character " ++ .ofList (Text.quoted [c])
  | tooManyNumbers => "too many version components"
  | missingDigits part => "missing digits in " ++ part.name ++ " component"
  | notNumeric part => "non-numeric " ++ part.name ++ " component"
  | leadingZero part => part.name ++ " component has a leading zero"
  | missingNumber part => "missing " ++ part.name ++ " component"
  | emptyIdentifier => "empty identifier"
  | identifierLeadingZero identifier =>
    "numeric identifier " ++ .ofList (Text.quoted identifier) ++ " has a leading zero"
  | noMatch => "does not match MAJOR.MINOR.PATCH[-prerelease][+build]"
  | notNatural part => part.name ++ " must be a non-negative integer"
  | rangeLeadingZero number =>
    "number " ++ .ofList (Text.quoted number) ++ " has a leading zero"

/-- A reason and the position of the character that shows it. Part of `_diagnose`. -/
structure Fault where
  position : Nat
  reason : Reason
  deriving DecidableEq

end VersionRange
