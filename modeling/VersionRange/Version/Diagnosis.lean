import VersionRange.Version.Label

/-!
# Diagnosis

Where a text fails to be a version, and why. A character that occurs in no version comes first,
wherever it stands; then the numbers are examined from left to right, then the pre-release label,
then the build metadata.
-/

namespace VersionRange

namespace Diagnosis

/-- A character that may occur in a version. Source: `_VERSION_CHARS`. -/
def isVersionChar (c : Char) : Bool := isIdentifierChar c || c == '.' || c == '+'

/-- What is wrong with one number that begins at `position`. Part of `_diagnose`. -/
def numberFault (part : CorePart) (position : Nat) (digits : List Char) : Option Fault :=
  if digits.isEmpty then some ⟨position, .missingDigits part⟩
  else (firstFault Char.isDigit (fun _ ↦ .notNumeric part) position digits).or
    (if Text.hasLeadingZero digits then some ⟨position, .leadingZero part⟩ else none)

/-- What is wrong with the numbers that are left, the first of which begins at `position`. Where
there are too many or too few, the fault lies one character back. Part of `_diagnose`. -/
def numbersFault : List CorePart → Nat → List (List Char) → Option Fault
  | [], _, [] => none
  | [], position, _ :: _ => some ⟨position - 1, .tooManyNumbers⟩
  | part :: _, position, [] => some ⟨position - 1, .missingNumber part⟩
  | part :: parts, position, digits :: rest =>
    (numberFault part position digits).or (numbersFault parts (position + digits.length + 1) rest)

/-- What is wrong with a label that begins at `position`, if there is one. Part of `_diagnose`. -/
def labelFault (read : Nat → List Char → Except Fault (List Word)) (position : Nat) :
    Option (List Char) → Option Fault
  | none => none
  | some label =>
    match read position label with
    | .ok _ => none
    | .error fault => some fault

end Diagnosis

open Diagnosis in
/-- Why a text is not a version. Source: `_diagnose`. -/
def diagnose (cs : List Char) : Fault :=
  let (head, build) := Text.cutAt '+' cs
  let (core, prerelease) := Text.cutAt '-' head
  let fault := (firstFault isVersionChar .unexpectedCharacter 0 cs)
    |>.or (numbersFault CorePart.all 0 (Text.fields core))
    |>.or (labelFault readPrerelease (core.length + 1) prerelease)
    |>.or (labelFault readBuild (head.length + 1) build)
  fault.getD ⟨0, .noMatch⟩

end VersionRange
