import VersionRange.Failure
import VersionRange.Text.Fields
import VersionRange.Version.Identifier

/-!
# Reading labels

A pre-release label or the build metadata of a version, read identifier by identifier with the
position of the first character that is wrong. Both consist of words between dots; in a
pre-release label a word of digits denotes a number and has no needless leading zero.
-/

namespace VersionRange

/-- The first character that is not allowed, counting positions from `position`.
Part of `_check_identifiers`. -/
def firstFault (allowed : Char → Bool) (reason : Char → Reason) : Nat → List Char → Option Fault
  | _, [] => none
  | position, c :: rest =>
    if allowed c then firstFault allowed reason (position + 1) rest
    else some ⟨position, reason c⟩

/-- Read the word that begins at `position`. Part of `_check_identifiers`. -/
def readWord (position : Nat) (cs : List Char) : Except Fault Word :=
  match Word.ofChars? cs with
  | some word => .ok word
  | none =>
    .error <| (firstFault isIdentifierChar .unexpectedCharacter position cs).getD
      ⟨position, .emptyIdentifier⟩

/-- Read the word of a pre-release label that begins at `position`. Part of `_check_identifiers`. -/
def readPrereleaseWord (position : Nat) (cs : List Char) : Except Fault Word := do
  let word ← readWord position cs
  if word.isNumeric && Text.hasLeadingZero cs then
    .error ⟨position, .identifierLeadingZero cs⟩
  else .ok word

/-- Read the fields of a label of which the first begins at `position`, left to right.
Part of `_check_identifiers`. -/
def readFields (read : Nat → List Char → Except Fault Word) :
    Nat → List (List Char) → Except Fault (List Word)
  | _, [] => .ok []
  | position, field :: rest => do
    let word ← read position field
    let words ← readFields read (position + field.length + 1) rest
    .ok (word :: words)

/-- Read build metadata that begins at `position`. Source: `_check_identifiers`. -/
def readBuild (position : Nat) (label : List Char) : Except Fault (List Word) :=
  readFields readWord position (Text.fields label)

/-- Read a pre-release label that begins at `position`. Source: `_check_identifiers`. -/
def readPrerelease (position : Nat) (label : List Char) : Except Fault (List Word) :=
  readFields readPrereleaseWord position (Text.fields label)

/-- The identifier that a word denotes, unless it is a numeral that is too long.
Part of `_as_identifiers`. -/
def readIdentifier (word : Word) : Except Failure Identifier :=
  if word.isNumeric && Text.maxDigits < word.chars.length then
    .error (.tooManyDigits word.chars.length)
  else .ok (.ofWord word)

/-- The identifiers that words denote. Source: `_as_identifiers`. -/
def readIdentifiers (words : List Word) : Except Failure (List Identifier) :=
  words.mapM readIdentifier

end VersionRange
