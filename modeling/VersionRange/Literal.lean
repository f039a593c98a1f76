import VersionRange.Version.Draft

/-!
# Literals

A version literal of a range may leave out numbers at its end, or write wildcards for them; only
a literal with all three numbers has labels. What the shorthands need of a literal are its
numbers and some versions derived from them, its `Endpoints`. A literal given by a caller is
unchecked, and each of its endpoints may turn out to be no version. No number stands behind one
that is left out.
-/

namespace VersionRange

/-- A version literal by the numbers that it gives. Source: `PartialVersion`. -/
inductive Literal
  | any
  | upToMajor (major : Nat)
  | upToMinor (major minor : Nat)
  | full (version : Version)
  deriving DecidableEq

/-- What a shorthand may use of a literal: the numbers given, and versions that are computed in
`m`, which may fail. Numbers that are not given count as zero. -/
structure Endpoints (m : Type → Type) where
  /-- The numbers given. -/
  numbers : List Int
  /-- The version of the literal, with its labels. -/
  floor : m Version
  /-- The lowest version with the numbers of the literal. -/
  lowest : m Version
  /-- The lowest version above all those that share the numbers up to an index. -/
  past : Nat → m Version

/-- Three numbers with the one at an index raised and those behind it set to zero.
Part of `_bump`. -/
def raiseAt {α : Type} [Add α] [OfNat α 0] [OfNat α 1] (index : Nat) (major minor patch : α) :
    α × α × α :=
  match index with
  | 0 => (major + 1, 0, 0)
  | 1 => (major, minor + 1, 0)
  | _ => (major, minor, patch + 1)

namespace Literal

/-- The numbers that a literal gives. Source: `PartialVersion.specified`. -/
def numbers : Literal → List Nat
  | any => []
  | upToMajor major => [major]
  | upToMinor major minor => [major, minor]
  | full v => [v.major, v.minor, v.patch]

/-- The version of a literal; numbers that are not given are zero. Source: `_floor`. -/
def floor : Literal → Version
  | any => { major := 0, minor := 0, patch := 0 }
  | upToMajor major => { major, minor := 0, patch := 0 }
  | upToMinor major minor => { major, minor, patch := 0 }
  | full v => v

/-- The lowest version with the numbers of a literal. Source: `_lowest`. -/
def lowest (l : Literal) : Version := Version.lowest l.floor.major l.floor.minor l.floor.patch

/-- The lowest version above all those that share the numbers of a literal up to an index.
Source: `_bump`. -/
def past (l : Literal) (index : Nat) : Version :=
  let (major, minor, patch) := raiseAt index l.floor.major l.floor.minor l.floor.patch
  Version.lowest major minor patch

/-- The endpoints of a literal, none of which fails. Source: `_floor`, `_lowest` and `_bump`. -/
def endpoints (l : Literal) : Endpoints Id where
  numbers := l.numbers.map Int.ofNat
  floor := l.floor
  lowest := l.lowest
  past := l.past

end Literal

/-- A literal given by a caller: its numbers, of any sign, and its labels, unchecked.
Source: `PartialVersion`. -/
structure UncheckedLiteral where
  numbers : List Int
  prerelease : Label Identifier := .absent
  build : Label Word := .absent

namespace Label

/-- The parts of a label as they are shown when they are not checked. -/
def shown {α : Type} (ofParts : List Datum → Except Failure (List (List Char)))
    (ofKnown : α → List Char) : Label α → Except Failure (List (List Char))
  | absent => .ok []
  | text label => .ok (if label.isEmpty then [] else [label.toList])
  | parts items => ofParts items
  | known identifiers => .ok (identifiers.map ofKnown)

/-- The parts of build metadata that are text, the first of which has a given index. -/
def textParts (index : Nat) : List Datum → Except Failure (List (List Char))
  | [] => .ok []
  | .text part :: rest => do
    let parts ← textParts (index + 1) rest
    .ok (part.toList :: parts)
  | part :: _ => .error (.buildPartNotText index part.typeName)

/-- The identifiers of a pre-release label that is not checked; a part of any type is shown.
Part of the text of `PartialVersion`. -/
def shownPrerelease : Label Identifier → Except Failure (List (List Char)) :=
  shown (List.mapM Datum.write) Identifier.chars

/-- The words of build metadata that is not checked; only text is shown.
Part of the text of `PartialVersion`. -/
def shownBuild : Label Word → Except Failure (List (List Char)) := shown (textParts 0) Word.chars

end Label

namespace UncheckedLiteral

/-- The literal that gives all of a version. Source: `PartialVersion.from_version`. -/
def ofVersion (v : Version) : UncheckedLiteral where
  numbers := [v.major, v.minor, v.patch]
  prerelease := .known v.prerelease
  build := .known v.build

/-- Decide whether all three numbers are given. Source: `PartialVersion.is_full`. -/
def isFull (l : UncheckedLiteral) : Bool := l.numbers.length == 3

/-- The number at an index, or zero. Source: `PartialVersion.components`. -/
def number (l : UncheckedLiteral) (index : Nat) : Int := l.numbers.getD index 0

/-- The text of a literal, its labels as they are given. Source: the text of `PartialVersion`. -/
def write (l : UncheckedLiteral) : Except Failure String := do
  let numbers ← l.numbers.mapM fun n ↦ Datum.write (.integer n)
  let prerelease ← l.prerelease.shownPrerelease
  let build ← l.build.shownBuild
  let base := Text.joinFields (if l.isFull then numbers else numbers ++ [['x']])
  let label (mark : Char) (items : List (List Char)) :=
    if items.isEmpty then [] else mark :: Text.joinFields items
  .ok (.ofList (base ++ label '-' prerelease ++ label '+' build))

/-- The lowest version with three given numbers, if none is negative. Source: `_lowest`. -/
def lowestOf (numbers : Int × Int × Int) : Except Failure Version :=
  let (major, minor, patch) := numbers
  Draft.version {
    major := .integer major, minor := .integer minor, patch := .integer patch
    prerelease := .known [.number 0] }

/-- The endpoints of a literal, each checked when it is used. Source: `_floor`, `_lowest` and
`_bump`. -/
def endpoints (l : UncheckedLiteral) : Endpoints (Except Failure) where
  numbers := l.numbers
  floor := Draft.version {
    major := .integer (l.number 0), minor := .integer (l.number 1), patch := .integer (l.number 2)
    prerelease := l.prerelease, build := l.build }
  lowest := lowestOf (l.number 0, l.number 1, l.number 2)
  past index := lowestOf (raiseAt index (l.number 0) (l.number 1) (l.number 2))

end UncheckedLiteral

end VersionRange
