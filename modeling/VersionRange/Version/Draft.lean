import VersionRange.Version.Parser

/-!
# Drafts

The parts of a version as a caller gives them, before they are checked. A draft can be changed
freely; only `Draft.version` decides whether the parts make a version. A label that is given by its
parts is a sequence that can be gone over again, and no parts at all are no label.
-/

namespace VersionRange

/-- A label as a caller gives it: none, its text, its parts, or identifiers already read.
Part of `_coerce_label`. -/
inductive Label (α : Type)
  | absent
  | text (label : String)
  | parts (items : List Datum)
  | known (identifiers : List α)

namespace Label

/-- Read a label that is not empty from its text. An absent label, empty text and no parts all stand
for no label; parts are joined by dots and read as text. Source: `_coerce_label`. -/
def read {α : Type} (ofText : List Char → Except Failure (List α)) :
    Label α → Except Failure (List α)
  | absent => .ok []
  | text label => if label.isEmpty then .ok [] else ofText label.toList
  | parts items =>
    if items.isEmpty then .ok []
    else do
      let shown ← items.mapM Datum.write
      ofText (Text.joinFields shown)
  | known identifiers => .ok identifiers

/-- A fault in a label that is read by itself. Part of `_parse_label`. -/
def failure (label : List Char) (fault : Fault) : Failure :=
  .malformedVersion (.ofList label) (some fault.position) fault.reason

/-- The identifiers of a pre-release label. Source: `_coerce_label` and `_parse_label`. -/
def prerelease (label : Label Identifier) : Except Failure (List Identifier) :=
  label.read fun cs ↦ do
    let words ← (readPrerelease 0 cs).mapError (failure cs)
    readIdentifiers words

/-- The words of build metadata. Source: `_coerce_label` and `_parse_label`. -/
def build (label : Label Word) : Except Failure (List Word) :=
  label.read fun cs ↦ (readBuild 0 cs).mapError (failure cs)

end Label

/-- The parts of a version, unchecked. Source: `VersionBuilder`. -/
structure Draft where
  major : Datum := .integer 0
  minor : Datum := .integer 0
  patch : Datum := .integer 0
  prerelease : Label Identifier := .absent
  build : Label Word := .absent

namespace Draft

/-- The natural number that a value is, if it is one. -/
def natural? : Datum → Option Nat
  | .integer (.ofNat n) => some n
  | _ => none

/-- Check one of the numbers of a draft. Part of the checks of `Version`. -/
def number (draft : Draft) (part : CorePart) (value : Datum) : Except Failure Nat :=
  match natural? value with
  | some n => .ok n
  | none => do
    let shown ← [draft.major, draft.minor, draft.patch].mapM Datum.write
    .error (.malformedVersion (.ofList (Text.joinFields shown)) none (.notNatural part))

/-- The version that has the parts of a draft. The numbers are checked before the labels.
Source: `VersionBuilder.build` and the checks of `Version`. -/
def version (draft : Draft) : Except Failure Version := do
  let major ← draft.number .major draft.major
  let minor ← draft.number .minor draft.minor
  let patch ← draft.number .patch draft.patch
  let prerelease ← draft.prerelease.prerelease
  let build ← draft.build.build
  .ok { major, minor, patch, prerelease, build }

/-- The draft with the parts of a version, its labels as text. Source: `VersionBuilder`. -/
def ofVersion (v : Version) : Draft where
  major := .integer v.major
  minor := .integer v.minor
  patch := .integer v.patch
  prerelease := .text (.ofList v.prereleaseChars)
  build := .text (.ofList v.buildChars)

/-- The change of one part of a draft. Source: `VersionBuilder`. -/
inductive Change
  | major (value : Datum)
  | minor (value : Datum)
  | patch (value : Datum)
  | prerelease (label : Label Identifier)
  | build (label : Label Word)

/-- Replace one part of a draft. Source: `VersionBuilder.set_major`, `VersionBuilder.set_minor`,
`VersionBuilder.set_patch`, `VersionBuilder.set_prerelease` and `VersionBuilder.set_build`. -/
def apply (draft : Draft) : Change → Draft
  | .major value => { draft with major := value }
  | .minor value => { draft with minor := value }
  | .patch value => { draft with patch := value }
  | .prerelease label => { draft with prerelease := label }
  | .build label => { draft with build := label }

end Draft

namespace Version

/-- A version with another pre-release label. Source: `Version.with_prerelease`. -/
def withPrerelease (v : Version) (label : Label Identifier) : Except Failure Version := do
  let prerelease ← label.prerelease
  .ok { v with prerelease }

/-- A version with other build metadata. Source: `Version.with_build`. -/
def withBuild (v : Version) (label : Label Word) : Except Failure Version := do
  let build ← label.build
  .ok { v with build }

end Version

end VersionRange
