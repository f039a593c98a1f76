import VersionRange.Bisection
import VersionRange.Expression.Parser
import VersionRange.Version.Writing

/-!
# Version sets

A collection of versions in ascending precedence without duplicates. Versions that differ only in
their build metadata are duplicates, and the first one added stays. Reading a set, or the part of
it that satisfies an expression, goes over the members as they are when the reading starts, so
that versions may be added in the course of it.

An operation that adds and may fail answers with the outcome and with the set as it is left; what
was added before a failure stays.
-/

namespace VersionRange

/-- Versions in ascending precedence, no two of which are equal in it. Source: `VersionSet`. -/
structure VersionSet where
  members : List Version := []
  deriving DecidableEq

namespace VersionSet

/-- The place of a version among the members: in front of the first that is not below it.
Part of `VersionSet.add`. -/
def place (s : VersionSet) (v : Version) : Nat :=
  bisect (fun m ↦ (compare m v).isLT) s.members 0 s.members.length

/-- Decide whether the member in the place of a version is equal to it in precedence.
Source: membership in `VersionSet`. -/
def contains (s : VersionSet) (v : Version) : Bool :=
  s.members[s.place v]?.any fun m ↦ (compare m v).isEq

/-- Add a version, and tell whether it is new. Source: `VersionSet.add`. -/
def add (s : VersionSet) (v : Version) : Bool × VersionSet :=
  if s.contains v then (false, s) else (true, ⟨s.members.insertIdx (s.place v) v⟩)

/-- Something that is added to a set: a version, or a text that is to be read as one.
Source: `VersionLike`. -/
inductive Entry
  | version (v : Version)
  | text (text : String)
  deriving DecidableEq

/-- The version that is added with an entry. Source: `_coerce_version`. -/
def Entry.read : Entry → Except Failure Version
  | version v => .ok v
  | text t => Version.parse t

/-- Add a version or a text, and tell whether it is new. Source: `VersionSet.add`. -/
def addEntry (s : VersionSet) (entry : Entry) : Except Failure Bool × VersionSet :=
  match entry.read with
  | .ok v => (.ok (s.add v).1, (s.add v).2)
  | .error failure => (.error failure, s)

/-- Add a version given by its text, and tell whether it is new. Source: `VersionSet.add`. -/
def addText (s : VersionSet) (text : String) : Except Failure Bool × VersionSet :=
  s.addEntry (.text text)

/-- Add a version or a text. Source: `VersionCollector.add`. -/
def collect (s : VersionSet) (entry : Entry) : Except Failure Unit × VersionSet :=
  match s.addEntry entry with
  | (.ok _, t) => (.ok (), t)
  | (.error failure, t) => (.error failure, t)

/-- Add versions or texts, up to the first text that is no version.
Source: `VersionCollector.extend`. -/
def extendEntries (s : VersionSet) : List Entry → Except Failure Unit × VersionSet
  | [] => (.ok (), s)
  | entry :: rest =>
    match s.collect entry with
    | (.ok _, t) => extendEntries t rest
    | (.error failure, t) => (.error failure, t)

/-- Add versions given by their texts, up to the first that is no version.
Source: `VersionCollector.extend`. -/
def extend (s : VersionSet) (texts : List String) : Except Failure Unit × VersionSet :=
  s.extendEntries (texts.map .text)

/-- The set of some versions or texts. Source: `VersionSet` and `collect_versions`. -/
def ofEntries (entries : List Entry) : Except Failure VersionSet :=
  match extendEntries {} entries with
  | (.ok _, s) => .ok s
  | (.error failure, _) => .error failure

/-- The set of some versions given by their texts. Source: `VersionSet` and `collect_versions`. -/
def ofTexts (texts : List String) : Except Failure VersionSet := ofEntries (texts.map .text)

/-- Decide whether a value is the text of a version that is equal in precedence to a member.
Source: membership in `VersionSet`. -/
def containsDatum (s : VersionSet) : Datum → Except Failure Bool
  | .text text =>
    if Version.isValid text then do
      let v ← Version.parse text
      .ok (s.contains v)
    else .ok false
  | _ => .ok false

/-- The number of members. Source: the length of `VersionSet`. -/
def size (s : VersionSet) : Nat := s.members.length

/-- The member at an index; a negative index counts from the end.
Source: indexing of `VersionSet`. -/
def get? (s : VersionSet) (index : Int) : Option Version :=
  match index with
  | .ofNat n => s.members[n]?
  | .negSucc n => s.members.reverse[n]?

/-- The member at an index, which has to fit a signed word of 64 bits.
Source: indexing of `VersionSet`. -/
def get (s : VersionSet) (index : Int) : Except Failure Version :=
  if index < -0x8000000000000000 ∨ 0x8000000000000000 ≤ index then .error .indexTooLarge
  else match s.get? index with
  | some v => .ok v
  | none => .error .noMember

/-- The texts of the members. -/
def texts (s : VersionSet) : Except Failure (List String) := s.members.mapM Version.write

/-- The members that satisfy an expression, in ascending order.
Source: iteration over `FilteredVersions`. -/
def filter (s : VersionSet) (e : Expression) : List Version :=
  s.members.filter (Expression.admits e)

/-- The highest member, or the highest that satisfies an expression. Source: `VersionSet.latest`. -/
def latest? (s : VersionSet) : Option Expression → Option Version
  | none => s.members.getLast?
  | some e => s.members.reverse.find? (Expression.admits e)

/-- The lowest member, or the lowest that satisfies an expression. Source: `VersionSet.earliest`. -/
def earliest? (s : VersionSet) : Option Expression → Option Version
  | none => s.members.head?
  | some e => (s.filter e).head?

/-- Go over some versions with a body that may add to the set, up to the first failure of it. -/
def visit (body : Version → VersionSet → Except Failure Unit × VersionSet) (s : VersionSet) :
    List Version → Except Failure (List Version) × VersionSet
  | [] => (.ok [], s)
  | v :: rest =>
    match body v s with
    | (.error failure, t) => (.error failure, t)
    | (.ok _, t) =>
      match visit body t rest with
      | (.ok visited, u) => (.ok (v :: visited), u)
      | (.error failure, u) => (.error failure, u)

/-- Go over the members that satisfy an expression with a body that may add to the set.
Source: iteration over `FilteredVersions`. -/
def pass (s : VersionSet) (e : Expression)
    (body : Version → VersionSet → Except Failure Unit × VersionSet) :
    Except Failure (List Version) × VersionSet :=
  visit body s (s.filter e)

/-- Go over all members with a body that may add to the set. Source: iteration over `VersionSet`. -/
def passAll (s : VersionSet) (body : Version → VersionSet → Except Failure Unit × VersionSet) :
    Except Failure (List Version) × VersionSet :=
  visit body s s.members

/-- Add a version, as the body of a pass. -/
def adding (v : Version) (s : VersionSet) : Except Failure Unit × VersionSet :=
  (.ok (), (s.add v).2)

/-- Add a version given by its text, as the body of a pass. -/
def addingText (text : String) (s : VersionSet) : Except Failure Unit × VersionSet :=
  s.collect (.text text)

/-- A set as it is shown. Source: `VersionSet` as it is shown. -/
def write (s : VersionSet) : Except Failure String := do
  let texts ← s.texts
  .ok ("VersionSet(" ++ .ofList (Datum.literal (.list (texts.map .text))) ++ ")")

end VersionSet

/-- The part of a set that satisfies an expression. A view holds no members of its own: each reading
of it goes over the set as it is then. Source: `FilteredVersions`. -/
structure View where
  condition : Expression

namespace View

/-- The members of a set that a view shows. Source: iteration over `FilteredVersions`. -/
def read (view : View) (s : VersionSet) : List Version := s.filter view.condition

/-- A view as it is shown. Source: `FilteredVersions` as it is shown. -/
def write (view : View) : Except Failure String := do
  let condition ← Expression.write view.condition
  .ok ("FilteredVersions(" ++ .ofList (Text.quoted condition.toList) ++ ")")

end View

end VersionRange
