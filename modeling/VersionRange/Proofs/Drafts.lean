import VersionRange.Proofs.LabelText
import VersionRange.Proofs.Shorthands

/-!
# What a draft makes

A draft makes a version exactly if its numbers are natural and its labels are the texts of
identifiers; the draft of a version makes this version again. A builder keeps a draft, and what it
answers depends on the values that were set last, part by part, and on nothing that was asked of it
in between.
-/

namespace VersionRange

/-! ### Labels -/

namespace Label

variable {α : Type} {chars : α → List Char} {good : α → Prop} {identifiers : List α}

/-- A label denotes some identifiers: none are given, or the text or the joined parts are theirs, or
they were read before. Identifiers of which the text is read have to be `good`. -/
inductive Denotes (chars : α → List Char) (good : α → Prop) : Label α → List α → Prop
  | absent : Denotes chars good .absent []
  | text {label : String} {identifiers : List α}
      (h : label.toList = Text.joinFields (identifiers.map chars))
      (hgood : ∀ i ∈ identifiers, good i) : Denotes chars good (.text label) identifiers
  | noParts : Denotes chars good (.parts []) []
  | parts {items : List Datum} {shown : List (List Char)} {identifiers : List α}
      (hitems : items ≠ []) (hshown : items.mapM Datum.write = .ok shown)
      (hne : identifiers ≠ [])
      (h : Text.joinFields shown = Text.joinFields (identifiers.map chars))
      (hgood : ∀ i ∈ identifiers, good i) : Denotes chars good (.parts items) identifiers
  | known (identifiers : List α) : Denotes chars good (.known identifiers) identifiers

theorem joinFields_map_eq_nil_iff (hchars : ∀ a, chars a ≠ []) :
    Text.joinFields (identifiers.map chars) = [] ↔ identifiers = [] := by
  cases identifiers with
  | nil => exact iff_of_true rfl rfl
  | cons a identifiers =>
    obtain ⟨more, hmore⟩ := Text.exists_joinFields_cons (chars a) (identifiers.map chars)
    rw [List.map_cons, hmore]
    simp [hchars a]

/-- A label is read as the identifiers that it denotes, if text is. -/
theorem read_eq_ok_iff {ofText : List Char → Except Failure (List α)} (hchars : ∀ a, chars a ≠ [])
    (hread : ∀ cs identifiers, ofText cs = .ok identifiers ↔
      identifiers ≠ [] ∧ cs = Text.joinFields (identifiers.map chars) ∧ ∀ i ∈ identifiers, good i)
    (label : Label α) :
    label.read ofText = .ok identifiers ↔ label.Denotes chars good identifiers := by
  cases label with
  | absent =>
    rw [read, Except.ok.injEq, eq_comm]
    constructor
    · rintro rfl
      exact .absent
    · rintro ⟨⟩
      rfl
  | known known =>
    rw [read, Except.ok.injEq]
    constructor
    · rintro rfl
      exact .known known
    · rintro ⟨⟩
      rfl
  | text label =>
    rw [read]
    by_cases hempty : label.isEmpty = true
    · have hnil : label.toList = [] := by simpa using hempty
      rw [if_pos hempty, Except.ok.injEq, eq_comm]
      constructor
      · rintro rfl
        exact .text hnil (List.forall_mem_nil _)
      · rintro (_ | ⟨h, -⟩)
        rwa [hnil, eq_comm, joinFields_map_eq_nil_iff hchars] at h
    · have hne : label.toList ≠ [] := by simpa using hempty
      rw [if_neg hempty, hread]
      constructor
      · rintro ⟨-, h, hgood⟩
        exact .text h hgood
      · rintro (_ | ⟨h, hgood⟩)
        refine ⟨fun hnil ↦ hne ?_, h, hgood⟩
        rw [h, hnil]
        rfl
  | parts items =>
    rw [read]
    by_cases hempty : items.isEmpty = true
    · obtain rfl := List.isEmpty_iff.mp hempty
      rw [if_pos hempty, Except.ok.injEq, eq_comm]
      constructor
      · rintro rfl
        exact .noParts
      · rintro (_ | _ | _ | ⟨hne, -⟩)
        · rfl
        · exact absurd rfl hne
    · have hne : items ≠ [] := by simpa using hempty
      rw [if_neg hempty, Outcome.bind_eq_ok_iff]
      constructor
      · rintro ⟨shown, hshown, h⟩
        obtain ⟨hidentifiers, htext, hgood⟩ := (hread _ _).mp h
        exact .parts hne hshown hidentifiers htext hgood
      · rintro (_ | _ | _ | ⟨-, hshown, hidentifiers, htext, hgood⟩)
        · exact absurd rfl hne
        · exact ⟨_, hshown, (hread _ _).mpr ⟨hidentifiers, htext, hgood⟩⟩

/-- The identifiers that words of a pre-release label denote have the texts of the words. -/
theorem map_chars_ofWord {words : List Word} (h : ∀ w ∈ words, w.IsPrerelease) :
    (words.map Identifier.ofWord).map Identifier.chars = words.map Word.chars := by
  rw [List.map_map]
  apply List.map_congr_left
  intro w hw
  exact congrArg Word.chars (Identifier.toWord_ofWord (h w hw))

/-- A pre-release label denotes identifiers of which no number is too long to be written. -/
theorem prerelease_eq_ok_iff {identifiers : List Identifier} (label : Label Identifier) :
    label.prerelease = .ok identifiers ↔
      label.Denotes Identifier.chars (·.isWritable = true) identifiers := by
  refine read_eq_ok_iff (fun i ↦ i.toWord.chars_ne_nil) (fun cs identifiers ↦ ?_) label
  simp only [Outcome.bind_eq_ok_iff, Outcome.mapError_eq_ok_iff, readPrerelease_eq_ok_iff,
    Outline.words?_some_eq_some_iff, readIdentifiers_eq_ok_iff]
  constructor
  · rintro ⟨words, ⟨hne, htext, hprerelease⟩, hshort, rfl⟩
    refine ⟨by simpa using hne, ?_, ?_⟩
    · rw [map_chars_ofWord hprerelease, htext]
    · intro i hi
      obtain ⟨w, hw, rfl⟩ := List.mem_map.mp hi
      rw [Identifier.isWritable_iff, Identifier.toWord_ofWord (hprerelease w hw)]
      exact hshort w hw
  · rintro ⟨hne, htext, hwritable⟩
    refine ⟨identifiers.map Identifier.toWord, ⟨by simpa using hne, ?_, ?_⟩, ?_, ?_⟩
    · rw [List.map_map]
      exact htext
    · intro w hw
      obtain ⟨i, -, rfl⟩ := List.mem_map.mp hw
      exact i.isPrerelease_toWord
    · intro w hw
      obtain ⟨i, hi, rfl⟩ := List.mem_map.mp hw
      exact i.isWritable_iff.mp (hwritable i hi)
    · exact (Identifier.map_ofWord_toWord identifiers).symm

/-- Build metadata denotes any words. -/
theorem build_eq_ok_iff {words : List Word} (label : Label Word) :
    label.build = .ok words ↔ label.Denotes Word.chars (fun _ ↦ True) words := by
  refine read_eq_ok_iff Word.chars_ne_nil (fun cs words ↦ ?_) label
  rw [Outcome.mapError_eq_ok_iff, readBuild_eq_ok_iff, Outline.words?_some_eq_some_iff]
  simp [Word.valid]

end Label

/-! ### Versions -/

namespace Draft

variable {draft : Draft} {v w : Version}

/-- A draft denotes a version part by part. -/
structure Denotes (draft : Draft) (v : Version) : Prop where
  major : draft.major = .integer v.major
  minor : draft.minor = .integer v.minor
  patch : draft.patch = .integer v.patch
  prerelease : draft.prerelease.Denotes Identifier.chars (·.isWritable = true) v.prerelease
  build : draft.build.Denotes Word.chars (fun _ ↦ True) v.build

/-- A draft makes the version that it denotes, and no version if it denotes none. -/
theorem version_eq_ok_iff : draft.version = .ok v ↔ draft.Denotes v := by
  simp only [version, Outcome.bind_eq_ok_iff, number_eq_ok_iff, Label.prerelease_eq_ok_iff,
    Label.build_eq_ok_iff, Except.ok.injEq]
  constructor
  · rintro ⟨_, hmajor, _, hminor, _, hpatch, _, hprerelease, _, hbuild, rfl⟩
    exact ⟨hmajor, hminor, hpatch, hprerelease, hbuild⟩
  · intro h
    exact ⟨_, h.major, _, h.minor, _, h.patch, _, h.prerelease, _, h.build, rfl⟩

/-- No version that a draft makes has a pre-release number too long to be written, unless one that
was read before had. -/
theorem isWritable_of_version (h : draft.version = .ok v)
    (hknown : ∀ identifiers, draft.prerelease = .known identifiers →
      ∀ i ∈ identifiers, i.isWritable = true) : ∀ i ∈ v.prerelease, i.isWritable = true := by
  have hdenotes := (version_eq_ok_iff.mp h).prerelease
  generalize draft.prerelease = label at hdenotes hknown
  generalize v.prerelease = read at hdenotes
  cases hdenotes with
  | absent | noParts => exact List.forall_mem_nil _
  | text _ hgood => exact hgood
  | parts _ _ _ _ hgood => exact hgood
  | known => exact hknown _ rfl

end Draft

namespace Version

variable {v : Version}

private theorem denotes_prereleaseChars (h : ∀ i ∈ v.prerelease, i.isWritable = true) :
    (Label.text (.ofList v.prereleaseChars)).Denotes Identifier.chars (·.isWritable = true)
      v.prerelease :=
  .text String.toList_ofList h

private theorem denotes_buildChars (v : Version) :
    (Label.text (.ofList v.buildChars)).Denotes Word.chars (fun _ ↦ True) v.build :=
  .text String.toList_ofList fun _ _ ↦ trivial

/-- The draft of a version makes this version. -/
theorem version_ofVersion (h : ∀ i ∈ v.prerelease, i.isWritable = true) :
    (Draft.ofVersion v).version = .ok v :=
  Draft.version_eq_ok_iff.mpr
    ⟨rfl, rfl, rfl, denotes_prereleaseChars h, denotes_buildChars v⟩

/-- A version is the same with its own labels in place of them. -/
theorem withPrerelease_withBuild (h : ∀ i ∈ v.prerelease, i.isWritable = true) :
    (do
      let w ← v.withPrerelease (.text (.ofList v.prereleaseChars))
      w.withBuild (.text (.ofList v.buildChars))) = .ok v := by
  have hprerelease := (Label.prerelease_eq_ok_iff _).mpr (denotes_prereleaseChars h)
  have hbuild := (Label.build_eq_ok_iff _).mpr (denotes_buildChars v)
  simp only [withPrerelease, withBuild, hprerelease, hbuild]
  rfl

end Version

/-! ### Builders -/

namespace Draft

/-- What is asked of a builder: a part is set, or the version is built. -/
inductive Request
  | set (change : Change)
  | build

/-- Decide whether a request is one to build. -/
def Request.isBuild : Request → Bool
  | set _ => false
  | build => true

/-- The draft behind a request; to build changes nothing. -/
def after (draft : Draft) : Request → Draft
  | .set change => draft.apply change
  | .build => draft

/-- The answers of a builder to the requests to build, failures included. -/
def answers (draft : Draft) : List Request → List (Except Failure Version)
  | [] => []
  | .set change :: rest => answers (draft.apply change) rest
  | .build :: rest => draft.version :: answers draft rest

/-- A part of drafts: its value, and the value to which a change sets it. No other change has an
effect on it. -/
structure Field (α : Type) where
  value : Draft → α
  set? : Change → Option α
  value_apply : ∀ draft change, value (draft.apply change) = (set? change).getD (value draft)

namespace Field

/-- The major number. -/
def major : Field Datum where
  value := Draft.major
  set? | .major value => some value | _ => none
  value_apply _ change := by cases change <;> rfl

/-- The minor number. -/
def minor : Field Datum where
  value := Draft.minor
  set? | .minor value => some value | _ => none
  value_apply _ change := by cases change <;> rfl

/-- The patch number. -/
def patch : Field Datum where
  value := Draft.patch
  set? | .patch value => some value | _ => none
  value_apply _ change := by cases change <;> rfl

/-- The pre-release label. -/
def prerelease : Field (Label Identifier) where
  value := Draft.prerelease
  set? | .prerelease label => some label | _ => none
  value_apply _ change := by cases change <;> rfl

/-- The build metadata. -/
def build : Field (Label Word) where
  value := Draft.build
  set? | .build label => some label | _ => none
  value_apply _ change := by cases change <;> rfl

variable {α : Type}

/-- The value to which a request sets a part, if it sets it. -/
def setting? (field : Field α) : Request → Option α
  | .set change => field.set? change
  | .build => none

/-- The value to which some requests set a part last, or the one that it has at the start. -/
def last (field : Field α) (start : Draft) (history : List Request) : α :=
  (history.filterMap field.setting?).getLastD (field.value start)

private theorem value_after (field : Field α) (start : Draft) (request : Request) :
    field.value (start.after request) = (field.setting? request).getD (field.value start) := by
  cases request with
  | set change => exact field.value_apply start change
  | build => rfl

/-- Behind some requests a part has the value to which they set it last. -/
theorem value_foldl_after (field : Field α) (start : Draft) (history : List Request) :
    field.value (history.foldl after start) = field.last start history := by
  induction history generalizing start with
  | nil => rfl
  | cons request history ih =>
    rw [List.foldl_cons, ih, last, last, value_after, List.filterMap_cons]
    cases field.setting? request with
    | none => rfl
    | some value => rw [List.getLastD_cons, Option.getD_some]

end Field

/-- The draft with the values to which some requests set its parts last. -/
def latest (start : Draft) (history : List Request) : Draft where
  major := Field.major.last start history
  minor := Field.minor.last start history
  patch := Field.patch.last start history
  prerelease := Field.prerelease.last start history
  build := Field.build.last start history

private theorem foldl_after_eq_latest (start : Draft) (history : List Request) :
    history.foldl after start = start.latest history := by
  rw [latest, ← Field.major.value_foldl_after, ← Field.minor.value_foldl_after,
    ← Field.patch.value_foldl_after, ← Field.prerelease.value_foldl_after,
    ← Field.build.value_foldl_after]
  rfl

/-- Requests are answered one after the other, those behind others from what these have set. -/
theorem answers_append (start : Draft) (before behind : List Request) :
    start.answers (before ++ behind) =
      start.answers before ++ (start.latest before).answers behind := by
  rw [← foldl_after_eq_latest]
  induction before generalizing start with
  | nil => rfl
  | cons request before ih =>
    cases request with
    | set change => exact ih (start.apply change)
    | build => exact congrArg (start.version :: ·) (ih start)

private theorem length_answers (start : Draft) (history : List Request) :
    (start.answers history).length = history.countP Request.isBuild := by
  induction history generalizing start with
  | nil => rfl
  | cons request history ih =>
    cases request with
    | set change => exact ih (start.apply change)
    | build =>
      rw [answers, List.length_cons, ih, List.countP_cons]
      rfl

/-- The answer to a request to build. -/
theorem getElem?_answers (start : Draft) (before behind : List Request) :
    (start.answers (before ++ .build :: behind))[before.countP Request.isBuild]? =
      some (start.latest before).version := by
  rw [answers_append, ← length_answers start, List.getElem?_append_right (Nat.le_refl _),
    Nat.sub_self]
  rfl

/-- The parts of a draft. -/
inductive Part
  | major
  | minor
  | patch
  | prerelease
  | build
  deriving DecidableEq

/-- The part that a change sets. -/
def Change.part : Change → Part
  | major _ => .major
  | minor _ => .minor
  | patch _ => .patch
  | prerelease _ => .prerelease
  | build _ => .build

/-- Changes of different parts can be made in either order. -/
theorem apply_comm (draft : Draft) {change other : Change} (h : change.part ≠ other.part) :
    (draft.apply change).apply other = (draft.apply other).apply change := by
  cases change <;> cases other <;> first | rfl | exact absurd rfl h

/-- So the answers to later requests do not depend on the order of such changes. -/
theorem answers_swap (start : Draft) (before behind : List Request) {change other : Change}
    (h : change.part ≠ other.part) :
    start.answers (before ++ .set change :: .set other :: behind) =
      start.answers (before ++ .set other :: .set change :: behind) := by
  rw [answers_append, answers_append, answers, answers, answers, answers, apply_comm _ h]

/-- A builder is determined by the values that were set last, and rebuilding is the identity. A
version that was read or made of a draft has no number in its pre-release label that is too long to
be written; and such a version is what its draft makes, and what comes of giving it the texts of its
own labels. Whatever is asked of a builder, and from wherever it starts, the answer to a request to
build is what the draft with the values set last makes, with those of the start for the parts that
were not set: the version that this draft denotes, and a failure if it denotes none. Requests to
build leave these values as they are, and changes of different parts can be made in either order. -/
theorem answers_of_last_settings :
    (∀ v : Version, (∀ i ∈ v.prerelease, i.isWritable = true) →
      (ofVersion v).version = .ok v ∧
      (do
        let w ← v.withPrerelease (.text (.ofList v.prereleaseChars))
        w.withBuild (.text (.ofList v.buildChars))) = .ok v) ∧
    (∀ text v, Version.parse text = .ok v → ∀ i ∈ v.prerelease, i.isWritable = true) ∧
    (∀ (draft : Draft) v, draft.version = .ok v →
      (∀ identifiers, draft.prerelease = .known identifiers →
        ∀ i ∈ identifiers, i.isWritable = true) →
      ∀ i ∈ v.prerelease, i.isWritable = true) ∧
    ∀ (start : Draft) (before behind : List Request),
      (start.answers (before ++ .build :: behind))[before.countP Request.isBuild]? =
        some (start.latest before).version ∧
      (∀ v, (start.latest before).version = .ok v ↔ (start.latest before).Denotes v) ∧
      start.latest (before ++ .build :: behind) = start.latest (before ++ behind) ∧
      ∀ change other : Change, change.part ≠ other.part →
        start.answers (before ++ .set change :: .set other :: behind) =
          start.answers (before ++ .set other :: .set change :: behind) := by
  refine ⟨?_, ?_, ?_, ?_⟩
  · intro v hv
    exact ⟨Version.version_ofVersion hv, Version.withPrerelease_withBuild hv⟩
  · intro text v h
    have hwritable := (Version.parse_eq_ok_iff.mp h).1
    rw [Version.isWritable, Bool.and_eq_true] at hwritable
    exact List.all_eq_true.mp hwritable.2
  · intro draft v
    exact isWritable_of_version
  · intro start before behind
    refine ⟨getElem?_answers start before behind, fun v ↦ version_eq_ok_iff, ?_, ?_⟩
    · rw [← foldl_after_eq_latest, ← foldl_after_eq_latest, List.foldl_append, List.foldl_append]
      rfl
    · intro change other h
      exact answers_swap start before behind h

/-- A bad value stays until the same part is set again. -/
example :
    let requests : List Request := [.set (.major (.integer (-1))), .build,
      .set (.build (.text "07")), .build, .set (.major (.integer 1)), .build]
    (answers {} requests).map Except.toOption =
      [none, none, some ⟨1, 0, 0, [], [⟨['0', '7'], rfl⟩]⟩] := by
  decide +kernel

end Draft

end VersionRange
