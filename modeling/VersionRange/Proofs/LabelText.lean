import VersionRange.Proofs.Faults
import VersionRange.Proofs.VersionText
import VersionRange.Version.Draft

/-!
# The text of a label and the text of a version

A label that is given to a version as text is read by rules of its own, with the position of what is
wrong. They accept the text exactly if the grammar of versions accepts it as the label of a version,
and read the same identifiers from it.
-/

namespace VersionRange

namespace Outline

/-! ### Labels of zero -/

/-- The text of the version whose three numbers are zero. -/
def zeros : List Char := ['0', '.', '0', '.', '0']

private theorem fields_zeros : Text.fields zeros = [['0'], ['0'], ['0']] := by
  decide

/-- Zero with build metadata has the form of a version if the metadata consists of words. -/
theorem ofChars?_zeros_build (label : List Char) :
    ofChars? (zeros ++ '+' :: label) =
      (words? isWord (some label)).map fun words ↦ ⟨['0'], ['0'], ['0'], [], words⟩ := by
  have hbuild : Text.cutAt '+' (zeros ++ '+' :: label) = (zeros, some label) :=
    Text.cutAt_append (by decide) label
  have hcore : Text.cutAt '-' zeros = (zeros, none) := Text.cutAt_of_notMem (by decide)
  rw [ofChars?, hbuild]
  simp only [hcore, fields_zeros]
  cases words? isWord (some label) <;> rfl

/-- Zero with a pre-release label has the form of a version if the label consists of identifiers. -/
theorem ofChars?_zeros_prerelease {label : List Char} (h : '+' ∉ label) :
    ofChars? (zeros ++ '-' :: label) =
      (words? isPrereleaseField (some label)).map fun words ↦
        ⟨['0'], ['0'], ['0'], words, []⟩ := by
  have hbuild : Text.cutAt '+' (zeros ++ '-' :: label) = (zeros ++ '-' :: label, none) := by
    apply Text.cutAt_of_notMem
    simp [zeros, h]
  have hprerelease : Text.cutAt '-' (zeros ++ '-' :: label) = (zeros, some label) :=
    Text.cutAt_append (by decide) label
  rw [ofChars?, hbuild]
  simp only [hprerelease, fields_zeros]
  cases words? isPrereleaseField (some label) <;> rfl

private theorem version_zeros (prerelease build : List Word) :
    (⟨['0'], ['0'], ['0'], prerelease, build⟩ : Outline).version =
      readIdentifiers prerelease >>= fun identifiers ↦ .ok ⟨0, 0, 0, identifiers, build⟩ := rfl

end Outline

namespace Version

open Outline

variable {v w u : Version} {text : String} {cs : List Char} {failure : Failure}

private theorem parseChars_eq_ok_iff_exists :
    parseChars cs = .ok v ↔ ∃ o, Outline.ofChars? cs = some o ∧ o.version = .ok v := by
  rw [parseChars]
  by_cases hempty : cs.isEmpty = true
  · rw [if_pos hempty, List.isEmpty_iff.mp hempty]
    have hnone : Outline.ofChars? [] = none := rfl
    simp [hnone]
  · rw [if_neg hempty]
    cases Outline.ofChars? cs <;> simp

private theorem parseChars_zeros_build :
    parseChars (zeros ++ '+' :: cs) = .ok u ↔
      ∃ words, words? isWord (some cs) = some words ∧ u = ⟨0, 0, 0, [], words⟩ := by
  have hversion (words : List Word) :
      (⟨['0'], ['0'], ['0'], [], words⟩ : Outline).version = .ok ⟨0, 0, 0, [], words⟩ := rfl
  simp only [parseChars_eq_ok_iff_exists, ofChars?_zeros_build, Option.map_eq_some_iff]
  constructor
  · rintro ⟨_, ⟨words, hwords, rfl⟩, hu⟩
    rw [hversion] at hu
    exact ⟨words, hwords, (Except.ok.inj hu).symm⟩
  · rintro ⟨words, hwords, rfl⟩
    exact ⟨_, ⟨words, hwords, rfl⟩, hversion words⟩

private theorem parseChars_zeros_prerelease (h : '+' ∉ cs) :
    parseChars (zeros ++ '-' :: cs) = .ok u ↔
      ∃ words identifiers, words? isPrereleaseField (some cs) = some words ∧
        readIdentifiers words = .ok identifiers ∧ u = ⟨0, 0, 0, identifiers, []⟩ := by
  simp only [parseChars_eq_ok_iff_exists, ofChars?_zeros_prerelease h, Option.map_eq_some_iff]
  constructor
  · rintro ⟨_, ⟨words, hwords, rfl⟩, hu⟩
    rw [version_zeros, Outcome.bind_eq_ok_iff] at hu
    obtain ⟨identifiers, hidentifiers, hu⟩ := hu
    exact ⟨words, identifiers, hwords, hidentifiers, (Except.ok.inj hu).symm⟩
  · rintro ⟨words, identifiers, hwords, hidentifiers, rfl⟩
    refine ⟨_, ⟨words, hwords, rfl⟩, ?_⟩
    rw [version_zeros, hidentifiers]
    rfl

/-! ### Labels given as text -/

private theorem build_text (h : text ≠ "") :
    (Label.text text : Label Word).build =
      (readBuild 0 text.toList).mapError (Label.failure text.toList) := by
  have hne : ¬ text.isEmpty = true := by simpa using h
  rw [Label.build, Label.read, if_neg hne]

private theorem prerelease_text (h : text ≠ "") :
    (Label.text text : Label Identifier).prerelease =
      (readPrerelease 0 text.toList).mapError (Label.failure text.toList) >>= readIdentifiers := by
  have hne : ¬ text.isEmpty = true := by simpa using h
  rw [Label.prerelease, Label.read, if_neg hne]

theorem withBuild_text_eq_ok_iff (h : text ≠ "") :
    v.withBuild (.text text) = .ok w ↔
      ∃ words, words? isWord (some text.toList) = some words ∧ w = { v with build := words } := by
  rw [withBuild, build_text h]
  simp only [Outcome.bind_eq_ok_iff, Outcome.mapError_eq_ok_iff, readBuild_eq_ok_iff,
    Except.ok.injEq, eq_comm (a := w)]

theorem withPrerelease_text_eq_ok_iff (h : text ≠ "") :
    v.withPrerelease (.text text) = .ok w ↔
      ∃ words identifiers, words? isPrereleaseField (some text.toList) = some words ∧
        readIdentifiers words = .ok identifiers ∧ w = { v with prerelease := identifiers } := by
  rw [withPrerelease, prerelease_text h]
  simp only [Outcome.bind_eq_ok_iff, Outcome.mapError_eq_ok_iff, readPrerelease_eq_ok_iff,
    Except.ok.injEq, eq_comm (a := w)]
  constructor
  · rintro ⟨identifiers, ⟨words, hwords, hidentifiers⟩, hw⟩
    exact ⟨words, identifiers, hwords, hidentifiers, hw⟩
  · rintro ⟨words, identifiers, hwords, hidentifiers, hw⟩
    exact ⟨identifiers, ⟨words, hwords, hidentifiers⟩, hw⟩

/-- A failure shows a place in the text of a label, or its end. -/
def ShowsPlace (text : String) (failure : Failure) : Prop :=
  ∃ position reason, failure = .malformedVersion text (some position) reason ∧
    position ≤ text.length

private theorem showsPlace_of_readFields {read : Nat → List Char → Except Fault Word}
    (hread : ∀ position cs fault, read position cs = .error fault →
      position ≤ fault.position ∧ fault.position ≤ position + cs.length)
    (h : (readFields read 0 (Text.fields text.toList)).mapError (Label.failure text.toList) =
      .error failure) : ShowsPlace text failure := by
  cases hfields : readFields read 0 (Text.fields text.toList) with
  | ok words =>
    rw [hfields] at h
    cases h
  | error fault =>
    rw [hfields] at h
    cases h
    have hposition := position_le_of_readFields hread hfields
    rw [String.length_toList] at hposition
    refine ⟨fault.position, fault.reason, ?_, by omega⟩
    rw [Label.failure, String.ofList_toList]

private theorem showsPlace_of_withBuild (h : text ≠ "")
    (hfailure : v.withBuild (.text text) = .error failure) : ShowsPlace text failure := by
  rw [withBuild, build_text h, Outcome.bind_eq_error_iff] at hfailure
  rcases hfailure with hfailure | ⟨_, _, hfailure⟩
  · exact showsPlace_of_readFields (fun _ _ _ h ↦ (of_readWord_eq_error h).position_le) hfailure
  · cases hfailure

/-- No number in a label is too long to be read. -/
def HasShortNumbers (label : List Char) : Prop :=
  ∀ field ∈ Text.fields label, Text.isDigits field = true → field.length ≤ Text.maxDigits

instance (label : List Char) : Decidable (HasShortNumbers label) :=
  inferInstanceAs (Decidable (∀ field ∈ Text.fields label, _ → _))

private theorem showsPlace_of_withPrerelease (h : text ≠ "") (hshort : HasShortNumbers text.toList)
    (hfailure : v.withPrerelease (.text text) = .error failure) : ShowsPlace text failure := by
  rw [withPrerelease, prerelease_text h, Outcome.bind_eq_error_iff,
    Outcome.bind_eq_error_iff] at hfailure
  rcases hfailure with (hfailure | ⟨words, hwords, hfailure⟩) | ⟨_, _, hfailure⟩
  · exact showsPlace_of_readFields (fun _ _ _ ↦ position_le_of_readPrereleaseWord) hfailure
  · rw [Outcome.mapError_eq_ok_iff, readPrerelease,
      readFields_eq_ok_iff fun _ _ _ ↦ readPrereleaseWord_eq_ok_iff] at hwords
    have hwordsShort : ∀ word ∈ words, word.IsShort := by
      intro word hword hnumeric
      apply hshort word.chars
      · rw [hwords.1]
        exact List.mem_map_of_mem hword
      · rw [Word.isDigits_chars, hnumeric]
    rw [readIdentifiers_eq_ok_iff.mpr ⟨hwordsShort, rfl⟩] at hfailure
    cases hfailure
  · cases hfailure

private theorem trim_zeros (mark : Char) (hne : text ≠ "")
    (hend : ∀ c, text.toList.getLast? = some c → Text.isBlank c = false) :
    Text.trim (zeros ++ mark :: text.toList) = zeros ++ mark :: text.toList := by
  apply Text.trim_eq_self_of_ends
  · intro c hc
    obtain rfl : '0' = c := Option.some.inj hc
    decide
  · intro c hc
    have hcs : text.toList ≠ [] := by simpa using hne
    have hlast := List.getLast?_eq_some_getLast hcs
    rw [List.getLast?_append, List.getLast?_cons_of_ne_nil hcs, hlast, Option.some_or] at hc
    exact hend c (hlast.trans hc)

/-- A text is accepted as a label by itself exactly if it is accepted as the label of a version, and
both have the same identifiers then; nothing else of a version changes. Text that is refused is
malformed, and the position that is shown lies within it, or at its end. -/
theorem withText_eq_ok_iff_parse (v : Version) {text : String} (hne : text ≠ "")
    (hend : ∀ c, text.toList.getLast? = some c → Text.isBlank c = false) :
    (∀ w, v.withBuild (.text text) = .ok w ↔
      ∃ u, parse ("0.0.0+" ++ text) = .ok u ∧ w = { v with build := u.build }) ∧
    (∀ failure, v.withBuild (.text text) = .error failure → ShowsPlace text failure) ∧
    ('+' ∉ text.toList → ∀ w, v.withPrerelease (.text text) = .ok w ↔
      ∃ u, parse ("0.0.0-" ++ text) = .ok u ∧ w = { v with prerelease := u.prerelease }) ∧
    (HasShortNumbers text.toList → ∀ failure, v.withPrerelease (.text text) = .error failure →
      ShowsPlace text failure) := by
  have hbuild : parse ("0.0.0+" ++ text) = parseChars (zeros ++ '+' :: text.toList) := by
    rw [parse, String.toList_append]
    exact congrArg parseChars (trim_zeros '+' hne hend)
  have hprerelease : parse ("0.0.0-" ++ text) = parseChars (zeros ++ '-' :: text.toList) := by
    rw [parse, String.toList_append]
    exact congrArg parseChars (trim_zeros '-' hne hend)
  refine ⟨fun w ↦ ?_, fun _ ↦ showsPlace_of_withBuild hne, fun hplus w ↦ ?_,
    fun hshort _ ↦ showsPlace_of_withPrerelease hne hshort⟩
  · simp only [hbuild, withBuild_text_eq_ok_iff hne, parseChars_zeros_build]
    constructor
    · rintro ⟨words, hwords, rfl⟩
      exact ⟨_, ⟨words, hwords, rfl⟩, rfl⟩
    · rintro ⟨_, ⟨words, hwords, rfl⟩, rfl⟩
      exact ⟨words, hwords, rfl⟩
  · simp only [hprerelease, withPrerelease_text_eq_ok_iff hne, parseChars_zeros_prerelease hplus]
    constructor
    · rintro ⟨words, identifiers, hwords, hidentifiers, rfl⟩
      exact ⟨_, ⟨words, identifiers, hwords, hidentifiers, rfl⟩, rfl⟩
    · rintro ⟨_, ⟨words, identifiers, hwords, hidentifiers, rfl⟩, rfl⟩
      exact ⟨words, identifiers, hwords, hidentifiers, rfl⟩

/-- A zero in front of a letter is no needless one, and in build metadata no zero is. -/
theorem withText_eq_ok_iff_parse_mixed :
    let text := "0a.07.-"
    let v : Version := ⟨1, 2, 3, [.number 4], []⟩
    let words : List Word := [⟨['0', 'a'], rfl⟩, ⟨['0', '7'], rfl⟩, ⟨['-'], rfl⟩]
    text ≠ "" ∧ (∀ c, text.toList.getLast? = some c → Text.isBlank c = false) ∧
      '+' ∉ text.toList ∧ HasShortNumbers text.toList ∧
      parse ("0.0.0+" ++ text) = .ok ⟨0, 0, 0, [], words⟩ ∧
      v.withBuild (.text text) = .ok { v with build := words } ∧
      (∃ failure, v.withPrerelease (.text text) = .error failure ∧ ShowsPlace text failure) ∧
      ∀ u, parse ("0.0.0-" ++ text) ≠ .ok u := by
  intro text v words
  have hne : text ≠ "" := by decide
  have hend : ∀ c, text.toList.getLast? = some c → Text.isBlank c = false := by
    intro c hc
    have hlast : text.toList.getLast? = some '-' := by decide
    obtain rfl : '-' = c := Option.some.inj (hlast.symm.trans hc)
    decide
  have hplus : '+' ∉ text.toList := by decide
  have hshort : HasShortNumbers text.toList := by decide
  have hparse : parse ("0.0.0+" ++ text) = .ok ⟨0, 0, 0, [], words⟩ := by
    rw [← Outcome.toOption_eq_some_iff]
    decide
  obtain ⟨hbuild, -, hprerelease, hplace⟩ := withText_eq_ok_iff_parse v hne hend
  have hrefused (w : Version) : v.withPrerelease (.text text) ≠ .ok w := by
    rw [Ne, ← Outcome.toOption_eq_some_iff]
    have hnone : (v.withPrerelease (.text text)).toOption = none := by decide
    simp [hnone]
  refine ⟨hne, hend, hplus, hshort, hparse, (hbuild _).mpr ⟨_, hparse, rfl⟩, ?_, ?_⟩
  · cases hresult : v.withPrerelease (.text text) with
    | ok w => exact absurd hresult (hrefused w)
    | error failure => exact ⟨failure, rfl, hplace hshort failure hresult⟩
  · intro u hu
    exact hrefused _ ((hprerelease hplus _).mpr ⟨u, hu, rfl⟩)

end Version

end VersionRange
