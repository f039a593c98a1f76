import VersionRange.Proofs.Characters
import VersionRange.Proofs.Labels
import VersionRange.Version.Parser
import VersionRange.Version.Writing

/-!
# Versions and their texts

The canonical text of a version is read as this version, and a text that is read as a version is
its canonical text between white space. Both follow from the same fact about outlines: a text has
the form of a version exactly if it is the text of an outline.
-/

namespace VersionRange

namespace Outline

/-! ### Outlines -/

/-- The label that consists of some words; no words make no label. -/
def label (words : List Word) : Option (List Char) :=
  if words.isEmpty then none else some (Text.joinFields (words.map Word.chars))

theorem words?_eq_some_iff {isIdentifier : List Char → Bool} {text : Option (List Char)}
    {words : List Word} :
    words? isIdentifier text = some words ↔
      text = label words ∧ ∀ w ∈ words, isIdentifier w.chars = true := by
  cases text with
  | none =>
    rw [words?, label]
    cases words <;> simp
  | some text =>
    rw [words?_some_eq_some_iff, label]
    cases words <;> simp

private theorem marked_joinFields (mark : Char) (words : List Word) :
    Version.marked mark (Text.joinFields (words.map Word.chars)) =
      (label words).elim [] (mark :: ·) := by
  cases words with
  | nil => rfl
  | cons w words =>
    have hne : (Text.joinFields ((w :: words).map Word.chars)).isEmpty = false := by
      obtain ⟨c, cs, hcons⟩ := List.exists_cons_of_ne_nil w.chars_ne_nil
      cases words with
      | nil => simp [Text.joinFields, hcons]
      | cons v words => simp [Text.joinFields, List.intercalate_cons_cons, hcons]
    rw [Version.marked, hne]
    rfl

private theorem cutAt_label {mark : Char} {before : List Char} (h : mark ∉ before)
    (words : List Word) :
    Text.cutAt mark (before ++ (label words).elim [] (mark :: ·)) = (before, label words) := by
  cases label words with
  | none =>
    rw [Option.elim_none, List.append_nil]
    exact Text.cutAt_of_notMem h
  | some text => exact Text.cutAt_append h text

/-- The text of an outline. -/
def chars (o : Outline) : List Char :=
  Text.joinFields [o.major, o.minor, o.patch] ++ (label o.prerelease).elim [] ('-' :: ·) ++
    (label o.build).elim [] ('+' :: ·)

/-- The numbers of an outline are numerals, and so are the digits in its pre-release label. -/
def IsValid (o : Outline) : Prop :=
  (∀ digits ∈ [o.major, o.minor, o.patch], Text.isNumeral digits = true) ∧
    ∀ w ∈ o.prerelease, w.IsPrerelease

/-- No numeral of an outline is too long to be read. -/
def IsShort (o : Outline) : Prop :=
  (∀ digits ∈ [o.major, o.minor, o.patch], digits.length ≤ Text.maxDigits) ∧
    ∀ w ∈ o.prerelease, w.IsShort

private theorem eq_chars_of_ofChars? {cs : List Char} {o : Outline} (h : ofChars? cs = some o) :
    o.IsValid ∧ cs = o.chars := by
  rw [ofChars?] at h
  split at h
  next head build hbuild =>
    split at h
    next core prerelease hprerelease =>
      split at h
      · next major minor patch hcore =>
        split at h
        · next hnumbers =>
          simp only [bind, Option.bind_eq_some_iff, Option.some.injEq] at h
          obtain ⟨words, hwords, build', hbuild', rfl⟩ := h
          rw [words?_eq_some_iff] at hwords hbuild'
          refine ⟨⟨List.all_eq_true.1 hnumbers, hwords.2⟩, ?_⟩
          rw [Text.eq_of_cutAt hbuild, Text.eq_of_cutAt hprerelease, hwords.1, hbuild'.1, chars,
            ← hcore, Text.joinFields_fields]
        · cases h
      · cases h

theorem mem_core {o : Outline} (h : o.IsValid) {c : Char}
    (hc : c ∈ Text.joinFields [o.major, o.minor, o.patch]) : c = '.' ∨ c.isDigit = true := by
  rcases Text.mem_joinFields hc with hc | ⟨digits, hdigits, hc⟩
  · exact .inl hc
  · have hnumeral := h.1 digits hdigits
    simp only [Text.isNumeral, Text.isDigits, Bool.and_eq_true, List.all_eq_true] at hnumeral
    exact .inr (hnumeral.1.2 c hc)

private theorem mem_label {words : List Word} {mark c : Char}
    (hc : c ∈ (label words).elim [] (mark :: ·)) :
    c = mark ∨ c = '.' ∨ isIdentifierChar c = true := by
  rw [label] at hc
  split at hc
  · cases hc
  · rcases List.mem_cons.1 hc with hc | hc
    · exact .inl hc
    · rcases Text.mem_joinFields hc with hc | ⟨cs, hcs, hc⟩
      · exact .inr (.inl hc)
      · obtain ⟨w, -, rfl⟩ := List.mem_map.1 hcs
        have hvalid := w.valid
        simp only [isWord, Bool.and_eq_true, List.all_eq_true] at hvalid
        exact .inr (.inr (hvalid.2 c hc))

theorem fields_core {o : Outline} (h : o.IsValid) :
    Text.fields (Text.joinFields [o.major, o.minor, o.patch]) = [o.major, o.minor, o.patch] := by
  apply Text.fields_joinFields _ (by simp)
  intro digits hdigits hdot
  have hnumeral := h.1 digits hdigits
  simp only [Text.isNumeral, Text.isDigits, Bool.and_eq_true, List.all_eq_true] at hnumeral
  exact absurd (hnumeral.1.2 '.' hdot) (by decide)

theorem cutAt_core {o : Outline} (h : o.IsValid) :
    Text.cutAt '-' (Text.joinFields [o.major, o.minor, o.patch] ++
      (label o.prerelease).elim [] ('-' :: ·)) =
        (Text.joinFields [o.major, o.minor, o.patch], label o.prerelease) := by
  refine cutAt_label ?_ o.prerelease
  intro hmem
  rcases mem_core h hmem with hc | hc <;> exact absurd hc (by decide)

theorem cutAt_chars {o : Outline} (h : o.IsValid) :
    Text.cutAt '+' o.chars =
      (Text.joinFields [o.major, o.minor, o.patch] ++
        (label o.prerelease).elim [] ('-' :: ·), label o.build) := by
  refine cutAt_label ?_ o.build
  intro hmem
  rcases List.mem_append.1 hmem with hmem | hmem
  · rcases mem_core h hmem with hc | hc <;> exact absurd hc (by decide)
  · rcases mem_label hmem with hc | hc | hc <;> exact absurd hc (by decide)

private theorem ofChars?_chars {o : Outline} (h : o.IsValid) : ofChars? o.chars = some o := by
  have hprerelease : words? isPrereleaseField (label o.prerelease) = some o.prerelease :=
    words?_eq_some_iff.2 ⟨rfl, h.2⟩
  have hbuild : words? isWord (label o.build) = some o.build :=
    words?_eq_some_iff.2 ⟨rfl, fun w _ ↦ w.valid⟩
  rw [ofChars?, cutAt_chars h]
  simp only [cutAt_core h, fields_core h]
  rw [if_pos (List.all_eq_true.2 h.1), hprerelease, hbuild]
  rfl

theorem isVersionChar_of_mem_chars {o : Outline} (h : o.IsValid) {c : Char} (hc : c ∈ o.chars) :
    Text.isVersionChar c = true := by
  have hword {d : Char} (hd : isIdentifierChar d = true) : Text.isVersionChar d = true := by
    simp [Text.isVersionChar, hd]
  rw [chars, List.mem_append, List.mem_append] at hc
  rcases hc with (hc | hc) | hc
  · rcases mem_core h hc with rfl | hdigit
    · decide
    · exact hword (by simp [isIdentifierChar, Char.isAlphanum, hdigit])
  · rcases mem_label hc with rfl | rfl | hc
    · decide
    · decide
    · exact hword hc
  · rcases mem_label hc with rfl | rfl | hc
    · decide
    · decide
    · exact hword hc

/-- A text has the form of a version exactly if it is the text of a valid outline. -/
theorem ofChars?_eq_some_iff {cs : List Char} {o : Outline} :
    ofChars? cs = some o ↔ o.IsValid ∧ cs = o.chars := by
  constructor
  · exact eq_chars_of_ofChars?
  · rintro ⟨h, rfl⟩
    exact ofChars?_chars h

/-- The outline of the canonical text of a version. -/
def ofVersion (v : Version) : Outline where
  major := Text.numeral v.major
  minor := Text.numeral v.minor
  patch := Text.numeral v.patch
  prerelease := v.prerelease.map Identifier.toWord
  build := v.build

theorem ofVersion_injective : Function.Injective ofVersion := by
  intro v w h
  obtain ⟨major, minor, patch, prerelease, build⟩ := v
  rw [ofVersion, ofVersion, Outline.mk.injEq] at h
  obtain ⟨hmajor, hminor, hpatch, hprerelease, hbuild⟩ := h
  rw [List.map_inj_right fun _ _ hword ↦ Identifier.toWord_injective hword] at hprerelease
  rw [Version.mk.injEq]
  exact ⟨Text.numeral_injective hmajor, Text.numeral_injective hminor,
    Text.numeral_injective hpatch, hprerelease, hbuild⟩

theorem chars_ofVersion (v : Version) : (ofVersion v).chars = v.chars := by
  have hprerelease := marked_joinFields '-' (v.prerelease.map Identifier.toWord)
  rw [List.map_map] at hprerelease
  rw [chars, ofVersion, ← hprerelease, ← marked_joinFields]
  rfl

theorem isValid_ofVersion (v : Version) : (ofVersion v).IsValid := by
  refine ⟨?_, ?_⟩
  · simp [ofVersion, Text.isNumeral_numeral]
  · intro w hw
    obtain ⟨i, -, rfl⟩ := List.mem_map.1 hw
    exact i.isPrerelease_toWord

theorem isShort_ofVersion_iff (v : Version) : (ofVersion v).IsShort ↔ v.isWritable = true := by
  rw [IsShort, Version.isWritable, Bool.and_eq_true, List.all_eq_true, List.all_eq_true]
  simp [ofVersion, Text.isWritable, Identifier.isWritable_iff]

theorem readNumber_eq_ok_iff {digits : List Char} {n : Nat} :
    readNumber digits = .ok n ↔
      digits.length ≤ Text.maxDigits ∧ n = Text.numeralValue digits := by
  rw [readNumber]
  split
  · next h => exact ⟨nofun, fun hn ↦ absurd h (by omega)⟩
  · next h =>
    rw [Except.ok.injEq]
    exact ⟨fun hn ↦ ⟨by omega, hn.symm⟩, fun hn ↦ hn.2.symm⟩

/-- The only numerals that are refused are those that are too long. -/
theorem of_readNumber_eq_error {digits : List Char} {failure : Failure}
    (h : readNumber digits = .error failure) :
    ∃ count, Text.maxDigits < count ∧ failure = .tooManyDigits count := by
  rw [readNumber] at h
  split at h
  · next hlong =>
    cases h
    exact ⟨_, hlong, rfl⟩
  · cases h

theorem of_readIdentifiers_eq_error {words : List Word} {failure : Failure}
    (h : readIdentifiers words = .error failure) :
    ∃ count, Text.maxDigits < count ∧ failure = .tooManyDigits count := by
  obtain ⟨word, _, hword⟩ := Outcome.exists_of_mapM_eq_error h
  rw [readIdentifier] at hword
  split at hword
  · next hlong =>
    cases hword
    rw [Bool.and_eq_true, decide_eq_true_eq] at hlong
    exact ⟨_, hlong.2, rfl⟩
  · cases hword

/-- An outline denotes a version unless a numeral is too long. -/
theorem of_version_eq_error {o : Outline} {failure : Failure} (h : o.version = .error failure) :
    ∃ count, Text.maxDigits < count ∧ failure = .tooManyDigits count := by
  rw [version] at h
  simp only [Outcome.bind_eq_error_iff] at h
  obtain h | ⟨_, _, h | ⟨_, _, h | ⟨_, _, h | ⟨_, _, h⟩⟩⟩⟩ := h
  · exact of_readNumber_eq_error h
  · exact of_readNumber_eq_error h
  · exact of_readNumber_eq_error h
  · exact of_readIdentifiers_eq_error h
  · cases h

theorem exists_version {o : Outline} (h : o.IsShort) : ∃ v, o.version = .ok v := by
  simp only [version, Outcome.bind_eq_ok_iff, readNumber_eq_ok_iff, readIdentifiers_eq_ok_iff]
  exact ⟨_, _, ⟨h.1 o.major (by simp), rfl⟩, _, ⟨h.1 o.minor (by simp), rfl⟩, _,
    ⟨h.1 o.patch (by simp), rfl⟩, _, ⟨h.2, rfl⟩, rfl⟩

/-- A valid outline denotes the version that has it, if its numerals are not too long. -/
theorem version_eq_ok_iff {o : Outline} (h : o.IsValid) {v : Version} :
    o.version = .ok v ↔ o.IsShort ∧ o = ofVersion v := by
  obtain ⟨major, minor, patch, prerelease, build⟩ := o
  simp only [IsValid, IsShort, List.forall_mem_cons, List.not_mem_nil, false_implies, implies_true,
    and_true] at h ⊢
  obtain ⟨⟨hmajor, hminor, hpatch⟩, hprerelease⟩ := h
  simp only [version, Outcome.bind_eq_ok_iff, readNumber_eq_ok_iff, readIdentifiers_eq_ok_iff,
    Except.ok.injEq]
  constructor
  · rintro ⟨_, ⟨hmajor', rfl⟩, _, ⟨hminor', rfl⟩, _, ⟨hpatch', rfl⟩, _, ⟨hshort, rfl⟩, rfl⟩
    refine ⟨⟨⟨hmajor', hminor', hpatch'⟩, hshort⟩, ?_⟩
    simp only [ofVersion, Identifier.map_toWord_ofWord hprerelease,
      Text.numeral_numeralValue hmajor, Text.numeral_numeralValue hminor,
      Text.numeral_numeralValue hpatch]
  · rintro ⟨⟨⟨hmajor', hminor', hpatch'⟩, hshort⟩, ho⟩
    rw [ofVersion, Outline.mk.injEq] at ho
    obtain ⟨rfl, rfl, rfl, rfl, rfl⟩ := ho
    refine ⟨_, ⟨hmajor', rfl⟩, _, ⟨hminor', rfl⟩, _, ⟨hpatch', rfl⟩, _, ⟨hshort, rfl⟩, ?_⟩
    rw [Text.numeralValue_numeral, Text.numeralValue_numeral, Text.numeralValue_numeral,
      Identifier.map_ofWord_toWord]

end Outline

namespace Version

/-! ### Reading and writing -/

private theorem ofChars?_chars (v : Version) : Outline.ofChars? v.chars = some (.ofVersion v) := by
  rw [← Outline.chars_ofVersion]
  exact Outline.ofChars?_chars (Outline.isValid_ofVersion v)

/-- Different versions have different texts. -/
theorem toString_injective : Function.Injective Version.toString := by
  intro v w h
  have hchars : v.chars = w.chars := String.ofList_injective h
  have houtline := ofChars?_chars v
  rw [hchars, ofChars?_chars, Option.some.injEq] at houtline
  exact Outline.ofVersion_injective houtline.symm

theorem chars_ne_nil (v : Version) : v.chars ≠ [] := by
  intro h
  have hform := ofChars?_chars v
  rw [h] at hform
  cases hform

theorem isVersionChar_of_mem_chars (v : Version) {c : Char} (h : c ∈ v.chars) :
    Text.isVersionChar c = true := by
  rw [← Outline.chars_ofVersion] at h
  exact Outline.isVersionChar_of_mem_chars (Outline.isValid_ofVersion v) h

private theorem trim_chars (v : Version) : Text.trim v.chars = v.chars :=
  Text.trim_eq_self fun _ hc ↦ Text.isBlank_of_isVersionChar (v.isVersionChar_of_mem_chars hc)

/-- A text is read as a version exactly if it is the canonical text of the version and no number
in it is too long. -/
theorem parseChars_eq_ok_iff {cs : List Char} {v : Version} :
    parseChars cs = .ok v ↔ v.isWritable = true ∧ cs = v.chars := by
  rw [← Outline.isShort_ofVersion_iff]
  constructor
  · intro h
    rw [parseChars] at h
    split at h
    · cases h
    · split at h
      · next o ho =>
        rw [Outline.ofChars?_eq_some_iff] at ho
        rw [Outline.version_eq_ok_iff ho.1] at h
        obtain ⟨hshort, rfl⟩ := h
        exact ⟨hshort, ho.2.trans (Outline.chars_ofVersion v)⟩
      · cases h
  · rintro ⟨hshort, rfl⟩
    rw [parseChars, if_neg (by simpa using v.chars_ne_nil), ofChars?_chars]
    exact (Outline.version_eq_ok_iff (Outline.isValid_ofVersion v)).2 ⟨hshort, rfl⟩

theorem write_eq_ok_iff {v : Version} {text : String} :
    v.write = .ok text ↔ v.isWritable = true ∧ text = v.toString := by
  rw [write, ifWritable]
  split
  · next h =>
    rw [Except.ok.injEq]
    exact ⟨fun ht ↦ ⟨h, ht.symm⟩, fun ht ↦ ht.2.symm⟩
  · next h => exact ⟨nofun, fun ht ↦ absurd ht.1 h⟩

theorem parse_eq_ok_iff {text : String} {v : Version} :
    parse text = .ok v ↔ v.isWritable = true ∧ Text.trim text.toList = v.chars :=
  parseChars_eq_ok_iff

theorem isValid_of_parse_eq_ok {text : String} {v : Version} (h : parse text = .ok v) :
    isValid text = true := by
  rw [isValid, (parse_eq_ok_iff.mp h).2, ofChars?_chars]
  rfl

/-- Text of the form of a version is refused only for a numeral that is too long. -/
theorem of_parse_eq_error {text : String} {failure : Failure} (hvalid : isValid text = true)
    (h : parse text = .error failure) :
    ∃ count, Text.maxDigits < count ∧ failure = .tooManyDigits count := by
  obtain ⟨o, ho⟩ := Option.isSome_iff_exists.mp hvalid
  rw [parse, parseChars, ho] at h
  split at h
  · next hempty =>
    rw [List.isEmpty_iff.mp hempty] at ho
    cases ho
  · exact Outline.of_version_eq_error h

/-- Version text is a bijective encoding. Every version whose numbers are not too long, however it
was made, is written as a text of the form of a version, which is read as the same version, part by
part. Every text that is read as a version is what this version is written as, white space at the
ends aside. -/
theorem write_parse_bijective :
    (∀ v : Version, v.isWritable = true →
      ∃ text, v.write = .ok text ∧ isValid text = true ∧ parse text = .ok v) ∧
    ∀ (text : String) (v : Version), parse text = .ok v →
      v.write = .ok (.ofList (Text.trim text.toList)) := by
  refine ⟨?_, ?_⟩
  · intro v hv
    refine ⟨v.toString, write_eq_ok_iff.2 ⟨hv, rfl⟩, ?_, ?_⟩
    · rw [isValid, Version.toString, String.toList_ofList, trim_chars, ofChars?_chars]
      rfl
    · rw [parse_eq_ok_iff, Version.toString, String.toList_ofList, trim_chars]
      exact ⟨hv, rfl⟩
  · intro text v h
    rw [parse_eq_ok_iff] at h
    rw [write_eq_ok_iff, h.2]
    exact ⟨h.1, rfl⟩

end Version

end VersionRange
