import VersionRange.Proofs.Numerals
import VersionRange.Proofs.Outcomes
import VersionRange.Version.Grammar
import VersionRange.Version.Label

/-!
# Labels

The fields of a label are words exactly if the label is the join of these words, and an
identifier and the word that writes it determine each other. Reading a label with positions
accepts the words that the grammar admits.
-/

namespace VersionRange

namespace Word

/-- No word has a character that is not allowed in one. -/
theorem notMem_chars (w : Word) {c : Char} (h : isIdentifierChar c = false) : c ∉ w.chars := by
  intro hc
  have hvalid := w.valid
  simp only [isWord, Bool.and_eq_true, List.all_eq_true] at hvalid
  have := hvalid.2 c hc
  simp_all

theorem chars_ne_nil (w : Word) : w.chars ≠ [] := by
  intro h
  have hvalid := w.valid
  rw [h] at hvalid
  cases hvalid

theorem isDigits_chars (w : Word) : Text.isDigits w.chars = w.isNumeric := by
  have hne : w.chars.isEmpty = false := by simpa using w.chars_ne_nil
  rw [Text.isDigits, isNumeric, hne, Bool.not_false, Bool.true_and]

theorem ofChars?_eq_some_iff {cs : List Char} {w : Word} : ofChars? cs = some w ↔ cs = w.chars := by
  rw [ofChars?]
  constructor
  · intro h
    split at h
    · cases h
      rfl
    · cases h
  · rintro rfl
    rw [dif_pos w.valid]

private theorem isNumeric_ofNat (n : Nat) : (ofNat n).isNumeric = true := by
  rw [← isDigits_chars]
  exact Text.isDigits_numeral n

/-- A word that may stand in a pre-release label: digits have no needless zero. -/
def IsPrerelease (w : Word) : Prop := Outline.isPrereleaseField w.chars = true

theorem isPrerelease_iff (w : Word) :
    w.IsPrerelease ↔ w.isNumeric = true → Text.isNumeral w.chars = true := by
  rw [IsPrerelease, Outline.isPrereleaseField, w.valid, isDigits_chars, Bool.true_and,
    Bool.or_eq_true]
  cases w.isNumeric <;> simp

/-- A word that is not a numeral too long to be read. -/
def IsShort (w : Word) : Prop := w.isNumeric = true → w.chars.length ≤ Text.maxDigits

end Word

namespace Identifier

/-- The word that writes an identifier denotes it. -/
theorem ofWord_toWord (i : Identifier) : ofWord i.toWord = i := by
  cases i with
  | number n =>
    rw [toWord, ofWord, dif_pos (Word.isNumeric_ofNat n)]
    exact congrArg number (Text.numeralValue_numeral n)
  | name w h =>
    rw [toWord, ofWord, dif_neg (by simp [h])]

/-- The identifier that a word of a pre-release label denotes is written as the word. -/
theorem toWord_ofWord {w : Word} (h : w.IsPrerelease) : (ofWord w).toWord = w := by
  rw [ofWord]
  split
  · next hnumeric =>
    obtain ⟨cs, hcs⟩ := w
    rw [Word.isPrerelease_iff] at h
    exact Word.mk.injEq .. ▸ Text.numeral_numeralValue (h hnumeric)
  · rfl

theorem toWord_injective : Function.Injective toWord :=
  Function.LeftInverse.injective ofWord_toWord

theorem map_ofWord_toWord (identifiers : List Identifier) :
    (identifiers.map toWord).map ofWord = identifiers := by
  rw [List.map_map]
  exact (List.map_congr_left fun i _ ↦ ofWord_toWord i).trans (List.map_id identifiers)

theorem map_toWord_ofWord {words : List Word} (h : ∀ w ∈ words, w.IsPrerelease) :
    (words.map ofWord).map toWord = words := by
  rw [List.map_map]
  exact (List.map_congr_left fun w hw ↦ toWord_ofWord (h w hw)).trans (List.map_id words)

theorem isPrerelease_toWord (i : Identifier) : i.toWord.IsPrerelease := by
  rw [Word.isPrerelease_iff]
  intro hnumeric
  cases i with
  | number n => exact Text.isNumeral_numeral n
  | name w h =>
    rw [toWord, h] at hnumeric
    cases hnumeric

theorem isWritable_iff (i : Identifier) : i.isWritable = true ↔ i.toWord.IsShort := by
  cases i with
  | number n =>
    rw [isWritable, Text.isWritable, decide_eq_true_eq]
    exact ⟨fun h _ ↦ h, fun h ↦ h (Word.isNumeric_ofNat n)⟩
  | name w hw =>
    refine ⟨fun _ h ↦ ?_, fun _ ↦ rfl⟩
    rw [toWord, hw] at h
    cases h

end Identifier

namespace Word

/-- A word of digits with a needless zero in front. -/
def IsPadded (w : Word) : Prop := w.isNumeric = true ∧ Text.hasLeadingZero w.chars = true

instance (w : Word) : Decidable w.IsPadded :=
  inferInstanceAs (Decidable (w.isNumeric = true ∧ Text.hasLeadingZero w.chars = true))

/-- The word that writes what a word denotes: a number loses needless zeros. -/
def unpadded (w : Word) : Word := (Identifier.ofWord w).toWord

theorem chars_unpadded (w : Word) :
    w.unpadded.chars = if w.isNumeric then Text.dropZeros w.chars else w.chars := by
  have hdigits := w.isDigits_chars
  rw [unpadded, Identifier.ofWord]
  split
  · next hnumeric => exact Text.numeral_numeralValue_eq_dropZeros (hdigits.trans hnumeric)
  · rfl

private theorem isPrerelease_iff_not_isPadded (w : Word) : w.IsPrerelease ↔ ¬ w.IsPadded := by
  rw [isPrerelease_iff, IsPadded, Text.isNumeral, isDigits_chars]
  cases w.isNumeric <;> simp

theorem unpadded_eq_self_iff (w : Word) : w.unpadded = w ↔ ¬ w.IsPadded := by
  rw [← isPrerelease_iff_not_isPadded]
  constructor
  · intro h
    rw [← h]
    exact Identifier.isPrerelease_toWord _
  · exact Identifier.toWord_ofWord

theorem map_unpadded_eq_self_iff (words : List Word) :
    words.map unpadded = words ↔ ∀ w ∈ words, ¬ w.IsPadded := by
  induction words with
  | nil => simp
  | cons w words ih =>
    rw [List.map_cons, List.cons.injEq, List.forall_mem_cons, unpadded_eq_self_iff, ih]

end Word

theorem mapM_ofChars?_eq_some_iff {fields : List (List Char)} {words : List Word} :
    fields.mapM Word.ofChars? = some words ↔ fields = words.map Word.chars := by
  induction fields generalizing words with
  | nil => cases words <;> simp
  | cons field fields ih =>
    simp only [List.mapM_cons, bind, Option.bind_eq_some_iff, pure, Option.some.injEq,
      Word.ofChars?_eq_some_iff, ih]
    constructor
    · rintro ⟨w, rfl, words', rfl, rfl⟩
      rfl
    · intro h
      cases words with
      | nil => cases h
      | cons w words =>
        rw [List.map_cons, List.cons.injEq] at h
        exact ⟨w, h.1, words, h.2, rfl⟩

/-- The fields of a label are words exactly if the label is their join. -/
theorem fields_eq_map_chars_iff {label : List Char} {words : List Word} :
    Text.fields label = words.map Word.chars ↔
      words ≠ [] ∧ label = Text.joinFields (words.map Word.chars) := by
  constructor
  · intro h
    refine ⟨?_, ?_⟩
    · rintro rfl
      exact List.splitOn_ne_nil '.' label h
    · rw [← h, Text.joinFields_fields]
  · rintro ⟨hne, rfl⟩
    refine Text.fields_joinFields ?_ (by simpa using hne)
    intro cs hcs
    obtain ⟨w, -, rfl⟩ := List.mem_map.1 hcs
    exact w.notMem_chars (by decide)

namespace Outline

/-- A label has the words that are joined in it, if all of them are identifiers. -/
theorem words?_some_eq_some_iff {isIdentifier : List Char → Bool} {label : List Char}
    {words : List Word} :
    words? isIdentifier (some label) = some words ↔
      words ≠ [] ∧ label = Text.joinFields (words.map Word.chars) ∧
        ∀ w ∈ words, isIdentifier w.chars = true := by
  rw [words?, ← and_assoc, ← fields_eq_map_chars_iff]
  constructor
  · intro h
    split at h
    · next hall =>
      rw [mapM_ofChars?_eq_some_iff] at h
      rw [h, List.all_map, List.all_eq_true] at hall
      exact ⟨h, hall⟩
    · cases h
  · rintro ⟨hfields, hall⟩
    rw [if_pos, mapM_ofChars?_eq_some_iff]
    · exact hfields
    · rw [hfields, List.all_map, List.all_eq_true]
      exact hall

end Outline

/-! ### Numbers in labels -/

theorem readIdentifier_eq_ok_iff {w : Word} {i : Identifier} :
    readIdentifier w = .ok i ↔ w.IsShort ∧ i = .ofWord w := by
  rw [readIdentifier, Word.IsShort]
  split
  · next h =>
    simp only [Bool.and_eq_true, decide_eq_true_eq] at h
    refine ⟨nofun, fun ⟨hshort, _⟩ ↦ ?_⟩
    have := hshort h.1
    omega
  · next h =>
    simp only [Bool.and_eq_true, decide_eq_true_eq, not_and, Nat.not_lt] at h
    rw [Except.ok.injEq]
    exact ⟨fun hi ↦ ⟨h, hi.symm⟩, fun hi ↦ hi.2.symm⟩

/-- The words of a label are read as the identifiers that they denote, unless one is too long. -/
theorem readIdentifiers_eq_ok_iff {words : List Word} {identifiers : List Identifier} :
    readIdentifiers words = .ok identifiers ↔
      (∀ w ∈ words, w.IsShort) ∧ identifiers = words.map .ofWord :=
  Outcome.mapM_eq_ok_iff fun _ _ ↦ readIdentifier_eq_ok_iff

/-! ### Reading with positions -/

theorem readWord_eq_ok_iff {position : Nat} {cs : List Char} {w : Word} :
    readWord position cs = .ok w ↔ cs = w.chars := by
  rw [← Word.ofChars?_eq_some_iff, readWord]
  cases Word.ofChars? cs with
  | none => exact ⟨nofun, nofun⟩
  | some v => rw [Except.ok.injEq, Option.some.injEq]

theorem readPrereleaseWord_eq_ok_iff {position : Nat} {cs : List Char} {w : Word} :
    readPrereleaseWord position cs = .ok w ↔ cs = w.chars ∧ w.IsPrerelease := by
  rw [readPrereleaseWord, Outcome.bind_eq_ok_iff]
  constructor
  · rintro ⟨v, hv, h⟩
    rw [readWord_eq_ok_iff] at hv
    split at h
    · cases h
    · next hzero =>
      cases h
      refine ⟨hv, ?_⟩
      rw [Word.isPrerelease_iff, Text.isNumeral, Word.isDigits_chars]
      intro hnumeric
      rw [hnumeric, hv] at hzero
      simpa [hnumeric] using hzero
  · rintro ⟨rfl, hw⟩
    refine ⟨w, readWord_eq_ok_iff.2 rfl, ?_⟩
    rw [Word.isPrerelease_iff, Text.isNumeral, Word.isDigits_chars] at hw
    rw [if_neg]
    simp only [Bool.and_eq_true, not_and, Bool.not_eq_true]
    intro hnumeric
    have := hw hnumeric
    simpa [hnumeric] using this

/-- Fields are read as words if each of them is a word that the reader accepts. -/
theorem readFields_eq_ok_iff {read : Nat → List Char → Except Fault Word} {good : Word → Prop}
    (h : ∀ position cs w, read position cs = .ok w ↔ cs = w.chars ∧ good w) {position : Nat}
    {fields : List (List Char)} {words : List Word} :
    readFields read position fields = .ok words ↔
      fields = words.map Word.chars ∧ ∀ w ∈ words, good w := by
  induction fields generalizing position words with
  | nil =>
    rw [readFields, Except.ok.injEq]
    cases words <;> simp
  | cons field fields ih =>
    simp only [readFields, Outcome.bind_eq_ok_iff, ih, h, Except.ok.injEq]
    constructor
    · rintro ⟨w, ⟨rfl, hw⟩, words', ⟨rfl, hwords⟩, rfl⟩
      exact ⟨rfl, List.forall_mem_cons.2 ⟨hw, hwords⟩⟩
    · rintro ⟨hfields, hgood⟩
      cases words with
      | nil => cases hfields
      | cons w words =>
        rw [List.map_cons, List.cons.injEq] at hfields
        rw [List.forall_mem_cons] at hgood
        exact ⟨w, ⟨hfields.1, hgood.1⟩, words, ⟨hfields.2, hgood.2⟩, rfl⟩

/-- A pre-release label is read wherever it stands if the grammar admits it. -/
theorem readPrerelease_eq_ok_iff {position : Nat} {label : List Char} {words : List Word} :
    readPrerelease position label = .ok words ↔
      Outline.words? Outline.isPrereleaseField (some label) = some words := by
  rw [readPrerelease, readFields_eq_ok_iff fun _ _ _ ↦ readPrereleaseWord_eq_ok_iff,
    fields_eq_map_chars_iff, Outline.words?_some_eq_some_iff, and_assoc]
  exact Iff.rfl

/-- Build metadata is read wherever it stands if the grammar admits it. -/
theorem readBuild_eq_ok_iff {position : Nat} {label : List Char} {words : List Word} :
    readBuild position label = .ok words ↔
      Outline.words? isWord (some label) = some words := by
  have hread (position : Nat) (cs : List Char) (w : Word) :
      readWord position cs = .ok w ↔ cs = w.chars ∧ isWord w.chars = true := by
    rw [readWord_eq_ok_iff, w.valid]
    simp
  rw [readBuild, readFields_eq_ok_iff hread, fields_eq_map_chars_iff,
    Outline.words?_some_eq_some_iff, and_assoc]

end VersionRange
