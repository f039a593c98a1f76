import VersionRange.Proofs.Labels
import VersionRange.Version.Diagnosis

/-!
# What a fault says

Numbers and labels are examined field by field. Where a fault is found, the fields before it are in
order, and the fault is the first one of its own field. Where none is found, all are in order.
-/

namespace VersionRange

variable {position : Nat} {cs field : List Char} {fields : List (List Char)} {fault : Fault}

theorem of_firstFault_eq_some {allowed : Char → Bool} {reason : Char → Reason}
    (h : firstFault allowed reason position cs = some fault) :
    ∃ before c behind, cs = before ++ c :: behind ∧ (∀ d ∈ before, allowed d = true) ∧
      allowed c = false ∧ fault = ⟨position + before.length, reason c⟩ := by
  induction cs generalizing position with
  | nil => cases h
  | cons c cs ih =>
    rw [firstFault] at h
    split at h
    · next hc =>
      obtain ⟨before, d, behind, rfl, hbefore, hd, rfl⟩ := ih h
      refine ⟨c :: before, d, behind, rfl, List.forall_mem_cons.mpr ⟨hc, hbefore⟩, hd, ?_⟩
      rw [List.length_cons, Nat.add_assoc, Nat.add_comm 1]
    · next hc =>
      cases h
      exact ⟨[], c, cs, rfl, nofun, Bool.eq_false_iff.mpr hc, rfl⟩

theorem firstFault_eq_none_iff {allowed : Char → Bool} {reason : Char → Reason} :
    firstFault allowed reason position cs = none ↔ ∀ c ∈ cs, allowed c = true := by
  induction cs generalizing position with
  | nil => exact iff_of_true rfl nofun
  | cons c cs ih =>
    rw [firstFault, List.forall_mem_cons]
    split
    · next hc => rw [ih, and_iff_right hc]
    · next hc => exact iff_of_false nofun fun h ↦ hc h.1

/-! ### Numbers -/

namespace Diagnosis

/-- A number has no digits, or a character that is no digit, or a needless zero. -/
inductive NumberFault (part : CorePart) (position : Nat) : List Char → Fault → Prop
  | missingDigits : NumberFault part position [] ⟨position, .missingDigits part⟩
  | notNumeric {before behind : List Char} {c : Char} (digits : ∀ d ∈ before, d.isDigit = true)
      (other : c.isDigit = false) :
      NumberFault part position (before ++ c :: behind)
        ⟨position + before.length, .notNumeric part⟩
  | leadingZero {cs : List Char} (digits : Text.isDigits cs = true)
      (zero : Text.hasLeadingZero cs = true) :
      NumberFault part position cs ⟨position, .leadingZero part⟩

private theorem of_numberFault_eq_some {part : CorePart}
    (h : numberFault part position cs = some fault) : NumberFault part position cs fault := by
  rw [numberFault] at h
  split at h
  · next hempty =>
    rw [List.isEmpty_iff.mp hempty]
    cases h
    exact .missingDigits
  · next hne =>
    rcases Option.or_eq_some_iff.mp h with h | ⟨hnone, h⟩
    · obtain ⟨before, c, behind, rfl, hbefore, hc, rfl⟩ := of_firstFault_eq_some h
      exact .notNumeric hbefore hc
    · rw [firstFault_eq_none_iff] at hnone
      split at h
      · next hzero =>
        cases h
        refine .leadingZero ?_ hzero
        rw [Text.isDigits, Bool.and_eq_true, List.all_eq_true]
        exact ⟨by simpa using hne, hnone⟩
      · cases h

private theorem isNumeral_of_numberFault_eq_none {part : CorePart}
    (h : numberFault part position cs = none) : Text.isNumeral cs = true := by
  rw [numberFault] at h
  split at h
  · cases h
  · next hne =>
    rw [Option.or_eq_none_iff, firstFault_eq_none_iff] at h
    obtain ⟨hdigits, hzero⟩ := h
    split at hzero
    · cases hzero
    · next hzero' =>
      simp only [Text.isNumeral, Text.isDigits, Bool.and_eq_true, List.all_eq_true]
      exact ⟨⟨by simpa using hne, hdigits⟩, by simpa using hzero'⟩

/-- Behind numbers that are in order, one is at fault, or there are too many, or too few. -/
inductive NumbersFault (parts : List CorePart) (position : Nat) :
    List (List Char) → Fault → Prop
  | number {done behind : List (List Char)} {field : List Char} {part : CorePart} {fault : Fault}
      (before : ∀ digits ∈ done, Text.isNumeral digits = true) (count : done.length < parts.length)
      (h : NumberFault part (position + (Text.dotted done).length) field fault) :
      NumbersFault parts position (done ++ field :: behind) fault
  | tooManyNumbers {done behind : List (List Char)} {field : List Char}
      (before : ∀ digits ∈ done, Text.isNumeral digits = true)
      (count : done.length = parts.length) :
      NumbersFault parts position (done ++ field :: behind)
        ⟨position + (Text.dotted done).length - 1, .tooManyNumbers⟩
  | missingNumber {done : List (List Char)} {part : CorePart}
      (before : ∀ digits ∈ done, Text.isNumeral digits = true)
      (count : done.length < parts.length) :
      NumbersFault parts position done
        ⟨position + (Text.dotted done).length - 1, .missingNumber part⟩

theorem NumbersFault.cons {parts : List CorePart} {part : CorePart}
    (hfield : Text.isNumeral field = true)
    (h : NumbersFault parts (position + field.length + 1) fields fault) :
    NumbersFault (part :: parts) position (field :: fields) fault := by
  have hbefore {done : List (List Char)} (h : ∀ digits ∈ done, Text.isNumeral digits = true) :
      ∀ digits ∈ field :: done, Text.isNumeral digits = true :=
    List.forall_mem_cons.mpr ⟨hfield, h⟩
  have hlength (done : List (List Char)) :
      position + field.length + 1 + (Text.dotted done).length =
        position + (Text.dotted (field :: done)).length := by
    rw [Text.dotted_cons, List.length_append, List.length_cons]
    omega
  cases h with
  | number before count h =>
    rw [hlength] at h
    exact .number (hbefore before) (Nat.succ_lt_succ count) h
  | tooManyNumbers before count =>
    rw [hlength]
    exact .tooManyNumbers (hbefore before) (congrArg Nat.succ count)
  | missingNumber before count =>
    rw [hlength]
    exact .missingNumber (hbefore before) (Nat.succ_lt_succ count)

theorem of_numbersFault_eq_some {parts : List CorePart}
    (h : numbersFault parts position fields = some fault) :
    NumbersFault parts position fields fault := by
  have hnone : ∀ digits ∈ ([] : List (List Char)), Text.isNumeral digits = true := nofun
  induction parts generalizing position fields with
  | nil =>
    cases fields with
    | nil => cases h
    | cons field fields =>
      cases h
      exact NumbersFault.tooManyNumbers hnone rfl
  | cons part parts ih =>
    cases fields with
    | nil =>
      cases h
      exact .missingNumber hnone (Nat.succ_pos _)
    | cons field fields =>
      rcases Option.or_eq_some_iff.mp h with h | ⟨hfield, h⟩
      · exact NumbersFault.number hnone (Nat.succ_pos _) (of_numberFault_eq_some h)
      · exact (ih h).cons (isNumeral_of_numberFault_eq_none hfield)

theorem of_numbersFault_eq_none {parts : List CorePart}
    (h : numbersFault parts position fields = none) :
    fields.length = parts.length ∧ ∀ digits ∈ fields, Text.isNumeral digits = true := by
  induction parts generalizing position fields with
  | nil =>
    cases fields with
    | nil => exact ⟨rfl, nofun⟩
    | cons field fields => cases h
  | cons part parts ih =>
    cases fields with
    | nil => cases h
    | cons field fields =>
      obtain ⟨hfield, h⟩ := Option.or_eq_none_iff.mp h
      obtain ⟨hlength, hfields⟩ := ih h
      exact ⟨congrArg Nat.succ hlength,
        List.forall_mem_cons.mpr ⟨isNumeral_of_numberFault_eq_none hfield, hfields⟩⟩

end Diagnosis

/-! ### Labels -/

/-- A word is empty, or has a character that is not allowed in one. -/
inductive WordFault (position : Nat) : List Char → Fault → Prop
  | emptyIdentifier : WordFault position [] ⟨position, .emptyIdentifier⟩
  | unexpectedCharacter {before behind : List Char} {c : Char}
      (other : isIdentifierChar c = false) :
      WordFault position (before ++ c :: behind)
        ⟨position + before.length, .unexpectedCharacter c⟩

theorem of_readWord_eq_error (h : readWord position cs = .error fault) :
    WordFault position cs fault := by
  rw [readWord] at h
  split at h
  · cases h
  · next hword =>
    injection h with h
    subst h
    cases hfirst : firstFault isIdentifierChar .unexpectedCharacter position cs with
    | some found =>
      obtain ⟨before, c, behind, rfl, -, hc, rfl⟩ := of_firstFault_eq_some hfirst
      exact .unexpectedCharacter hc
    | none =>
      rw [firstFault_eq_none_iff] at hfirst
      by_cases hempty : cs = []
      · rw [hempty]
        exact .emptyIdentifier
      · have hvalid : isWord cs = true := by
          rw [isWord, Bool.and_eq_true, List.all_eq_true]
          exact ⟨by simpa using hempty, hfirst⟩
        rw [Word.ofChars?, dif_pos hvalid] at hword
        cases hword

theorem of_readPrereleaseWord_eq_error (h : readPrereleaseWord position cs = .error fault) :
    WordFault position cs fault ∨ (Text.isDigits cs = true ∧ Text.hasLeadingZero cs = true ∧
      fault = ⟨position, .identifierLeadingZero cs⟩) := by
  rcases Outcome.bind_eq_error_iff.mp h with h | ⟨w, hw, h⟩
  · exact .inl (of_readWord_eq_error h)
  · split at h
    · next hzero =>
      cases h
      obtain rfl := readWord_eq_ok_iff.mp hw
      rw [Bool.and_eq_true, ← Word.isDigits_chars] at hzero
      exact .inr ⟨hzero.1, hzero.2, rfl⟩
    · cases h

/-- The first field that is refused stands behind fields that are read. -/
theorem of_readFields_eq_error {read : Nat → List Char → Except Fault Word}
    (h : readFields read position fields = .error fault) :
    ∃ done field behind words, fields = done ++ field :: behind ∧
      readFields read position done = .ok words ∧
      read (position + (Text.dotted done).length) field = .error fault := by
  induction fields generalizing position with
  | nil => cases h
  | cons field fields ih =>
    rcases Outcome.bind_eq_error_iff.mp h with h | ⟨w, hw, h⟩
    · exact ⟨[], field, fields, [], rfl, rfl, h⟩
    · rcases Outcome.bind_eq_error_iff.mp h with h | ⟨_, _, h⟩
      · obtain ⟨done, bad, behind, words, rfl, hdone, hbad⟩ := ih h
        refine ⟨field :: done, bad, behind, w :: words, rfl, ?_, ?_⟩
        · rw [readFields, hw, hdone]
          rfl
        · rw [Text.dotted_cons, List.length_append, List.length_cons, ← hbad]
          congr 1
          omega
      · cases h

/-! ### Places in labels -/

theorem WordFault.position_le (h : WordFault position cs fault) :
    position ≤ fault.position ∧ fault.position ≤ position + cs.length := by
  cases h with
  | emptyIdentifier => exact ⟨Nat.le_refl _, Nat.le_add_right ..⟩
  | unexpectedCharacter =>
    simp only [List.length_append, List.length_cons]
    omega

theorem position_le_of_readPrereleaseWord (h : readPrereleaseWord position cs = .error fault) :
    position ≤ fault.position ∧ fault.position ≤ position + cs.length := by
  rcases of_readPrereleaseWord_eq_error h with h | ⟨-, -, rfl⟩
  · exact h.position_le
  · exact ⟨Nat.le_refl _, Nat.le_add_right ..⟩

/-- A fault in a label lies within the label, or at its end. -/
theorem position_le_of_readFields {read : Nat → List Char → Except Fault Word}
    (hread : ∀ position cs fault, read position cs = .error fault →
      position ≤ fault.position ∧ fault.position ≤ position + cs.length)
    (h : readFields read position (Text.fields cs) = .error fault) :
    position ≤ fault.position ∧ fault.position ≤ position + cs.length := by
  obtain ⟨done, field, behind, _, hfields, -, hfield⟩ := of_readFields_eq_error h
  obtain ⟨more, hcs⟩ := Text.exists_eq_of_fields hfields
  have hposition := hread _ _ _ hfield
  rw [hcs, List.length_append, List.length_append]
  omega

end VersionRange
