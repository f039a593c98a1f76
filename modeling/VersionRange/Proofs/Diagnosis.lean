import Mathlib.Data.List.Basic
import Mathlib.Data.List.TakeWhile
import VersionRange.Proofs.Faults
import VersionRange.Proofs.VersionText

/-!
# What a diagnosis says

Text that is refused as no version is diagnosed at the first character with which no version goes
on, or at its end if a version may go on there. A needless zero is an exception: it is shown where
the digits behind it begin, once it is clear that nothing but digits follows.
-/

namespace VersionRange

/-- A text has the form of a version. -/
def IsSemantic (cs : List Char) : Prop := ∃ o : Outline, o.IsValid ∧ cs = o.chars

/-- A text of the form of a version begins with `cs`. -/
def BeginsVersion (cs : List Char) : Prop := ∃ o : Outline, o.IsValid ∧ cs <+: o.chars

/-- A reason that speaks of a needless zero. -/
def Reason.isLeadingZero : Reason → Bool
  | leadingZero _ | identifierLeadingZero _ | rangeLeadingZero _ => true
  | _ => false

namespace Diagnosis

/-- What stands before the labels of a text. -/
def core (cs : List Char) : List Char := (Text.cutAt '-' (Text.cutAt '+' cs).1).1

/-- The pre-release label of a text, if it has one. -/
def prerelease? (cs : List Char) : Option (List Char) := (Text.cutAt '-' (Text.cutAt '+' cs).1).2

/-- A field between dots begins at a position of a text. -/
def FieldAt (text : List Char) (position : Nat) (field : List Char) : Prop :=
  ∃ done behind, Text.fields text = done ++ field :: behind ∧ position = (Text.dotted done).length

/-- A zero with more digits behind it begins at a position, and is the beginning of a whole number
or a whole identifier of the pre-release label. -/
structure ZeroAt (cs : List Char) (position : Nat) : Prop where
  zero : cs[position]? = some '0'
  digits : ∃ field, field <+: cs.drop position ∧ Text.isDigits field = true ∧ 2 ≤ field.length ∧
    (FieldAt (core cs) position field ∨ ∃ label offset, prerelease? cs = some label ∧
      FieldAt label offset field ∧ position = (core cs).length + 1 + offset)

/-- A fault tells what is wrong with a text. -/
structure Accurate (cs : List Char) (fault : Fault) : Prop where
  position_le : fault.position ≤ cs.length
  reason_ne : fault.reason ≠ .noMatch
  zero : fault.reason.isLeadingZero = true → ZeroAt cs fault.position
  refused : fault.reason.isLeadingZero = false → fault.position < cs.length →
    ¬ BeginsVersion (cs.take (fault.position + 1))
  ended : fault.position = cs.length → BeginsVersion cs

end Diagnosis

open Diagnosis

variable {cs before behind front label field core tail : List Char}
  {done fields numbers : List (List Char)} {words : List Word} {fault : Fault} {c : Char}
  {o : Outline} {reason : Reason} {position : Nat}

private theorem BeginsVersion.mono (h : BeginsVersion cs) (hbefore : before <+: cs) :
    BeginsVersion before := by
  obtain ⟨o, hvalid, hcs⟩ := h
  exact ⟨o, hvalid, hbefore.trans hcs⟩

/-- A fault is accurate at a character with which no version goes on, or at the end of a text with
which a version goes on. -/
theorem accurate_of_append (hreason : reason ≠ .noMatch) (hzero : reason.isLeadingZero = false)
    (hrefused : ∀ c rest, behind = c :: rest → ¬ BeginsVersion (before ++ [c]))
    (hended : behind = [] → BeginsVersion before) :
    Accurate (before ++ behind) ⟨before.length, reason⟩ where
  position_le := by
    rw [List.length_append]
    exact Nat.le_add_right ..
  reason_ne := hreason
  zero h := absurd h (by simp [hzero])
  refused _ hlt := by
    cases behind with
    | nil => simp at hlt
    | cons c rest =>
      rw [List.take_length_add_append]
      exact hrefused c rest rfl
  ended heq := by
    rw [List.length_append, Nat.left_eq_add, List.length_eq_zero_iff] at heq
    rw [heq, List.append_nil]
    exact hended heq

/-! ### Numbers -/

private theorem isDigit_of_isNumeral (h : Text.isNumeral cs = true) :
    ∀ c ∈ cs, c.isDigit = true := by
  simp only [Text.isNumeral, Text.isDigits, Bool.and_eq_true, List.all_eq_true] at h
  exact h.1.2

private theorem notMem_of_isDigit (h : ∀ c ∈ cs, c.isDigit = true) (hc : c.isDigit = false) :
    c ∉ cs := by
  intro hmem
  rw [h c hmem] at hc
  cases hc

private theorem mem_dotted (h : c ∈ Text.dotted done) : c = '.' ∨ ∃ field ∈ done, c ∈ field := by
  rw [Text.dotted, List.mem_flatMap] at h
  obtain ⟨field, hfield, hc⟩ := h
  rcases List.mem_append.mp hc with hc | hc
  · exact .inr ⟨field, hfield, hc⟩
  · exact .inl (List.mem_singleton.mp hc)

private theorem notMem_dotted (h : ∀ digits ∈ done, Text.isNumeral digits = true)
    (hc : c.isDigit = false) (hdot : c ≠ '.') : c ∉ Text.dotted done := by
  intro hmem
  rcases mem_dotted hmem with rfl | ⟨field, hfield, hmem⟩
  · exact hdot rfl
  · exact notMem_of_isDigit (isDigit_of_isNumeral (h field hfield)) hc hmem

private theorem notMem_joinFields (h : ∀ digits ∈ done, Text.isNumeral digits = true)
    (hc : c.isDigit = false) (hdot : c ≠ '.') : c ∉ Text.joinFields done := by
  intro hmem
  rcases Text.mem_joinFields hmem with rfl | ⟨field, hfield, hmem⟩
  · exact hdot rfl
  · exact notMem_of_isDigit (isDigit_of_isNumeral (h field hfield)) hc hmem

private theorem notMem_dot (h : ∀ digits ∈ done, Text.isNumeral digits = true) :
    ∀ digits ∈ done, '.' ∉ digits :=
  fun digits hdigits ↦ notMem_of_isDigit (isDigit_of_isNumeral (h digits hdigits)) (by decide)

/-- The numbers of a version stand before its first hyphen or plus sign. -/
theorem core_eq (h : o.IsValid) (heq : o.chars = before ++ behind) (hhyphen : '-' ∉ before)
    (hplus : '+' ∉ before) : Text.joinFields [o.major, o.minor, o.patch] =
      before ++ (behind.takeWhile (· != '+')).takeWhile (· != '-') := by
  have hhead := Outline.cutAt_chars h
  have hcore := Outline.cutAt_core h
  rw [Text.cutAt, Prod.mk.injEq] at hhead hcore
  obtain ⟨hcore, -⟩ := hcore
  rw [← hhead.1, heq, List.takeWhile_append_of_pos (Text.bne_of_notMem hplus),
    List.takeWhile_append_of_pos (Text.bne_of_notMem hhyphen)] at hcore
  exact hcore.symm

/-- Numbers with a dot behind each are the first numbers of every version that begins with them. -/
theorem numbers_eq (hdone : ∀ digits ∈ done, Text.isNumeral digits = true) (h : o.IsValid)
    (heq : o.chars = Text.dotted done ++ behind) :
    [o.major, o.minor, o.patch] =
      done ++ Text.fields ((behind.takeWhile (· != '+')).takeWhile (· != '-')) := by
  rw [← Outline.fields_core h, core_eq h heq (notMem_dotted hdone (by decide) (by decide))
    (notMem_dotted hdone (by decide) (by decide)), Text.fields_dotted_append (notMem_dot hdone)]

/-- Another number has to follow a dot. -/
theorem not_begins_missingDigits (hdone : ∀ digits ∈ done, Text.isNumeral digits = true)
    (hc : c = '.' ∨ c = '-' ∨ c = '+') : ¬ BeginsVersion (Text.dotted done ++ [c]) := by
  rintro ⟨o, hvalid, rest, heq⟩
  rw [List.append_assoc] at heq
  have hnumbers := numbers_eq hdone hvalid heq.symm
  have hempty : [] ∈ [o.major, o.minor, o.patch] := by
    rw [hnumbers]
    refine List.mem_append_right _ ?_
    rcases hc with rfl | rfl | rfl
    · simp [Text.fields, List.splitOn_cons_eq_if_modifyHead]
    · simp [Text.fields]
    · simp [Text.fields]
  exact absurd (hvalid.1 [] hempty) (by decide)

/-- No version has another character than digits in a number. -/
theorem not_begins_notNumeric (hdone : ∀ digits ∈ done, Text.isNumeral digits = true)
    (hbefore : ∀ d ∈ before, d.isDigit = true) (hc : c.isDigit = false) (hdot : c ≠ '.')
    (hhyphen : c ≠ '-') (hplus : c ≠ '+') :
    ¬ BeginsVersion (Text.dotted done ++ before ++ [c]) := by
  rintro ⟨o, hvalid, rest, heq⟩
  rw [List.append_assoc] at heq
  have hnotMem {d : Char} (hd : d.isDigit = false) (hdot : d ≠ '.') :
      d ∉ Text.dotted done ++ before := by
    rw [List.mem_append, not_or]
    exact ⟨notMem_dotted hdone hd hdot, notMem_of_isDigit hbefore hd⟩
  have hcore := core_eq hvalid heq.symm (hnotMem (by decide) (by decide))
    (hnotMem (by decide) (by decide))
  have hmem : c ∈ Text.joinFields [o.major, o.minor, o.patch] := by
    rw [hcore]
    simp [hhyphen, hplus]
  rcases Outline.mem_core hvalid hmem with rfl | hdigit
  · exact hdot rfl
  · rw [hc] at hdigit
    cases hdigit

/-- No version goes on with a dot behind three numbers. -/
theorem not_begins_tooManyNumbers (hdone : ∀ digits ∈ done, Text.isNumeral digits = true)
    (hlength : done.length = 3) : ¬ BeginsVersion (Text.dotted done) := by
  rintro ⟨o, hvalid, rest, heq⟩
  have hnumbers := congrArg List.length (numbers_eq hdone hvalid heq.symm)
  rw [List.length_append, hlength] at hnumbers
  have hpos := List.length_pos_iff.mpr
    (List.splitOn_ne_nil '.' ((rest.takeWhile (· != '+')).takeWhile (· != '-')))
  simp only [List.length_cons, List.length_nil, Text.fields] at hnumbers
  omega

/-- No version has a label behind fewer than three numbers. -/
theorem not_begins_missingNumber (hdone : ∀ digits ∈ done, Text.isNumeral digits = true)
    (hne : done ≠ []) (hlength : done.length < 3) (hc : c = '-' ∨ c = '+') :
    ¬ BeginsVersion (Text.joinFields done ++ [c]) := by
  rintro ⟨o, hvalid, rest, heq⟩
  rw [List.append_assoc] at heq
  have hcore := core_eq hvalid heq.symm (notMem_joinFields hdone (by decide) (by decide))
    (notMem_joinFields hdone (by decide) (by decide))
  have hnumbers : [o.major, o.minor, o.patch] = done := by
    rw [← Outline.fields_core hvalid, hcore]
    rcases hc with rfl | rfl
    · simp [Text.fields_joinFields (notMem_dot hdone) hne]
    · simp [Text.fields_joinFields (notMem_dot hdone) hne]
  rw [← hnumbers] at hlength
  exact absurd hlength (Nat.lt_irrefl 3)

private theorem begins_of_numbers (hdone : ∀ digits ∈ done, Text.isNumeral digits = true)
    (hlength : done.length = 3) : BeginsVersion (Text.joinFields done) := by
  obtain ⟨major, minor, patch, rfl⟩ := List.length_eq_three.mp hlength
  refine ⟨⟨major, minor, patch, [], []⟩, ⟨hdone, List.forall_mem_nil _⟩, ?_⟩
  rw [Outline.chars, List.append_assoc]
  exact List.prefix_append ..

/-- A version may go on behind a dot that ends its first or its second number. -/
theorem begins_dotted (hdone : ∀ digits ∈ done, Text.isNumeral digits = true)
    (hlength : done.length < 3) : BeginsVersion (Text.dotted done) := by
  obtain ⟨k, hk⟩ := Nat.exists_eq_add_of_lt hlength
  have hnumbers : BeginsVersion (Text.joinFields (done ++ List.replicate (k + 1) ['0'])) := by
    refine begins_of_numbers ?_ (by simp; omega)
    rw [List.forall_mem_append]
    refine ⟨hdone, fun digits hdigits ↦ ?_⟩
    rw [List.eq_of_mem_replicate hdigits]
    decide
  refine hnumbers.mono ?_
  rw [List.replicate_succ, Text.joinFields_append]
  exact List.prefix_append ..

/-! ### Labels -/

/-- A text introduces a label. In every version that begins with it the words of the label follow,
up to a character that stands in no label of this kind, and with good words behind it it begins a
version. -/
structure Introduces (front : List Char) (inside : Char → Bool) (good : Word → Prop) : Prop where
  inside_of : ∀ c, c = '.' ∨ isIdentifierChar c = true → inside c = true
  words_of : ∀ o : Outline, o.IsValid → ∀ text, o.chars = front ++ text →
    ∃ words : List Word, Text.fields (text.takeWhile inside) = words.map Word.chars
  good_zero : good (.ofNat 0)
  begins_of : ∀ words : List Word, (∀ w ∈ words, good w) → words ≠ [] →
    BeginsVersion (front ++ Text.joinFields (words.map Word.chars))

private theorem mem_dotted_chars (h : c ∈ Text.dotted (words.map Word.chars)) :
    c = '.' ∨ isIdentifierChar c = true := by
  rcases mem_dotted h with hdot | ⟨field, hfield, hc⟩
  · exact .inl hdot
  · obtain ⟨w, -, rfl⟩ := List.mem_map.mp hfield
    have hvalid := w.valid
    rw [isWord, Bool.and_eq_true, List.all_eq_true] at hvalid
    exact .inr (hvalid.2 c hc)

namespace Introduces

variable {inside : Char → Bool} {good : Word → Prop}

/-- Another word has to follow a dot, or the mark of a label. -/
theorem not_begins_emptyIdentifier (h : Introduces front inside good)
    (hc : c = '.' ∨ inside c = false) :
    ¬ BeginsVersion (front ++ Text.dotted (words.map Word.chars) ++ [c]) := by
  rintro ⟨o, hvalid, rest, heq⟩
  rw [List.append_assoc, List.append_assoc] at heq
  obtain ⟨words', hwords⟩ := h.words_of o hvalid _ heq.symm
  rw [List.takeWhile_append_of_pos fun d hd ↦ h.inside_of d (mem_dotted_chars hd),
    Text.fields_dotted_append] at hwords
  · have hempty : [] ∈ words'.map Word.chars := by
      rw [← hwords]
      refine List.mem_append_right _ ?_
      rcases hc with rfl | hc
      · simp [Text.fields, List.splitOn_cons_eq_if_modifyHead, h.inside_of '.' (.inl rfl)]
      · simp [Text.fields, hc]
    obtain ⟨w, -, hw⟩ := List.mem_map.mp hempty
    exact w.chars_ne_nil hw
  · intro field hfield
    obtain ⟨w, -, rfl⟩ := List.mem_map.mp hfield
    exact w.notMem_chars (by decide)

/-- No version has a character in a label that stands in no word. -/
theorem not_begins_unexpectedCharacter (h : Introduces front inside good)
    (hbefore : ∀ d ∈ before, inside d = true) (hc : isIdentifierChar c = false) (hdot : c ≠ '.')
    (hinside : inside c = true) : ¬ BeginsVersion (front ++ before ++ [c]) := by
  rintro ⟨o, hvalid, rest, heq⟩
  rw [List.append_assoc, List.append_assoc] at heq
  obtain ⟨words, hwords⟩ := h.words_of o hvalid _ heq.symm
  rw [List.takeWhile_append_of_pos hbefore, List.singleton_append,
    List.takeWhile_cons_of_pos hinside] at hwords
  have hmem : c ∈ Text.joinFields (words.map Word.chars) := by
    rw [← hwords, Text.joinFields_fields]
    simp
  rcases Text.mem_joinFields hmem with hmem | ⟨field, hfield, hmem⟩
  · exact hdot hmem
  · obtain ⟨w, -, rfl⟩ := List.mem_map.mp hfield
    exact w.notMem_chars hc hmem

/-- A version may go on behind a dot in a label, and behind the mark of a label. -/
theorem begins_dotted (h : Introduces front inside good) (hgood : ∀ w ∈ words, good w) :
    BeginsVersion (front ++ Text.dotted (words.map Word.chars)) := by
  have hbegins := h.begins_of (words ++ [.ofNat 0])
    (List.forall_mem_append.mpr ⟨hgood, by simp [h.good_zero]⟩) (by simp)
  refine hbegins.mono ?_
  rw [List.map_append, List.map_singleton, Text.joinFields_append, ← List.append_assoc]
  exact List.prefix_append ..

/-- A fault in a word of a label is accurate. -/
theorem accurate_of_wordFault (h : Introduces front inside good)
    (hfields : Text.fields label = words.map Word.chars ++ field :: fields)
    (hgood : ∀ w ∈ words, good w) (hlabel : ∀ d ∈ label, inside d = true)
    (htail : ∀ d rest, tail = d :: rest → inside d = false)
    (hfault : WordFault (front.length + (Text.dotted (words.map Word.chars)).length) field fault) :
    Accurate (front ++ (label ++ tail)) fault := by
  rw [← List.length_append] at hfault
  cases hfault with
  | emptyIdentifier =>
    have hjoin := Text.joinFields_fields label
    rw [hfields, Text.joinFields_append] at hjoin
    rw [← hjoin, List.append_assoc, ← List.append_assoc front]
    refine accurate_of_append nofun rfl ?_ fun _ ↦ h.begins_dotted hgood
    intro c rest heq
    refine h.not_begins_emptyIdentifier ?_
    rcases Text.joinFields_cons [] fields with hlast | ⟨more, hmore⟩
    · rw [hlast, List.nil_append] at heq
      exact .inr (htail c rest heq)
    · rw [hmore] at heq
      cases heq
      exact .inl rfl
  | @unexpectedCharacter before behind c hc =>
    have hmem : before ++ c :: behind ∈ Text.fields label := by
      rw [hfields]
      simp
    obtain ⟨more, hjoin⟩ := Text.exists_eq_of_fields hfields
    have hdot : c ≠ '.' := by
      rintro rfl
      exact Text.notMem_fields hmem (by simp)
    rw [hjoin] at hlabel
    have hcs : front ++ (label ++ tail) = front ++ Text.dotted (words.map Word.chars) ++ before ++
        c :: (behind ++ (more ++ tail)) := by
      rw [hjoin]
      simp
    rw [hcs, ← List.length_append]
    refine accurate_of_append nofun rfl ?_ nofun
    intro d rest heq
    cases heq
    rw [List.append_assoc front]
    refine h.not_begins_unexpectedCharacter (fun d hd ↦ ?_) hc hdot (hlabel c (by simp))
    exact hlabel d (by rcases List.mem_append.mp hd with hd | hd <;> simp [hd])

end Introduces

private theorem fields_of_label_eq_some (h : Outline.label words = some label) :
    Text.fields label = words.map Word.chars := by
  rw [Outline.label] at h
  split at h
  · cases h
  · next hne =>
    cases h
    exact fields_eq_map_chars_iff.mpr ⟨by simpa using hne, rfl⟩

private theorem label_eq_some (hne : words ≠ []) :
    Outline.label words = some (Text.joinFields (words.map Word.chars)) :=
  if_neg (by simpa using hne)

/-- A hyphen behind three numbers introduces a pre-release label, which a plus sign ends. -/
theorem introduces_prerelease (hnumbers : ∀ digits ∈ numbers, Text.isNumeral digits = true)
    (hlength : numbers.length = 3) :
    Introduces (Text.joinFields numbers ++ ['-']) (· != '+') Word.IsPrerelease where
  inside_of c hc := by
    rcases hc with rfl | hc
    · decide
    · rw [bne_iff_ne]
      rintro rfl
      exact absurd hc (by decide)
  words_of o hvalid text heq := by
    have hhyphen : '-' ∉ Text.joinFields numbers :=
      notMem_joinFields hnumbers (by decide) (by decide)
    have hplus : '+' ∉ Text.joinFields numbers ++ ['-'] := by
      simpa using notMem_joinFields hnumbers (by decide) (by decide)
    have hhead := Outline.cutAt_chars hvalid
    have hcore := Outline.cutAt_core hvalid
    rw [Text.cutAt, Prod.mk.injEq, heq, List.takeWhile_append_of_pos (Text.bne_of_notMem hplus)]
      at hhead
    rw [← hhead.1, List.append_assoc, List.singleton_append, Text.cutAt_append hhyphen,
      Prod.mk.injEq] at hcore
    exact ⟨o.prerelease, fields_of_label_eq_some hcore.2.symm⟩
  good_zero := by
    rw [Word.isPrerelease_iff]
    decide
  begins_of words hgood hne := by
    obtain ⟨major, minor, patch, rfl⟩ := List.length_eq_three.mp hlength
    refine ⟨⟨major, minor, patch, words, []⟩, ⟨hnumbers, hgood⟩, ?_⟩
    rw [Outline.chars, label_eq_some hne]
    simp

/-- A plus sign behind a version without build metadata introduces build metadata. -/
theorem introduces_build (hvalid : o.IsValid) (hbuild : o.build = []) :
    Introduces (o.chars ++ ['+']) (fun _ ↦ true) fun _ ↦ True where
  inside_of _ _ := rfl
  words_of o' hvalid' text heq := by
    have hcut := Outline.cutAt_chars hvalid'
    have hplus : '+' ∉ o.chars := by
      rw [Outline.chars, hbuild]
      simpa [Outline.label] using Text.notMem_of_cutAt (Outline.cutAt_chars hvalid)
    rw [heq, List.append_assoc, List.singleton_append, Text.cutAt_append hplus,
      Prod.mk.injEq] at hcut
    rw [List.takeWhile_eq_self_iff.mpr (by simp)]
    exact ⟨o'.build, fields_of_label_eq_some hcut.2.symm⟩
  good_zero := trivial
  begins_of words _ hne := by
    refine ⟨{ o with build := words }, hvalid, ?_⟩
    have hnone : Outline.label [] = none := rfl
    rw [Outline.chars, Outline.chars, hbuild, label_eq_some hne, hnone]
    simp

/-! ### Needless zeros -/

/-- A zero at the beginning of a field stands where the field begins. -/
theorem zeroAt_of_field (hcs : cs = front ++ (label ++ tail))
    (hfields : Text.fields label = done ++ field :: fields) (hdigits : Text.isDigits field = true)
    (hzero : Text.hasLeadingZero field = true)
    (hplace : FieldAt (Diagnosis.core cs) (front.length + (Text.dotted done).length) field ∨
      ∃ label offset, prerelease? cs = some label ∧ FieldAt label offset field ∧
        front.length + (Text.dotted done).length = (Diagnosis.core cs).length + 1 + offset) :
    ZeroAt cs (front.length + (Text.dotted done).length) := by
  obtain ⟨more, hlabel⟩ := Text.exists_eq_of_fields hfields
  have hstarts : field <+: cs.drop (front.length + (Text.dotted done).length) := by
    rw [hcs, hlabel, List.append_assoc, ← List.append_assoc front, ← List.length_append,
      List.drop_left, List.append_assoc]
    exact List.prefix_append ..
  obtain ⟨d, rest, rfl⟩ := Text.hasLeadingZero_iff.mp hzero
  refine ⟨?_, _, hstarts, hdigits, by simp, hplace⟩
  obtain ⟨more, hmore⟩ := hstarts
  have hhead := congrArg List.head? hmore
  rw [List.head?_drop] at hhead
  exact hhead.symm

private theorem accurate_of_zeroAt (h : ZeroAt cs position)
    (hreason : reason.isLeadingZero = true) : Accurate cs ⟨position, reason⟩ where
  position_le := Nat.le_of_lt (List.getElem?_eq_some_iff.mp h.zero).1
  reason_ne := by
    rintro rfl
    cases hreason
  zero _ := h
  refused hother := by
    rw [hreason] at hother
    cases hother
  ended heq := absurd heq (Nat.ne_of_lt (List.getElem?_eq_some_iff.mp h.zero).1)

/-! ### Diagnoses -/

/-- An empty text is the beginning of a version. -/
theorem accurate_empty : Accurate [] ⟨0, .empty⟩ where
  position_le := Nat.le_refl 0
  reason_ne := nofun
  zero := nofun
  refused _ hlt := absurd hlt (Nat.lt_irrefl 0)
  ended _ := by
    have hbegins : BeginsVersion (Text.dotted []) :=
      begins_dotted (List.forall_mem_nil _) (Nat.succ_pos 2)
    exact hbegins

/-- A character that stands in no version is an accurate fault. -/
theorem accurate_of_firstFault
    (h : firstFault isVersionChar .unexpectedCharacter 0 cs = some fault) : Accurate cs fault := by
  obtain ⟨before, c, behind, rfl, -, hc, rfl⟩ := of_firstFault_eq_some h
  rw [Nat.zero_add]
  refine accurate_of_append nofun rfl ?_ nofun
  rintro d _ heq ⟨o, hvalid, hstarts⟩
  cases heq
  have hmem : c ∈ o.chars := hstarts.subset (by simp)
  have hversion : isVersionChar c = true := Outline.isVersionChar_of_mem_chars hvalid hmem
  rw [hc] at hversion
  cases hversion

/-- A fault in a number behind other numbers is accurate. -/
theorem accurate_of_numberFault {part : CorePart} (hcore : Diagnosis.core (core ++ tail) = core)
    (hchars : ∀ d ∈ core, d ≠ '-' ∧ d ≠ '+')
    (htail : ∀ d rest, tail = d :: rest → d = '-' ∨ d = '+')
    (hfields : Text.fields core = done ++ field :: fields)
    (hdone : ∀ digits ∈ done, Text.isNumeral digits = true) (hcount : done.length < 3)
    (hfault : NumberFault part (Text.dotted done).length field fault) :
    Accurate (core ++ tail) fault := by
  have hjoin := Text.joinFields_fields core
  rw [hfields, Text.joinFields_append] at hjoin
  cases hfault with
  | missingDigits =>
    rw [← hjoin, List.append_assoc]
    refine accurate_of_append nofun rfl ?_ fun _ ↦ begins_dotted hdone hcount
    intro c rest heq
    refine not_begins_missingDigits hdone ?_
    rcases Text.joinFields_cons [] fields with hlast | ⟨more, hmore⟩
    · rw [hlast] at heq
      exact .inr (htail c rest heq)
    · rw [hmore] at heq
      cases heq
      exact .inl rfl
  | @notNumeric before more c hdigits hc =>
    have hmem : before ++ c :: more ∈ Text.fields core := by
      rw [hfields]
      simp
    have hdot : c ≠ '.' := by
      rintro rfl
      exact Text.notMem_fields hmem (by simp)
    obtain ⟨rest, hrest⟩ := Text.exists_joinFields_cons (before ++ c :: more) fields
    obtain rfl : core = Text.dotted done ++ before ++ c :: (more ++ rest) := by
      rw [← hjoin, hrest]
      simp
    rw [List.append_assoc, ← List.length_append]
    refine accurate_of_append nofun rfl ?_ nofun
    intro d _ heq
    cases heq
    have hother := hchars c (by simp)
    exact not_begins_notNumeric hdone hdigits hc hdot hother.1 hother.2
  | leadingZero hdigits hzero =>
    have hzeroAt := zeroAt_of_field (List.nil_append (core ++ tail)).symm hfields hdigits hzero
      (.inl ⟨done, fields, by rw [hcore, hfields], Nat.zero_add _⟩)
    rw [List.length_nil, Nat.zero_add] at hzeroAt
    exact accurate_of_zeroAt hzeroAt rfl

/-- A fault in the numbers is accurate. -/
theorem accurate_of_numbersFault (hcore : Diagnosis.core (core ++ tail) = core)
    (hchars : ∀ d ∈ core, d ≠ '-' ∧ d ≠ '+')
    (htail : ∀ d rest, tail = d :: rest → d = '-' ∨ d = '+')
    (hfault : NumbersFault CorePart.all 0 (Text.fields core) fault) :
    Accurate (core ++ tail) fault := by
  have hjoin := Text.joinFields_fields core
  have hne : Text.fields core ≠ [] := List.splitOn_ne_nil '.' core
  generalize hfields : Text.fields core = fields at hfault hjoin hne
  cases hfault with
  | number hbefore hcount h =>
    rw [Nat.zero_add] at h
    exact accurate_of_numberFault hcore hchars htail hfields hbefore hcount h
  | @tooManyNumbers done behind field hbefore hcount =>
    have hdone : done ≠ [] := by
      rintro rfl
      cases hcount
    rw [Text.joinFields_append] at hjoin
    have hdotted := Text.dotted_eq_append_dot hdone
    have hlength : 0 + (Text.dotted done).length - 1 = (Text.joinFields done).length := by
      rw [hdotted]
      simp
    rw [hlength, ← hjoin, hdotted, List.append_assoc, List.append_assoc]
    refine accurate_of_append nofun rfl ?_ nofun
    intro c _ heq
    cases heq
    rw [← hdotted]
    exact not_begins_tooManyNumbers hbefore hcount
  | missingNumber hbefore hcount =>
    have hdotted := Text.dotted_eq_append_dot hne
    have hlength : 0 + (Text.dotted fields).length - 1 = core.length := by
      rw [hdotted, hjoin]
      simp
    rw [hlength]
    refine accurate_of_append nofun rfl ?_ fun _ ↦ ?_
    · intro c rest heq
      rw [← hjoin]
      exact not_begins_missingNumber hbefore hne hcount (htail c rest heq)
    · refine (begins_dotted hbefore hcount).mono ?_
      rw [hdotted, hjoin]
      exact List.prefix_append ..

/-- A fault in a pre-release label behind three numbers is accurate. -/
theorem accurate_of_readPrerelease (hcs : cs = core ++ '-' :: (label ++ tail))
    (hcore : Diagnosis.core cs = core) (hprerelease : prerelease? cs = some label)
    (hnumbers : ∀ digits ∈ Text.fields core, Text.isNumeral digits = true)
    (hlength : (Text.fields core).length = 3) (hlabel : '+' ∉ label)
    (htail : ∀ d rest, tail = d :: rest → d = '+')
    (h : readPrerelease (core.length + 1) label = .error fault) : Accurate cs fault := by
  have hintroduces := introduces_prerelease hnumbers hlength
  rw [Text.joinFields_fields] at hintroduces
  have hcs' : cs = core ++ ['-'] ++ (label ++ tail) := by
    rw [hcs]
    simp
  have hfront : core.length + 1 = (core ++ ['-']).length := by simp
  obtain ⟨done, field, behind, words, hfields, hdone, hfield⟩ := of_readFields_eq_error h
  rw [readFields_eq_ok_iff fun _ _ _ ↦ readPrereleaseWord_eq_ok_iff] at hdone
  obtain ⟨rfl, hgood⟩ := hdone
  rw [hfront] at hfield
  rcases of_readPrereleaseWord_eq_error hfield with hword | ⟨hdigits, hzero, rfl⟩
  · rw [hcs']
    refine hintroduces.accurate_of_wordFault hfields hgood ?_ ?_ hword
    · exact Text.bne_of_notMem hlabel
    · intro d rest heq
      rw [htail d rest heq]
      rfl
  · refine accurate_of_zeroAt (zeroAt_of_field hcs' hfields hdigits hzero (.inr ?_)) rfl
    exact ⟨label, _, hprerelease, ⟨_, behind, hfields, rfl⟩, by rw [hcore, hfront]⟩

/-- A fault in build metadata behind a version without it is accurate. -/
theorem accurate_of_readBuild (hvalid : o.IsValid) (hbuild : o.build = [])
    (h : readBuild (o.chars.length + 1) label = .error fault) :
    Accurate (o.chars ++ '+' :: label) fault := by
  have hfront : o.chars.length + 1 = (o.chars ++ ['+']).length := by simp
  have hcs : o.chars ++ '+' :: label = o.chars ++ ['+'] ++ (label ++ []) := by simp
  obtain ⟨done, field, behind, words, hfields, hdone, hfield⟩ := of_readFields_eq_error h
  have hread (position : Nat) (cs : List Char) (w : Word) :
      readWord position cs = .ok w ↔ cs = w.chars ∧ True := by
    rw [readWord_eq_ok_iff, and_true]
  rw [readFields_eq_ok_iff hread] at hdone
  obtain ⟨rfl, hgood⟩ := hdone
  rw [hfront] at hfield
  rw [hcs]
  exact (introduces_build hvalid hbuild).accurate_of_wordFault hfields hgood (fun _ _ ↦ rfl) nofun
    (of_readWord_eq_error hfield)

private theorem exists_words_of_labelFault {read : Nat → List Char → Except Fault (List Word)}
    {isIdentifier : List Char → Bool} {label : Option (List Char)}
    (hread : ∀ position label words, read position label = .ok words ↔
      Outline.words? isIdentifier (some label) = some words)
    (h : labelFault read position label = none) :
    ∃ words, Outline.words? isIdentifier label = some words := by
  cases label with
  | none => exact ⟨[], rfl⟩
  | some label =>
    rw [labelFault] at h
    split at h
    · next words hwords => exact ⟨words, (hread _ _ _).mp hwords⟩
    · cases h

private theorem exists_of_labelFault {read : Nat → List Char → Except Fault (List Word)}
    {label : Option (List Char)} (h : labelFault read position label = some fault) :
    ∃ text, label = some text ∧ read position text = .error fault := by
  cases label with
  | none => cases h
  | some text =>
    rw [labelFault] at h
    split at h
    · cases h
    · next hread =>
      cases h
      exact ⟨text, rfl, hread⟩

/-- Where neither the numbers nor the pre-release label are at fault, what stands before the build
metadata is a version. -/
theorem exists_outline {prerelease : Option (List Char)} {start offset : Nat}
    (hnumbers : numbersFault CorePart.all start (Text.fields core) = none)
    (hprerelease : labelFault readPrerelease offset prerelease = none) :
    ∃ o : Outline, o.IsValid ∧ o.build = [] ∧ o.chars = core ++ prerelease.elim [] ('-' :: ·) := by
  obtain ⟨hlength, hnumerals⟩ := of_numbersFault_eq_none hnumbers
  obtain ⟨words, hwords⟩ :=
    exists_words_of_labelFault (fun _ _ _ ↦ readPrerelease_eq_ok_iff) hprerelease
  obtain ⟨rfl, hgood⟩ := Outline.words?_eq_some_iff.mp hwords
  have hjoin := Text.joinFields_fields core
  obtain ⟨major, minor, patch, hfields⟩ := List.length_eq_three.mp hlength
  rw [hfields] at hnumerals hjoin
  refine ⟨⟨major, minor, patch, words, []⟩, ⟨hnumerals, hgood⟩, rfl, ?_⟩
  rw [Outline.chars, ← hjoin]
  exact List.append_nil _

/-- A text consists of its numbers, a pre-release label and build metadata, or lacks one or both of
them. -/
structure Divides (cs core : List Char) (prerelease build : Option (List Char)) : Prop where
  text : cs = core ++ prerelease.elim [] ('-' :: ·) ++ build.elim [] ('+' :: ·)
  hyphen : '-' ∉ core
  plus : '+' ∉ core ++ prerelease.elim [] ('-' :: ·)
  core_eq : Diagnosis.core cs = core
  prerelease_eq : prerelease? cs = prerelease

namespace Divides

variable {prerelease build : Option (List Char)} {head : List Char} {start offset : Nat}

private theorem of_cutAt (hbuild : Text.cutAt '+' cs = (head, build))
    (hprerelease : Text.cutAt '-' head = (core, prerelease)) :
    Divides cs core prerelease build where
  text := by rw [← Text.eq_of_cutAt hprerelease, ← Text.eq_of_cutAt hbuild]
  hyphen := Text.notMem_of_cutAt hprerelease
  plus := by
    rw [← Text.eq_of_cutAt hprerelease]
    exact Text.notMem_of_cutAt hbuild
  core_eq := by rw [Diagnosis.core, hbuild, hprerelease]
  prerelease_eq := by rw [prerelease?, hbuild, hprerelease]

private theorem accurate_of_numbersFault (h : Divides cs core prerelease build)
    (hfault : numbersFault CorePart.all 0 (Text.fields core) = some fault) :
    Accurate cs fault := by
  have htext := h.text
  rw [List.append_assoc] at htext
  have hcore := h.core_eq
  rw [htext] at hcore ⊢
  refine VersionRange.accurate_of_numbersFault hcore ?_ ?_ (of_numbersFault_eq_some hfault)
  · intro d hd
    constructor
    · rintro rfl
      exact h.hyphen hd
    · rintro rfl
      exact h.plus (List.mem_append_left _ hd)
  · intro d rest heq
    cases prerelease with
    | some label =>
      cases heq
      exact .inl rfl
    | none =>
      cases build with
      | some label =>
        cases heq
        exact .inr rfl
      | none => cases heq

private theorem accurate_of_prereleaseFault (h : Divides cs core prerelease build)
    (hnumbers : numbersFault CorePart.all start (Text.fields core) = none)
    (hfault : labelFault readPrerelease (core.length + 1) prerelease = some fault) :
    Accurate cs fault := by
  obtain ⟨hlength, hnumerals⟩ := of_numbersFault_eq_none hnumbers
  obtain ⟨label, rfl, hread⟩ := exists_of_labelFault hfault
  have htext := h.text
  have hplus := h.plus
  rw [Option.elim_some, List.append_assoc, List.cons_append] at htext
  rw [Option.elim_some, List.mem_append, not_or, List.mem_cons, not_or] at hplus
  refine accurate_of_readPrerelease htext h.core_eq h.prerelease_eq hnumerals hlength hplus.2.2 ?_
    hread
  intro d rest heq
  cases build with
  | some label =>
    cases heq
    rfl
  | none => cases heq

private theorem accurate_of_buildFault (h : Divides cs core prerelease build)
    (hnumbers : numbersFault CorePart.all start (Text.fields core) = none)
    (hprerelease : labelFault readPrerelease offset prerelease = none)
    (hfault : labelFault readBuild
      ((core ++ prerelease.elim [] ('-' :: ·)).length + 1) build = some fault) :
    Accurate cs fault := by
  obtain ⟨o, hvalid, hempty, hchars⟩ := exists_outline hnumbers hprerelease
  obtain ⟨label, rfl, hread⟩ := exists_of_labelFault hfault
  have htext := h.text
  rw [← hchars] at hread
  rw [Option.elim_some, ← hchars] at htext
  rw [htext]
  exact accurate_of_readBuild hvalid hempty hread

/-- A text in which nothing is at fault has the form of a version. -/
theorem isSemantic (h : Divides cs core prerelease build)
    (hnumbers : numbersFault CorePart.all start (Text.fields core) = none)
    (hprerelease : labelFault readPrerelease offset prerelease = none)
    (hbuild : labelFault readBuild position build = none) : IsSemantic cs := by
  obtain ⟨o, hvalid, hnone, hchars⟩ := exists_outline hnumbers hprerelease
  obtain ⟨words, hwords⟩ := exists_words_of_labelFault (fun _ _ _ ↦ readBuild_eq_ok_iff) hbuild
  obtain ⟨rfl, -⟩ := Outline.words?_eq_some_iff.mp hwords
  refine ⟨{ o with build := words }, hvalid, ?_⟩
  rw [h.text, ← hchars, Outline.chars, Outline.chars, hnone]
  simp [Outline.label]

end Divides

/-- The diagnosis of a text that has not the form of a version is accurate. -/
theorem accurate_diagnose (h : ¬ IsSemantic cs) : Accurate cs (diagnose cs) := by
  rcases hbuild : Text.cutAt '+' cs with ⟨head, build⟩
  rcases hprerelease : Text.cutAt '-' head with ⟨core, prerelease⟩
  have hdivides := Divides.of_cutAt hbuild hprerelease
  rw [diagnose, hbuild]
  simp only [hprerelease]
  rw [Text.eq_of_cutAt hprerelease]
  generalize hchain : Option.or _ (labelFault readBuild _ build) = chain
  cases chain with
  | none =>
    simp only [Option.or_eq_none_iff] at hchain
    obtain ⟨⟨⟨-, hnumbers⟩, hlabel⟩, hmetadata⟩ := hchain
    exact absurd (hdivides.isSemantic hnumbers hlabel hmetadata) h
  | some fault =>
    simp only [Option.or_eq_some_iff, Option.or_eq_none_iff] at hchain
    rw [Option.getD_some]
    obtain ((hfault | ⟨-, hfault⟩) | ⟨⟨-, hnumbers⟩, hfault⟩) |
      ⟨⟨⟨-, hnumbers⟩, hlabel⟩, hfault⟩ := hchain
    · exact accurate_of_firstFault hfault
    · exact hdivides.accurate_of_numbersFault hfault
    · exact hdivides.accurate_of_prereleaseFault hnumbers hfault
    · exact hdivides.accurate_of_buildFault hnumbers hlabel hfault

namespace Version

theorem isValid_iff {text : String} :
    isValid text = true ↔ IsSemantic (Text.trim text.toList) := by
  rw [isValid, Option.isSome_iff_exists]
  exact exists_congr fun _ ↦ Outline.ofChars?_eq_some_iff

/-- A text of the form of a version is read as what its outline denotes. -/
theorem parse_of_isValid {text : String} (h : o.IsValid)
    (hcs : Text.trim text.toList = o.chars) : parse text = o.version := by
  have ho := Outline.ofChars?_eq_some_iff.mpr ⟨h, hcs⟩
  rw [parse, parseChars, ho]
  split
  · next hempty =>
    rw [List.isEmpty_iff.mp hempty] at ho
    cases ho
  · rfl

/-- A text that has not the form of a version is refused with an accurate fault. -/
theorem exists_accurate {text : String} (h : ¬ IsSemantic (Text.trim text.toList)) :
    ∃ fault, Accurate (Text.trim text.toList) fault ∧ parse text =
      .error (.malformedVersion (.ofList (Text.trim text.toList)) (some fault.position)
        fault.reason) := by
  have hnone : Outline.ofChars? (Text.trim text.toList) = none :=
    Option.eq_none_iff_forall_ne_some.mpr fun o ho ↦ h ⟨o, Outline.ofChars?_eq_some_iff.mp ho⟩
  rw [parse, parseChars, hnone]
  split
  · next hempty =>
    rw [List.isEmpty_iff.mp hempty]
    exact ⟨⟨0, .empty⟩, accurate_empty, rfl⟩
  · exact ⟨_, accurate_diagnose h, rfl⟩

/-- A text is read as a version exactly if it has the form of one, white space at its ends aside,
and then it is read as the version that it writes, unless a numeral in it is too long. Otherwise
the text is refused as malformed, with an accurate fault. -/
theorem parse_diagnosis (text : String) :
    (isValid text = true ↔ IsSemantic (Text.trim text.toList)) ∧
      ((∃ shown position reason, parse text = .error (.malformedVersion shown position reason)) ↔
        ¬ IsSemantic (Text.trim text.toList)) ∧
      (∀ o : Outline, o.IsValid → Text.trim text.toList = o.chars →
        (o.IsShort → ∃ v, parse text = .ok v ∧ o = .ofVersion v) ∧
          (¬ o.IsShort → ∃ count, Text.maxDigits < count ∧
            parse text = .error (.tooManyDigits count))) ∧
      ∀ shown position reason, parse text = .error (.malformedVersion shown position reason) →
        shown = .ofList (Text.trim text.toList) ∧
          ∃ p, position = some p ∧ Accurate (Text.trim text.toList) ⟨p, reason⟩ := by
  have hread (o : Outline) (hvalid : o.IsValid) (hcs : Text.trim text.toList = o.chars) :
      (o.IsShort ∧ ∃ v, parse text = .ok v ∧ o = .ofVersion v) ∨
        (¬ o.IsShort ∧ ∃ count, Text.maxDigits < count ∧
          parse text = .error (.tooManyDigits count)) := by
    rw [parse_of_isValid hvalid hcs]
    cases hversion : o.version with
    | ok v =>
      obtain ⟨hshort, ho⟩ := (Outline.version_eq_ok_iff hvalid).mp hversion
      exact .inl ⟨hshort, v, rfl, ho⟩
    | error failure =>
      obtain ⟨count, hcount, rfl⟩ := Outline.of_version_eq_error hversion
      refine .inr ⟨fun hshort ↦ ?_, count, hcount, rfl⟩
      obtain ⟨v, hv⟩ := Outline.exists_version hshort
      rw [hversion] at hv
      cases hv
  have hrefused (shown : String) (position : Option Nat) (reason : Reason)
      (h : parse text = .error (.malformedVersion shown position reason)) :
      ¬ IsSemantic (Text.trim text.toList) := by
    rintro ⟨o, hvalid, hcs⟩
    rcases hread o hvalid hcs with ⟨-, v, hv, -⟩ | ⟨-, count, -, hcount⟩
    · rw [h] at hv
      cases hv
    · rw [h] at hcount
      cases hcount
  refine ⟨isValid_iff, ⟨?_, fun h ↦ ?_⟩, fun o hvalid hcs ↦ ?_, fun shown position reason h ↦ ?_⟩
  · rintro ⟨shown, position, reason, h⟩
    exact hrefused shown position reason h
  · obtain ⟨fault, -, hfault⟩ := exists_accurate h
    exact ⟨_, _, _, hfault⟩
  · rcases hread o hvalid hcs with ⟨hshort, hv⟩ | ⟨hlong, hcount⟩
    · exact ⟨fun _ ↦ hv, fun h ↦ absurd hshort h⟩
    · exact ⟨fun h ↦ absurd h hlong, fun _ ↦ hcount⟩
  · obtain ⟨fault, haccurate, hfault⟩ := exists_accurate (hrefused shown position reason h)
    rw [h] at hfault
    cases hfault
    exact ⟨rfl, _, rfl, haccurate⟩

/-- A zero is shown where its digits begin, a missing number where a label stands in its place, and
a missing identifier at the end. -/
example : ["1.02.3", "1.2-a", "1.2.3-a."].map (fun text ↦ diagnose text.toList) =
    [⟨2, .leadingZero .minor⟩, ⟨3, .missingNumber .patch⟩, ⟨8, .emptyIdentifier⟩] := by
  decide +kernel

end Version

end VersionRange
