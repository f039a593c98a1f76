import VersionRange.Proofs.Scanning
import VersionRange.Proofs.VersionText

/-!
# The texts of bounds

The canonical text of a version derives its literal wherever a literal may end behind it, and the
text of a comparison with a version derives this comparison. The tokens of both are short if the
numbers of the version are.
-/

namespace VersionRange

open Grammar

namespace Tokenization

/-! ### Places in a text -/

/-- Only short tokens stand between two places of a text. -/
structure Passes (z y : Tokenization) : Prop where
  stop : z.stop = y.stop
  short : (∀ t ∈ y.tokens, IsShort t) → ∀ t ∈ z.tokens, IsShort t

variable {x y z : Tokenization}

theorem Passes.refl (z : Tokenization) : Passes z z := ⟨rfl, id⟩

theorem Passes.trans (h : Passes z y) (h' : Passes y x) : Passes z x :=
  ⟨h.stop.trans h'.stop, h.short ∘ h'.short⟩

private theorem passes_cons {t : Token} (h : IsShort t) : Passes (cons t y) y :=
  ⟨rfl, fun hy ↦ List.forall_mem_cons.mpr ⟨h, hy⟩⟩

/-- Signs are short. -/
theorem passes_sign {kind : TokenKind} {t : Token} (hkind : t.kind = kind)
    (hother : kind ∉ [.number, .label] := by decide) : Passes (cons t y) y :=
  passes_cons (isShort_of_kind hkind hother)

/-- A statement holds of the tokens of a rest of a text, and only short tokens stand before it. -/
def HoldsAt (z : Tokenization) (rest : List Char) (p : List Token → Prop) : Prop :=
  ∃ (y : Tokenization) (previous : Option TokenKind),
    y.HasText previous rest ∧ Passes z y ∧ p y.tokens

/-- A literal that stands before the text ends there. -/
def EndsLiteral (rest : List Char) : Prop := ∀ c ∈ rest.head?, c = ' ' ∨ c = ')'

private theorem EndsLiteral.detached {previous : Option TokenKind} {rest : List Char}
    (h : EndsLiteral rest) (hz : z.HasText previous rest) : Detached z.tokens := by
  cases rest with
  | nil =>
    obtain ⟨position, rfl⟩ := eq_of_hasText_nil hz
    exact nofun
  | cons c rest =>
    rcases h c rfl with rfl | rfl
    · intro t ht hspaced
      rw [hz.spaced_of_head rfl t ht] at hspaced
      cases hspaced
    · change z.HasText previous ([] ++ ')' :: rest) at hz
      obtain ⟨t, y, rfl, hkind, -⟩ := hz.exists_closing (List.forall_mem_nil _)
      intro u hu _
      obtain rfl : t = u := Option.some.inj hu
      rw [hkind]
      decide

/-! ### Labels -/

private theorem isLabelChar_of_mem_joinFields {words : List Word} {c : Char}
    (h : c ∈ Text.joinFields (words.map Word.chars)) : isLabelChar c = true := by
  rcases Text.mem_joinFields h with rfl | ⟨cs, hcs, hc⟩
  · rfl
  · obtain ⟨w, -, rfl⟩ := List.mem_map.mp hcs
    have hvalid := w.valid
    simp only [isWord, Bool.and_eq_true, List.all_eq_true] at hvalid
    rw [isLabelChar, hvalid.2 c hc]
    rfl

/-- The numerals in a label are those of its words. -/
theorem isShort_of_label {t : Token} {mark : Char} {words : List Word} (hkind : t.kind = .label)
    (htext : t.text = mark :: Text.joinFields (words.map Word.chars)) (hne : words ≠ [])
    (h : mark = '-' → ∀ w ∈ words, w.IsShort) : IsShort t := by
  refine ⟨fun hnumber ↦ ?_, fun _ hmark field hfield hdigits ↦ ?_⟩
  · rw [hkind] at hnumber
    cases hnumber
  · rw [htext] at hmark hfield
    rw [List.tail_cons, fields_eq_map_chars_iff.mpr ⟨hne, rfl⟩] at hfield
    obtain ⟨w, hw, rfl⟩ := List.mem_map.mp hfield
    rw [Word.isDigits_chars] at hdigits
    exact h (Option.some.inj hmark) w hw hdigits

/-- The text of a label, if there is one, derives it. -/
theorem HasText.exists_labelAt {kind : TokenKind} {mark : Char} {rest : List Char}
    {isIdentifier : List Char → Bool} {words : List Word}
    (h : z.HasText (some kind) ((Outline.label words).elim [] (mark :: ·) ++ rest))
    (hmark : beginsLabel mark (some kind) = true)
    (hwords : ∀ w ∈ words, isIdentifier w.chars = true)
    (hshort : mark = '-' → ∀ w ∈ words, w.IsShort)
    (hrest : ∀ c ∈ rest.head?, isLabelChar c = false) :
    ∃ (y : Tokenization) (kind' : TokenKind), y.HasText (some kind') rest ∧
      (kind' = kind ∨ kind' = .label) ∧ Passes z y ∧
      LabelAt mark isIdentifier z.tokens words y.tokens := by
  cases words with
  | nil => exact ⟨z, kind, h, .inl rfl, .refl z, .absent⟩
  | cons w words =>
    obtain ⟨t, y, rfl, hkind, htext, hspaced, hy⟩ :=
      HasText.exists_label h hmark (fun _ ↦ isLabelChar_of_mem_joinFields) hrest
    refine ⟨y, .label, hy, .inr rfl, passes_cons ?_, .present hkind hspaced htext ?_⟩
    · exact isShort_of_label hkind htext (List.cons_ne_nil w words) hshort
    · exact Outline.words?_eq_some_iff.mpr ⟨rfl, hwords⟩

private theorem mem_head?_label_append {mark c : Char} {words : List Word} {rest : List Char}
    (h : c ∈ ((Outline.label words).elim [] (mark :: ·) ++ rest).head?) :
    c = mark ∨ c ∈ rest.head? := by
  cases words with
  | nil => exact .inr h
  | cons => exact .inl (Option.some.inj h).symm

/-! ### Versions -/

/-- Numbers joined by dots are the parts of a full literal. -/
theorem HasText.exists_partsAt {previous : Option TokenKind} {major minor patch : Nat}
    {rest : List Char}
    (h : z.HasText previous (Text.joinFields
      [Text.numeral major, Text.numeral minor, Text.numeral patch] ++ rest))
    (hshort : ∀ digits ∈ [Text.numeral major, Text.numeral minor, Text.numeral patch],
      digits.length ≤ Text.maxDigits)
    (hrest : ∀ c ∈ rest.head?, c.isDigit = false) :
    ∃ y : Tokenization, y.HasText (some .number) rest ∧ Passes z y ∧
      PartsAt z.tokens [major, minor, patch] 0 y.tokens := by
  have hjoin :
      Text.joinFields [Text.numeral major, Text.numeral minor, Text.numeral patch] ++ rest =
        Text.numeral major ++ '.' ::
          (Text.numeral minor ++ '.' :: (Text.numeral patch ++ rest)) := by
    simp [Text.joinFields, List.intercalate_cons_cons]
  have hdot {cs : List Char} : ∀ c ∈ ('.' :: cs).head?, c.isDigit = false := by
    intro c hc
    obtain rfl : '.' = c := Option.some.inj hc
    rfl
  have hpasses {n : Nat} {t : Token} {x : Tokenization} (hn : Numeral t n)
      (htext : t.text = Text.numeral n) (hlength : (Text.numeral n).length ≤ Text.maxDigits) :
      Passes (cons t x) x := by
    refine passes_cons ⟨fun _ ↦ by rwa [htext], fun hkind ↦ ?_⟩
    rw [hn.1] at hkind
    cases hkind
  rw [hjoin] at h
  simp only [List.forall_mem_cons] at hshort
  obtain ⟨t₁, z₁, rfl, hmajor, htext₁, -, h⟩ := h.exists_number hdot
  obtain ⟨d₁, z₂, rfl, hd₁, hds₁, h⟩ := h.exists_dot
  obtain ⟨t₂, z₃, rfl, hminor, htext₂, hspaced₂, h⟩ := h.exists_number hdot
  obtain ⟨d₂, z₄, rfl, hd₂, hds₂, h⟩ := h.exists_dot
  obtain ⟨t₃, y, rfl, hpatch, htext₃, hspaced₃, h⟩ := h.exists_number hrest
  have hdots : Passes (cons d₁ (cons t₂ (cons d₂ (cons t₃ y)))) y :=
    (passes_sign hd₁).trans <| (hpasses hminor htext₂ hshort.2.1).trans <|
      (passes_sign hd₂).trans (hpasses hpatch htext₃ hshort.2.2.1)
  refine ⟨y, h, (hpasses hmajor htext₁ hshort.1).trans hdots, ?_⟩
  have hfirst : PartsAt (t₁ :: d₁ :: t₂ :: d₂ :: t₃ :: y.tokens) [major] 0 _ := .number hmajor
  exact (hfirst.nextNumber ⟨hd₁, hds₁, hspaced₂⟩ hminor).nextNumber ⟨hd₂, hds₂, hspaced₃⟩ hpatch

/-- The canonical text of a version derives its literal. -/
theorem HasText.exists_literalAt {previous : Option TokenKind} {v : Version} {rest : List Char}
    (h : z.HasText previous (v.chars ++ rest)) (hv : v.isWritable = true)
    (hrest : EndsLiteral rest) : z.HoldsAt rest (LiteralAt z.tokens (.full v)) := by
  have hend {c : Char} (hc : c ∈ rest.head?) : c.isDigit = false ∧ isLabelChar c = false := by
    rcases hrest c hc with rfl | rfl <;> exact ⟨rfl, rfl⟩
  have hvalid := Outline.isValid_ofVersion v
  have hshort := (Outline.isShort_ofVersion_iff v).mpr hv
  rw [← Outline.chars_ofVersion, Outline.chars, List.append_assoc, List.append_assoc] at h
  obtain ⟨z₁, h, hpasses₁, hparts⟩ := h.exists_partsAt hshort.1 <| by
    intro c hc
    rcases mem_head?_label_append hc with rfl | hc
    · rfl
    · rcases mem_head?_label_append hc with rfl | hc
      · rfl
      · exact (hend hc).1
  obtain ⟨z₂, kind, h, hkind, hpasses₂, hprerelease⟩ :=
    h.exists_labelAt rfl hvalid.2 (fun _ ↦ hshort.2) <| by
      intro c hc
      rcases mem_head?_label_append hc with rfl | hc
      · rfl
      · exact (hend hc).2
  obtain ⟨y, kind', h, -, hpasses₃, hbuild⟩ :=
    h.exists_labelAt (by rcases hkind with rfl | rfl <;> rfl) (fun w _ ↦ w.valid)
      (fun hmark ↦ absurd hmark (by decide)) (fun c hc ↦ (hend hc).2)
  refine ⟨y, some kind', h, hpasses₁.trans (hpasses₂.trans hpasses₃), ?_⟩
  have hliteral := LiteralAt.full hparts hprerelease hbuild (hrest.detached h)
  simp only [Outline.ofVersion, Identifier.map_ofWord_toWord] at hliteral
  exact hliteral

/-- The text of a version begins with a digit, and so with no sign. -/
theorem notMem_signs_of_mem_head?_chars (v : Version) {rest : List Char} :
    ∀ c ∈ (v.chars ++ rest).head?, c ∉ ['|', '&', '='] := by
  intro c hc
  obtain ⟨d, digits, hcons, hdigit, -⟩ := Text.exists_numeral_eq_cons v.major
  have hhead : (v.chars ++ rest).head? = some d := by
    simp [Version.chars, Version.baseChars, Text.joinFields, List.intercalate_cons_cons, hcons]
  rw [hhead] at hc
  obtain rfl : d = c := Option.some.inj hc
  simp only [List.mem_cons, List.not_mem_nil, or_false]
  rintro (rfl | rfl | rfl) <;> cases hdigit

/-- A comparator in front of the literal of a version makes a comparison with it. -/
theorem derives_bound {t : Token} {ts rest : List Token} {comparator : Comparator} {v : Version}
    (hkind : t.kind = .comparator) (htext : t.text = comparator.symbol.toList)
    (hliteral : LiteralAt ts (.full v) rest) :
    Derives .primary (t :: ts) (Expression.bound comparator v) rest := by
  have hsign : Relation.ofSymbol? (.ofList t.text) = some (.is comparator) := by
    rw [htext, String.ofList_toList]
    cases comparator <;> rfl
  have hbound : (Literal.full v).comparison (.is comparator) = Expression.bound comparator v := by
    cases comparator <;> rfl
  rw [← hbound]
  exact .comparison hkind hsign hliteral

/-- The text of a comparison with a version derives this comparison. -/
theorem HasText.exists_bound {previous : Option TokenKind} {comparator : Comparator} {v : Version}
    {gap rest : List Char}
    (h : z.HasText previous (gap ++ (Constraint.boundChars comparator v ++ rest)))
    (hgap : ∀ c ∈ gap, Text.isBlank c = true) (hv : v.isWritable = true)
    (hrest : EndsLiteral rest) :
    z.HoldsAt rest (Derives .primary z.tokens (Expression.bound comparator v)) := by
  rw [Constraint.boundChars, List.append_assoc] at h
  obtain ⟨t, y, rfl, hkind, htext, h⟩ := h.exists_comparator hgap (notMem_signs_of_mem_head?_chars v)
  obtain ⟨x, previous', h, hpasses, hliteral⟩ := h.exists_literalAt hv hrest
  exact ⟨x, previous', h, (passes_sign hkind).trans hpasses, derives_bound hkind htext hliteral⟩

end Tokenization

end VersionRange
