import VersionRange.Proofs.Composition

/-!
# Full versions as ranges

A text of the characters of versions is read as a comparison with one version exactly if it is read
as this version, and behind a comparator a text that is read as a version is read as a comparison
with it. The two readers divide a text in different ways: into tokens that must not be continued,
and at its marks.
-/

namespace VersionRange

open Grammar

/-! ### The tokens of versions -/

/-- A token of a text that has no other characters than versions have. -/
structure IsVersionToken (t : Token) : Prop where
  kind : t.kind ∈ [.number, .dot, .label, .hyphen, .wildcard]
  digits : t.kind = .number → Text.isDigits t.text = true
  dot : t.kind = .dot → t.text = ['.']

private theorem isVersionToken_of_begins {previous : Option TokenKind} {c : Char} {rest : List Char}
    {kind : TokenKind} {more position : Nat} {spaced : Bool} (hc : Text.isVersionChar c = true)
    (h : Begins previous c rest kind more) :
    IsVersionToken ⟨kind, c :: rest.take more, position, spaced⟩ := by
  cases h with
  | number hdigit =>
    refine ⟨by simp, fun _ ↦ ?_, nofun⟩
    change (!(c :: _).isEmpty && (c :: _).all Char.isDigit) = true
    rw [← List.prefix_iff_eq_take.mp (List.takeWhile_prefix Char.isDigit), List.all_cons, hdigit,
      List.all_takeWhile]
    rfl
  | label => exact ⟨by simp, nofun, nofun⟩
  | hyphen => exact ⟨by simp, nofun, nofun⟩
  | letter => exact ⟨by simp, nofun, nofun⟩
  | pair _ hpair =>
    unfold pairKind? at hpair
    split at hpair <;> first | exact absurd hc (by decide) | cases hpair
  | single hsingle =>
    unfold singleKind? at hsingle
    split at hsingle
    all_goals first
      | exact absurd hc (by decide)
      | (cases hsingle; exact ⟨by simp, nofun, fun _ ↦ rfl⟩)
      | cases hsingle

namespace Tokenization

/-- A text of the characters of versions is its tokens, one behind the other. -/
theorem eq_flatMap_of_isVersionChar {position end' : Nat} {previous : Option TokenKind}
    {spaced : Bool} {cs : List Char} (hcs : ∀ c ∈ cs, Text.isVersionChar c = true)
    (hstop : (ofCharsFrom position previous cs).stop = .finished end' spaced) :
    (ofCharsFrom position previous cs).tokens.flatMap Token.text = cs ∧
      ∀ t ∈ (ofCharsFrom position previous cs).tokens, IsVersionToken t := by
  have hempty {gap : List Char} (hgap : ∀ c ∈ gap, Text.isBlank c = true)
      (hchars : ∀ c ∈ gap, Text.isVersionChar c = true) : gap = [] := by
    cases gap with
    | nil => rfl
    | cons c gap =>
      have hblank := Text.isBlank_of_isVersionChar (hchars c List.mem_cons_self)
      rw [hgap c List.mem_cons_self] at hblank
      cases hblank
  fun_induction ofCharsFrom position previous cs with
  | case1 _ _ cs _ _ hscan =>
    rw [hempty (blank_of_finish hscan).1 hcs]
    exact ⟨rfl, List.forall_mem_nil _⟩
  | case2 => cases hstop
  | case3 position previous cs token rest hscan _ ih =>
    obtain ⟨gap, c, more, count, rfl, hgap, -, hclass, htoken, rfl⟩ := scan_eq_token_iff.mp hscan
    rw [List.forall_mem_append, List.forall_mem_cons] at hcs
    obtain ⟨htext, htokens⟩ := ih (fun d hd ↦ hcs.2.2 d (List.mem_of_mem_drop hd)) hstop
    obtain rfl := hempty hgap hcs.1
    refine ⟨?_, List.forall_mem_cons.mpr ⟨?_, htokens⟩⟩
    · rw [List.flatMap_cons, htext, htoken, List.cons_append, List.take_append_drop]
      rfl
    · rw [htoken]
      exact isVersionToken_of_begins hcs.2.1 (begins_of_classify? hclass)

end Tokenization

namespace Grammar

variable {ts rest : List Token} {v : Version}

/-! ### Full literals -/

private theorem PartsAt.numbers_ne_nil {numbers : List Nat} (h : PartsAt ts numbers 0 rest) :
    numbers ≠ [] := by
  generalize hwildcards : 0 = wildcards at h
  cases h with
  | number => exact nofun
  | nextNumber => simp
  | wildcard => cases hwildcards
  | nextWildcard => cases hwildcards

/-- The last of several numbers stands behind a dot. -/
theorem PartsAt.exists_last (numbers : List Nat) (n : Nat)
    (h : PartsAt ts (numbers ++ [n]) 0 rest) (hne : numbers ≠ []) :
    ∃ dot t, PartsAt ts numbers 0 (dot :: t :: rest) ∧ Joined dot t ∧ Numeral t n := by
  generalize hnumbers : numbers ++ [n] = all at h
  generalize hwildcards : 0 = wildcards at h
  cases h with
  | number =>
    exact absurd (List.append_inj' (hnumbers.trans (List.nil_append _).symm) rfl).1 hne
  | wildcard => cases hwildcards
  | nextWildcard => cases hwildcards
  | nextNumber before hjoined hn =>
    obtain ⟨rfl, hlast⟩ := List.append_inj' hnumbers rfl
    cases hlast
    exact ⟨_, _, before, hjoined, hn⟩

private theorem PartsAt.exists_first {n : Nat} (h : PartsAt ts [n] 0 rest) :
    ∃ t, ts = t :: rest ∧ Numeral t n := by
  generalize hnumbers : [n] = all at h
  generalize hwildcards : 0 = wildcards at h
  cases h with
  | number hn =>
    cases hnumbers
    exact ⟨_, rfl, hn⟩
  | wildcard => cases hwildcards
  | nextWildcard => cases hwildcards
  | nextNumber before =>
    rw [← List.nil_append [n]] at hnumbers
    obtain ⟨rfl, -⟩ := List.append_inj' hnumbers rfl
    exact absurd rfl before.numbers_ne_nil

/-- Three numbers are joined by dots, in the tokens as in their text. -/
theorem PartsAt.exists_text {major minor patch : Nat}
    (h : PartsAt ts [major, minor, patch] 0 rest) (htokens : ∀ t ∈ ts, IsVersionToken t)
    (hshort : ∀ t ∈ ts, IsShort t) :
    (∀ n ∈ [major, minor, patch], (Text.numeral n).length ≤ Text.maxDigits) ∧
      ts.flatMap Token.text =
        Text.joinFields [Text.numeral major, Text.numeral minor, Text.numeral patch] ++
          rest.flatMap Token.text := by
  have hnumeral {t : Token} {n : Nat} (ht : t ∈ ts) (hn : Numeral t n) :
      t.text = Text.numeral n ∧ (Text.numeral n).length ≤ Text.maxDigits := by
    obtain ⟨hkind, hzero, rfl⟩ := hn
    have htext : Text.numeral (Text.numeralValue t.text) = t.text := by
      refine Text.numeral_numeralValue ?_
      rw [Text.isNumeral, (htokens t ht).digits hkind, hzero]
      rfl
    rw [htext]
    exact ⟨rfl, (hshort t ht).1 hkind⟩
  have hdot {t u : Token} (ht : t ∈ ts) (hjoined : Joined t u) : t.text = ['.'] :=
    (htokens t ht).dot hjoined.1
  obtain ⟨dot', t₃, h, hjoined', hpatch⟩ :=
    PartsAt.exists_last [major, minor] patch h (List.cons_ne_nil _ _)
  obtain ⟨dot, t₂, h, hjoined, hminor⟩ :=
    PartsAt.exists_last [major] minor h (List.cons_ne_nil _ _)
  obtain ⟨t₁, rfl, hmajor⟩ := h.exists_first
  obtain ⟨htext₁, hlength₁⟩ := hnumeral (by simp) hmajor
  obtain ⟨htext₂, hlength₂⟩ := hnumeral (by simp) hminor
  obtain ⟨htext₃, hlength₃⟩ := hnumeral (by simp) hpatch
  refine ⟨by simp [hlength₁, hlength₂, hlength₃], ?_⟩
  simp [Text.joinFields, List.intercalate_cons_cons, htext₁, htext₂, htext₃,
    hdot (by simp) hjoined, hdot (by simp) hjoined']

/-- A label stands behind its mark, in the tokens as in their text. -/
theorem LabelAt.exists_text {mark : Char} {isIdentifier : List Char → Bool} {words : List Word}
    (h : LabelAt mark isIdentifier ts words rest) (hshort : ∀ t ∈ ts, IsShort t) :
    (∀ w ∈ words, isIdentifier w.chars = true) ∧ (mark = '-' → ∀ w ∈ words, w.IsShort) ∧
      ts.flatMap Token.text =
        (Outline.label words).elim [] (mark :: ·) ++ rest.flatMap Token.text := by
  cases h with
  | absent => exact ⟨nofun, nofun, rfl⟩
  | present hkind _ htext hwords =>
    obtain ⟨hlabel, hall⟩ := Outline.words?_eq_some_iff.mp hwords
    refine ⟨hall, ?_, ?_⟩
    · rintro rfl
      exact (isShort_label_iff hkind htext hwords).mp (hshort _ List.mem_cons_self)
    · rw [List.flatMap_cons, htext, ← hlabel]
      rfl

/-- A full literal is written as its version is, which has no long numerals if the literal has
none. -/
theorem LiteralAt.exists_text (h : LiteralAt ts (.full v) rest)
    (htokens : ∀ t ∈ ts, IsVersionToken t) (hshort : ∀ t ∈ ts, IsShort t) :
    v.isWritable = true ∧ ts.flatMap Token.text = v.chars ++ rest.flatMap Token.text := by
  cases h with
  | full hparts hprerelease hmetadata =>
    next us vs major minor patch words build _ =>
    have hus {t : Token} (ht : t ∈ us) : t ∈ ts := hparts.suffix.subset ht
    obtain ⟨hnumbers, htext⟩ := hparts.exists_text htokens hshort
    obtain ⟨hfields, hwords, hlabel⟩ := hprerelease.exists_text fun t ht ↦ hshort t (hus ht)
    obtain ⟨_, rfl, -⟩ := hprerelease.exists_eq_append
    obtain ⟨-, -, hbuild⟩ := hmetadata.exists_text
      fun t ht ↦ hshort t (hus (List.mem_append_right _ ht))
    have houtline : Outline.ofVersion
        { major, minor, patch, prerelease := words.map Identifier.ofWord, build } =
        ⟨Text.numeral major, Text.numeral minor, Text.numeral patch, words, build⟩ := by
      rw [Outline.ofVersion, Identifier.map_toWord_ofWord hfields]
    rw [← Outline.isShort_ofVersion_iff, ← Outline.chars_ofVersion, houtline, htext, hlabel, hbuild]
    refine ⟨⟨?_, hwords rfl⟩, ?_⟩
    · simpa using hnumbers
    · simp [Outline.chars]

/-- A comparison with one version for equality comes from its literal alone, unless a group or a
sign makes it. -/
theorem Accepts.literalAt_of_equal (h : Accepts ts (Expression.bound .equal v))
    (hkinds : ∀ t ∈ ts, t.kind ∉ [.opening, .comparator, .caret, .tilde]) :
    LiteralAt ts (.full v) [] := by
  rw [Accepts] at h
  generalize hbound : Expression.bound .equal v = e at h
  have hkind {t : Token} {us : List Token} (hts : ts = t :: us) :
      t.kind ∉ [.opening, .comparator, .caret, .tilde] := hkinds t (by simp [hts])
  cases h with
  | or => cases hbound
  | conjunction h =>
    cases h with
    | juxtaposed => cases hbound
    | and => cases hbound
    | operand h =>
      cases h with
      | not => cases hbound
      | primary h =>
        cases h with
        | group hopening => simp [hopening] at hkind
        | comparison hsign => simp [hsign] at hkind
        | caret hsign => simp [hsign] at hkind
        | tilde hsign => simp [hsign] at hkind
        | plain hliteral =>
          rename_i l
          cases l with
          | full w =>
            cases Formula.leaf.inj hbound
            exact hliteral
          | any => cases Formula.leaf.inj hbound
          | upToMajor => cases Formula.leaf.inj hbound
          | upToMinor => cases Formula.leaf.inj hbound
        | hyphen =>
          rename_i lower upper _ _ _
          cases lower <;> cases upper <;> cases Formula.leaf.inj hbound

end Grammar

namespace Tokenization

variable {v : Version}

/-- The text of a version is the text of its literal. -/
theorem literalAt_chars (hv : v.isWritable = true) :
    (∃ position, (ofChars v.chars).stop = .finished position false) ∧
      (∀ t ∈ (ofChars v.chars).tokens, IsShort t) ∧
      LiteralAt (ofChars v.chars).tokens (.full v) [] := by
  have hz : (ofChars v.chars).HasText .none (v.chars ++ []) := ⟨0, by rw [List.append_nil]; rfl⟩
  obtain ⟨y, previous, hy, hpasses, hliteral⟩ := hz.exists_literalAt hv nofun
  obtain ⟨position, rfl⟩ := eq_of_hasText_nil hy
  exact ⟨⟨position, hpasses.stop⟩, hpasses.short nofun, hliteral⟩

/-- The text of a version is the text of the comparison for equality with it. -/
theorem isTextOf_chars (hv : v.isWritable = true) :
    IsTextOf v.chars (Expression.bound .equal v) ∧ textNesting v.chars ≤ 0 := by
  obtain ⟨⟨position, hstop⟩, hshort, hliteral⟩ := literalAt_chars hv
  refine ⟨⟨⟨position, false, hstop⟩, hshort,
    .conjunction (.operand (.primary (.plain hliteral)))⟩, ?_⟩
  obtain ⟨pre, hpre, -, hkinds⟩ := hliteral.exists_eq_append
  rw [textNesting, hpre, List.append_nil]
  exact Nat.le_of_eq (nesting_eq_zero_of_other fun t ht ↦ (hkinds t ht).other)

/-- Behind a comparator the text of a version may have white space around it. -/
theorem isTextOf_comparison {before behind : List Char} (comparator : Comparator)
    (hv : v.isWritable = true) (hbefore : ∀ c ∈ before, Text.isBlank c = true)
    (hbehind : ∀ c ∈ behind, Text.isBlank c = true) :
    let cs := comparator.symbol.toList ++ (before ++ (v.chars ++ behind))
    IsTextOf cs (Expression.bound comparator v) ∧ textNesting cs ≤ 0 := by
  intro cs
  obtain ⟨⟨position, hstop⟩, hshort, hliteral⟩ := literalAt_chars hv
  have hsigns : ∀ c ∈ (before ++ (v.chars ++ behind)).head?, c ∉ ['|', '&', '='] := by
    cases before with
    | nil => exact notMem_signs_of_mem_head?_chars v
    | cons d before =>
      intro c hc
      obtain rfl : d = c := Option.some.inj hc
      have hblank := hbefore d List.mem_cons_self
      simp only [List.mem_cons, List.not_mem_nil, or_false]
      rintro (rfl | rfl | rfl) <;> cases hblank
  have hends : EndsToken behind := by
    rw [← List.append_nil behind]
    exact endsToken_of_isBlank hbehind nofun
  obtain ⟨t, x, hz, hkind, htext, hx⟩ :=
    (hasText_ofChars cs).exists_comparator (List.forall_mem_nil _) hsigns
  obtain ⟨y, htail, hleads⟩ := hx.exists_leads hbefore (by simp) hends hstop hliteral.ne_nil
  obtain ⟨gap, previous, hgap, hy⟩ := htail.hasText
  obtain ⟨end', spaced, rfl⟩ :=
    eq_of_hasText_blank hy (List.forall_mem_append.mpr ⟨hgap, hbehind⟩)
  have hdetached : Detached [] := nofun
  obtain ⟨_, _, hrest, hliteral⟩ := hliteral.exists_of_varies hdetached hleads.varies
  cases hrest
  refine ⟨⟨⟨end', spaced, ?_⟩, ?_, ?_⟩, ?_⟩
  · rw [hz]
    exact htail.stop
  · rw [hz]
    exact List.forall_mem_cons.mpr ⟨isShort_of_kind hkind, hleads.varies.isShort hshort nofun⟩
  · rw [hz]
    exact .conjunction (.operand (.primary (derives_bound hkind htext hliteral)))
  · obtain ⟨pre, hpre, -, hkinds⟩ := hliteral.exists_eq_append
    rw [List.append_nil] at hpre
    rw [textNesting, hz]
    refine Nat.le_of_eq (nesting_eq_zero_of_other (List.forall_mem_cons.mpr ⟨by simp [hkind], ?_⟩))
    rw [hpre]
    exact fun u hu ↦ (hkinds u hu).other

end Tokenization

namespace Expression

open Tokenization

/-- Ranges and versions agree on full versions. Within the limit on length, a text of the
characters of versions is read as a comparison for equality with a version exactly if it is read as
this version, and a text that is read as a version is read as a comparison with it behind every
comparator. -/
theorem parse_eq_bound_iff_parse (limits : Limits) :
    (∀ (text : String) (v : Version), (∀ c ∈ text.toList, Text.isVersionChar c = true) →
      text.toList.length ≤ limits.maxInputLength →
      (parse text limits = .ok (bound .equal v) ↔ Version.parse text = .ok v)) ∧
    ∀ (comparator : Comparator) (text : String) (v : Version), Version.parse text = .ok v →
      (comparator.symbol ++ text).toList.length ≤ limits.maxInputLength →
      parse (comparator.symbol ++ text) limits = .ok (bound comparator v) := by
  refine ⟨fun text v hchars hlength ↦ ⟨fun h ↦ ?_, fun h ↦ ?_⟩, fun comparator text v h hlength ↦ ?_⟩
  · obtain ⟨⟨⟨position, spaced, hstop⟩, hshort, haccepts⟩, -⟩ := parse_eq_ok_iff_isTextOf.mp h
    obtain ⟨htext, htokens⟩ := eq_flatMap_of_isVersionChar hchars hstop
    have hliteral := haccepts.literalAt_of_equal fun t ht hkind ↦ by
      have := (htokens t ht).kind
      revert this hkind
      cases t.kind <;> decide
    obtain ⟨hwritable, hflat⟩ := hliteral.exists_text htokens hshort
    rw [Version.parse_eq_ok_iff, Text.trim_eq_self fun c hc ↦
      Text.isBlank_of_isVersionChar (hchars c hc), ← htext]
    exact ⟨hwritable, hflat.trans (List.append_nil _)⟩
  · rw [Version.parse_eq_ok_iff, Text.trim_eq_self fun c hc ↦
      Text.isBlank_of_isVersionChar (hchars c hc)] at h
    rw [h.2] at hlength
    exact parse_of_isTextOf h.2 (isTextOf_chars h.1) hlength (by omega)
  · rw [Version.parse_eq_ok_iff] at h
    obtain ⟨before, behind, htext, hbefore, hbehind⟩ := Text.exists_eq_append_trim text.toList
    rw [h.2] at htext
    rw [String.toList_append, htext] at hlength
    refine parse_of_isTextOf ?_ (isTextOf_comparison comparator h.1 hbefore hbehind) hlength
      (by omega)
    rw [String.toList_append, htext]

end Expression

end VersionRange
