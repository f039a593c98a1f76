import VersionRange.Text.Fields
import VersionRange.Text.Numeral

/-!
# Numerals and fields

Reading a numeral undoes writing it, and writing undoes reading for every row of digits without a
needless zero. Cutting a text at a mark and dividing it at dots undo the ways of joining.
-/

namespace VersionRange.Text

/-! ### Numerals -/

theorem numeral_injective : Function.Injective numeral :=
  Function.LeftInverse.injective numeralValue_numeral

private theorem digitChar_of_isDigit {c : Char} (h : c.isDigit = true) :
    Nat.digitChar (c.toNat - '0'.toNat) = c ∧ c.toNat - '0'.toNat < 10 := by
  rw [Char.isDigit_iff_toNat] at h
  change 48 ≤ c.toNat ∧ c.toNat ≤ 57 at h
  change Nat.digitChar (c.toNat - 48) = c ∧ c.toNat - 48 < 10
  have hlt : c.toNat - 48 < 10 := by omega
  refine ⟨?_, hlt⟩
  apply Char.toNat_inj.mp
  rw [Nat.toNat_digitChar_of_lt_ten hlt]
  omega

/-- Digits read behind a number that is not zero continue its numeral. -/
private theorem toDigits_ofDigitChars {cs : List Char} (hcs : ∀ c ∈ cs, c.isDigit = true) (n : Nat)
    (hn : 0 < n) : Nat.toDigits 10 (Nat.ofDigitChars 10 cs n) = Nat.toDigits 10 n ++ cs := by
  induction cs generalizing n with
  | nil => simp
  | cons c cs ih =>
    obtain ⟨hc, hlt⟩ := digitChar_of_isDigit (hcs c (by simp))
    have hdigits := Nat.toDigits_append_toDigits (b := 10) (by decide) hn hlt
    rw [Nat.toDigits_of_lt_base hlt, hc] at hdigits
    rw [Nat.ofDigitChars_cons, ih (fun d hd ↦ hcs d (by simp [hd])) _ (by omega), ← hdigits]
    simp

/-- The numeral of the value of a numeral is the numeral. -/
theorem numeral_numeralValue {cs : List Char} (h : isNumeral cs = true) :
    numeral (numeralValue cs) = cs := by
  simp only [isNumeral, isDigits, Bool.and_eq_true, List.all_eq_true] at h
  obtain ⟨⟨hne, hdigits⟩, hzero⟩ := h
  cases cs with
  | nil => cases hne
  | cons c cs =>
    obtain ⟨hc, hlt⟩ := digitChar_of_isDigit (hdigits c (by simp))
    rw [numeral, numeralValue, Nat.ofDigitChars_cons, Nat.mul_zero, Nat.zero_add]
    by_cases hpos : 0 < c.toNat - '0'.toNat
    · rw [toDigits_ofDigitChars (fun d hd ↦ hdigits d (by simp [hd])) _ hpos,
        Nat.toDigits_of_lt_base hlt, hc, List.singleton_append]
    · have heq : c.toNat - '0'.toNat = 0 := by omega
      rw [heq] at hc ⊢
      cases cs with
      | nil => rw [Nat.ofDigitChars_nil, Nat.toDigits_of_lt_base (by decide), hc]
      | cons d cs =>
        rw [← hc] at hzero
        cases hzero

private theorem head?_numeral_ne_zero (n : Nat) (hn : 0 < n) : (numeral n).head? ≠ some '0' := by
  induction n using Nat.strongRecOn with
  | ind n ih =>
    rw [numeral, Nat.toDigits_eq_if (by decide)]
    split
    · simp only [List.head?_cons, ne_eq, Option.some.injEq, Nat.digitChar_eq_zero]
      omega
    · have hdiv : 0 < n / 10 := by omega
      have hhead := ih (n / 10) (by omega) hdiv
      obtain ⟨c, digits, hcons⟩ := List.exists_cons_of_ne_nil (Nat.toDigits_ne_nil (b := 10))
      rw [numeral, hcons] at hhead
      rw [hcons]
      exact hhead

/-- A numeral has no needless zero. -/
theorem isNumeral_numeral (n : Nat) : isNumeral (numeral n) = true := by
  rw [isNumeral, isDigits_numeral, Bool.true_and]
  by_cases hn : 0 < n
  · have hhead := head?_numeral_ne_zero n hn
    unfold hasLeadingZero
    split
    · next heq => simp [heq] at hhead
    · rfl
  · have hzero : n = 0 := by omega
    rw [hzero]
    rfl

theorem hasLeadingZero_iff {cs : List Char} :
    hasLeadingZero cs = true ↔ ∃ c rest, cs = '0' :: c :: rest := by
  constructor
  · intro h
    unfold hasLeadingZero at h
    split at h
    · exact ⟨_, _, rfl⟩
    · cases h
  · rintro ⟨c, rest, rfl⟩
    rfl

/-- A row of digits without the needless zeros in front. -/
def dropZeros : List Char → List Char
  | '0' :: c :: rest => dropZeros (c :: rest)
  | digits => digits

private theorem length_dropZeros_le (cs : List Char) : (dropZeros cs).length ≤ cs.length := by
  fun_induction dropZeros cs with
  | case1 c rest ih => exact Nat.le_succ_of_le ih
  | case2 cs h => exact Nat.le_refl _

/-- A row of digits that is read and written loses the needless zeros in front. -/
theorem numeral_numeralValue_eq_dropZeros {cs : List Char} (h : isDigits cs = true) :
    numeral (numeralValue cs) = dropZeros cs := by
  fun_induction dropZeros cs with
  | case1 c rest ih =>
    have hrest : isDigits (c :: rest) = true := by
      simp only [isDigits, List.all_cons, Bool.and_eq_true] at h ⊢
      exact ⟨rfl, h.2.2⟩
    have hvalue : numeralValue ('0' :: c :: rest) = numeralValue (c :: rest) := by
      rw [numeralValue, Nat.ofDigitChars_cons]
      rfl
    rw [hvalue, ih hrest]
  | case2 cs hzero =>
    apply numeral_numeralValue
    have hleading : hasLeadingZero cs ≠ true := by
      rw [Ne, hasLeadingZero_iff]
      rintro ⟨c, rest, rfl⟩
      exact hzero c rest rfl
    simp [isNumeral, h, hleading]

/-- The numeral of the value of a row of digits is no longer than the row. -/
theorem length_numeral_numeralValue_le {cs : List Char} (h : isDigits cs = true) :
    (numeral (numeralValue cs)).length ≤ cs.length := by
  rw [numeral_numeralValue_eq_dropZeros h]
  exact length_dropZeros_le cs

/-- The numerals that are short enough to be written are those of the smaller numbers. -/
theorem isWritable_of_le {m n : Nat} (hle : m ≤ n) (h : isWritable n = true) :
    isWritable m = true := by
  have hiff (k : Nat) : (numeral k).length ≤ maxDigits ↔ k < 10 ^ maxDigits :=
    Nat.length_toDigits_le_iff (by decide) (by decide)
  rw [isWritable, decide_eq_true_eq, hiff] at h ⊢
  omega

private theorem isDigit_of_mem_numeral {n : Nat} {c : Char} (h : c ∈ numeral n) :
    c.isDigit = true :=
  Nat.isDigit_of_mem_toDigits (by decide) (by decide) h

theorem exists_numeral_eq_cons (n : Nat) :
    ∃ c digits, numeral n = c :: digits ∧ c.isDigit = true ∧ ∀ d ∈ digits, d.isDigit = true := by
  obtain ⟨c, digits, hcons⟩ := List.exists_cons_of_ne_nil (Nat.toDigits_ne_nil (b := 10) (n := n))
  have hdigits : ∀ d ∈ c :: digits, d.isDigit = true := by
    rw [← hcons]
    exact fun _ ↦ isDigit_of_mem_numeral
  exact ⟨c, digits, hcons, List.forall_mem_cons.mp hdigits⟩

/-! ### Fields -/

/-- Texts without dots are the fields of their join. -/
theorem fields_joinFields {texts : List (List Char)} (hdots : ∀ cs ∈ texts, '.' ∉ cs)
    (hne : texts ≠ []) : fields (joinFields texts) = texts :=
  List.splitOn_intercalate '.' hdots hne

theorem mem_joinFields {texts : List (List Char)} {c : Char} (h : c ∈ joinFields texts) :
    c = '.' ∨ ∃ cs ∈ texts, c ∈ cs := by
  induction texts with
  | nil => cases h
  | cons cs texts ih =>
    cases texts with
    | nil => exact .inr ⟨cs, by simp, by simpa [joinFields] using h⟩
    | cons cs' texts =>
      rw [joinFields, List.intercalate_cons_cons, List.mem_append, List.mem_append] at h
      rcases h with (h | h) | h
      · exact .inr ⟨cs, by simp, h⟩
      · exact .inl (by simpa using h)
      · rcases ih h with h | ⟨cs'', hmem, h⟩
        · exact .inl h
        · exact .inr ⟨cs'', List.mem_cons_of_mem _ hmem, h⟩

theorem notMem_fields {cs field : List Char} (h : field ∈ fields cs) : '.' ∉ field := by
  induction cs generalizing field with
  | nil =>
    obtain rfl : field = [] := by simpa [fields] using h
    exact List.not_mem_nil
  | cons c cs ih =>
    rw [fields, List.splitOn_cons_eq_if_modifyHead] at h
    split at h
    · rcases List.mem_cons.mp h with rfl | h
      · exact List.not_mem_nil
      · exact ih h
    · next hc =>
      obtain ⟨first, behind, hfields⟩ := List.exists_cons_of_ne_nil (List.splitOn_ne_nil '.' cs)
      rw [fields, hfields, List.forall_mem_cons] at ih
      rw [hfields, List.modifyHead_cons, List.mem_cons] at h
      rcases h with rfl | h
      · rw [List.mem_cons, not_or]
        exact ⟨fun heq ↦ hc (by simp [← heq]), ih.1⟩
      · exact ih.2 field h

/-! ### Dotted fields -/

/-- Fields, each with a dot behind it. -/
def dotted (fields : List (List Char)) : List Char := fields.flatMap (· ++ ['.'])

@[simp]
theorem dotted_nil : dotted [] = [] := rfl

@[simp]
theorem dotted_cons (field : List Char) (fields : List (List Char)) :
    dotted (field :: fields) = field ++ '.' :: dotted fields := by
  simp [dotted]

private theorem joinFields_cons_cons (cs ds : List Char) (texts : List (List Char)) :
    joinFields (cs :: ds :: texts) = cs ++ '.' :: joinFields (ds :: texts) := by
  rw [joinFields, List.intercalate_cons_cons, List.append_assoc]
  rfl

/-- A dot stands behind a field, unless it is the last one. -/
theorem joinFields_cons (field : List Char) (behind : List (List Char)) :
    joinFields (field :: behind) = field ∨
      ∃ more, joinFields (field :: behind) = field ++ '.' :: more := by
  cases behind with
  | nil => exact .inl (by simp [joinFields])
  | cons ds texts => exact .inr ⟨_, joinFields_cons_cons field ds texts⟩

theorem exists_joinFields_cons (field : List Char) (behind : List (List Char)) :
    ∃ more, joinFields (field :: behind) = field ++ more := by
  rcases joinFields_cons field behind with hlast | ⟨more, hmore⟩
  · exact ⟨[], by rw [hlast, List.append_nil]⟩
  · exact ⟨'.' :: more, hmore⟩

theorem joinFields_append (done : List (List Char)) (field : List Char)
    (behind : List (List Char)) :
    joinFields (done ++ field :: behind) = dotted done ++ joinFields (field :: behind) := by
  induction done with
  | nil => rfl
  | cons cs done ih =>
    rw [dotted_cons, List.append_assoc, List.cons_append, List.cons_append, ← ih]
    cases done with
    | nil => exact joinFields_cons_cons cs field behind
    | cons ds done => exact joinFields_cons_cons cs ds (done ++ field :: behind)

/-- A field stands in its text behind the fields before it. -/
theorem exists_eq_of_fields {text field : List Char} {done behind : List (List Char)}
    (h : fields text = done ++ field :: behind) :
    ∃ more, text = dotted done ++ (field ++ more) := by
  obtain ⟨more, hmore⟩ := exists_joinFields_cons field behind
  exact ⟨more, by rw [← hmore, ← joinFields_append, ← h, joinFields_fields]⟩

theorem dotted_eq_append_dot {done : List (List Char)} (hne : done ≠ []) :
    dotted done = joinFields done ++ ['.'] := by
  obtain ⟨before, field, rfl⟩ := (List.eq_nil_or_concat done).resolve_left hne
  rw [List.concat_eq_append, joinFields_append]
  simp [dotted, joinFields]

/-- Dots end the fields before them. -/
theorem fields_dotted_append {done : List (List Char)} (h : ∀ cs ∈ done, '.' ∉ cs)
    (cs : List Char) : fields (dotted done ++ cs) = done ++ fields cs := by
  induction done with
  | nil => rfl
  | cons field done ih =>
    rw [List.forall_mem_cons] at h
    rw [dotted_cons, List.append_assoc, List.cons_append, fields,
      List.splitOn_append_cons_self_of_not_mem h.1]
    exact congrArg _ (ih h.2)

/-- What stands before and behind the first mark makes up the text. -/
theorem eq_of_cutAt {mark : Char} {cs before : List Char} {behind : Option (List Char)}
    (h : cutAt mark cs = (before, behind)) : cs = before ++ behind.elim [] (mark :: ·) := by
  injection h with hbefore hbehind
  have happend := List.takeWhile_append_dropWhile (p := (· != mark)) (l := cs)
  rw [← hbefore, ← hbehind]
  cases hdrop : cs.dropWhile (· != mark) with
  | nil =>
    rw [hdrop] at happend
    exact happend.symm
  | cons c rest =>
    have hhead := List.head?_dropWhile_not (· != mark) cs
    rw [hdrop] at hhead happend
    obtain rfl : c = mark := by simpa using hhead
    exact happend.symm

theorem notMem_of_cutAt {mark : Char} {cs before : List Char} {behind : Option (List Char)}
    (h : cutAt mark cs = (before, behind)) : mark ∉ before := by
  injection h with hbefore
  rw [← hbefore]
  intro hmem
  simpa using List.all_eq_true.mp List.all_takeWhile mark hmem

theorem bne_of_notMem {mark : Char} {cs : List Char} (h : mark ∉ cs) :
    ∀ c ∈ cs, (c != mark) = true := by
  intro c hc
  rw [bne_iff_ne]
  rintro rfl
  exact h hc

/-- A text is cut behind a part without the mark. -/
theorem cutAt_append {mark : Char} {before : List Char} (h : mark ∉ before) (behind : List Char) :
    cutAt mark (before ++ mark :: behind) = (before, some behind) := by
  rw [cutAt, List.takeWhile_append_of_pos (bne_of_notMem h),
    List.dropWhile_append_of_pos (bne_of_notMem h)]
  simp

/-- A text without the mark is not cut. -/
theorem cutAt_of_notMem {mark : Char} {cs : List Char} (h : mark ∉ cs) :
    cutAt mark cs = (cs, none) := by
  have htake : (cs ++ []).takeWhile (· != mark) = cs ++ [].takeWhile (· != mark) :=
    List.takeWhile_append_of_pos (bne_of_notMem h)
  have hdrop : (cs ++ []).dropWhile (· != mark) = [].dropWhile (· != mark) :=
    List.dropWhile_append_of_pos (bne_of_notMem h)
  rw [List.append_nil, List.takeWhile_nil, List.append_nil] at htake
  rw [List.append_nil, List.dropWhile_nil] at hdrop
  rw [cutAt, htake, hdrop]
  rfl

end VersionRange.Text
