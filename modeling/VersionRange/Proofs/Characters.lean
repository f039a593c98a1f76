import VersionRange.Text.Blank
import VersionRange.Version.Identifier

/-!
# Classes of characters

What stands in an identifier is no white space, nor is anything else that can be seen. Text
without white space is not changed by dropping the white space at its ends.
-/

namespace VersionRange.Text

theorem isBlank_of_toNat {c : Char} (hlow : 0x20 < c.toNat) (hhigh : c.toNat < 0x80) :
    isBlank c = false := by
  simp only [isBlank, Bool.or_eq_false_iff, Bool.and_eq_false_iff, decide_eq_false_iff_not,
    beq_eq_false_iff_ne]
  omega

private theorem toNat_of_isIdentifierChar {c : Char} (h : isIdentifierChar c = true) :
    0x2D ≤ c.toNat ∧ c.toNat ≤ 0x7A := by
  change (((c.isUpper || c.isLower) || c.isDigit) || c == '-') = true at h
  simp only [Bool.or_eq_true, beq_iff_eq] at h
  rcases h with ((h | h) | h) | rfl
  · have hbounds : 0x41 ≤ c.toNat ∧ c.toNat ≤ 0x5A := of_decide_eq_true h
    omega
  · change (decide ('a'.val ≤ c.val) && decide (c.val ≤ 'z'.val)) = true at h
    rw [Bool.and_eq_true, decide_eq_true_eq, decide_eq_true_eq] at h
    have hbounds : 0x61 ≤ c.toNat ∧ c.toNat ≤ 0x7A := h
    omega
  · rw [Char.isDigit_iff_toNat] at h
    change 0x30 ≤ c.toNat ∧ c.toNat ≤ 0x39 at h
    omega
  · decide

/-- Identifiers have no white space in them. -/
theorem isBlank_of_isIdentifierChar {c : Char} (h : isIdentifierChar c = true) :
    isBlank c = false := by
  obtain ⟨hlow, hhigh⟩ := toNat_of_isIdentifierChar h
  exact isBlank_of_toNat (by omega) (by omega)

/-- A character that may stand in the text of a version. -/
def isVersionChar (c : Char) : Bool := isIdentifierChar c || c == '.' || c == '+'

theorem toNat_of_isVersionChar {c : Char} (h : isVersionChar c = true) :
    0x2B ≤ c.toNat ∧ c.toNat ≤ 0x7A := by
  simp only [isVersionChar, Bool.or_eq_true, beq_iff_eq] at h
  rcases h with (h | rfl) | rfl
  · have := toNat_of_isIdentifierChar h
    omega
  · decide
  · decide

/-- The texts of versions have no white space in them. -/
theorem isBlank_of_isVersionChar {c : Char} (h : isVersionChar c = true) : isBlank c = false := by
  obtain ⟨hlow, hhigh⟩ := toNat_of_isVersionChar h
  exact isBlank_of_toNat (by omega) (by omega)

private theorem dropWhile_isBlank_eq_self {cs : List Char}
    (h : ∀ c, cs.head? = some c → isBlank c = false) : cs.dropWhile isBlank = cs := by
  cases cs with
  | nil => rfl
  | cons c cs => rw [List.dropWhile_cons_of_neg (by simp [h c rfl])]

/-- A text that neither begins nor ends with white space has none to drop. -/
theorem trim_eq_self_of_ends {cs : List Char} (hhead : ∀ c, cs.head? = some c → isBlank c = false)
    (hlast : ∀ c, cs.getLast? = some c → isBlank c = false) : trim cs = cs := by
  have hreverse : ∀ c, cs.reverse.head? = some c → isBlank c = false := by
    rwa [List.head?_reverse]
  rw [trim, dropWhile_isBlank_eq_self hhead, dropWhile_isBlank_eq_self hreverse,
    List.reverse_reverse]

/-- A text without white space has none at its ends. -/
theorem trim_eq_self {cs : List Char} (h : ∀ c ∈ cs, isBlank c = false) : trim cs = cs :=
  trim_eq_self_of_ends (fun c hc ↦ h c (List.mem_of_head? hc))
    fun c hc ↦ h c (List.mem_of_getLast? hc)

/-- A text stands between the white space that is dropped at its ends. -/
theorem exists_eq_append_trim (cs : List Char) :
    ∃ before behind, cs = before ++ (trim cs ++ behind) ∧ (∀ c ∈ before, isBlank c = true) ∧
      ∀ c ∈ behind, isBlank c = true := by
  have hfront := List.takeWhile_append_dropWhile (p := isBlank) (l := cs)
  have hback := congrArg List.reverse <|
    List.takeWhile_append_dropWhile (p := isBlank) (l := (cs.dropWhile isBlank).reverse)
  rw [List.reverse_append, List.reverse_reverse] at hback
  refine ⟨cs.takeWhile isBlank, ((cs.dropWhile isBlank).reverse.takeWhile isBlank).reverse, ?_, ?_,
    fun c hc ↦ ?_⟩
  · rw [trim, hback, hfront]
  · exact List.all_eq_true.mp List.all_takeWhile
  · exact List.all_eq_true.mp List.all_takeWhile c (List.mem_reverse.mp hc)

end VersionRange.Text
