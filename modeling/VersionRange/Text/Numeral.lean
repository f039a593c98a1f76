/-!
# Numerals

Decimal numbers as a version writes them: ASCII digits without a needless leading zero. The
numeral of a number and the value of a numeral undo each other. Numerals that are too long are
neither read nor written, so that whatever is written can be read; the limit is the usual one of
the runtime.
-/

namespace VersionRange.Text

/-- The numeral of a number. -/
def numeral (n : Nat) : List Char := Nat.toDigits 10 n

/-- The numeral of an integer, with a hyphen before a negative one. -/
def signedNumeral : Int → List Char
  | .ofNat n => numeral n
  | .negSucc n => '-' :: numeral (n + 1)

/-- The value of a row of ASCII digits. -/
def numeralValue (digits : List Char) : Nat := Nat.ofDigitChars 10 digits 0

/-- A row of ASCII digits, leading zeros allowed. Source: `_is_numeric`. -/
def isDigits (cs : List Char) : Bool := !cs.isEmpty && cs.all Char.isDigit

/-- A zero that stands before other characters. Part of `_check_identifiers` and `_diagnose`. -/
def hasLeadingZero : List Char → Bool
  | '0' :: _ :: _ => true
  | _ => false

/-- A row of ASCII digits without a needless leading zero. -/
def isNumeral (cs : List Char) : Bool := isDigits cs && !hasLeadingZero cs

/-- The length of the longest numeral that is read or written. -/
def maxDigits : Nat := 4300

/-- Decide whether the numeral of a number is short enough to be written. -/
def isWritable (n : Nat) : Bool := (numeral n).length ≤ maxDigits

theorem numeralValue_numeral (n : Nat) : numeralValue (numeral n) = n :=
  Nat.ofDigitChars_toDigits (by decide) (by decide)

theorem isDigits_numeral (n : Nat) : isDigits (numeral n) = true := by
  simp only [isDigits, numeral, Bool.and_eq_true, List.all_eq_true]
  refine ⟨?_, fun c hc ↦ Nat.isDigit_of_mem_toDigits (by decide) (by decide) hc⟩
  cases h : Nat.toDigits 10 n with
  | nil => exact absurd h Nat.toDigits_ne_nil
  | cons => rfl

end VersionRange.Text
