import VersionRange.Text.Numeral

/-!
# Shortest decimal of a floating-point number

A finite binary floating-point number `m · 2 ^ q` is the nearest one to every real of an
interval. The shortest decimal in that interval identifies the number. It is found on the grids
of one, two, … seventeen significant digits: the first grid with a point in the interval gives
the digits, and of two such points the nearer to the number.
-/

namespace VersionRange.Decimal

/-- A positive number `mantissa · 2 ^ exponent` with the reals that round to it. They reach half a
step up, and half a step down, or a quarter where the next number below is nearer. -/
structure Binary where
  mantissa : Nat
  exponent : Int
  nearBelow : Bool

/-- The decimal `digits · 10 ^ exponent`. -/
structure Scaled where
  digits : Nat
  exponent : Int

/-- Sort a floating-point number by its bits: the sign, and the magnitude unless it is zero, an
infinity or no number. -/
inductive Magnitude
  | nan
  | infinite
  | zero
  | finite (value : Binary)

/-- Decode the magnitude of a floating-point number. -/
def Magnitude.ofFloat (x : Float) : Magnitude :=
  let bits := x.toBits.toNat % 0x8000000000000000
  let biased : Nat := bits / 0x10000000000000
  let fraction : Nat := bits % 0x10000000000000
  if biased = 2047 then
    if fraction = 0 then .infinite else .nan
  else if biased = 0 then
    if fraction = 0 then .zero else .finite ⟨fraction, -1074, false⟩
  else .finite ⟨0x10000000000000 + fraction, Int.ofNat biased - 1075, fraction == 0 && biased != 1⟩

/-- Decide whether a floating-point number carries a minus sign. -/
def isNegative (x : Float) : Bool := 0x8000000000000000 ≤ x.toBits.toNat

/-- `n · base ^ power` as a fraction, for a power of either sign. -/
private def scaledFraction (base : Nat) (power : Int) (fraction : Nat × Nat) : Nat × Nat :=
  (fraction.1 * base.pow power.toNat, fraction.2 * base.pow (-power).toNat)

/-- The count of digits before the decimal point of a number; zero or negative below a tenth. -/
def Binary.pointPosition (x : Binary) : Int :=
  let (above, below) := scaledFraction 2 x.exponent (x.mantissa * Nat.pow 10 400, 1)
  ((Text.numeral (above / below)).length : Int) - 400

/-- The grid point of step `10 ^ power` that identifies the number, if there is one. -/
def Binary.onGrid? (x : Binary) (power : Int) : Option Nat :=
  -- one unit is a quarter of the step between neighbours, counted in steps of the grid
  let (above, below) := scaledFraction 10 (-power) (scaledFraction 2 (x.exponent - 2) (1, 1))
  let center := 4 * x.mantissa * above
  let low := (4 * x.mantissa - (if x.nearBelow then 1 else 2)) * above
  let high := (4 * x.mantissa + 2) * above
  let closed := x.mantissa % 2 == 0
  let hits (n : Nat) : Bool :=
    if closed then low ≤ n * below && n * below ≤ high else low < n * below && n * below < high
  let floor := center / below
  match hits floor, hits (floor + 1) with
  | true, true =>
    if center - floor * below ≤ (floor + 1) * below - center then some floor else some (floor + 1)
  | true, false => some floor
  | false, true => some (floor + 1)
  | false, false => none

/-- The shortest decimal that identifies a number. -/
def Binary.shortest (x : Binary) : Scaled :=
  let point := x.pointPosition
  let found := (List.range 17).findSome? fun count ↦
    let power := point - (count + 1 : Nat)
    (x.onGrid? power).map (Scaled.mk · power)
  found.getD ⟨x.mantissa, 0⟩

/-- The digits of a decimal without the zeros at their end, and the position of the point. -/
def Scaled.significant (d : Scaled) : List Char × Int :=
  let digits := Text.numeral d.digits
  let kept := (digits.reverse.dropWhile (· == '0')).reverse
  (kept, digits.length + d.exponent)

end VersionRange.Decimal
