import VersionRange.Decimal.Shortest
import VersionRange.Failure

/-!
# Data of unknown type

A value that a caller hands over where text, a number or an expression is expected, and the way
in which messages show it. Such a value is only ever shown, tested for its type, and refused or
read as one of the types of this library.
-/

namespace VersionRange

/-- A value of a type that is not known beforehand. A record keeps the order of its fields. -/
inductive Datum
  | null
  | boolean (value : Bool)
  | integer (value : Int)
  | float (value : Float)
  | text (value : String)
  | list (items : List Datum)
  | record (entries : List (String × Datum))
  deriving Inhabited

namespace Datum

/-- The name by which messages call the type of a value. -/
def typeName : Datum → String
  | null => "NoneType"
  | boolean _ => "bool"
  | integer _ => "int"
  | float _ => "float"
  | text _ => "str"
  | list _ => "list"
  | record _ => "dict"

/-- The exponent of a number in scientific notation, with its sign and at least two digits. -/
private def exponentText (exponent : Int) : List Char :=
  (if exponent < 0 then '-' else '+') :: (Text.numeral exponent.natAbs).leftpad 2 '0'

/-- A floating-point number with the fewest digits that identify it: positional from `0.0001` up
to sixteen digits before the point, scientific elsewhere, and never without a mark of its type. -/
def floatText (x : Float) : List Char :=
  let sign := if Decimal.isNegative x then ['-'] else []
  match Decimal.Magnitude.ofFloat x with
  | .nan => "nan".toList
  | .infinite => sign ++ "inf".toList
  | .zero => sign ++ "0.0".toList
  | .finite value =>
    let (digits, point) := value.shortest.significant
    if point ≤ -4 || 16 < point then
      let rest := if digits.length ≤ 1 then [] else '.' :: digits.drop 1
      sign ++ digits.take 1 ++ rest ++ 'e' :: exponentText (point - 1)
    else if point ≤ 0 then
      sign ++ '0' :: '.' :: List.replicate (-point).toNat '0' ++ digits
    else
      let whole := (digits.take point.toNat).rightpad point.toNat '0'
      let rest := digits.drop point.toNat
      sign ++ whole ++ '.' :: (if rest.isEmpty then ['0'] else rest)

/-- Texts separated by a comma and a space. -/
private def commaSeparated (items : List (List Char)) : List Char :=
  [',', ' '].intercalate items

mutual

/-- A value as it is written inside another one: text stands in quotes. -/
def literal : Datum → List Char
  | null => "None".toList
  | boolean true => "True".toList
  | boolean false => "False".toList
  | integer n => Text.signedNumeral n
  | float x => floatText x
  | text s => Text.quoted s.toList
  | list items => '[' :: commaSeparated (literals items) ++ [']']
  | record entries => '\x7b' :: commaSeparated (entryLiterals entries) ++ ['\x7d']

/-- The items of a list, each as it is written. -/
private def literals : List Datum → List (List Char)
  | [] => []
  | item :: rest => literal item :: literals rest

/-- The entries of a record, each as it is written. -/
private def entryLiterals : List (String × Datum) → List (List Char)
  | [] => []
  | (key, value) :: rest =>
    (Text.quoted key.toList ++ ':' :: ' ' :: literal value) :: entryLiterals rest

end

/-- A value as it is shown by itself: text stands for itself. -/
def display : Datum → List Char
  | text s => s.toList
  | value => value.literal

mutual

/-- Decide whether every integer in a value is short enough to be written. -/
def isWritable : Datum → Bool
  | integer n => Text.isWritable n.natAbs
  | list items => areWritable items
  | record entries => areWritableEntries entries
  | null | boolean _ | float _ | text _ => true

/-- Decide whether every item of a list can be written. -/
private def areWritable : List Datum → Bool
  | [] => true
  | item :: rest => isWritable item && areWritable rest

/-- Decide whether every entry of a record can be written. -/
private def areWritableEntries : List (String × Datum) → Bool
  | [] => true
  | (_, value) :: rest => isWritable value && areWritableEntries rest

end

/-- A value as it is written inside another one, unless an integer in it is too long. -/
def writeLiteral (value : Datum) : Except Failure (List Char) :=
  ifWritable value.isWritable value.literal

/-- A value as it is shown by itself, unless an integer in it is too long. -/
def write (value : Datum) : Except Failure (List Char) :=
  ifWritable value.isWritable value.display

end Datum

end VersionRange
