import VersionRange.Text.Printable

/-!
# Quoted text

The form in which messages show text given by the caller: in single quotes, or in double quotes
when the text holds a single quote and no double one, with a backslash before the backslash and
before the quote in use, short escapes for the tab and the line ends, and the code point in
lower-case hexadecimal for the other unprintable characters.
-/

namespace VersionRange.Text

/-- A hexadecimal number of a fixed width, padded with zeros on the left. -/
def hexadecimal (width n : Nat) : List Char :=
  (Nat.toDigits 16 n).leftpad width '0'

/-- The quote that encloses a text. -/
def quoteFor (cs : List Char) : Char :=
  if cs.contains '\'' && !cs.contains '"' then '"' else '\''

/-- One character of a text enclosed in `quote`. -/
def escaped (quote c : Char) : List Char :=
  if c == quote || c == '\\' then ['\\', c]
  else if c == '\n' then ['\\', 'n']
  else if c == '\r' then ['\\', 'r']
  else if c == '\t' then ['\\', 't']
  else if isPrintable c then [c]
  else if c.toNat < 0x100 then '\\' :: 'x' :: hexadecimal 2 c.toNat
  else if c.toNat < 0x10000 then '\\' :: 'u' :: hexadecimal 4 c.toNat
  else '\\' :: 'U' :: hexadecimal 8 c.toNat

/-- A text as a message shows it. -/
def quoted (cs : List Char) : List Char :=
  let quote := quoteFor cs
  quote :: cs.flatMap (escaped quote) ++ [quote]

end VersionRange.Text
