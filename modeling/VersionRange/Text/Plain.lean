/-!
# Plain text

Terminal styles are switched by an escape, an opening bracket, digits or marks between them, and
a letter. What is printed plainly has no such sequences.
-/

namespace VersionRange.Text

/-- A character that may stand between the bracket and the letter of a style sequence. -/
def isStyleParameter (c : Char) : Bool := c.isDigit || c == ';' || c == '?'

/-- What follows the style sequence at the start of a text, if there is one. -/
def afterStyle? : List Char → Option (List Char)
  | '\x1b' :: '[' :: rest =>
    match rest.dropWhile isStyleParameter with
    | c :: tail => if c.isAlpha then some tail else none
    | [] => none
  | _ => none

theorem length_lt_of_afterStyle? {cs tail : List Char} (h : afterStyle? cs = some tail) :
    tail.length < cs.length := by
  simp only [afterStyle?] at h
  split at h
  · next rest =>
    have hle : (rest.dropWhile isStyleParameter).length ≤ rest.length :=
      (List.dropWhile_suffix isStyleParameter).length_le
    split at h
    · next hdrop =>
      rw [hdrop, List.length_cons] at hle
      split at h
      · cases h; simp only [List.length_cons]; omega
      · cases h
    · cases h
  · cases h

/-- A text without its style sequences. -/
def plain (cs : List Char) : List Char :=
  match _h : afterStyle? cs with
  | some tail => plain tail
  | none =>
    match cs with
    | [] => []
    | c :: rest => c :: plain rest
termination_by cs.length
decreasing_by
  · exact length_lt_of_afterStyle? _h
  · simp

end VersionRange.Text
