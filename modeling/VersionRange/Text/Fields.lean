/-!
# Dotted fields

Text that is divided by dots or cut at the first occurrence of a mark. Joining the fields of a
text by dots gives the text back.
-/

namespace VersionRange.Text

/-- The fields between the dots of a text; a text without a dot is its only field.
Part of `_check_identifiers` and `_diagnose`. -/
def fields (cs : List Char) : List (List Char) := cs.splitOn '.'

/-- Texts joined by dots. Source: `Version.prerelease_str` and `Version.build_str`. -/
def joinFields (texts : List (List Char)) : List Char := ['.'].intercalate texts

/-- What stands before the first `mark`, and what stands after it if there is one.
Part of `_diagnose`. -/
def cutAt (mark : Char) (cs : List Char) : List Char × Option (List Char) :=
  (cs.takeWhile (· != mark), (cs.dropWhile (· != mark)).tail?)

theorem joinFields_fields (cs : List Char) : joinFields (fields cs) = cs :=
  List.intercalate_splitOn '.'

end VersionRange.Text
