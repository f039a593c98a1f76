import VersionRange.Failure
import VersionRange.Version.Basic

/-!
# Writing versions

Every version has a canonical text, `Version.chars`. It is handed out only if no number in it is
longer than what is read as a number; a longer one arises when a number of the greatest length is
raised, and a version that has one is still compared like any other.
-/

namespace VersionRange.Version

/-- The canonical text of a version, unless a number in it is too long to be written.
Source: the text of `Version`. -/
def write (v : Version) : Except Failure String := ifWritable v.isWritable v.toString

end VersionRange.Version
