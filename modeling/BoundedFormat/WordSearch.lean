import BoundedFormat.Bytes

/-!
# Words in a list-valued setting

A setting such as a list of conditions is a byte string of words between separators. `words`
gives the words in order; `containsWord` asks for one of them.
-/

namespace BoundedFormat

/-- Separators between words: blanks and `, ; | &`. -/
def isSeparator (b : UInt8) : Bool :=
  isSpace b || b == ascii ',' || b == ascii ';' || b == ascii '|' || b == ascii '&'

/-- The non-empty runs of bytes between separators. -/
def words (s : Bytes) : List Bytes := (s.splitOnP isSeparator).filter (!·.isEmpty)

/-- True if `needle`, cut before its first separator, is a word of `haystack`. The empty word is
never there. -/
def containsWord (haystack needle : Bytes) : Bool :=
  let word := needle.takeWhile (!isSeparator ·)
  !word.isEmpty && (words haystack).contains word

end BoundedFormat
