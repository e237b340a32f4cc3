import GlyphSearch.Error
import GlyphSearch.Files.Path

/-!
# Paths of archive members

A member may be extracted only if its path stays below the destination. That
is asked of the path twice. As a text it may begin with no slash and have no
`..` between slashes; both kinds of slash count, as archives may come from
systems that use either, and bytes that are no text are read as replacement
characters. As the bytes that are going to be used it may not be absolute, and
none of its components may be `..`.

The route of a member is made of the components.
-/

namespace GlyphSearch.Tar

open Files Text

/-- Whether a character separates the parts of a path on some system. -/
def isSeparator (c : Char) : Bool := c = '/' || c = '\\'

/-- Whether a text names something below the directory that it is seen
from. -/
def isSafe (text : List Char) : Bool :=
  !(text.head?.any isSeparator) && !((text.splitOnP isSeparator).contains ['.', '.'])

/-- The route of a member below the destination. -/
def memberRoute (raw : Path) : Except Error Route :=
  let text := decodeLossy raw
  if ¬ isSafe text.toList then .error (.unsafeMember text)
  else if raw.isAbsolute ∨ dotDot ∈ raw.components then .error (.unsafeMember text)
  else .ok raw.components

end GlyphSearch.Tar
