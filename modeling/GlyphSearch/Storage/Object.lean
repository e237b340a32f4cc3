import GlyphSearch.Error
import GlyphSearch.Files.Path

/-!
# Object names

The name of an object is a row of parts with slashes between them. One slash
before and one behind it do not count. No part is empty, `.` or `..`, or has a
control character in it.
-/

namespace GlyphSearch.Storage

open Files Text

/-- Whether a text may be a part of a name. -/
def isPart (part : List Char) : Bool :=
  part ≠ [] && part ≠ ['.'] && part ≠ ['.', '.']
    && part.all fun c => 0x20 ≤ c.toNat && c.toNat ≠ 0x7f

/-- Drops a slash at the beginning. -/
def dropLeadingSlash (cs : List Char) : List Char :=
  if cs.head? = some '/' then cs.drop 1 else cs

/-- Drops a slash at the end. -/
def dropFinalSlash (cs : List Char) : List Char :=
  if cs.getLast? = some '/' then cs.dropLast else cs

/-- Reads an object name. The empty name is one, too. -/
def parseObject (name : String) : Except Error String :=
  let inner := dropLeadingSlash name.toList
  if inner = [] then .ok ""
  else
    let inner := dropFinalSlash inner
    if (inner.splitOnP (· = '/')).all isPart then .ok (String.ofList inner)
    else .error .storagePath

/-- Whether a bucket on disk may hold a file under a name. Names that end in
`#` and digits are kept for uploads that are under way. -/
def isStorable (name : String) : Bool :=
  let last := ((name.toList.splitOnP (· = '/')).getLast?).getD []
  let digits := (last.dropWhile (· ≠ '#')).drop 1
  last ≠ [] && !(digits ≠ [] && digits.all fun c => '0' ≤ c && c ≤ '9')

end GlyphSearch.Storage
