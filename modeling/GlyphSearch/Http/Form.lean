import GlyphSearch.Error
import GlyphSearch.Text.Ascii
import GlyphSearch.Text.Blank

/-!
# Form fields

Fields are pairs of name and value between ampersands, in a query string or in
the body of a form. A plus sign stands for a space, and a percent sign with
two hexadecimal digits for a byte; any other percent sign stands for itself.
-/

namespace GlyphSearch.Http

open Text

/-- Decodes plus and percent signs. What has been decoded is in reverse in
`done`. -/
def percentDecodeOnto (done : Bytes) : Bytes → Bytes
  | [] => done
  | b :: rest =>
    if b = byte '+' then percentDecodeOnto (byte ' ' :: done) rest
    else if b = byte '%' then
      match rest with
      | h :: l :: more =>
        match hexNumber? [h, l] with
        | some n => percentDecodeOnto (UInt8.ofNat n :: done) more
        | none => percentDecodeOnto (b :: done) (h :: l :: more)
      | more => percentDecodeOnto (b :: done) more
    else percentDecodeOnto (b :: done) rest
  termination_by bs => bs.length

/-- The text of a name or value. -/
def percentDecode (bs : Bytes) : String := decodeLossy (percentDecodeOnto [] bs).reverse

/-- The pairs of a form. -/
def parsePairs (form : Bytes) : List (String × String) :=
  ((form.splitOnP (· = byte '&')).filter (· ≠ [])).map fun pair =>
    let name := pair.takeWhile (· ≠ byte '=')
    (percentDecode name, percentDecode (pair.drop (name.length + 1)))

/-- The fields of a search. -/
structure SearchFields where
  query : Option String
  version : Option String
  deriving DecidableEq, Repr

namespace SearchFields

def empty : SearchFields := ⟨none, none⟩

/-- The name of the version's field. -/
def versionName : String := "v"

/-- The name of the query's field. -/
def queryName : String := "query"

/-- Collects fields. Fails with the name of the first field that is there
twice; other names are passed over. -/
def collect (fields : SearchFields) : List (String × String) → Except String SearchFields
  | [] => .ok fields
  | (name, value) :: rest =>
    if name = queryName then
      if fields.query.isSome then .error name
      else collect { fields with query := some value } rest
    else if name = versionName then
      if fields.version.isSome then .error name
      else collect { fields with version := some value } rest
    else collect fields rest

/-- The fields of a form. -/
def parse (form : Bytes) : Except String SearchFields := collect empty (parsePairs form)

/-- Fills fields that are not there. -/
def or (fields others : SearchFields) : SearchFields :=
  ⟨fields.query.or others.query, fields.version.or others.version⟩

end SearchFields

end GlyphSearch.Http
