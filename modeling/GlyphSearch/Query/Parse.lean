import GlyphSearch.Decimal.Numeral
import GlyphSearch.Error
import GlyphSearch.Text.Blank

/-!
# Query texts

A query is a row of decimal numerals between blanks. Every one of them has to
be a number that is finite as a `Single`; the first one that is not decides
the error. Numerals that only a `Double` can hold are told apart from the
words for infinity and NaN, and these from all other words.
-/

namespace GlyphSearch.Query

open Decimal Text

/-- The words that floating-point texts have for what is not a finite number,
without sign and in lower case. -/
def specialWords : List String := ["inf", "infinity", "nan"]

/-- Whether a token spells infinity or NaN, in any case and with any sign. -/
def isSpecialWord (token : List Char) : Bool :=
  specialWords.contains (lowerAscii (String.ofList (splitSign token).2))

/-- The value of one token. -/
def parseToken (token : List Char) : Except QueryFault Single :=
  match Numeral.ofChars? token with
  | some n =>
    if n.toSingle.isFinite then .ok n.toSingle
    else if n.toDouble.isFinite then .error (.outOfRange (String.ofList token))
    else .error (.notFinite (String.ofList token))
  | none =>
    if isSpecialWord token then .error (.notFinite (String.ofList token))
    else .error (.notANumber (String.ofList token))

/-- The values of a query text. -/
def parse (text : String) : Except Error (List Single) :=
  match (words text.toList).mapM parseToken with
  | .error fault => .error (.invalidQuery fault)
  | .ok [] => .error (.invalidQuery .empty)
  | .ok values => .ok values

/-- Fills a query with zeros up to the dimension of the index. -/
def fitDimension (query : List Single) (dimension : Nat) : Except Error (List Single) :=
  if dimension < query.length then .error (.dimensionMismatch dimension query.length)
  else .ok (query ++ List.replicate (dimension - query.length) Single.zero)

end GlyphSearch.Query
