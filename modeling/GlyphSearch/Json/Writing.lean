import GlyphSearch.Json.Text
import GlyphSearch.Decimal.Layout

/-!
# Writing JSON documents

`Value.compact` writes a document without any white space. Floating-point
numbers take the fewest digits; those that are not finite become `null`.
-/

namespace GlyphSearch.Json

open Text

/-- A natural number as a document. -/
def Value.ofNat (n : Nat) : Value := .number (Nat.toDigits 10 n)

/-- A 32-bit number as a document. -/
def Value.ofSingle (x : Single) : Value :=
  if x.isFinite then .number x.text.toList else .null

/-- A 64-bit number as a document. -/
def Value.ofDouble (x : Double) : Value :=
  if x.isFinite then .number x.text.toList else .null

/-- An object from keys in plain text. -/
def Value.ofFields (fields : List (String × Value)) : Value :=
  .object (fields.map fun (key, value) => (encode (escape key), value))

/-- Puts commas between parts. -/
def commaSeparated (parts : List Bytes) : Bytes :=
  (parts.intersperse [byte ',']).flatten

/-- A string with its quotes. -/
def quotedLiteral (literal : Bytes) : Bytes := byte '"' :: (literal ++ [byte '"'])

mutual

/-- A document without white space. -/
def Value.compact : Value → Bytes
  | .null => bytes "null"
  | .bool b => if b then bytes "true" else bytes "false"
  | .number literal => literal.map byte
  | .string literal => quotedLiteral literal
  | .array items => byte '[' :: (commaSeparated (compactItems items) ++ [byte ']'])
  | .object members => byte '{' :: (commaSeparated (compactMembers members) ++ [byte '}'])

/-- The items of an array, each without white space. -/
def compactItems : List Value → List Bytes
  | [] => []
  | v :: rest => v.compact :: compactItems rest

/-- The members of an object, each without white space. -/
def compactMembers : List (Bytes × Value) → List Bytes
  | [] => []
  | (key, v) :: rest =>
    (quotedLiteral key ++ byte ':' :: v.compact) :: compactMembers rest

end

/-- The text of a document without white space. -/
def Value.compactText (v : Value) : String := decodeLossy v.compact

end GlyphSearch.Json
