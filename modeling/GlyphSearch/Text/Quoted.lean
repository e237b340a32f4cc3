import GlyphSearch.Text.Graphic

/-!
# Quoted texts

A text in messages stands between quotes. Quotes and backslashes in it are
escaped, line ends, tabs and NUL have short escapes, and every other character
that is not graphic is given by its number.
-/

namespace GlyphSearch.Text

/-- The number of a character in base sixteen. -/
def hexNumber (c : Char) : String := String.ofList (Nat.toDigits 16 c.toNat)

/-- A character as it is written between quotes. -/
def quotedChar (c : Char) : String :=
  if c = '"' then "\\\""
  else if c = '\\' then "\\\\"
  else if c = '\n' then "\\n"
  else if c = '\r' then "\\r"
  else if c = '\t' then "\\t"
  else if c = '\x00' then "\\0"
  else if isGraphic c then c.toString
  else "\\u\x7b" ++ hexNumber c ++ "\x7d"

/-- A text between quotes. -/
def quoted (s : String) : String :=
  "\"" ++ String.join (s.toList.map quotedChar) ++ "\""

end GlyphSearch.Text
