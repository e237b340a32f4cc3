import GlyphSearch.Json.Value

/-!
# Strings in JSON documents

`escape` writes a text between quotes: quotes, backslashes and control
characters are escaped, everything else stands for itself. `unescape?` reads
what stands between quotes. It has no result if the bytes are not well-formed
text, or if an escape names half of a surrogate pair.
-/

namespace GlyphSearch.Json

open Text

/-- A number below sixteen as a digit. -/
def hexDigit (n : Nat) : Char := Nat.digitChar n

/-- A character as it is written between quotes. -/
def escapeChar (c : Char) : List Char :=
  if c = '"' then ['\\', '"']
  else if c = '\\' then ['\\', '\\']
  else if c = '\n' then ['\\', 'n']
  else if c = '\t' then ['\\', 't']
  else if c = '\r' then ['\\', 'r']
  else if c = '\x08' then ['\\', 'b']
  else if c = '\x0c' then ['\\', 'f']
  else if c.toNat < 0x20 then
    ['\\', 'u', '0', '0', hexDigit (c.toNat / 16), hexDigit (c.toNat % 16)]
  else [c]

/-- What stands between the quotes for a text. -/
def escape (s : String) : String := String.ofList (s.toList.flatMap escapeChar)

/-- The document that is a text. -/
def Value.ofText (s : String) : Value := .string (encode (escape s))

/-- The byte that a short escape stands for. -/
def shortEscape? (b : UInt8) : Option UInt8 :=
  if b = byte 'b' then some 8
  else if b = byte 'f' then some 12
  else if b = byte 'n' then some 10
  else if b = byte 'r' then some 13
  else if b = byte 't' then some 9
  else if b = byte '"' ∨ b = byte '\\' ∨ b = byte '/' then some b
  else none

/-- The bytes of the character with a number. -/
def encodeNumber (n : Nat) : Bytes := encode (Char.ofNat n).toString

/-- Puts the bytes of a text behind those in `done`, which is in reverse. -/
def unescapeOnto (done : Bytes) : Bytes → Option Bytes
  | [] => some done
  | b :: rest =>
    if b ≠ byte '\\' then unescapeOnto (b :: done) rest
    else
      match rest with
      | [] => none
      | e :: rest =>
        if e ≠ byte 'u' then
          match shortEscape? e with
          | some c => unescapeOnto (c :: done) rest
          | none => none
        else
          match rest with
          | h₁ :: h₂ :: h₃ :: h₄ :: rest =>
            match hexNumber? [h₁, h₂, h₃, h₄] with
            | none => none
            | some n =>
              if n < 0xd800 ∨ 0xe000 ≤ n then
                unescapeOnto ((encodeNumber n).reverse ++ done) rest
              else if 0xdc00 ≤ n then none
              else
                match rest with
                | s :: u :: l₁ :: l₂ :: l₃ :: l₄ :: rest =>
                  if s = byte '\\' ∧ u = byte 'u' then
                    match hexNumber? [l₁, l₂, l₃, l₄] with
                    | none => none
                    | some low =>
                      if 0xdc00 ≤ low ∧ low < 0xe000 then
                        let c := 0x10000 + (n - 0xd800) * 0x400 + (low - 0xdc00)
                        unescapeOnto ((encodeNumber c).reverse ++ done) rest
                      else none
                  else none
                | _ => none
          | _ => none

/-- The text that stands between quotes. -/
def unescape? (literal : Bytes) : Option String := do
  decode? (← unescapeOnto [] literal).reverse

/-- The text that a document is. -/
def Value.text? : Value → Option String
  | .string literal => unescape? literal
  | _ => none

end GlyphSearch.Json
