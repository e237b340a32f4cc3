import GlyphSearch.Text.Ascii

/-!
# JSON documents

A document keeps its strings and numbers as they are written. Whether a string
is well-formed text, and which number a literal stands for, is asked only
where the value is used; so a field that nobody reads may hold any bytes
between its quotes.

`Value.ofBytes?` reads a whole document and `Value.compact` writes one. The
reader gets fuel for two steps a byte, which no document can use up.
-/

namespace GlyphSearch.Json

open Text

/-- A document. Strings are the bytes between the quotes, with their
escapes. -/
inductive Value where
  | null
  | bool (value : Bool)
  | number (literal : List Char)
  | string (literal : Bytes)
  | array (items : List Value)
  | object (members : List (Bytes × Value))
  deriving Inhabited

/-- White space between tokens. -/
def isSpace (b : UInt8) : Bool :=
  b = byte ' ' || b = byte '\n' || b = byte '\t' || b = byte '\r'

def skipSpace (input : Bytes) : Bytes := input.dropWhile isSpace

/-- Takes the leading digits. -/
def takeDigits (input : Bytes) : Bytes × Bytes :=
  (input.takeWhile isDigitByte, input.dropWhile isDigitByte)

/-- Takes one or more digits. -/
def takeSomeDigits (input : Bytes) : Option (Bytes × Bytes) :=
  let (digits, rest) := takeDigits input
  if digits = [] then none else some (digits, rest)

/-- Takes the digits before the point: a zero stands alone. -/
def takeWhole (input : Bytes) : Option (Bytes × Bytes) := do
  let (digits, rest) ← takeSomeDigits input
  if digits.head? = some (byte '0') ∧ 1 < digits.length then none else some (digits, rest)

/-- Takes an optional fraction, which has at least one digit. -/
def takeFraction : Bytes → Option (Bytes × Bytes)
  | [] => some ([], [])
  | b :: rest =>
    if b = byte '.' then
      (takeSomeDigits rest).map fun (digits, rest) => (b :: digits, rest)
    else some ([], b :: rest)

/-- Takes an optional exponent, which has at least one digit. -/
def takeExponent : Bytes → Option (Bytes × Bytes)
  | [] => some ([], [])
  | b :: rest =>
    if b = byte 'e' ∨ b = byte 'E' then
      let (sign, rest) := match rest with
        | c :: more => if c = byte '+' ∨ c = byte '-' then ([c], more) else ([], rest)
        | [] => ([], [])
      (takeSomeDigits rest).map fun (digits, rest) => (b :: (sign ++ digits), rest)
    else some ([], b :: rest)

/-- Takes a number. -/
def takeNumber (input : Bytes) : Option (Bytes × Bytes) := do
  let (sign, rest) := match input with
    | b :: rest => if b = byte '-' then ([b], rest) else ([], input)
    | [] => ([], [])
  let (whole, rest) ← takeWhole rest
  let (fraction, rest) ← takeFraction rest
  let (exponent, rest) ← takeExponent rest
  return (sign ++ whole ++ fraction ++ exponent, rest)

/-- Whether a character may follow a backslash, apart from `u`. -/
def isShortEscape (b : UInt8) : Bool :=
  [byte '"', byte '\\', byte '/', byte 'b', byte 'f', byte 'n', byte 'r', byte 't'].contains b

/-- Takes a string up to its closing quote, keeping escapes as they are. What
has been taken is in reverse in `done`. -/
def takeString (done : Bytes) : Bytes → Option (Bytes × Bytes)
  | [] => none
  | b :: rest =>
    if b = byte '"' then some (done.reverse, rest)
    else if b < byte ' ' then none
    else if b = byte '\\' then
      match rest with
      | [] => none
      | e :: rest =>
        if isShortEscape e then takeString (e :: b :: done) rest
        else if e = byte 'u' then
          match rest with
          | h₁ :: h₂ :: h₃ :: h₄ :: rest =>
            if (hexNumber? [h₁, h₂, h₃, h₄]).isSome then
              takeString (h₄ :: h₃ :: h₂ :: h₁ :: e :: b :: done) rest
            else none
          | _ => none
        else none
    else takeString (b :: done) rest

/-- Takes a fixed word. -/
def takeWord (word : String) (input : Bytes) : Option Bytes :=
  let w := bytes word
  if input.take w.length = w then some (input.drop w.length) else none

mutual

/-- Takes one value. -/
def takeValue : Nat → Bytes → Option (Value × Bytes)
  | 0, _ => none
  | fuel + 1, input =>
    match skipSpace input with
    | [] => none
    | b :: rest =>
      if b = byte '"' then (takeString [] rest).map fun (s, rest) => (.string s, rest)
      else if b = byte '{' then
        match skipSpace rest with
        | [] => none
        | c :: more =>
          if c = byte '}' then some (.object [], more)
          else takeMembers fuel [] (c :: more)
      else if b = byte '[' then
        match skipSpace rest with
        | [] => none
        | c :: more =>
          if c = byte ']' then some (.array [], more)
          else takeItems fuel [] (c :: more)
      else if b = byte 't' then (takeWord "rue" rest).map fun rest => (.bool true, rest)
      else if b = byte 'f' then (takeWord "alse" rest).map fun rest => (.bool false, rest)
      else if b = byte 'n' then (takeWord "ull" rest).map fun rest => (.null, rest)
      else
        (takeNumber (b :: rest)).map fun (literal, rest) => (.number (literal.map char), rest)

/-- Takes the items of an array and its end. -/
def takeItems : Nat → List Value → Bytes → Option (Value × Bytes)
  | 0, _, _ => none
  | fuel + 1, done, input =>
    match takeValue fuel input with
    | none => none
    | some (item, rest) =>
      match skipSpace rest with
      | [] => none
      | b :: rest =>
        if b = byte ',' then takeItems fuel (item :: done) rest
        else if b = byte ']' then some (.array (item :: done).reverse, rest)
        else none

/-- Takes the members of an object and its end. -/
def takeMembers : Nat → List (Bytes × Value) → Bytes → Option (Value × Bytes)
  | 0, _, _ => none
  | fuel + 1, done, input =>
    match skipSpace input with
    | [] => none
    | q :: rest =>
      if q ≠ byte '"' then none
      else
        match takeString [] rest with
        | none => none
        | some (key, rest) =>
          match skipSpace rest with
          | [] => none
          | b :: rest =>
            if b ≠ byte ':' then none
            else
              match takeValue fuel rest with
              | none => none
              | some (value, rest) =>
                match skipSpace rest with
                | [] => none
                | e :: rest =>
                  if e = byte ',' then takeMembers fuel ((key, value) :: done) rest
                  else if e = byte '}' then some (.object ((key, value) :: done).reverse, rest)
                  else none

end

/-- Reads a whole document; only white space may follow it. -/
def Value.ofBytes? (input : Bytes) : Option Value := do
  let (value, rest) ← takeValue (2 * input.length + 2) input
  if skipSpace rest = [] then some value else none

end GlyphSearch.Json
