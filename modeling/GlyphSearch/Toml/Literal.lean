import GlyphSearch.Decimal.Numeral
import GlyphSearch.Text.Utf8
import GlyphSearch.Text.Ascii

/-!
# Strings, numbers and times in TOML documents

Each function takes a literal from the beginning of a text, and gives its
value with the rest of the text.
-/

namespace GlyphSearch.Toml

open Decimal

/-- Whether a character may stand in comments and one-line strings. -/
def isPlain (c : Char) : Bool := c = '\t' || (0x20 ≤ c.toNat && c.toNat ≠ 0x7f)

/-- Takes a fixed text. -/
def takeWord (word : String) (input : List Char) : Option (List Char) :=
  if word.toList.isPrefixOf input then some (input.drop word.length) else none

/-- Takes a line end. -/
def takeNewline : List Char → Option (List Char)
  | '\n' :: rest => some rest
  | '\r' :: '\n' :: rest => some rest
  | _ => none

/-! ## Strings -/

def hexDigit? (c : Char) : Option Nat :=
  if c.toNat < 0x80 then Text.hexValue? (Text.byte c) else none

/-- Takes `count` hexadecimal digits as the number of a character. -/
def takeCharacter (count : Nat) (input : List Char) : Option (Char × List Char) := do
  let digits ← (input.take count).mapM hexDigit?
  if digits.length < count then none
  let n := digits.foldl (fun n d => 16 * n + d) 0
  if n < 0xd800 ∨ (0xe000 ≤ n ∧ n < 0x110000) then
    return (Char.ofNat n, input.drop count)
  else none

/-- Takes what follows a backslash. -/
def takeEscape : List Char → Option (Char × List Char)
  | 'b' :: rest => some ('\x08', rest)
  | 't' :: rest => some ('\t', rest)
  | 'n' :: rest => some ('\n', rest)
  | 'f' :: rest => some ('\x0c', rest)
  | 'r' :: rest => some ('\r', rest)
  | '"' :: rest => some ('"', rest)
  | '\\' :: rest => some ('\\', rest)
  | 'u' :: rest => takeCharacter 4 rest
  | 'U' :: rest => takeCharacter 8 rest
  | _ => none

/-- Takes a string behind its opening quote. What has been taken is in reverse
in `done`. -/
def takeBasic : Nat → List Char → List Char → Option (String × List Char)
  | 0, _, _ => none
  | _ + 1, _, [] => none
  | fuel + 1, done, c :: rest =>
    if c = '"' then some (String.ofList done.reverse, rest)
    else if c = '\\' then
      match takeEscape rest with
      | some (e, rest) => takeBasic fuel (e :: done) rest
      | none => none
    else if isPlain c then takeBasic fuel (c :: done) rest
    else none

/-- Takes a string without escapes behind its opening quote. -/
def takeLiteral (input : List Char) : Option (String × List Char) :=
  let text := input.takeWhile fun c => c ≠ '\'' && isPlain c
  match input.drop text.length with
  | '\'' :: rest => some (String.ofList text, rest)
  | _ => none

/-- Takes three or more quotes, of which the last three end a string of
several lines. Gives how many belong to the string. -/
def takeClosing (quote : Char) (input : List Char) : Option (Nat × List Char) :=
  let quotes := (input.take 5).takeWhile (· = quote)
  if 3 ≤ quotes.length then some (quotes.length - 3, input.drop quotes.length) else none

/-- Drops blanks and line ends. -/
def dropLines (input : List Char) : List Char :=
  input.dropWhile fun c => c = ' ' || c = '\t' || c = '\n' || c = '\r'

/-- Drops a line end that is escaped, with all blanks and line ends behind
it. -/
def dropEscapedLine? (input : List Char) : Option (List Char) := do
  let rest ← takeNewline (input.dropWhile fun c => c = ' ' || c = '\t')
  return dropLines rest

/-- Takes a string of several lines behind its opening quotes and the line end
that may follow them. -/
def takeLongBasic : Nat → List Char → List Char → Option (String × List Char)
  | 0, _, _ => none
  | fuel + 1, done, input =>
    match takeClosing '"' input with
    | some (quotes, rest) =>
      some (String.ofList (done.reverse ++ List.replicate quotes '"'), rest)
    | none =>
      match input with
      | [] => none
      | '\\' :: rest =>
        match dropEscapedLine? rest with
        | some rest => takeLongBasic fuel done rest
        | none =>
          match takeEscape rest with
          | some (e, rest) => takeLongBasic fuel (e :: done) rest
          | none => none
      | c :: rest =>
        match takeNewline (c :: rest) with
        | some rest => takeLongBasic fuel ('\n' :: done) rest
        | none => if isPlain c then takeLongBasic fuel (c :: done) rest else none

/-- Takes a string of several lines without escapes. -/
def takeLongLiteral : Nat → List Char → List Char → Option (String × List Char)
  | 0, _, _ => none
  | fuel + 1, done, input =>
    match takeClosing '\'' input with
    | some (quotes, rest) =>
      some (String.ofList (done.reverse ++ List.replicate quotes '\''), rest)
    | none =>
      match input with
      | [] => none
      | c :: rest =>
        match takeNewline (c :: rest) with
        | some rest => takeLongLiteral fuel ('\n' :: done) rest
        | none => if isPlain c then takeLongLiteral fuel (c :: done) rest else none

/-- Drops a line end right behind opening quotes. -/
def dropFirstNewline (input : List Char) : List Char := (takeNewline input).getD input

/-- Takes a string of one line. -/
def takeShortString (input : List Char) : Option (String × List Char) :=
  match input with
  | '"' :: rest => takeBasic (rest.length + 1) [] rest
  | '\'' :: rest => takeLiteral rest
  | _ => none

/-- Takes a string of any form. -/
def takeString (input : List Char) : Option (String × List Char) :=
  match input with
  | '"' :: '"' :: '"' :: rest => takeLongBasic (rest.length + 1) [] (dropFirstNewline rest)
  | '\'' :: '\'' :: '\'' :: rest => takeLongLiteral (rest.length + 1) [] (dropFirstNewline rest)
  | _ => takeShortString input

/-! ## Numbers -/

/-- Takes digits of some kind with single underscores between them; the digits
are given without the underscores. -/
def takeGrouped (isDigit : Char → Bool) : List Char → Option (List Char × List Char)
  | [] => none
  | c :: '_' :: rest =>
    if isDigit c then (takeGrouped isDigit rest).map fun (ds, rest) => (c :: ds, rest)
    else none
  | c :: rest =>
    if ¬ isDigit c then none
    else if rest.head?.any isDigit then
      (takeGrouped isDigit rest).map fun (ds, rest) => (c :: ds, rest)
    else some ([c], rest)

/-- Takes a whole number without leading zeros, which may have a sign. -/
def takeWhole (input : List Char) : Option ((Bool × List Char) × List Char) := do
  let (negative, rest) := splitSign input
  match rest with
  | '0' :: rest => return ((negative, ['0']), rest)
  | _ =>
    let (digits, rest) ← takeGrouped isDigit rest
    return ((negative, digits), rest)

/-- The bound of whole numbers. -/
def integerLimit : Nat := Nat.pow 2 63

/-- Takes a whole number with digits of a base other than ten, behind the mark
of the base. -/
def takeBased (base : Nat) (input : List Char) : Option (Int × List Char) := do
  let (digits, rest) ← takeGrouped (fun c => (hexDigit? c).any (· < base)) input
  let n := digits.foldl (fun n c => base * n + (hexDigit? c).getD 0) 0
  if n < integerLimit then return ((n : Int), rest) else none

/-- Takes a whole number. -/
def takeInteger (input : List Char) : Option (Int × List Char) :=
  match input with
  | '0' :: 'x' :: rest => takeBased 16 rest
  | '0' :: 'o' :: rest => takeBased 8 rest
  | '0' :: 'b' :: rest => takeBased 2 rest
  | _ => do
    let ((negative, digits), rest) ← takeWhole input
    let n := ofDigits digits
    if negative ∧ n ≤ integerLimit then return (-(n : Int), rest)
    else if ¬ negative ∧ n < integerLimit then return ((n : Int), rest)
    else none

/-- Takes the point and the digits after it. -/
def takeFraction : List Char → Option (List Char × List Char)
  | '.' :: rest => takeGrouped isDigit rest
  | _ => none

/-- Takes an exponent. -/
def takeExponent : List Char → Option (Int × List Char)
  | c :: rest =>
    if c = 'e' ∨ c = 'E' then do
      let (negative, rest) := splitSign rest
      let (digits, rest) ← takeGrouped isDigit rest
      let n : Int := ofDigits digits
      return (if negative then -n else n, rest)
    else none
  | [] => none

/-- Takes the word for infinity or NaN. -/
def takeSpecial (input : List Char) : Option (List Char) :=
  let (_, rest) := splitSign input
  match takeWord "inf" rest with
  | some rest => some rest
  | none => takeWord "nan" rest

/-- Takes a number with a fraction or an exponent. Positive numbers must not
be too large for a `Double`. -/
def takeDecimal (input : List Char) : Option (List Char) := do
  let ((negative, whole), afterWhole) ← takeWhole input
  let fraction? := takeFraction afterWhole
  let (fraction, afterFraction) := fraction?.getD ([], afterWhole)
  let exponent? := takeExponent afterFraction
  let (exponent, rest) := exponent?.getD (0, afterFraction)
  if fraction?.isNone ∧ exponent?.isNone then none
  let n : Numeral := ⟨negative, ofDigits (whole ++ fraction), exponent - fraction.length⟩
  if n.toDouble.isFinite ∨ negative then some rest else none

/-- Takes a number that is not whole. -/
def takeFloat (input : List Char) : Option (List Char) :=
  match takeDecimal input with
  | some rest => some rest
  | none => takeSpecial input

/-! ## Times -/

/-- Takes exactly `count` digits as a number within bounds. -/
def takeFixed (count low high : Nat) (input : List Char) : Option (Nat × List Char) :=
  let digits := input.take count
  let n := ofDigits digits
  if digits.length = count ∧ digits.all isDigit ∧ low ≤ n ∧ n ≤ high then
    some (n, input.drop count)
  else none

/-- The number of days in a month. -/
def daysIn (year month : Nat) : Nat :=
  if month = 2 then
    if year % 4 = 0 ∧ (year % 100 ≠ 0 ∨ year % 400 = 0) then 29 else 28
  else if [4, 6, 9, 11].contains month then 30
  else 31

/-- Takes a date. -/
def takeDate (input : List Char) : Option (List Char) := do
  let (year, rest) ← takeFixed 4 0 9999 input
  let (month, rest) ← takeFixed 2 1 12 (← takeWord "-" rest)
  let (_, rest) ← takeFixed 2 1 (daysIn year month) (← takeWord "-" rest)
  return rest

/-- Takes parts of a second, if there are any. -/
def takeSecondParts (input : List Char) : Option (List Char) :=
  match input with
  | '.' :: rest =>
    let (digits, rest) := splitDigits rest
    if digits = [] then none else some rest
  | _ => some input

/-- Takes the time of a day. -/
def takeClock (input : List Char) : Option (List Char) := do
  let (_, rest) ← takeFixed 2 0 23 input
  let (_, rest) ← takeFixed 2 0 59 (← takeWord ":" rest)
  let (_, rest) ← takeFixed 2 0 60 (← takeWord ":" rest)
  takeSecondParts rest

/-- Takes the distance from universal time, if there is one. -/
def takeOffset (input : List Char) : Option (List Char) :=
  match input with
  | [] => some []
  | c :: rest =>
    if c = 'Z' ∨ c = 'z' then some rest
    else if c = '+' ∨ c = '-' then do
      let (_, rest) ← takeFixed 2 0 23 rest
      let (_, rest) ← takeFixed 2 0 59 (← takeWord ":" rest)
      return rest
    else some input

/-- Takes the time behind a date, if there is one. -/
def takeTimeOfDate (input : List Char) : Option (List Char) :=
  match input with
  | c :: rest =>
    if c = 'T' ∨ c = 't' ∨ (c = ' ' ∧ (takeFixed 2 0 23 rest).isSome) then do
      takeOffset (← takeClock rest)
    else some input
  | [] => some []

/-- Takes a date, a time of day, or both. -/
def takeTime (input : List Char) : Option (List Char) :=
  match takeDate input with
  | some rest => takeTimeOfDate rest
  | none => takeClock input

end GlyphSearch.Toml
