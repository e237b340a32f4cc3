import GlyphSearch.Binary.Double

/-!
# Decimal numerals

A numeral is a whole number times a power of ten. `ofChars?` reads the
grammar of queries: an optional sign, digits with an optional point, at least
one digit in all, and an optional exponent. `nearest` finds the closest
number of a binary format by exact arithmetic on the whole numeral, however
long it is; only magnitudes far outside every format are answered without
computing the power.
-/

namespace GlyphSearch.Decimal

open Binary

/-- The value of a digit from `0` to `9`; other characters count as more than
any digit. -/
def digitValue (c : Char) : Nat := c.toNat - '0'.toNat

def isDigit (c : Char) : Bool := '0' ≤ c && c ≤ '9'

/-- The number that a row of digits writes in base ten. -/
def ofDigits (digits : List Char) : Nat :=
  digits.foldl (fun n c => 10 * n + digitValue c) 0

/-- The number `digits * 10 ^ exponent`, with a sign. -/
structure Numeral where
  negative : Bool
  digits : Nat
  exponent : Int
  deriving DecidableEq, Repr

/-- Splits off an optional sign; the first part says whether it is `-`. -/
def splitSign : List Char → Bool × List Char
  | '-' :: rest => (true, rest)
  | '+' :: rest => (false, rest)
  | rest => (false, rest)

/-- Splits off the leading digits. -/
def splitDigits (cs : List Char) : List Char × List Char :=
  (cs.takeWhile isDigit, cs.dropWhile isDigit)

/-- Splits off an optional point with the digits after it. -/
def splitFraction : List Char → List Char × List Char
  | '.' :: rest => splitDigits rest
  | rest => ([], rest)

/-- Reads what follows the digits: nothing, or `e` with a whole number. -/
def readExponent : List Char → Option Int
  | [] => some 0
  | c :: rest =>
    if c = 'e' ∨ c = 'E' then
      let (negative, digits) := splitSign rest
      if digits = [] ∨ ¬ digits.all isDigit then none
      else if negative then some (-(ofDigits digits : Int))
      else some (ofDigits digits)
    else none

/-- Reads a whole text as a numeral. -/
def Numeral.ofChars? (cs : List Char) : Option Numeral :=
  let (negative, unsigned) := splitSign cs
  let (whole, afterWhole) := splitDigits unsigned
  let (fraction, afterFraction) := splitFraction afterWhole
  if whole = [] ∧ fraction = [] then none
  else (readExponent afterFraction).map fun e =>
    ⟨negative, ofDigits (whole ++ fraction), e - fraction.length⟩

/-- Beyond this power of ten every format overflows, and below its opposite
every format has only zero. -/
def exponentReach : Int := 400

/-- The field of the format closest to the numeral's magnitude. -/
def Numeral.nearest (f : Format) (n : Numeral) : Nat :=
  if n.digits = 0 then 0
  else if exponentReach < n.exponent then f.infinity
  else if n.exponent + (n.digits.log2 + 1 : Nat) < -exponentReach then 0
  else if 0 ≤ n.exponent then
    f.nearest (n.digits * Nat.pow 10 n.exponent.toNat * Nat.pow 2 f.unitScale) 1
  else
    f.nearest (n.digits * Nat.pow 2 f.unitScale) (Nat.pow 10 (-n.exponent).toNat)

def Numeral.toSingle (n : Numeral) : Single :=
  Single.ofField n.negative (n.nearest .single)

def Numeral.toDouble (n : Numeral) : Double :=
  Double.ofField n.negative (n.nearest .double)

end GlyphSearch.Decimal
