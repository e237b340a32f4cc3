import GlyphSearch.Json.Value
import GlyphSearch.Decimal.Numeral

/-!
# Numbers in JSON documents

A number without fraction and exponent is a whole number if it fits 64 bits.
Any other number is read as a `Double` in two roundings. Its digits make a
whole number of at most 64 bits; digits that no longer fit are left out, and
those before the point count as powers of ten. That whole number is rounded,
then multiplied or divided by a power of ten. A number too large for the
format has no reading.
-/

namespace GlyphSearch.Json

open Decimal

/-- One more than the largest whole number read. -/
def wholeLimit : Nat := Nat.pow 2 64

/-- A number as it is read. -/
inductive Number where
  | whole (value : Int)
  | real (value : Double)
  deriving DecidableEq, Repr

/-- Adds a digit, if it fits. -/
def pushDigit? (significand : Nat) (c : Char) : Option Nat :=
  let n := 10 * significand + digitValue c
  if n < wholeLimit then some n else none

/-- Reads digits before the point. Gives the significand and the number of
digits left out. -/
def readWhole (significand : Nat) : List Char → Nat × Nat
  | [] => (significand, 0)
  | c :: rest =>
    match pushDigit? significand c with
    | some n => readWhole n rest
    | none => (significand, rest.length + 1)

/-- Reads digits after the point. Gives the significand and the number of
digits that are in it. -/
def readFraction (significand : Nat) : List Char → Nat × Nat
  | [] => (significand, 0)
  | c :: rest =>
    match pushDigit? significand c with
    | some n =>
      let (final, count) := readFraction n rest
      (final, count + 1)
    | none => (significand, 0)

/-- The largest power of ten applied at once. -/
def largestPower : Nat := 308

def powerOfTen (n : Nat) : Double := (⟨false, 1, n⟩ : Numeral).toDouble

/-- Applies a power of ten to a rounded significand. A number below one may
take several divisions, each by the largest power, until it is zero. -/
def scale (value : Double) (exponent : Int) : Nat → Option Double
  | 0 => some value
  | fuel + 1 =>
    if exponent.natAbs ≤ largestPower then
      if 0 ≤ exponent then
        let scaled := value * powerOfTen exponent.natAbs
        if scaled.isFinite then some scaled else none
      else some (value / powerOfTen exponent.natAbs)
    else if value.isZero then some value
    else if 0 ≤ exponent then none
    else scale (value / powerOfTen largestPower) (exponent + largestPower) fuel

/-- Reads a literal that has passed the grammar of numbers. -/
def Number.ofLiteral? (literal : List Char) : Option Number :=
  let (negative, unsigned) := splitSign literal
  let (wholeDigits, afterWhole) := splitDigits unsigned
  let (fractionDigits, afterFraction) := splitFraction afterWhole
  let whole := ofDigits wholeDigits
  if afterWhole = [] ∧ negative = false ∧ whole < wholeLimit then some (.whole whole)
  else if afterWhole = [] ∧ negative ∧ 0 < whole ∧ whole ≤ wholeLimit / 2 then
    some (.whole (-(whole : Int)))
  else do
    let exponent ← readExponent afterFraction
    let (significand, leftOut) := readWhole 0 wholeDigits
    let (significand, used) := readFraction significand fractionDigits
    let value ← scale (Double.ofNat significand) (exponent + leftOut - used) 5
    return .real (if negative then value.neg else value)

/-- The number that a document is. -/
def Value.number? : Value → Option Number
  | .number literal => Number.ofLiteral? literal
  | _ => none

/-- The natural number below `2 ^ 64` that a document is. -/
def Value.natural? (v : Value) : Option Nat :=
  match v.number? with
  | some (.whole n) => if 0 ≤ n then some n.toNat else none
  | _ => none

/-- The nearest `Double` of a number. -/
def Number.toDouble : Number → Double
  | .whole n => let d := Double.ofNat n.natAbs; if n < 0 then d.neg else d
  | .real d => d

end GlyphSearch.Json
