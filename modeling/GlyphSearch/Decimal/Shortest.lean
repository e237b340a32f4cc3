import GlyphSearch.Binary.Format

/-!
# Shortest decimals

Among the decimals that read back as a given number, `shortest` picks one
with the fewest digits, and of those the closest to the number. The decimals
that read back form an interval: it ends half way to the neighbouring fields,
and has its ends in it when the field is even, as ties are read to even.

The search takes one digit, then two, and so on. For each count it tests the
two points of that decimal grid next to the number: if any point of the grid
lies in the interval, one of these does.
-/

namespace GlyphSearch.Decimal

open Binary

/-- The decimal `0.d₁d₂…dₙ * 10 ^ point`. -/
structure Digits where
  digits : List Char
  point : Int
  deriving DecidableEq, Repr

/-- A number with the interval of decimals that read as it, all counted in
`10 ^ 0 / scale`. -/
structure Interval where
  low : Nat
  value : Nat
  high : Nat
  scale : Nat
  closed : Bool

/-- The interval of a finite field that is not zero. -/
def Interval.ofField (f : Format) (field : Nat) : Interval where
  low := f.units (field - 1) + f.units field
  value := 2 * f.units field
  high := f.units field + f.units (field + 1)
  scale := Nat.pow 2 (f.unitScale + 1)
  closed := field % 2 = 0

/-- Whether the point `numerator / scale` reads back, for bounds that have
been scaled by `factor`. -/
def Interval.contains (i : Interval) (factor numerator : Nat) : Bool :=
  if i.closed then i.low * factor ≤ numerator && numerator ≤ i.high * factor
  else i.low * factor < numerator && numerator < i.high * factor

/-- The least power of ten above the number, looked for among the negative
ones. -/
def Interval.pointBelowOne (i : Interval) : Nat → Nat → Int
  | 0, shifted => if shifted < i.scale then -1 else 0
  | fuel + 1, shifted =>
    if shifted * 10 < i.scale then i.pointBelowOne fuel (shifted * 10) - 1 else 0

/-- The least `p` with the number below `10 ^ p`. -/
def Interval.point (i : Interval) : Int :=
  let whole := i.value / i.scale
  if whole = 0 then i.pointBelowOne 400 i.value
  else (Nat.toDigits 10 whole).length

/-- The closest point of the grid of multiples of `10 ^ exponent` that reads
back, if there is one. -/
def Interval.onGrid (i : Interval) (exponent : Int) : Option Nat :=
  let factor := Nat.pow 10 (-exponent).toNat
  let step := i.scale * Nat.pow 10 exponent.toNat
  let below := i.value * factor / step
  let rest := i.value * factor % step
  let above := below + 1
  match i.contains factor (below * step), i.contains factor (above * step) with
  | true, true =>
    some (if 2 * rest < step then below
      else if step < 2 * rest then above
      else below + below % 2)
  | true, false => some below
  | false, true => some above
  | false, false => none

/-- Tries `count` digits, then one more, at most `fuel` times. -/
def Interval.search (i : Interval) (point : Int) : Nat → Nat → Nat × Int
  | 0, count => (i.value / i.scale, count)
  | fuel + 1, count =>
    let exponent := point - count
    match i.onGrid exponent with
    | some n => (n, exponent)
    | none => i.search point fuel (count + 1)

/-- Drops the zeros at the end. -/
def trimZeros (digits : List Char) : List Char :=
  (digits.reverse.dropWhile (· = '0')).reverse

/-- The digits of `n * 10 ^ exponent`, without zeros at the end. -/
def Digits.ofNat (n : Nat) (exponent : Int) : Digits :=
  let all := Nat.toDigits 10 n
  ⟨trimZeros all, exponent + all.length⟩

/-- The shortest decimal that reads back as a finite field that is not
zero. -/
def shortest (f : Format) (field : Nat) : Digits :=
  let i := Interval.ofField f field
  let (n, exponent) := i.search i.point 20 1
  Digits.ofNat n exponent

end GlyphSearch.Decimal
