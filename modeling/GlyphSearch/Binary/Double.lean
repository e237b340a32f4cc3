import GlyphSearch.Binary.Single

/-!
# Arithmetic on 64 bits

Each operation is the exact result on rational numbers, rounded once to the
nearest `Double`. The units of `Format.double` make the exact results
fractions of naturals: a sum of two finite numbers is a whole number of units,
a product is one divided by the square of the scale, and so on.

A NaN among the operands is the result, the first one if there are two, with
its quiet bit set. An operation without a meaningful result gives
`Double.invalid`, whose sign is negative; the sign shows, since the total order
puts negative NaNs before all numbers.
-/

namespace GlyphSearch

open Binary

/-- A 64-bit floating-point number. -/
structure Double where
  bits : UInt64
  deriving DecidableEq, Repr, Inhabited

namespace Double

def isNegative (x : Double) : Bool := Nat.pow 2 63 ≤ x.bits.toNat

/-- Exponent and fraction, without the sign. -/
def field (x : Double) : Nat := x.bits.toNat % Nat.pow 2 63

def ofField (negative : Bool) (field : Nat) : Double :=
  ⟨UInt64.ofNat (if negative then Nat.pow 2 63 + field else field)⟩

def datum (x : Double) : Datum := Format.double.datum x.isNegative x.field

/-- Positive zero. -/
def zero : Double := ⟨0⟩

/-- Negative zero, which added to anything leaves it as it is. -/
def negativeZero : Double := ⟨0x8000000000000000⟩

def one : Double := ⟨0x3ff0000000000000⟩

def infinite (negative : Bool) : Double := ofField negative Format.double.infinity

/-- The result of an operation that has none. -/
def invalid : Double := ⟨0xfff8000000000000⟩

/-- The NaN with its quiet bit set. -/
def quiet (negative : Bool) (field : Nat) : Double :=
  ofField negative (field ||| Nat.pow 2 51)

/-- The number nearest to `num / den` units. -/
def round (negative : Bool) (num den : Nat) : Double :=
  ofField negative (Format.double.nearest num den)

def isFinite (x : Double) : Bool := x.field < Format.double.infinity

/-- Either zero. -/
def isZero (x : Double) : Bool := x.field = 0

def neg (x : Double) : Double := ofField (!x.isNegative) x.field

/-- The sum of two finite numbers given by sign and units. Equal magnitudes
of opposite sign cancel to positive zero. -/
def addUnits (s : Bool) (m : Nat) (t : Bool) (n : Nat) : Double :=
  if s = t then round s (m + n) 1
  else if m = n then zero
  else if n < m then round s (m - n) 1
  else round t (n - m) 1

def add (x y : Double) : Double :=
  match x.datum, y.datum with
  | .nan s field, _ => quiet s field
  | _, .nan s field => quiet s field
  | .infinite s, .infinite t => if s = t then infinite s else invalid
  | .infinite s, .finite _ _ => infinite s
  | .finite _ _, .infinite t => infinite t
  | .finite s m, .finite t n => addUnits s m t n

def sub (x y : Double) : Double :=
  match y.datum with
  | .nan _ _ => x.add y
  | _ => x.add y.neg

def mul (x y : Double) : Double :=
  match x.datum, y.datum with
  | .nan s field, _ => quiet s field
  | _, .nan s field => quiet s field
  | .infinite s, .infinite t => infinite (s != t)
  | .infinite s, .finite t n => if n = 0 then invalid else infinite (s != t)
  | .finite s m, .infinite t => if m = 0 then invalid else infinite (s != t)
  | .finite s m, .finite t n => round (s != t) (m * n) (Nat.pow 2 Format.double.unitScale)

def div (x y : Double) : Double :=
  match x.datum, y.datum with
  | .nan s field, _ => quiet s field
  | _, .nan s field => quiet s field
  | .infinite _, .infinite _ => invalid
  | .infinite s, .finite t _ => infinite (s != t)
  | .finite s _, .infinite t => ofField (s != t) 0
  | .finite s m, .finite t n =>
    if n = 0 then (if m = 0 then invalid else infinite (s != t))
    else round (s != t) (m * Nat.pow 2 Format.double.unitScale) n

/-- The square root of a whole number of units is again counted in units. A
root that is not exact lies strictly between two whole numbers, both far
longer than the precision, so any point between them rounds as the root
does. -/
def sqrt (x : Double) : Double :=
  match x.datum with
  | .nan s field => quiet s field
  | .infinite s => if s then invalid else x
  | .finite s m =>
    if m = 0 then x
    else if s then invalid
    else
      let square := m * Nat.pow 2 Format.double.unitScale
      let root := squareRoot square
      if root * root = square then round false root 1
      else round false (2 * root + 1) 2

/-- The nearest natural number of any size. -/
def ofNat (n : Nat) : Double := round false (n * Nat.pow 2 Format.double.unitScale) 1

end Double

/-- The same number in the wider format. -/
def Single.toDouble (x : Single) : Double :=
  match x.datum with
  | .nan s field =>
    Double.quiet s (Format.double.infinity + (field - Format.single.infinity) * Nat.pow 2 29)
  | .infinite s => Double.infinite s
  | .finite s m =>
    Double.round s (m * Nat.pow 2 (Format.double.unitScale - Format.single.unitScale)) 1

/-- The nearest number of the narrower format. -/
def Double.toSingle (x : Double) : Single :=
  match x.datum with
  | .nan s field =>
    let payload := (field - Format.double.infinity) / Nat.pow 2 29
    Single.ofField s (Format.single.infinity + (payload ||| Nat.pow 2 22))
  | .infinite s => Single.ofField s Format.single.infinity
  | .finite s m =>
    Single.ofField s
      (Format.single.nearest m (Nat.pow 2 (Format.double.unitScale - Format.single.unitScale)))

instance : Add Double := ⟨Double.add⟩
instance : Sub Double := ⟨Double.sub⟩
instance : Mul Double := ⟨Double.mul⟩
instance : Div Double := ⟨Double.div⟩

end GlyphSearch
