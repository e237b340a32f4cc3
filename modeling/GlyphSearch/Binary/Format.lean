/-!
# Binary floating-point formats

A format is a precision and a width of the exponent field. Apart from its
sign, a datum is one natural number, its *field*: the exponent field followed
by the fraction. Fields below `infinity` are finite and ordered as the
magnitudes they stand for; the fields above it are the NaNs.

Every finite magnitude is a whole number of the format's smallest positive
number. `units` gives that number, and `nearest` goes back: from any
fraction of two naturals, counted in the same unit, to the closest field,
with ties going to the even neighbour. Because a carry out of the fraction
runs into the exponent field, `nearest` needs no case for it.
-/

namespace GlyphSearch.Binary

/-- A binary interchange format: bits of significand, the hidden one
included, and bits of exponent. -/
structure Format where
  precision : Nat
  exponentBits : Nat
  deriving DecidableEq, Repr

namespace Format

/-- The format of 32 bits. -/
def single : Format := ⟨24, 8⟩

/-- The format of 64 bits. -/
def double : Format := ⟨53, 11⟩

variable (f : Format)

/-- Width of the stored fraction: the leading bit is implied. -/
def fractionBits : Nat := f.precision - 1

/-- Number of fields that share one exponent. -/
def binade : Nat := Nat.pow 2 f.fractionBits

/-- The field of infinity: all exponent bits, no fraction. -/
def infinity : Nat := (Nat.pow 2 f.exponentBits - 1) * f.binade

/-- The smallest positive number of the format is two to the minus this. -/
def unitScale : Nat := Nat.pow 2 (f.exponentBits - 1) - 2 + f.fractionBits

/-- The magnitude of a finite field, in units of the smallest positive
number. -/
def units (field : Nat) : Nat :=
  if field < 2 * f.binade then field
  else (f.binade + field % f.binade) * Nat.pow 2 (field / f.binade - 1)

end Format

/-- The natural number nearest to a fraction; of two, the even one. -/
def roundHalfEven (num den : Nat) : Nat :=
  let q := num / den
  let r := num % den
  if 2 * r < den then q
  else if den < 2 * r then q + 1
  else q + q % 2

/-- The field nearest to `num / den` units, or infinity when the magnitude
rounds beyond the largest finite one. -/
def Format.nearest (f : Format) (num den : Nat) : Nat :=
  let shift := (num / den).log2 + 1 - f.precision
  min (shift * f.binade + roundHalfEven num (den * Nat.pow 2 shift)) f.infinity

/-- What a datum stands for. A NaN keeps its field, since payloads take part
in the total order. -/
inductive Datum where
  | nan (negative : Bool) (field : Nat)
  | infinite (negative : Bool)
  | finite (negative : Bool) (units : Nat)
  deriving DecidableEq, Repr

/-- Reads a sign and a field. -/
def Format.datum (f : Format) (negative : Bool) (field : Nat) : Datum :=
  if field < f.infinity then .finite negative (f.units field)
  else if field = f.infinity then .infinite negative
  else .nan negative field

/-- The integer square root by Newton's steps from above, at most `fuel` of
them. -/
def squareRootFrom (n : Nat) : Nat → Nat → Nat
  | 0, guess => guess
  | fuel + 1, guess =>
    let next := (guess + n / guess) / 2
    if next < guess then squareRootFrom n fuel next else guess

/-- The largest natural number whose square is at most `n`. -/
def squareRoot (n : Nat) : Nat :=
  if n = 0 then 0 else squareRootFrom n (n.log2 + 2) (Nat.pow 2 (n.log2 / 2 + 1))

end GlyphSearch.Binary
