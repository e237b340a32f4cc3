import GlyphSearch.Binary.Double
import GlyphSearch.Decimal.Shortest

/-!
# Number text

Numbers are written with the fewest digits that read back. A layout says for
which positions of the point they are written out; all other numbers are
written with an exponent that always has a sign. A number that is written out
has a point with at least one digit on each side of it.
-/

namespace GlyphSearch.Decimal

open Binary

/-- Where positional notation ends. -/
structure Layout where
  /-- The largest position of the point that is written out. -/
  largestPoint : Nat
  /-- Numbers below one are written out with fewer zeros than this between
  the point and the first digit. -/
  smallestPoint : Nat

/-- The layout of 32-bit numbers. -/
def Layout.single : Layout := ⟨13, 6⟩

/-- The layout of 64-bit numbers. -/
def Layout.double : Layout := ⟨16, 5⟩

def zeros (n : Nat) : String := String.ofList (List.replicate n '0')

/-- Writes an exponent with its sign. -/
def exponentText (e : Int) : String :=
  if e < 0 then "e-" ++ toString e.natAbs else "e+" ++ toString e.natAbs

/-- Writes digits in a layout. -/
def Layout.write (l : Layout) (d : Digits) : String :=
  let text := String.ofList d.digits
  let count := d.digits.length
  if 0 < d.point ∧ d.point ≤ l.largestPoint then
    let point := d.point.toNat
    if count ≤ point then text ++ zeros (point - count) ++ ".0"
    else String.ofList (d.digits.take point) ++ "." ++ String.ofList (d.digits.drop point)
  else if -(l.smallestPoint : Int) < d.point ∧ d.point ≤ 0 then
    "0." ++ zeros (-d.point).toNat ++ text
  else
    let rest := d.digits.drop 1
    String.ofList (d.digits.take 1)
      ++ (if rest = [] then "" else "." ++ String.ofList rest)
      ++ exponentText (d.point - 1)

/-- Writes a finite field with its sign. -/
def Layout.finiteText (l : Layout) (f : Format) (negative : Bool) (field : Nat) : String :=
  (if negative then "-" else "") ++ (if field = 0 then "0.0" else l.write (shortest f field))

/-- Writes any datum of a format; the sign of a NaN is not written. -/
def Layout.text (l : Layout) (f : Format) (negative : Bool) (field : Nat) : String :=
  if field < f.infinity then l.finiteText f negative field
  else if field = f.infinity then (if negative then "-inf" else "inf")
  else "NaN"

end GlyphSearch.Decimal

namespace GlyphSearch

/-- The text of a number, shortest digits first. -/
def Single.text (x : Single) : String :=
  Decimal.Layout.single.text .single x.isNegative x.field

/-- The text of a number, shortest digits first. -/
def Double.text (x : Double) : String :=
  Decimal.Layout.double.text .double x.isNegative x.field

end GlyphSearch
