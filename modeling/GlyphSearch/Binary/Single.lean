import GlyphSearch.Binary.Format

/-!
# Numbers of 32 bits

A `Single` is its bit pattern, so that reading and writing one loses nothing,
NaN payloads included. `orderKey` is the total order of the format: by sign,
then by field, so that `-0.0` comes before `0.0`, and NaNs come first or last
by their sign.
-/

namespace GlyphSearch

open Binary

/-- A 32-bit floating-point number. -/
structure Single where
  bits : UInt32
  deriving DecidableEq, Repr, Inhabited

namespace Single

def isNegative (x : Single) : Bool := Nat.pow 2 31 ≤ x.bits.toNat

/-- Exponent and fraction, without the sign. -/
def field (x : Single) : Nat := x.bits.toNat % Nat.pow 2 31

def ofField (negative : Bool) (field : Nat) : Single :=
  ⟨UInt32.ofNat (if negative then Nat.pow 2 31 + field else field)⟩

def datum (x : Single) : Datum := Format.single.datum x.isNegative x.field

/-- Positive zero. -/
def zero : Single := ⟨0⟩

def isFinite (x : Single) : Bool := x.field < Format.single.infinity

def isNaN (x : Single) : Bool := Format.single.infinity < x.field

/-- Changes the sign, of a NaN too. -/
def neg (x : Single) : Single := ofField (!x.isNegative) x.field

/-- Position in the total order of all bit patterns. -/
def orderKey (x : Single) : Int :=
  if x.isNegative then -1 - (x.field : Int) else x.field

/-- The four bytes, lowest first. -/
def toBytes (x : Single) : List UInt8 :=
  [x.bits.toUInt8, (x.bits >>> 8).toUInt8, (x.bits >>> 16).toUInt8, (x.bits >>> 24).toUInt8]

/-- The number with these four bytes, lowest first. -/
def ofBytes (a b c d : UInt8) : Single :=
  ⟨a.toUInt32 ||| b.toUInt32 <<< 8 ||| c.toUInt32 <<< 16 ||| d.toUInt32 <<< 24⟩

end Single

end GlyphSearch
