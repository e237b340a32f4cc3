import GlyphSearch.Text.Utf8

/-!
# Bits of compressed data

Bits are taken from the low end of each byte on. Running out of bytes is one
of the two ways in which decompression stops early; the other is data that no
compressor writes.
-/

namespace GlyphSearch.Gzip

/-- Why decompression stops before the end of the data. -/
inductive Stop where
  | truncated
  | corrupt
  deriving DecidableEq, Repr

/-- What is left of the compressed data: `count` bits of a byte that has been
begun, in `held`, and the bytes after it. -/
structure Bits where
  held : Nat
  count : Nat
  rest : Bytes

namespace Bits

def ofBytes (bs : Bytes) : Bits := ⟨0, 0, bs⟩

/-- Takes one bit. -/
def takeBit (b : Bits) : Except Stop (Bool × Bits) :=
  match b.count, b.rest with
  | n + 1, rest => .ok (b.held % 2 = 1, ⟨b.held / 2, n, rest⟩)
  | 0, byte :: rest => .ok (byte.toNat % 2 = 1, ⟨byte.toNat / 2, 7, rest⟩)
  | 0, [] => .error .truncated

/-- Takes a number of `n` bits, the lowest first. -/
def takeNumber : Nat → Bits → Except Stop (Nat × Bits)
  | 0, b => .ok (0, b)
  | n + 1, b => do
    let (bit, b) ← b.takeBit
    let (high, b) ← takeNumber n b
    return ((if bit then 1 else 0) + 2 * high, b)

/-- The bytes from the next whole byte on. -/
def toBytes (b : Bits) : Bytes := b.rest

end Bits

end GlyphSearch.Gzip
