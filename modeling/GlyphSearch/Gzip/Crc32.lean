/-!
# Checksums of compressed files

The cyclic redundancy check of 32 bits, computed bit by bit with the
polynomial in reflected form.
-/

namespace GlyphSearch.Gzip

/-- One bit of the check. -/
def crcBit (c : UInt32) : UInt32 :=
  if c &&& 1 = 1 then (0xedb88320 : UInt32) ^^^ (c >>> 1) else c >>> 1

/-- One byte of the check. -/
def crcByte (c : UInt32) (b : UInt8) : UInt32 :=
  crcBit (crcBit (crcBit (crcBit (crcBit (crcBit (crcBit (crcBit (c ^^^ b.toUInt32))))))))

/-- The check of some bytes. -/
def crc32 (bytes : List UInt8) : UInt32 := bytes.foldl crcByte 0xffffffff ^^^ 0xffffffff

end GlyphSearch.Gzip
