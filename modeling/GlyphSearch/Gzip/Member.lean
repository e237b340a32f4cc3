import GlyphSearch.Gzip.Crc32
import GlyphSearch.Gzip.Inflate
import GlyphSearch.Tar.Source

/-!
# Compressed archives

A compressed file begins with two fixed bytes and a header; behind the
compressed data come its checksum and its length. `source` gives what can be
read from such a file: the decompressed bytes, and behind them the end if
checksum and length agree, or a fault. Only a reader that goes on behind the
last byte meets the fault. Whatever follows the first member is not read.

Where the data is corrupt, decompressed bytes can be read only as far as they
fill whole windows.
-/

namespace GlyphSearch.Gzip

open Tar

/-- The first two bytes of every compressed file. -/
def magic : Bytes := [0x1f, 0x8b]

/-- Whether bytes are taken for a compressed file. -/
def isCompressed (content : Bytes) : Bool := magic.isPrefixOf content

/-- The size of the window that repeats reach back into. -/
def window : Nat := 32768

/-- The longest name or comment in a header. -/
def textLimit : Nat := 65535

/-- The natural number of some bytes, lowest first. -/
def littleEndian (bs : Bytes) : Nat := bs.foldr (fun b n => b.toNat + 256 * n) 0

/-- Drops `n` bytes if there are as many. -/
def dropExactly (n : Nat) (bs : Bytes) : Option Bytes :=
  if bs.length < n then none else some (bs.drop n)

/-- Drops a text with the zero byte that ends it. -/
def dropText (bs : Bytes) : Option Bytes :=
  let text := bs.takeWhile (· ≠ 0)
  if textLimit < text.length then none else dropExactly (text.length + 1) bs

/-- Drops an extra field with its length. -/
def dropExtra (bs : Bytes) : Option Bytes := do
  let rest ← dropExactly 2 bs
  dropExactly (littleEndian (bs.take 2)) rest

/-- Drops the check of a header, which has to agree with the bytes before
it. -/
def dropHeaderCheck (header bs : Bytes) : Option Bytes := do
  let rest ← dropExactly 2 bs
  if littleEndian (bs.take 2) = (crc32 header).toNat % 65536 then some rest else none

/-- Applies a reading step if a flag is set. -/
def whenFlag (flags : UInt8) (flag : UInt8) (step : Bytes → Option Bytes) (bs : Bytes) :
    Option Bytes :=
  if flags &&& flag = 0 then some bs else step bs

/-- What follows the header of a compressed file. -/
def dropHeader (content : Bytes) : Option Bytes := do
  let afterFixed ← dropExactly 10 content
  let flags := content.getD 3 0
  if content.getD 2 0 ≠ 8 ∨ flags &&& 0xe0 ≠ 0 then none
  let rest ← whenFlag flags 4 dropExtra afterFixed
  let rest ← whenFlag flags 8 dropText rest
  let rest ← whenFlag flags 16 dropText rest
  whenFlag flags 2 (dropHeaderCheck (content.take (content.length - rest.length))) rest

/-- What a reader meets behind the decompressed bytes, given the bytes behind
the compressed data. -/
def endingOf (output trailer : Bytes) : Ending :=
  if trailer.length < 8 then .broken .unexpectedEnd
  else if littleEndian (trailer.take 4) = (crc32 output).toNat
      ∧ littleEndian ((trailer.drop 4).take 4) = output.length % Nat.pow 2 32 then .clean
  else .broken .invalidInput

/-- What can be read from a compressed file. -/
def source (content : Bytes) : Source :=
  match dropHeader content with
  | none => ⟨[], .broken .invalidInput⟩
  | some data =>
    match inflate data with
    | (out, .ok bits) => ⟨out.toList, endingOf out.toList bits.toBytes⟩
    | (out, .error .truncated) => ⟨out.toList, .broken .invalidInput⟩
    | (out, .error .corrupt) =>
      ⟨out.toList.take (out.size / window * window), .broken .invalidInput⟩

end GlyphSearch.Gzip
