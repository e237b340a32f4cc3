import GlyphSearch.Error
import GlyphSearch.Text.Ascii
import GlyphSearch.Text.Blank

/-!
# Headers of archive members

A header is a block of 512 bytes with fields at fixed places. Numbers are
written in octal digits, with blanks or zero bytes around them; the size may
also be a binary number, marked by its highest bit.

`Header.sum` is the check that a header carries of itself: the sum of its
bytes with the field of the check taken as blanks.
-/

namespace GlyphSearch.Tar

open Text

/-- The size of a header and the unit that data is filled up to. -/
def blockSize : Nat := 512

/-- Sizes and positions are below this. -/
def sizeLimit : Nat := Nat.pow 2 64

/-- What a member is. -/
inductive Kind where
  | regular
  | link
  | symbolicLink
  | characterDevice
  | blockDevice
  | directory
  | fifo
  | continuous
  | globalExtensions
  | extensions
  | longName
  | longLink
  | sparse
  | other (type : UInt8)
  deriving DecidableEq, Repr

namespace Kind

def ofByte (b : UInt8) : Kind :=
  if b = 0 ∨ b = byte '0' then regular
  else if b = byte '1' then link
  else if b = byte '2' then symbolicLink
  else if b = byte '3' then characterDevice
  else if b = byte '4' then blockDevice
  else if b = byte '5' then directory
  else if b = byte '6' then fifo
  else if b = byte '7' then continuous
  else if b = byte 'g' then globalExtensions
  else if b = byte 'x' then extensions
  else if b = byte 'L' then longName
  else if b = byte 'K' then longLink
  else if b = byte 'S' then sparse
  else other b

/-- The name of a kind in messages. -/
def name : Kind → String
  | regular => "Regular"
  | link => "Link"
  | symbolicLink => "Symlink"
  | characterDevice => "Char"
  | blockDevice => "Block"
  | directory => "Directory"
  | fifo => "Fifo"
  | continuous => "Continuous"
  | globalExtensions => "XGlobalHeader"
  | extensions => "XHeader"
  | longName => "GNULongName"
  | longLink => "GNULongLink"
  | sparse => "GNUSparse"
  | other type => "__Nonexhaustive(" ++ toString type.toNat ++ ")"

/-- Whether a member only describes others. -/
def isMetadata (k : Kind) : Bool :=
  k = globalExtensions || k = extensions || k = longName || k = longLink

end Kind

/-- The bytes before the first zero byte. -/
def beforeZero (field : Bytes) : Bytes := field.takeWhile (· ≠ 0)

/-- The number that octal digits write, if there are any. -/
def octalDigits? (digits : List Char) : Option Nat :=
  if digits = [] ∨ ¬ digits.all fun c => '0' ≤ c && c ≤ '7' then none
  else some (digits.foldl (fun n c => 8 * n + (c.toNat - '0'.toNat)) 0)

/-- Drops an optional plus sign. -/
def dropPlus : List Char → List Char
  | '+' :: rest => rest
  | cs => cs

/-- Reads a field of octal digits. -/
def octal? (field : Bytes) : Option Nat := do
  let text ← decode? (beforeZero field)
  octalDigits? (dropPlus (trim text.toList))

theorem octal?_of_ascii {field : Bytes} (h : ∀ b ∈ beforeZero field, b.toNat < 0x80) :
    octal? field = octalDigits? (dropPlus (trim ((beforeZero field).map char))) := by
  rw [octal?, decode?_of_ascii h]
  exact congrArg (fun text => octalDigits? (dropPlus (trim text))) String.toList_ofList

/-- Reads a field of octal digits or of a binary number, of which the last
eight bytes count. -/
def number? (field : Bytes) : Option Nat :=
  if 0x80 ≤ field.getD 0 0 then
    some ((field.drop (field.length - 8)).foldl (fun n b => 256 * n + b.toNat) 0)
  else octal? field

/-- A block that is read as a header. -/
structure Header where
  block : Bytes

namespace Header

/-- The bytes of a field. -/
def field (h : Header) (start length : Nat) : Bytes := (h.block.drop start).take length

def kind (h : Header) : Kind := Kind.ofByte (h.block.getD 156 0)

/-- Whether the block is all zero, which ends an archive. -/
def isZero (h : Header) : Bool := h.block.all (· = 0)

/-- The check that the block should carry. -/
def sum (h : Header) : Nat :=
  (h.block.take 148 ++ h.block.drop 156).foldl (fun n b => n + b.toNat) 0
    + 8 * ' '.toNat

/-- The check that the block carries. -/
def check? (h : Header) : Option Nat := (octal? (h.field 148 8)).map (· % Nat.pow 2 32)

/-- The size of the member's data. -/
def size? (h : Header) : Option Nat := number? (h.field 124 12)

/-- Whether the block has the fields of the standard format. -/
def isStandard (h : Header) : Bool :=
  h.field 257 6 = bytes "ustar" ++ [0] && h.field 263 2 = bytes "00"

/-- Whether the block has the fields of the older extended format. -/
def isExtended (h : Header) : Bool :=
  h.field 257 6 = bytes "ustar " && h.field 263 2 = bytes " " ++ [0]

/-- The path in the block. In the standard format its beginning may stand in a
field of its own. -/
def path (h : Header) : Bytes :=
  let name := beforeZero (h.field 0 100)
  if h.isStandard then
    let start := beforeZero (h.field 345 155)
    if start = [] then name else start ++ byte '/' :: name
  else name

end Header

/-! ## Extension records

A member of extension records describes the one after it. A record is a line
with its own length, a key and a value. -/

/-- A key with its value. -/
structure Extension where
  key : Bytes
  value : Bytes

/-- A natural number in decimal digits, with an optional plus sign. -/
def decimal? (digits : Bytes) : Option Nat :=
  let digits := match digits with
    | b :: rest => if b = byte '+' then rest else digits
    | [] => []
  if digits = [] ∨ ¬ digits.all isDigitByte then none
  else some (digits.foldl (fun n b => 10 * n + (b.toNat - 0x30)) 0)

/-- Reads a line, which has to tell its length with the line end. -/
def Extension.ofLine? (line : Bytes) : Option Extension := do
  let written := line.takeWhile (· ≠ byte ' ')
  if written.length = line.length then none
  let length ← decimal? written
  if line.length + 1 ≠ length then none
  let rest := line.drop (written.length + 1)
  let key := rest.takeWhile (· ≠ byte '=')
  if key.length = rest.length then none
  return ⟨key, rest.drop (key.length + 1)⟩

/-- The lines of extension records, up to the first empty one, each with what
it says if it is well formed. -/
def extensionLines (data : Bytes) : List (Option Extension) :=
  ((data.splitOnP (· = byte '\n')).takeWhile (· ≠ [])).map Extension.ofLine?

/-- The path that extension records give. -/
def extendedPath? (data : Bytes) : Option Bytes :=
  (((extensionLines data).filterMap id).find? (·.key = bytes "path")).map (·.value)

/-- The size that extension records give; no record before it may be
malformed. -/
def extendedSize? (data : Bytes) : Option Nat := do
  let line ← (extensionLines data).find? fun line => line.all (·.key = bytes "size")
  let size ← decimal? (← line).value
  if size < sizeLimit then some size else none

/-! ## Maps of sparse members

The header of a sparse member lists the pieces of data that it has, and may be
followed by blocks that list more. Members of this kind are never extracted,
but a malformed map is a fault of the archive. -/

/-- How far the pieces of a sparse member have been read: the position behind
the last piece and the data that is left for more. -/
structure SparseMap where
  position : Nat
  used : Nat
  left : Nat

/-- Adds a piece, given by its position and length; a piece without either is
passed over. -/
def SparseMap.add? (m : SparseMap) (piece : Bytes) : Option SparseMap :=
  if piece.getD 0 0 = 0 ∨ piece.getD 12 0 = 0 then some m
  else do
    let start ← octal? (piece.take 12)
    let length ← octal? ((piece.drop 12).take 12)
    if length ≠ 0 ∧ m.used % blockSize ≠ 0 then none
    if start < m.position ∨ sizeLimit ≤ start + length ∨ m.left < length then none
    return ⟨start + length, m.used + length, m.left - length⟩

/-- Adds all pieces of a list of `count`. -/
def SparseMap.addAll? (m : SparseMap) (count : Nat) (list : Bytes) : Option SparseMap :=
  (List.range count).foldlM (fun m i => m.add? ((list.drop (24 * i)).take 24)) m

/-- Reads further blocks of a map. Gives the map and the bytes behind it. -/
def SparseMap.readBlocks? (m : SparseMap) : Nat → Bytes → Option (SparseMap × Bytes)
  | 0, _ => none
  | fuel + 1, content =>
    if content.length < blockSize then none
    else do
      let m ← m.addAll? 21 content
      let rest := content.drop blockSize
      if content.getD 504 0 = 1 then m.readBlocks? fuel rest else return (m, rest)

/-- Whether the map of a sparse member is well formed, given the size of its
data and what follows the header. -/
def sparseMapIsValid (h : Header) (size : Nat) (content : Bytes) : Bool :=
  h.isExtended && ((do
    let m ← SparseMap.addAll? ⟨0, 0, size⟩ 4 (h.field 386 96)
    let (m, _) ← if h.block.getD 482 0 = 1 then m.readBlocks? (content.length + 1) content
      else some (m, content)
    let realSize ← octal? (h.field 483 12)
    return m.position = realSize && m.left = 0) : Option Bool).getD false

end GlyphSearch.Tar
