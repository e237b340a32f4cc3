import GlyphSearch.Tar.Header
import GlyphSearch.Tar.Source

/-!
# Reading members

A reader stands behind the header of the last member: what is left of that
member's data has to be passed over before the next header. `nextMember` reads
headers up to the next member, and attaches what the members before it say
about it: a long name, or extension records.

The archive ends at a block of zeros, or where its bytes end in place of a
header. Everything else that ends early is malformed.
-/

namespace GlyphSearch.Tar

/-- A place in an archive: the bytes from here on, how many of them belong to
the last member, and the distance from the beginning. -/
structure Reader where
  source : Source
  pending : Nat
  position : Nat

/-- A member before what is said about it elsewhere. -/
structure RawMember where
  header : Header
  size : Nat
  /-- Stands at the member's data. -/
  reader : Reader

/-- What members before a member say about it. -/
structure Description where
  longName : Option Bytes
  longLink : Option Bytes
  extensions : Option Bytes

/-- A member of an archive. -/
structure Member where
  kind : Kind
  path : Bytes
  size : Nat
  /-- Stands at the member's data. -/
  reader : Reader

def malformed : Error := .archive .malformed

/-- A number filled up to whole blocks. -/
def fillUp (size : Nat) : Nat := (size + (blockSize - 1)) / blockSize * blockSize

namespace Reader

def ofSource (source : Source) : Reader := ⟨source, 0, 0⟩

/-- The reader behind the data of the last member. -/
def skip (r : Reader) : Except Error Reader :=
  if r.source.content.length < r.pending then .error malformed
  else .ok ⟨r.source.drop r.pending, 0, r.position + r.pending⟩

/-- The next block, or nothing where the bytes end before it. -/
def nextBlock (r : Reader) : Except Error (Option Header) :=
  if r.source.content = [] then
    match r.source.ending with
    | .clean => .ok none
    | .broken _ => .error malformed
  else if r.source.content.length < blockSize then .error malformed
  else .ok (some ⟨r.source.content.take blockSize⟩)

/-- Reads a header that is not all zero, given the size that extension records
state. -/
def rawMember (r : Reader) (h : Header) (statedSize : Option Nat) : Except Error RawMember :=
  if h.check? ≠ some h.sum then .error malformed
  else
    match h.size? with
    | none => .error malformed
    | some headerSize =>
      let size := statedSize.getD headerSize
      let start := r.position + blockSize
      if sizeLimit ≤ size + (blockSize - 1) ∨ sizeLimit ≤ start + fillUp size then
        .error malformed
      else .ok ⟨h, size, ⟨r.source.drop blockSize, fillUp size, start⟩⟩

/-- Reads up to the next header. -/
def nextRaw (r : Reader) (statedSize : Option Nat) : Except Error (Option RawMember) := do
  let r ← r.skip
  match ← r.nextBlock with
  | none => return none
  | some h => if h.isZero then return none else return some (← r.rawMember h statedSize)

end Reader

namespace RawMember

/-- The member's data, as far as it is there. -/
def data (m : RawMember) : Except Error Bytes :=
  if m.reader.source.content.length < m.size ∧ m.reader.source.ending ≠ .clean then
    .error malformed
  else .ok (m.reader.source.content.take m.size)

/-- Whether the header has a format in which members may describe others. -/
def mayDescribe (m : RawMember) : Bool := m.header.isStandard || m.header.isExtended

/-- Drops one zero byte at the end. -/
def dropFinalZero (name : Bytes) : Bytes :=
  if name.getLast? = some 0 then name.dropLast else name

/-- The path of a member. A long name comes before the path of extension
records, and this before the path in the header. -/
def path (m : RawMember) (d : Description) : Bytes :=
  match d.longName with
  | some name => dropFinalZero name
  | none => (d.extensions >>= extendedPath?).getD m.header.path

/-- Joins a member with what is said about it. -/
def describe (m : RawMember) (d : Description) : Except Error Member :=
  if m.header.kind = .sparse ∧ ¬ sparseMapIsValid m.header m.size m.reader.source.content then
    .error malformed
  else .ok ⟨m.header.kind, m.path d, m.size, m.reader⟩

end RawMember

/-- A description that has to come but once. -/
def once (known : Option Bytes) (found : Bytes) : Except Error (Option Bytes) :=
  match known with
  | none => .ok (some found)
  | some _ => .error malformed

/-- Reads up to the next member that may be extracted, collecting what is said
about it. Each step reads at least one block. -/
def Reader.nextMemberFrom (d : Description) : Nat → Reader → Except Error (Option Member)
  | 0, _ => .error malformed
  | fuel + 1, r => do
    match ← r.nextRaw (d.extensions >>= extendedSize?) with
    | none =>
      if d.longName.isSome ∨ d.longLink.isSome ∨ d.extensions.isSome then .error malformed
      else return none
    | some m =>
      if ¬ m.mayDescribe then return some (← m.describe d)
      else
        match m.header.kind with
        | .longName =>
          let longName ← once d.longName (← m.data)
          nextMemberFrom { d with longName } fuel m.reader
        | .longLink =>
          let longLink ← once d.longLink (← m.data)
          nextMemberFrom { d with longLink } fuel m.reader
        | .extensions =>
          let extensions ← once d.extensions (← m.data)
          nextMemberFrom { d with extensions } fuel m.reader
        | _ => return some (← m.describe d)

/-- Reads the next member. -/
def Reader.nextMember (r : Reader) : Except Error (Option Member) :=
  r.nextMemberFrom ⟨none, none, none⟩ (r.source.content.length + 2)

end GlyphSearch.Tar
