import GlyphSearch.Proofs.Packing

/-!
# An archiver

What can be packed has a packing, in whatever order its items come: `pack`
writes one as common archivers do. A path that is too long for a header goes
into a member before it, numbers have leading zeros, and two blocks of zeros
are the end.
-/

namespace GlyphSearch.Tar

open Files Text

/-! ## Numbers -/

/-- The last octal digits of a number. -/
def writeOctal : Nat → Nat → Bytes
  | 0, _ => []
  | width + 1, n => writeOctal width (n / 8) ++ [UInt8.ofNat (0x30 + n % 8)]

theorem toNat_digit (n : Nat) : (UInt8.ofNat (0x30 + n % 8)).toNat = 0x30 + n % 8 :=
  UInt8.toNat_ofNat_of_lt' (Nat.lt_of_lt_of_le
    (Nat.add_lt_add_left (Nat.mod_lt n (by decide)) 0x30) (by decide))

@[simp] theorem length_writeOctal (width n : Nat) : (writeOctal width n).length = width := by
  induction width generalizing n with
  | zero => rfl
  | succ width ih => rw [writeOctal, List.length_append, ih, List.length_singleton]

theorem isOctalDigit_of_mem_writeOctal {width n : Nat} {b : UInt8} (hb : b ∈ writeOctal width n) :
    IsOctalDigit b := by
  induction width generalizing n with
  | zero => cases hb
  | succ width ih =>
      rcases List.mem_append.mp hb with hb | hb
      · exact ih hb
      · rw [List.mem_singleton.mp hb, IsOctalDigit, UInt8.le_iff_toNat_le, UInt8.le_iff_toNat_le,
          toNat_digit]
        have hzero : (byte '0').toNat = 0x30 := rfl
        have hseven : (byte '7').toNat = 0x37 := rfl
        omega

theorem octalValue_writeOctal {width n : Nat} (h : n < Nat.pow 8 width) :
    octalValue (writeOctal width n) = n := by
  induction width generalizing n with
  | zero => exact (Nat.lt_one_iff.mp h).symm
  | succ width ih =>
      have hrest : n / 8 < Nat.pow 8 width := by
        rw [Nat.pow_eq, Nat.pow_succ] at h
        exact Nat.div_lt_of_lt_mul (Nat.mul_comm .. ▸ h)
      have hstep : octalValue (writeOctal (width + 1) n) =
          8 * octalValue (writeOctal width (n / 8)) + n % 8 := by
        rw [writeOctal, octalValue, List.foldl_append, List.foldl_cons, List.foldl_nil, toNat_digit,
          Nat.add_sub_cancel_left]
        rfl
      rw [hstep, ih hrest, Nat.div_add_mod]

theorem writesOctal_writeOctal {width n : Nat} (hpos : 0 < width) (h : n < Nat.pow 8 width)
    (rest : Bytes) : WritesOctal (writeOctal width n ++ 0 :: rest) n := by
  have hdigits : ∀ b ∈ writeOctal width n, IsOctalDigit b := fun b => isOctalDigit_of_mem_writeOctal
  refine ⟨[], writeOctal width n, [], ⟨?_, 0 :: rest, by simp, .inr rfl⟩, by simp, ?_, hdigits,
    octalValue_writeOctal h⟩
  · rw [List.nil_append, List.append_nil]
    exact fun hzero => absurd (hdigits 0 hzero).bounds.1 (by decide)
  · exact List.ne_nil_of_length_pos (by rwa [length_writeOctal])

/-! ## Headers -/

namespace Header

/-- A header up to its check: the name, the size, and other fields that are left
empty. -/
def beforeCheck (name : Bytes) (size : Nat) : Bytes :=
  name ++ List.replicate (124 - name.length) 0 ++ (writeOctal 11 size ++ 0 :: List.replicate 12 0)

/-- A header behind its check: the type, and the mark of the format. -/
def behindCheck (type : UInt8) : Bytes :=
  type :: List.replicate 100 0 ++ (bytes "ustar " ++ (bytes " " ++ 0 :: List.replicate 247 0))

/-- Writes a header in the older extended format. -/
def write (type : UInt8) (name : Bytes) (size : Nat) : Header :=
  let sum := (beforeCheck name size ++ behindCheck type).foldl (fun n b => n + b.toNat) 0
    + 8 * ' '.toNat
  ⟨beforeCheck name size ++ (writeOctal 6 sum ++ [0, byte ' '] ++ behindCheck type)⟩

theorem field_eq {h : Header} {front field more : Bytes} {start length : Nat}
    (hblock : h.block = front ++ (field ++ more)) (hstart : front.length = start)
    (hlength : field.length = length) : h.field start length = field := by
  rw [Header.field, hblock, List.drop_left' hstart, List.take_left' hlength]

theorem length_behindCheck (type : UInt8) : (behindCheck type).length = 356 := by
  simp only [behindCheck, List.length_append, List.length_cons, List.length_replicate]
  rfl

/-- The check that is written is that of the header. -/
def checkOf (type : UInt8) (name : Bytes) (size : Nat) : Bytes :=
  writeOctal 6 (write type name size).sum ++ [0, byte ' ']

theorem length_checkOf (type : UInt8) (name : Bytes) (size : Nat) :
    (checkOf type name size).length = 8 := by
  rw [checkOf, List.length_append, length_writeOctal]
  rfl

section Write

variable {name : Bytes} (hname : name.length ≤ 100) (type : UInt8) (size : Nat)

include hname

theorem length_beforeCheck : (beforeCheck name size).length = 148 := by
  simp only [beforeCheck, List.length_append, List.length_cons, List.length_replicate,
    length_writeOctal]
  omega

theorem length_write : (write type name size).block.length = blockSize := by
  simp only [write, List.length_append, length_beforeCheck hname, length_behindCheck,
    length_writeOctal]
  rfl

theorem write_block_eq : (write type name size).block =
    beforeCheck name size ++ (checkOf type name size ++ behindCheck type) := by
  have htake : (write type name size).block.take 148 = beforeCheck name size :=
    List.take_left' (length_beforeCheck hname size)
  have hdrop : (write type name size).block.drop 156 = behindCheck type := by
    rw [write]
    dsimp only
    rw [← List.append_assoc]
    refine List.drop_left' ?_
    rw [List.length_append, length_beforeCheck hname, List.length_append, length_writeOctal]
    rfl
  rw [checkOf, sum, htake, hdrop]
  rfl

theorem isBlockOf_write (hsize : size < Nat.pow 8 11) : (write type name size).IsBlockOf size where
  length_eq := length_write hname type size
  check := by
    have hfield : (write type name size).field 148 8 = checkOf type name size :=
      field_eq (write_block_eq hname type size) (length_beforeCheck hname size)
        (length_checkOf type name size)
    have hsum : (write type name size).sum < Nat.pow 8 6 :=
      Nat.lt_of_le_of_lt (sum_le (length_write hname type size)) (by decide)
    rw [hfield]
    exact writesOctal_writeOctal (by decide) hsum [byte ' ']
  size := by
    have hblock : (write type name size).block =
        (name ++ List.replicate (124 - name.length) 0) ++ ((writeOctal 11 size ++ [0]) ++
          (List.replicate 12 0 ++ (checkOf type name size ++ behindCheck type))) := by
      rw [write_block_eq hname, beforeCheck]
      simp only [List.append_assoc, List.cons_append, List.nil_append]
    have hfield : (write type name size).field 124 12 = writeOctal 11 size ++ [0] := by
      refine field_eq hblock ?_ ?_
      · rw [List.length_append, List.length_replicate]
        omega
      · rw [List.length_append, length_writeOctal, List.length_singleton]
    rw [hfield]
    exact writesOctal_writeOctal (by decide) hsize []

theorem names_write (hzero : 0 ∉ name) (hformat : (write type name size).isStandard = false) :
    (write type name size).Names name := by
  -- Of the zeros behind the name, those up to 100 are in its field.
  have hblock : (write type name size).block = name ++ (List.replicate (100 - name.length) 0 ++
      (List.replicate 24 0 ++ (writeOctal 11 size ++ 0 :: List.replicate 12 0 ++
        (checkOf type name size ++ behindCheck type)))) := by
    have hzeros : List.replicate (124 - name.length) (0 : UInt8) =
        List.replicate (100 - name.length) 0 ++ List.replicate 24 0 := by
      rw [List.replicate_append_replicate]
      congr 1
      omega
    rw [write_block_eq hname, beforeCheck, hzeros]
    simp only [List.append_assoc]
  rw [← List.append_assoc] at hblock
  have hfield : (write type name size).field 0 100 =
      name ++ List.replicate (100 - name.length) 0 := by
    refine field_eq (hblock.trans (List.nil_append _).symm) rfl ?_
    rw [List.length_append, List.length_replicate]
    omega
  refine .whole ⟨hzero, _, hfield, ?_⟩ (by simp [hformat])
  cases 100 - name.length with
  | zero => exact .inl rfl
  | succ n => exact .inr rfl

theorem kind_write : (write type name size).kind = Kind.ofByte type := by
  have hlength : (beforeCheck name size ++ checkOf type name size).length = 156 := by
    rw [List.length_append, length_beforeCheck hname, length_checkOf]
  rw [kind, write_block_eq hname, ← List.append_assoc, List.getD_eq_getElem?_getD,
    List.getElem?_append_right (Nat.le_of_eq hlength), hlength]
  rfl

/-- A field behind the check. -/
theorem field_write {front field more : Bytes} {start length : Nat}
    (hbehind : behindCheck type = front ++ (field ++ more)) (hstart : 156 + front.length = start)
    (hlength : field.length = length) : (write type name size).field start length = field := by
  have hblock : (write type name size).block =
      (beforeCheck name size ++ checkOf type name size ++ front) ++ (field ++ more) := by
    rw [write_block_eq hname, hbehind]
    simp only [List.append_assoc]
  refine field_eq hblock ?_ hlength
  rw [List.length_append, List.length_append, length_beforeCheck hname, length_checkOf]
  exact hstart

theorem field_write_mark : (write type name size).field 257 6 = bytes "ustar " ∧
    (write type name size).field 263 2 = bytes " " ++ [0] := by
  have hbehind : behindCheck type =
      (type :: List.replicate 100 0 ++ bytes "ustar ") ++
        ((bytes " " ++ [0]) ++ List.replicate 247 0) := by
    simp only [behindCheck, List.append_assoc, List.cons_append, List.nil_append]
  refine ⟨field_write hname type size (rfl : _ = type :: List.replicate 100 0 ++ _) ?_ rfl,
    field_write hname type size hbehind ?_ rfl⟩
  · rw [List.length_cons, List.length_replicate]
  · rw [List.length_append, List.length_cons, List.length_replicate]
    rfl

theorem isExtended_write : (write type name size).isExtended = true := by
  obtain ⟨hmark, hversion⟩ := field_write_mark hname type size
  rw [isExtended, hmark, hversion]
  rfl

theorem isStandard_write : (write type name size).isStandard = false := by
  rw [isStandard, (field_write_mark hname type size).1]
  rfl

end Write

end Header

/-! ## Members -/

/-- Fills data up to whole blocks. -/
def fill (data : Bytes) : Bytes := data ++ List.replicate (fillUp data.length - data.length) 0

theorem isFilled_fill (data : Bytes) : IsFilled data (fill data) := by
  refine ⟨List.prefix_append .., ?_⟩
  rw [fill, List.length_append, List.length_replicate, Nat.add_sub_cancel' (le_fillUp _)]

/-- Writes what comes before the data of a member. -/
def introduce (type : UInt8) (path : Path) (size : Nat) : Bytes :=
  if path.length ≤ 100 then (Header.write type path size).block
  else
    let long := Header.write (byte 'L') (bytes "././@LongLink") (path.length + 1)
    long.block ++ (fill (path ++ [0]) ++ (Header.write type (path.take 100) size).block)

theorem introduces_introduce (type : UInt8) {path : Path} {size : Nat} (hsize : size < Nat.pow 8 11)
    (hpath : path.length + 1 < Nat.pow 8 11) (hzero : 0 ∉ path) :
    Introduces (Kind.ofByte type) size path (introduce type path size) := by
  rw [introduce]
  split
  · next hshort =>
      exact .short (Header.isBlockOf_write hshort type size hsize) (Header.kind_write hshort type size)
        (Header.names_write hshort type size hzero (Header.isStandard_write hshort type size))
  · have hlong : (bytes "././@LongLink").length ≤ 100 := by decide
    have htake : (path.take 100).length ≤ 100 := List.length_take_le ..
    have hblock := Header.isBlockOf_write hlong (byte 'L') (path.length + 1) hpath
    have hlength : (path ++ [0]).length = path.length + 1 := by
      rw [List.length_append, List.length_singleton]
    rw [← hlength] at hblock ⊢
    exact .long hblock (Header.kind_write hlong _ _) (.inr (Header.isExtended_write hlong _ _))
      (.inr rfl) hzero (isFilled_fill _) (Header.isBlockOf_write htake type size hsize)
      (Header.kind_write htake type size)

namespace Item

/-- The byte for what an item is. -/
def type : Item → UInt8
  | directory _ => byte '5'
  | file _ _ => byte '0'

/-- The path of an item in an archive. Those of directories end in a slash. -/
def path : Item → Path
  | directory route => route.relativePath ++ [slash]
  | file route _ => route.relativePath

def write (item : Item) : Bytes :=
  introduce item.type item.path item.content.length ++ fill item.content

/-- What can be packed: names that archives can carry, and sizes that fit their
fields. -/
structure IsPackable (item : Item) : Prop where
  ne_nil : item.route ≠ []
  names : ∀ name ∈ item.route, IsMemberName name
  path_lt : item.path.length + 1 < Nat.pow 8 11
  content_lt : item.content.length < Nat.pow 8 11

instance : DecidablePred IsPackable := fun _ => decidable_of_iff (_ ∧ _ ∧ _ ∧ _)
  ⟨fun ⟨hne, hnames, hpath, hcontent⟩ => ⟨hne, hnames, hpath, hcontent⟩,
    fun h => ⟨h.ne_nil, h.names, h.path_lt, h.content_lt⟩⟩

variable {item : Item}

theorem IsPackable.spells (h : item.IsPackable) : Spells item.path item.route := by
  have hpath := spells_relativePath h.names
  cases item with
  | file route content => exact hpath
  | directory route =>
      refine hpath.append_slash fun hempty => h.ne_nil ?_
      have hroute := hpath.2
      rw [hempty] at hroute
      exact hroute.symm

theorem IsPackable.isEntry (h : item.IsPackable) :
    IsEntry (Kind.ofByte item.type) item.path item.content item.write :=
  ⟨_, _, introduces_introduce item.type h.content_lt h.path_lt (h.spells.zero_not_mem h.names),
    isFilled_fill item.content, rfl⟩

end Item

/-- Packs items in their order. -/
def pack (items : List Item) : Bytes :=
  items.flatMap Item.write ++ List.replicate (2 * blockSize) 0

theorem packed_pack {items : List Item} (h : ∀ item ∈ items, item.IsPackable) :
    Packed items (pack items) := by
  induction items with
  | nil =>
      have hmark : pack [] = List.replicate blockSize 0 ++ List.replicate blockSize 0 := by
        rw [pack, Nat.two_mul, ← List.replicate_append_replicate]
        rfl
      rw [hmark]
      exact .marked _
  | cons item items ih =>
      have hmore := ih fun other hother => h other (List.mem_cons_of_mem _ hother)
      have hitem := h item List.mem_cons_self
      have hpack : pack (item :: items) = item.write ++ pack items := by
        rw [pack, List.flatMap_cons, List.append_assoc]
        rfl
      rw [hpack]
      cases item with
      | directory route => exact .directory hitem.isEntry hitem.spells hmore
      | file route content => exact .file hitem.isEntry hitem.spells hmore

end GlyphSearch.Tar
