import GlyphSearch.Proofs.Lossy

/-!
# How a tree is packed

An archive is written in more than one way. Fields may be filled up differently,
a path may stand in the header, in two fields of it or in a member of its own,
and between the members there may be some that name nothing. `Packed` says of
which items some bytes are a packing, in terms of what is written, not of what
a reader makes of it.

A reader then gets the items back one by one: each member is read as what it
was written for, and what is left behind its data is a packing of the rest.
-/

namespace GlyphSearch.Tar

open Files Text

/-! ## Fields -/

/-- A field in which a text stands. Where the text does not fill it, a zero byte
comes next. -/
def WritesText (field text : Bytes) : Prop :=
  0 ∉ text ∧ ∃ rest, field = text ++ rest ∧ (rest = [] ∨ rest.head? = some 0)

def IsOctalDigit (b : UInt8) : Prop := byte '0' ≤ b ∧ b ≤ byte '7'

instance : DecidablePred IsOctalDigit := fun _ => inferInstanceAs (Decidable (_ ∧ _))

/-- The number that octal digits write. -/
def octalValue (digits : Bytes) : Nat := digits.foldl (fun n b => 8 * n + (b.toNat - 0x30)) 0

/-- A field in which a number stands, in octal digits between blanks. -/
def WritesOctal (field : Bytes) (n : Nat) : Prop :=
  ∃ before digits after, WritesText field (before ++ digits ++ after) ∧
    (∀ b ∈ before ++ after, b = byte ' ') ∧ digits ≠ [] ∧ (∀ b ∈ digits, IsOctalDigit b) ∧
    octalValue digits = n

theorem WritesText.beforeZero_eq {field text : Bytes} (h : WritesText field text) :
    beforeZero field = text := by
  obtain ⟨hzero, rest, rfl, hrest⟩ := h
  have htext : ∀ b ∈ text, decide (b ≠ 0) = true :=
    fun b hb => decide_eq_true fun heq => hzero (heq ▸ hb)
  rw [beforeZero, List.takeWhile_append_of_pos htext]
  rcases hrest with rfl | hhead
  · exact List.append_nil text
  · cases rest with
    | nil => cases hhead
    | cons b rest =>
        cases hhead
        exact List.append_nil text

section Digits

variable {b : UInt8}

theorem IsOctalDigit.bounds (h : IsOctalDigit b) : 0x30 ≤ b.toNat ∧ b.toNat ≤ 0x37 :=
  ⟨UInt8.le_iff_toNat_le.mp h.1, UInt8.le_iff_toNat_le.mp h.2⟩

theorem IsOctalDigit.isBlank_char (h : IsOctalDigit b) : isBlank (char b) = false := by
  obtain ⟨hlow, hhigh⟩ := h.bounds
  simp only [isBlank, toNat_char, Bool.or_eq_false_iff, Bool.and_eq_false_iff, decide_eq_false_iff_not]
  omega

theorem IsOctalDigit.char_mem (h : IsOctalDigit b) : '0' ≤ char b ∧ char b ≤ '7' := by
  obtain ⟨hlow, hhigh⟩ := h.bounds
  rw [← toNat_char] at hlow hhigh
  exact ⟨hlow, hhigh⟩

theorem octalDigits?_eq {digits : Bytes} (hne : digits ≠ []) (h : ∀ b ∈ digits, IsOctalDigit b) :
    octalDigits? (dropPlus (digits.map char)) = some (octalValue digits) := by
  have hplus : dropPlus (digits.map char) = digits.map char := by
    obtain ⟨b, rest, rfl⟩ := List.exists_cons_of_ne_nil hne
    rw [List.map_cons, dropPlus]
    · intro _ heq
      have hle := (h b List.mem_cons_self).char_mem.1
      rw [(List.cons.inj heq).1] at hle
      exact absurd hle (by decide)
  have hall : ((digits.map char).all fun c => '0' ≤ c && c ≤ '7') = true := by
    simp only [List.all_map, List.all_eq_true, Function.comp, Bool.and_eq_true, decide_eq_true_eq]
    exact fun b hb => (h b hb).char_mem
  rw [hplus, octalDigits?, if_neg (by simp [hne, hall]), List.foldl_map]
  simp only [toNat_char]
  rfl

end Digits

section Octal

variable {field : Bytes} {n : Nat}

theorem WritesOctal.ascii (h : WritesOctal field n) : ∀ b ∈ beforeZero field, b.toNat < 0x80 := by
  obtain ⟨before, digits, after, htext, hblank, -, hdigits, -⟩ := h
  have hspace : ∀ b ∈ before ++ after, b.toNat < 0x80 := by
    intro b hb
    rw [hblank b hb]
    decide
  rw [htext.beforeZero_eq]
  intro b hb
  simp only [List.mem_append] at hb hspace
  rcases hb with (hb | hb) | hb
  · exact hspace b (.inl hb)
  · exact Nat.lt_of_le_of_lt (hdigits b hb).bounds.2 (by decide)
  · exact hspace b (.inr hb)

theorem WritesOctal.octal?_eq (h : WritesOctal field n) : octal? field = some n := by
  rw [octal?_of_ascii h.ascii]
  obtain ⟨before, digits, after, htext, hblank, hne, hdigits, rfl⟩ := h
  have hspace : ∀ c ∈ before.map char ++ after.map char, isBlank c = true := by
    rw [← List.map_append]
    intro c hc
    obtain ⟨b, hb, rfl⟩ := List.mem_map.mp hc
    rw [hblank b hb]
    decide
  have hword : ∀ c ∈ digits.map char, isBlank c = false := by
    intro c hc
    obtain ⟨b, hb, rfl⟩ := List.mem_map.mp hc
    exact (hdigits b hb).isBlank_char
  rw [htext.beforeZero_eq, List.map_append, List.map_append,
    trim_append hspace (by simp [hne]) hword]
  exact octalDigits?_eq hne hdigits

/-- A field of digits is not a binary number, as its first byte is ASCII. -/
theorem WritesOctal.number?_eq (h : WritesOctal field n) : number? field = some n := by
  have hfirst : ¬ 0x80 ≤ field.getD 0 0 := by
    have hascii := h.ascii
    obtain ⟨before, digits, after, htext, -, hne, -, -⟩ := h
    rw [htext.beforeZero_eq] at hascii
    obtain ⟨-, rest, rfl, -⟩ := htext
    obtain ⟨b, more, htext⟩ := List.exists_cons_of_ne_nil
      (l := before ++ digits ++ after) (by simp [hne])
    rw [htext] at hascii ⊢
    exact Nat.not_le.mpr (hascii b List.mem_cons_self)
  rw [number?, if_neg hfirst, h.octal?_eq]

theorem WritesOctal.exists_ne_zero (h : WritesOctal field n) : ∃ b ∈ field, b ≠ 0 := by
  obtain ⟨before, digits, after, ⟨hzero, rest, rfl, -⟩, -, hne, -, -⟩ := h
  obtain ⟨b, more, rfl⟩ := List.exists_cons_of_ne_nil hne
  exact ⟨b, by simp, fun heq => hzero (by simp [heq])⟩

end Octal

/-! ## Headers -/

namespace Header

/-- A header of a member with so much data, as it is written. -/
structure IsBlockOf (h : Header) (size : Nat) : Prop where
  length_eq : h.block.length = blockSize
  check : WritesOctal (h.field 148 8) h.sum
  size : WritesOctal (h.field 124 12) size

/-- A header that names a path, in one field or, in the standard format, in
two. -/
inductive Names (h : Header) : Path → Prop
  | whole {name : Bytes} (hname : WritesText (h.field 0 100) name)
      (hstart : h.isStandard = true → WritesText (h.field 345 155) []) : Names h name
  | split {start name : Bytes} (hstandard : h.isStandard = true)
      (hstart : WritesText (h.field 345 155) start) (hne : start ≠ [])
      (hname : WritesText (h.field 0 100) name) : Names h (start ++ byte '/' :: name)

theorem sum_le {h : Header} (hlength : h.block.length = blockSize) :
    h.sum ≤ 255 * 504 + 8 * 32 := by
  have hbound : ∀ (bs : Bytes) (n : Nat),
      bs.foldl (fun n b => n + b.toNat) n ≤ n + 255 * bs.length := by
    intro bs
    induction bs with
    | nil => exact fun n => Nat.le_refl n
    | cons b bs ih =>
        intro n
        have hb := b.toNat_lt
        have hrest := ih (n + b.toNat)
        rw [List.foldl_cons, List.length_cons]
        omega
  have hsum := hbound (h.block.take 148 ++ h.block.drop 156) 0
  rw [List.length_append, List.length_take, List.length_drop, hlength, blockSize] at hsum
  have hblank : ' '.toNat = 32 := rfl
  rw [sum, hblank]
  omega

theorem IsBlockOf.isHeader {h : Header} {size : Nat} (hh : h.IsBlockOf size) :
    h.IsHeader size where
  length_eq := hh.length_eq
  isZero_eq := by
    obtain ⟨b, hb, hne⟩ := hh.check.exists_ne_zero
    refine Bool.eq_false_iff.mpr fun hzero => hne ?_
    have hmem : b ∈ h.block := List.mem_of_mem_drop (List.mem_of_mem_take hb)
    exact of_decide_eq_true (List.all_eq_true.mp hzero b hmem)
  check_eq := by
    have hsum : h.sum < Nat.pow 2 32 := Nat.lt_of_le_of_lt (sum_le hh.length_eq) (by decide)
    rw [check?, hh.check.octal?_eq, Option.map_some, Nat.mod_eq_of_lt hsum]
  size_eq := hh.size.number?_eq

theorem Names.path_eq {h : Header} {path : Path} (hnames : h.Names path) : h.path = path := by
  rw [Header.path]
  cases hnames with
  | whole hname hstart =>
      rw [hname.beforeZero_eq]
      split
      · next hstandard => exact if_pos (hstart hstandard).beforeZero_eq
      · rfl
  | split hstandard hstart hne hname =>
      rw [hname.beforeZero_eq, hstart.beforeZero_eq, if_pos hstandard]
      exact if_neg hne

end Header

/-! ## Members -/

/-- Data, filled up to whole blocks with anything. -/
def IsFilled (data filled : Bytes) : Prop :=
  data <+: filled ∧ filled.length = fillUp data.length

/-- What comes before the data of a member: its header, where need be with a
member before it that has the path as its data. -/
inductive Introduces (kind : Kind) (size : Nat) (path : Path) : Bytes → Prop
  | short {h : Header} (hblock : h.IsBlockOf size) (hkind : h.kind = kind)
      (hpath : h.Names path) : Introduces kind size path h.block
  | long {long h : Header} {name filled : Bytes} (hlong : long.IsBlockOf name.length)
      (hlongKind : long.kind = .longName) (hformat : long.isStandard ∨ long.isExtended)
      (hname : name = path ∨ name = path ++ [0]) (hzero : 0 ∉ path)
      (hfilled : IsFilled name filled) (hblock : h.IsBlockOf size) (hkind : h.kind = kind) :
      Introduces kind size path (long.block ++ (filled ++ h.block))

/-- A whole member. -/
def IsEntry (kind : Kind) (path : Path) (data bytes : Bytes) : Prop :=
  ∃ front filled, Introduces kind data.length path front ∧ IsFilled data filled ∧
    bytes = front ++ filled

/-- What can be packed. -/
inductive Item where
  | directory (route : Route)
  | file (route : Route) (content : Bytes)
  deriving DecidableEq

namespace Item

def route : Item → Route
  | directory route | file route _ => route

def node : Item → Node
  | directory _ => .directory
  | file _ content => .file content

def isFile : Item → Bool
  | directory _ => false
  | file _ _ => true

def isDirectory (item : Item) : Bool := !item.isFile

/-- The bytes of an item itself. -/
def content : Item → Bytes
  | directory _ => []
  | file _ content => content

end Item

/-- Bytes that are a packing of items in their order. Between them there may be
members for the destination itself and members that describe all others; at
the end the bytes may end, or a block of zeros may come before anything. -/
inductive Packed : List Item → Bytes → Prop
  | ended : Packed [] []
  | marked (rest : Bytes) : Packed [] (List.replicate blockSize 0 ++ rest)
  | directory {route : Route} {path : Path} {data bytes more : Bytes} {items : List Item}
      (hentry : IsEntry .directory path data bytes) (hpath : Spells path route)
      (hmore : Packed items more) : Packed (.directory route :: items) (bytes ++ more)
  | file {route : Route} {path : Path} {content bytes more : Bytes} {items : List Item}
      (hentry : IsEntry .regular path content bytes) (hpath : Spells path route)
      (hmore : Packed items more) : Packed (.file route content :: items) (bytes ++ more)
  | root {path : Path} {data bytes more : Bytes} {items : List Item}
      (hentry : IsEntry .directory path data bytes) (hpath : Spells path [])
      (hmore : Packed items more) : Packed items (bytes ++ more)
  | globalExtensions {path : Path} {data bytes more : Bytes} {items : List Item}
      (hentry : IsEntry .globalExtensions path data bytes) (hmore : Packed items more) :
      Packed items (bytes ++ more)

/-! ## What a reader makes of a member -/

namespace Reader

/-- Behind data that is filled up to whole blocks. -/
theorem skip_of_isFilled {data filled : Bytes} (h : IsFilled data filled) (position : Nat)
    (rest : Bytes) :
    (⟨.ofBytes (filled ++ rest), fillUp data.length, position⟩ : Reader).skip =
      .ok (ofBytesAt (position + filled.length) rest) := by
  obtain ⟨-, hlength⟩ := h
  refine skip_eq_ok.mpr ⟨?_, ?_⟩
  · simp only [Source.ofBytes, List.length_append, hlength]
    exact Nat.le_add_right ..
  · simp only [ofBytesAt, Source.ofBytes, Source.drop, ← hlength, List.drop_left]

end Reader

namespace RawMember

theorem data_eq {m : RawMember} {data : Bytes} (hsize : m.size = data.length)
    (hdata : data <+: m.reader.source.content) : m.data = .ok data := by
  have hlong : ¬ m.reader.source.content.length < m.size :=
    Nat.not_lt.mpr (hsize ▸ hdata.length_le)
  rw [RawMember.data, if_neg fun hshort => hlong hshort.1, hsize,
    ← List.prefix_iff_eq_take.mp hdata]

/-- A member with a long name tells it. -/
theorem note_longName {m : RawMember} {name : Bytes} (hkind : m.header.kind = .longName)
    (hformat : m.header.isStandard ∨ m.header.isExtended) (hname : m.data = .ok name) :
    m.note .nothing = .ok (.inl { Description.nothing with longName := some name }) := by
  have hmay : m.mayDescribe = true := Bool.or_eq_true_iff.mpr hformat
  rw [note, if_neg (by simp [hmay]), hkind, tell, hname]
  rfl

/-- A member that may be extracted has the long name that has been told. -/
theorem note_of_longName {m : RawMember} (name : Bytes)
    (hkind : m.header.kind ∉ [.longName, .longLink, .extensions, .sparse]) :
    m.note { Description.nothing with longName := some name } =
      .ok (.inr ⟨m.header.kind, dropFinalZero name, m.size, m.reader⟩) := by
  simp only [List.mem_cons, List.not_mem_nil, or_false, not_or] at hkind
  obtain ⟨hlong, hlink, hextensions, hsparse⟩ := hkind
  rw [note_of_kind (by simp [hlong, hlink, hextensions]), describe,
    if_neg fun hbad => hsparse hbad.1]
  rfl

end RawMember

theorem dropFinalZero_eq {name path : Path} (hname : name = path ∨ name = path ++ [0])
    (hzero : 0 ∉ path) : RawMember.dropFinalZero name = path := by
  rw [RawMember.dropFinalZero]
  rcases hname with rfl | rfl
  · exact if_neg fun hlast => hzero (List.mem_of_getLast? hlast)
  · rw [if_pos List.getLast?_concat, List.dropLast_concat]

/-- The member that is read where an entry begins. -/
structure Member.Carries (m : Member) (kind : Kind) (path : Path) (data : Bytes) : Prop where
  kind_eq : m.kind = kind
  path_eq : m.path = path
  size_eq : m.size = data.length
  data : data <+: m.reader.source.content

namespace Reader

variable {kind : Kind} {size position : Nat} {path : Path} {front : Bytes}

theorem nextMember_of_introduces (h : Introduces kind size path front)
    (hkind : kind ∉ [.longName, .longLink, .extensions, .sparse])
    (hfits : position + front.length + fillUp size < sizeLimit) (rest : Bytes) :
    (ofBytesAt position (front ++ rest)).nextMember = .ok (some
      ⟨kind, path, size, ⟨.ofBytes rest, fillUp size, position + front.length⟩⟩) := by
  cases h with
  | @short h hblock hheader hpath =>
      rw [hblock.length_eq] at hfits ⊢
      rw [nextMember_of_isHeader hblock.isHeader (hheader ▸ hkind) position hfits rest, hheader,
        hpath.path_eq]
  | @long long h name filled hlong hlongKind hformat hname hzero hfilled hblock hheader =>
      have hnameData : name <+: filled ++ (h.block ++ rest) :=
        hfilled.1.trans (List.prefix_append ..)
      simp only [List.length_append, hlong.length_eq, hblock.length_eq] at hfits ⊢
      have hlongFits : position + blockSize + fillUp name.length < sizeLimit := by
        have hlength := hfilled.2
        omega
      have hfirst := nextRaw_of_isHeader hlong.isHeader hlongFits (filled ++ (h.block ++ rest))
      have htold := RawMember.note_longName (m := ⟨long, name.length,
        ⟨.ofBytes (filled ++ (h.block ++ rest)), fillUp name.length, position + blockSize⟩⟩)
        hlongKind hformat (RawMember.data_eq rfl hnameData)
      have hfits' : position + blockSize + filled.length + blockSize + fillUp size < sizeLimit := by
        omega
      have hsecond := nextRaw_of_isHeader hblock.isHeader hfits' rest
      have hbehind := nextRaw_of_skip
        (skip_of_isFilled hfilled (position + blockSize) (h.block ++ rest)) none
      have hfound := RawMember.note_of_longName (m := ⟨h, size,
        ⟨.ofBytes rest, fillUp size, position + blockSize + filled.length + blockSize⟩⟩)
        name (hheader ▸ hkind)
      rw [dropFinalZero_eq hname hzero, hheader] at hfound
      -- The fuel covers both headers.
      have hread : (ofBytesAt position (long.block ++ (filled ++ (h.block ++ rest)))).nextMember =
          .ok (some ⟨kind, path, size,
            ⟨.ofBytes rest, fillUp size, position + blockSize + filled.length + blockSize⟩⟩) := by
        refine (nextMemberFrom_succ .nothing _ _).trans (bind_eq_ok.mpr ⟨_, hfirst,
          bind_eq_ok.mpr ⟨_, htold, ?_⟩⟩)
        refine (nextMemberFrom_succ _ _ _).trans (bind_eq_ok.mpr ⟨_, hbehind.symm.trans hsecond,
          bind_eq_ok.mpr ⟨_, hfound, rfl⟩⟩)
      simp only [List.append_assoc]
      rw [hread]
      simp only [Nat.add_assoc]

end Reader

variable {kind : Kind} {path : Path} {data bytes : Bytes}

/-- An entry is extracted as the member that it was written for, and then comes
what is behind it. -/
theorem IsEntry.extractRest_eq (h : IsEntry kind path data bytes)
    (hkind : kind ∉ [.longName, .longLink, .extensions, .sparse]) {position : Nat}
    (hfits : position + bytes.length < sizeLimit) (rest : Bytes) :
    ∃ m : Member, m.Carries kind path data ∧ ∀ destination p,
      extractRest destination p (.ofBytesAt position (bytes ++ rest)) =
        (extractMember p destination m).andThen fun q =>
          extractRest destination q (.ofBytesAt (position + bytes.length) rest) := by
  obtain ⟨front, filled, hfront, hfilled, rfl⟩ := h
  have hfits' : position + front.length + fillUp data.length < sizeLimit := by
    rwa [List.length_append, hfilled.2, ← Nat.add_assoc] at hfits
  have hread := Reader.nextMember_of_introduces hfront hkind hfits' (filled ++ rest)
  refine ⟨⟨kind, path, data.length, ⟨.ofBytes (filled ++ rest), fillUp data.length,
    position + front.length⟩⟩, ⟨rfl, rfl, rfl, hfilled.1.trans (List.prefix_append filled rest)⟩,
    fun destination p => ?_⟩
  rw [List.append_assoc, extractRest_of_some hread]
  congr 1
  funext q
  rw [← extractRest_of_skip (Reader.skip_of_isFilled hfilled (position + front.length) rest),
    List.length_append, Nat.add_assoc]

end GlyphSearch.Tar
