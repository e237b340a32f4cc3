import GlyphSearch.Text.Utf8

/-!
# Bytes as ASCII characters

The formats read here are given by ASCII characters, while files are bytes
that need not be text. `byte` and `char` pass between the two.
-/

namespace GlyphSearch.Text

/-- The byte of an ASCII character. -/
def byte (c : Char) : UInt8 := UInt8.ofNat c.toNat

/-- The character with a byte's number. -/
def char (b : UInt8) : Char := Char.ofNat b.toNat

/-- The bytes of an ASCII text. -/
def bytes (s : String) : Bytes := s.toList.map byte

def isDigitByte (b : UInt8) : Bool := byte '0' ≤ b && b ≤ byte '9'

/-- The value of a hexadecimal digit. -/
def hexValue? (b : UInt8) : Option Nat :=
  if isDigitByte b then some (b.toNat - 0x30)
  else if byte 'a' ≤ b ∧ b ≤ byte 'f' then some (b.toNat - 0x61 + 10)
  else if byte 'A' ≤ b ∧ b ≤ byte 'F' then some (b.toNat - 0x41 + 10)
  else none

/-- The number that hexadecimal digits write, if all are digits. -/
def hexNumber? (digits : Bytes) : Option Nat :=
  digits.foldl (fun n b => do return 16 * (← n) + (← hexValue? b)) (some 0)

/-! ## ASCII texts

Each byte of an ASCII text is a character. -/

theorem char_byte {c : Char} (h : c.toNat < 0x80) : char (byte c) = c := by
  rw [char, byte, UInt8.toNat_ofNat_of_lt' (Nat.lt_trans h (by decide)), Char.ofNat_toNat]

theorem eq_of_byte_eq {c d : Char} (hc : c.toNat < 0x80) (hd : d.toNat < 0x80)
    (h : byte c = byte d) : c = d := by
  rw [← char_byte hc, h, char_byte hd]

theorem toNat_char (b : UInt8) : (char b).toNat = b.toNat := by
  have hvalid : b.toNat.isValidChar := Or.inl (Nat.lt_trans b.toNat_lt (by decide))
  rw [char, Char.ofNat, dif_pos hvalid]
  rfl

theorem bytes_append (a b : String) : bytes (a ++ b) = bytes a ++ bytes b := by
  rw [bytes, String.toList_append, List.map_append]
  rfl

theorem toList_loop_eq (content : ByteArray) (i : Nat) (done : Bytes) :
    ByteArray.toList.loop content i done = done.reverse ++ content.data.toList.drop i := by
  fun_induction ByteArray.toList.loop content i done with
  | case1 i done hlt ih =>
      have hin : i < content.data.toList.length := hlt
      have hget : content.get! i = content.data.toList[i] := getElem!_pos content.data i hlt
      rw [ih, hget, List.drop_eq_getElem_cons hin, List.reverse_cons, List.append_assoc]
      rfl
  | case2 i done hge =>
      rw [List.drop_eq_nil_of_le (Nat.le_of_not_lt hge), List.append_nil]

theorem toList_eq_data (content : ByteArray) : content.toList = content.data.toList := by
  rw [ByteArray.toList, toList_loop_eq]
  rfl

theorem encode_eq_flatMap (s : String) : encode s = s.toList.flatMap String.utf8EncodeChar := by
  rw [encode, toList_eq_data, String.toUTF8_eq_toByteArray, ← String.utf8Encode_toList,
    List.utf8Encode, List.toList_data_toByteArray]

theorem utf8EncodeChar_of_ascii {c : Char} (h : c.toNat < 0x80) :
    String.utf8EncodeChar c = [byte c] :=
  String.utf8EncodeChar_eq_singleton (Char.utf8Size_eq_one_iff.mpr (Nat.le_of_lt_succ h))

theorem flatMap_utf8EncodeChar_of_ascii {cs : List Char} (h : ∀ c ∈ cs, c.toNat < 0x80) :
    cs.flatMap String.utf8EncodeChar = cs.map byte := by
  rw [List.map_eq_flatMap, List.flatMap, List.flatMap,
    List.map_congr_left fun c hc => utf8EncodeChar_of_ascii (h c hc)]

theorem encode_of_ascii {s : String} (h : ∀ c ∈ s.toList, c.toNat < 0x80) :
    encode s = bytes s := by
  rw [encode_eq_flatMap, flatMap_utf8EncodeChar_of_ascii h, bytes]

theorem scanOnto_of_ascii {bs : Bytes} (h : ∀ b ∈ bs, b.toNat < 0x80)
    (done : List (Option Char)) :
    scanOnto done bs = (bs.map fun b => some (char b)).reverse ++ done := by
  induction bs generalizing done with
  | nil => rw [scanOnto]; rfl
  | cons b rest ih =>
      have hb : next b rest = (some (char b), 0) := if_pos (h b List.mem_cons_self)
      rw [scanOnto, hb]
      dsimp only
      rw [List.drop_zero, ih (fun c hc => h c (List.mem_cons_of_mem b hc))]
      simp

theorem scan_of_ascii {bs : Bytes} (h : ∀ b ∈ bs, b.toNat < 0x80) :
    scan bs = bs.map fun b => some (char b) := by
  rw [scan, scanOnto_of_ascii h, List.append_nil, List.reverse_reverse]

theorem decode?_of_ascii {bs : Bytes} (h : ∀ b ∈ bs, b.toNat < 0x80) :
    decode? bs = some (String.ofList (bs.map char)) := by
  have hall : (bs.map fun b => some (char b)).all Option.isSome := by simp
  have hchars : (bs.map fun b => some (char b)).filterMap id = bs.map char := by
    rw [List.filterMap_map]
    exact congrFun List.filterMap_eq_map bs
  rw [decode?, scan_of_ascii h, if_pos hall, hchars]

theorem decodeLossy_of_ascii {bs : Bytes} (h : ∀ b ∈ bs, b.toNat < 0x80) :
    decodeLossy bs = String.ofList (bs.map char) := by
  rw [decodeLossy, scan_of_ascii h, List.map_map]
  rfl

end GlyphSearch.Text
