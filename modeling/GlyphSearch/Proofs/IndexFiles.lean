import GlyphSearch.Index.Flat
import GlyphSearch.Proofs.Documents

/-!
# The two files of an index

What the encoder of each file writes, its decoder reads back. The header is a
text of the grammar, put together from a line for each member. The components
are bytes of a fixed width, so a count of them and the four bytes of each are
enough to find all of them again, whatever their bits.
-/

namespace GlyphSearch.Index

open Files Json Text

namespace Header

/-- A member on a line of its own, and what stands behind it. -/
def line (key value rest : Bytes) : Bytes :=
  bytes "\n  " ++ byte '"' :: (key ++ byte '"' :: byte ':' :: (bytes " " ++ (value ++ rest)))

theorem plain_name (metric : Metric) : (bytes metric.name).all isPlain := by
  cases metric <;> decide

theorem ascii_name (metric : Metric) : metric.name.toList.all (·.toNat < 0x80) := by
  cases metric <;> decide

theorem encode_eq (h : Header) : h.encode =
    byte '{' :: (line (bytes "dimension") (digitBytes h.dimension) [] ++
      byte ',' :: (line (bytes "count") (digitBytes h.count) [] ++
        byte ',' :: line (bytes "metric") (quotedLiteral (bytes h.metric.name)) (bytes "\n")) ++
      [byte '}']) := by
  rw [encode, encode_of_ascii]
  · simp only [bytes_append, bytes_toString, line, quotedLiteral, List.cons_append,
      List.append_assoc, List.nil_append]
    rfl
  · refine List.all_iff_forall_prop.mp ?_
    simp only [String.toList_append, List.all_append, Bool.and_eq_true]
    exact ⟨⟨⟨⟨⟨⟨by decide, ascii_toString _⟩, by decide⟩, ascii_toString _⟩, by decide⟩,
      ascii_name _⟩, by decide⟩

theorem member_line {key value after : Bytes} {v : Value} (hkey : key.all isPlain)
    (hvalue : Denotes value v) (hafter : IsSpaces after) :
    Member (line key value after) (key, v) := by
  have hbefore : IsSpaces (bytes "\n  ") := by decide
  have hspace : IsSpaces (bytes " ") := by decide
  have hnone : IsSpaces [] := rfl
  have hmember := Member.intro hbefore (isLiteral_of_plain hkey) hnone
    (Item.intro hspace hvalue hafter)
  rwa [quotedLiteral, List.nil_append, List.cons_append, List.append_assoc,
    List.singleton_append] at hmember

/-- The document in `meta.json`. -/
def document (h : Header) : Value :=
  .object [(bytes "dimension", .number (Nat.toDigits 10 h.dimension)),
    (bytes "count", .number (Nat.toDigits 10 h.count)),
    (bytes "metric", .string (bytes h.metric.name))]

theorem denotes_encode (h : Header) : Denotes h.encode h.document := by
  have hnone : IsSpaces [] := rfl
  have hname := Denotes.string (isLiteral_of_plain (plain_name h.metric))
  rw [encode_eq]
  exact .object (.more (member_line (by decide) (denotes_digitBytes h.dimension) hnone)
    (.more (member_line (by decide) (denotes_digitBytes h.count) hnone)
      (.last (member_line (by decide) hname (by decide)))))

theorem ofBytes?_encode (h : Header) : Value.ofBytes? h.encode = some h.document :=
  ofBytes?_eq_some_iff.mpr (denotes_encode h).toItem

theorem record?_document (h : Header) : h.document.record? fields =
    some [("dimension", .number (Nat.toDigits 10 h.dimension)),
      ("count", .number (Nat.toDigits 10 h.count)),
      ("metric", .string (bytes h.metric.name))] := by
  have hdimension : unescape? (bytes "dimension") = some "dimension" :=
    unescape?_bytes (by decide) (by decide)
  have hcount : unescape? (bytes "count") = some "count" :=
    unescape?_bytes (by decide) (by decide)
  have hmetric : unescape? (bytes "metric") = some "metric" :=
    unescape?_bytes (by decide) (by decide)
  rw [document, Value.record?]
  simp only [readKeys, List.mapM_cons, List.mapM_nil, hdimension, hcount, hmetric]
  rfl

/-- A header that fits its numbers is read back from what is written. -/
theorem decode?_encode {h : Header} (hdimension : h.dimension < wholeLimit)
    (hcount : h.count < wholeLimit) : decode? h.encode = some h := by
  have hmetric : readMetric (.string (bytes h.metric.name)) = some h.metric := by
    change (unescape? (bytes h.metric.name) >>= Metric.ofName?) = some h.metric
    rw [unescape?_bytes (plain_name h.metric) (ascii_name h.metric)]
    cases h.metric <;> rfl
  rw [decode?, ofBytes?_encode]
  simp only [Option.bind_eq_bind, Option.bind_some]
  rw [ofValue?, record?_document]
  simp [Record.required, Record.optional, List.lookup_cons, natural?_toDigits hdimension,
    natural?_toDigits hcount, hmetric]

end Header

/-! ## Components -/

theorem decodeLength_digits (width n : Nat) :
    decodeLength ((List.range width).map fun i => UInt8.ofNat (n / Nat.pow 256 i)) =
      n % Nat.pow 256 width := by
  induction width generalizing n with
  | zero => exact (Nat.mod_one n).symm
  | succ width ih =>
      have hshift : ∀ i, n / Nat.pow 256 (i + 1) = n / 256 / Nat.pow 256 i := by
        intro i
        rw [Nat.div_div_eq_div_mul, Nat.mul_comm]
        rfl
      rw [List.range_succ_eq_map, List.map_cons, List.map_map]
      change (UInt8.ofNat (n / 1)).toNat + 256 * decodeLength ((List.range width).map
        fun i => UInt8.ofNat (n / Nat.pow 256 (i + 1))) = _
      simp only [hshift]
      rw [ih (n / 256), Nat.div_one, UInt8.toNat_ofNat',
        show Nat.pow 256 (width + 1) = 256 * Nat.pow 256 width from Nat.pow_succ']
      exact Nat.mod_mul.symm

theorem decodeLength_encodeLength {n : Nat} (hn : n < wholeLimit) :
    decodeLength (encodeLength n) = n :=
  (decodeLength_digits 8 n).trans (Nat.mod_eq_of_lt hn)

theorem ofBytes_toBytes (x : Single) :
    Single.ofBytes x.bits.toUInt8 (x.bits >>> 8).toUInt8 (x.bits >>> 16).toUInt8
      (x.bits >>> 24).toUInt8 = x := by
  have hbits : x.bits.toUInt8.toUInt32 ||| (x.bits >>> 8).toUInt8.toUInt32 <<< 8 |||
      (x.bits >>> 16).toUInt8.toUInt32 <<< 16 ||| (x.bits >>> 24).toUInt8.toUInt32 <<< 24 =
      x.bits := by
    have hfirst : (UInt32.toBitVec 8 % 32).toNat = 8 := rfl
    have hsecond : (UInt32.toBitVec 16 % 32).toNat = 16 := rfl
    have hthird : (UInt32.toBitVec 24 % 32).toNat = 24 := rfl
    rw [← UInt32.toBitVec_inj]
    -- Every bit of the number is in one of the four bytes, and in no other.
    refine BitVec.eq_of_getLsbD_eq fun i hi => ?_
    simp only [UInt32.toBitVec_or, UInt32.toBitVec_shiftLeft, UInt32.toBitVec_shiftRight,
      UInt8.toBitVec_toUInt32, UInt32.toBitVec_toUInt8, BitVec.getLsbD_or, BitVec.shiftLeft_eq',
      BitVec.ushiftRight_eq', BitVec.getLsbD_shiftLeft, BitVec.getLsbD_setWidth,
      BitVec.getLsbD_ushiftRight, hfirst, hsecond, hthird]
    grind
  rw [Single.ofBytes, hbits]

theorem takeComponents_toBytes (values : List Single) (done : List Single) (rest : Bytes) :
    takeComponents done values.length (values.flatMap Single.toBytes ++ rest) =
      some (done.reverse ++ values) := by
  induction values generalizing done with
  | nil => rw [List.append_nil]; rfl
  | cons x values ih =>
      have hstep : takeComponents done (x :: values).length
          ((x :: values).flatMap Single.toBytes ++ rest) =
          takeComponents (Single.ofBytes x.bits.toUInt8 (x.bits >>> 8).toUInt8
            (x.bits >>> 16).toUInt8 (x.bits >>> 24).toUInt8 :: done)
            values.length (values.flatMap Single.toBytes ++ rest) := rfl
      rw [hstep, ofBytes_toBytes, ih (x :: done), List.reverse_cons, List.append_assoc]
      rfl

/-- Components are read back bit for bit, as long as they can be counted. -/
theorem decodeComponents?_encode {values : List Single} (h : values.length < wholeLimit) :
    decodeComponents? (encodeComponents values) = some values := by
  have hlength : (encodeLength values.length).length = 8 := by simp [encodeLength]
  have hall := takeComponents_toBytes values [] []
  rw [List.append_nil] at hall
  rw [decodeComponents?, encodeComponents, if_neg (by rw [List.length_append]; omega),
    List.take_left' hlength, List.drop_left' hlength, decodeLength_encodeLength h, hall]
  rfl

namespace Flat

theorem length_flatten_of_rows {dimension : Nat} {rows : List (List Single)}
    (h : ∀ row ∈ rows, row.length = dimension) :
    rows.flatten.length = rows.length * dimension := by
  rw [List.length_flatten, List.map_congr_left h, List.map_const', List.sum_replicate_nat]

/-- Cutting takes apart what has been put end to end. -/
theorem rowsOf_flatten {dimension : Nat} {rows : List (List Single)}
    (h : ∀ row ∈ rows, row.length = dimension) :
    rowsOf dimension rows.length rows.flatten = rows := by
  induction rows with
  | nil => rfl
  | cons row rows ih =>
      have hrow : row.length = dimension := h row List.mem_cons_self
      rw [List.length_cons, List.flatten_cons, rowsOf, List.take_left' hrow,
        List.drop_left' hrow, ih fun r hr => h r (List.mem_cons_of_mem row hr)]

end Flat

end GlyphSearch.Index
