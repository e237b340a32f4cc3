import GlyphSearch.Proofs.Consistency
import GlyphSearch.Proofs.Digits
import GlyphSearch.Proofs.Grammar
import GlyphSearch.Proofs.IndexFiles

/-!
# Which two files are an index

`Header.Describes` says which documents stand for which header, and
`IsIndex` says which two files are an index: it speaks of the grammar of
documents, of little-endian numbers and of offsets, and of no reader.

An index opens exactly if its two files are one (`openWith_spec`). The length
in front of the components is a number like any other: if it promises more than
the file holds, taking the components runs into the end of the file.
-/

namespace GlyphSearch.Json

open Decimal Text

/-! ## Natural numbers -/

theorem isDigit_char (b : UInt8) : isDigit (char b) = isDigitByte b := by
  have hleft : '0' ≤ char b ↔ byte '0' ≤ b := by
    rw [Char.le_def, UInt32.le_iff_toNat_le, UInt8.le_iff_toNat_le]
    exact iff_of_eq (congrArg (48 ≤ ·) (toNat_char b))
  have hright : char b ≤ '9' ↔ b ≤ byte '9' := by
    rw [Char.le_def, UInt32.le_iff_toNat_le, UInt8.le_iff_toNat_le]
    exact iff_of_eq (congrArg (· ≤ 57) (toNat_char b))
  rw [isDigit, isDigitByte, decide_eq_decide.mpr hleft, decide_eq_decide.mpr hright]

theorem toDigits_of_isWhole {text : Bytes} (h : IsWhole text) :
    Nat.toDigits 10 (ofDigits (text.map char)) = text.map char := by
  obtain ⟨⟨hne, hall⟩, hzero⟩ := h
  refine toDigits_ofDigits (by simpa using hne) ?_ fun hhead => ?_
  · refine List.forall_mem_map.mpr fun b hb => ?_
    rw [isDigit_char]
    exact List.all_eq_true.mp hall b hb
  · rw [List.length_map]
    obtain ⟨b, more, rfl⟩ := List.exists_cons_of_ne_nil hne
    have hb : (char b).toNat = 48 := congrArg Char.toNat (Option.some.inj hhead)
    rw [toNat_char] at hb
    exact hzero (congrArg some (UInt8.toNat_inj.mp hb))

/-- Whether a document is a natural number that fits 64 bits. -/
def IsNatural (v : Value) (n : Nat) : Prop := n < wholeLimit ∧ v = .number (Nat.toDigits 10 n)

theorem IsWhole.of_digits {text : Bytes} (h : IsNumber text) (hall : text.all isDigitByte) :
    IsWhole text := by
  obtain ⟨sign, whole, fraction, exponent, rfl, hsign, hwhole, hfraction, hexponent⟩ := h
  simp only [List.all_append, Bool.and_eq_true] at hall
  obtain ⟨⟨⟨hsignDigits, -⟩, hfractionDigits⟩, hexponentDigits⟩ := hall
  rcases hsign with rfl | rfl
  · rcases hfraction with rfl | ⟨digits, rfl, -⟩
    · rcases hexponent with rfl | ⟨e, sign, digits, rfl, rfl | rfl, -, -⟩
      · rwa [List.nil_append, List.append_nil, List.append_nil]
      · exact absurd hexponentDigits (by rw [List.all_cons]; exact Bool.false_ne_true)
      · exact absurd hexponentDigits (by rw [List.all_cons]; exact Bool.false_ne_true)
    · exact absurd hfractionDigits (by rw [List.all_cons]; exact Bool.false_ne_true)
  · exact absurd hsignDigits (by decide)

theorem unsigned_of_not_negative {text : Bytes} (htext : IsNumber text)
    (h : (splitSign (text.map char)).1 = false) :
    (splitSign (text.map char)).2 = text.map char := by
  obtain ⟨b, more, rfl, hb⟩ := htext.head
  rcases hb with hb | rfl
  · rw [List.map_cons, splitSign_cons_of_isDigit ((isDigit_char b).trans hb)]
  · cases h

theorem natural?_number_eq_some {literal : List Char} {n : Nat}
    (h : (Value.number literal).natural? = some n) :
    (splitSign literal).1 = false ∧ (splitDigits (splitSign literal).2).2 = [] ∧
      ofDigits (splitDigits (splitSign literal).2).1 = n ∧ n < wholeLimit := by
  rw [Value.natural?, Value.number?] at h
  split at h
  · next k hread =>
      split at h
      · next hk =>
          cases h
          rw [Number.ofLiteral?] at hread
          dsimp only at hread
          split at hread
          · next hnatural =>
              obtain ⟨hafter, hsign, hsmall⟩ := hnatural
              cases hread
              exact ⟨hsign, hafter, rfl, hsmall⟩
          split at hread
          · next hnegative =>
              cases hread
              omega
          · obtain ⟨_, -, hread⟩ := Option.bind_eq_some_iff.mp hread
            obtain ⟨_, -, hread⟩ := Option.bind_eq_some_iff.mp hread
            cases hread
      · cases h
  · cases h

/-- A number is read as a natural one only if it is the digits of one. -/
theorem isNatural_of_natural? {text : Bytes} (htext : IsNumber text) {n : Nat}
    (h : (Value.number (text.map char)).natural? = some n) :
    IsNatural (.number (text.map char)) n := by
  obtain ⟨hsign, hafter, rfl, hsmall⟩ := natural?_number_eq_some h
  rw [unsigned_of_not_negative htext hsign] at hafter hsmall ⊢
  have hall : ∀ c ∈ text.map char, isDigit c = true := List.dropWhile_eq_nil_iff.mp hafter
  have htake : (splitDigits (text.map char)).1 = text.map char :=
    List.takeWhile_eq_self_iff.mpr hall
  have hbytes : text.all isDigitByte := by
    refine List.all_eq_true.mpr fun b hb => ?_
    rw [← isDigit_char]
    exact hall _ (List.mem_map_of_mem hb)
  rw [htake] at hsmall ⊢
  exact ⟨hsmall, congrArg Value.number (toDigits_of_isWhole (.of_digits htext hbytes)).symm⟩

theorem isNatural_iff {text : Bytes} {v : Value} (hv : Denotes text v) {n : Nat} :
    v.natural? = some n ↔ IsNatural v n := by
  constructor
  · intro h
    cases hv with
    | number htext => exact isNatural_of_natural? htext h
    | _ => cases h
  · rintro ⟨hn, rfl⟩
    exact natural?_toDigits hn

/-! ## Records -/

/-- The values of all members with a key. -/
def valuesOf (key : String) (members : List (Bytes × Value)) : List Value :=
  (members.filter fun m => unescape? m.1 = some key).map (·.2)

theorem lookup_eq_head? (record : Record) (field : String) :
    record.lookup field = ((record.filter (·.1 = field)).map (·.2)).head? := by
  induction record with
  | nil => rfl
  | cons entry record ih =>
      by_cases hentry : entry.1 = field
      · rw [List.filter_cons_of_pos (by simpa using hentry), List.lookup_cons,
          beq_iff_eq.mpr hentry.symm]
        rfl
      · rw [List.filter_cons_of_neg (by simpa using hentry), List.lookup_cons,
          beq_eq_false_iff_ne.mpr (Ne.symm hentry), ih]

theorem readKeys_eq_some {members : List (Bytes × Value)} {record : Record}
    (h : readKeys members = some record) :
    (∀ m ∈ members, (unescape? m.1).isSome) ∧
      ∀ field, (record.filter (·.1 = field)).map (·.2) = valuesOf field members := by
  induction members generalizing record with
  | nil => cases h; exact ⟨fun m hm => absurd hm List.not_mem_nil, fun _ => rfl⟩
  | cons m members ih =>
      rw [readKeys, List.mapM_cons] at h
      obtain ⟨entry, hentry, h⟩ := Option.bind_eq_some_iff.mp h
      obtain ⟨rest, hrest, h⟩ := Option.bind_eq_some_iff.mp h
      obtain ⟨key, hkey, rfl⟩ := Option.map_eq_some_iff.mp hentry
      cases h
      obtain ⟨hall, hvalues⟩ := ih hrest
      refine ⟨List.forall_mem_cons.mpr ⟨by rw [hkey]; rfl, hall⟩, fun field => ?_⟩
      by_cases hfield : key = field
      · rw [valuesOf, List.filter_cons_of_pos (by simpa using hfield),
          List.filter_cons_of_pos (by simp [hkey, hfield]), List.map_cons, List.map_cons, hvalues]
        rfl
      · rw [valuesOf, List.filter_cons_of_neg (by simpa using hfield),
          List.filter_cons_of_neg (by simp [hkey, hfield]), hvalues]
        rfl

theorem readKeys_isSome {members : List (Bytes × Value)}
    (h : ∀ m ∈ members, (unescape? m.1).isSome) :
    ∃ record, readKeys members = some record := by
  induction members with
  | nil => exact ⟨[], rfl⟩
  | cons m members ih =>
      obtain ⟨hm, hmembers⟩ := List.forall_mem_cons.mp h
      obtain ⟨key, hkey⟩ := Option.isSome_iff_exists.mp hm
      obtain ⟨record, hrecord⟩ := ih hmembers
      rw [readKeys] at hrecord ⊢
      exact ⟨(key, m.2) :: record, by simp [List.mapM_cons, hkey, hrecord]⟩

theorem record?_object {fields : List String} {members : List (Bytes × Value)}
    {record : Record} (h : (Value.object members).record? fields = some record) :
    (∀ m ∈ members, (unescape? m.1).isSome) ∧
      (∀ field ∈ fields, (valuesOf field members).length ≤ 1) ∧
      ∀ field, record.lookup field = (valuesOf field members).head? := by
  obtain ⟨record', hkeys, h⟩ := Option.bind_eq_some_iff.mp h
  obtain ⟨hall, hvalues⟩ := readKeys_eq_some hkeys
  split at h
  · next hdistinct =>
      cases h
      refine ⟨hall, fun field hfield => ?_, fun field => ?_⟩
      · have hone := List.all_eq_true.mp hdistinct field hfield
        rw [decide_eq_true_iff] at hone
        rw [← hvalues, List.length_map]
        exact hone
      · rw [lookup_eq_head?, hvalues]
  · cases h

theorem record?_object_isSome {fields : List String} {members : List (Bytes × Value)}
    (hkeys : ∀ m ∈ members, (unescape? m.1).isSome)
    (hone : ∀ field ∈ fields, (valuesOf field members).length ≤ 1) :
    ∃ record, (Value.object members).record? fields = some record := by
  obtain ⟨record, hrecord⟩ := readKeys_isSome hkeys
  have hvalues := (readKeys_eq_some hrecord).2
  refine ⟨record, ?_⟩
  rw [Value.record?, hrecord]
  refine if_pos (List.all_eq_true.mpr fun field hfield => ?_)
  rw [decide_eq_true_iff, ← List.length_map (f := (·.2)), hvalues]
  exact hone field hfield

end GlyphSearch.Json

namespace GlyphSearch.Index

open Files Json Text

/-! ## Headers -/

/-- A metric is named by a text, or by the one key of an object. -/
inductive NamesMetric : Value → Metric → Prop
  | text {literal : Bytes} {metric : Metric} (h : unescape? literal = some metric.name) :
      NamesMetric (.string literal) metric
  | key {literal : Bytes} {metric : Metric} (h : unescape? literal = some metric.name) :
      NamesMetric (.object [(literal, .null)]) metric

/-- The metric of a header, from the values given for it. -/
inductive TellsMetric : List Value → Metric → Prop
  | absent : TellsMetric [] .euclidean
  | given {v : Value} {metric : Metric} (h : NamesMetric v metric) : TellsMetric [v] metric

theorem TellsMetric.length_le {values : List Value} {metric : Metric}
    (h : TellsMetric values metric) : values.length ≤ 1 := by
  cases h with
  | absent => exact Nat.zero_le 1
  | given => exact Nat.le_refl 1

/-- Which documents stand for which header. An object may have further
members; a key that is there twice, or that is no text, makes it none. -/
inductive Header.Describes : Value → Header → Prop
  | members {members : List (Bytes × Value)} {d c : Value} {h : Header}
      (hkeys : ∀ m ∈ members, (unescape? m.1).isSome)
      (hd : valuesOf "dimension" members = [d]) (hdimension : IsNatural d h.dimension)
      (hc : valuesOf "count" members = [c]) (hcount : IsNatural c h.count)
      (hmetric : TellsMetric (valuesOf "metric" members) h.metric) :
      Describes (.object members) h
  | items {d c : Value} {rest : List Value} {h : Header} (hdimension : IsNatural d h.dimension)
      (hcount : IsNatural c h.count) (hmetric : TellsMetric rest h.metric) :
      Describes (.array (d :: c :: rest)) h

theorem ofName?_eq_some_iff {name : String} {metric : Metric} :
    Metric.ofName? name = some metric ↔ name = metric.name := by
  constructor
  · intro h
    unfold Metric.ofName? at h
    split at h <;> cases h <;> rfl
  · rintro rfl
    cases metric <;> rfl

namespace Header

theorem readMetric_eq_some_iff {v : Value} {metric : Metric} :
    readMetric v = some metric ↔ NamesMetric v metric := by
  constructor
  · intro h
    rw [readMetric.eq_def] at h
    split at h
    · obtain ⟨name, hname, h⟩ := Option.bind_eq_some_iff.mp h
      rw [ofName?_eq_some_iff.mp h] at hname
      exact .key hname
    · obtain ⟨name, hname, h⟩ := Option.bind_eq_some_iff.mp h
      rw [ofName?_eq_some_iff.mp h] at hname
      rw [Value.text?.eq_def] at hname
      split at hname
      · exact .text hname
      · cases hname
  · rintro (h | h)
    · exact Option.bind_eq_some_iff.mpr ⟨_, h, ofName?_eq_some_iff.mpr rfl⟩
    · exact Option.bind_eq_some_iff.mpr ⟨_, h, ofName?_eq_some_iff.mpr rfl⟩

/-- The metric in a record in which it is there once at most. -/
theorem optional_metric_iff {record : Record} {values : List Value} {metric : Metric}
    (hlookup : record.lookup "metric" = values.head?) (hone : values.length ≤ 1) :
    record.optional "metric" .euclidean readMetric = some metric ↔ TellsMetric values metric := by
  rw [Record.optional, hlookup]
  cases values with
  | nil =>
      constructor
      · rintro ⟨⟩
        exact .absent
      · rintro ⟨⟩
        rfl
  | cons v more =>
      obtain rfl := List.eq_nil_of_length_eq_zero (Nat.le_zero.mp (Nat.le_of_succ_le_succ hone))
      refine readMetric_eq_some_iff.trans ⟨.given, ?_⟩
      rintro ⟨⟩
      assumption

theorem ofValue?_eq_some_iff {v : Value} {h : Header} :
    ofValue? v = some h ↔ ∃ record, v.record? fields = some record ∧
      record.required "dimension" Value.natural? = some h.dimension ∧
      record.required "count" Value.natural? = some h.count ∧
      record.optional "metric" .euclidean readMetric = some h.metric := by
  constructor
  · intro hv
    obtain ⟨record, hrecord, hv⟩ := Option.bind_eq_some_iff.mp hv
    obtain ⟨d, hd, hv⟩ := Option.bind_eq_some_iff.mp hv
    obtain ⟨c, hc, hv⟩ := Option.bind_eq_some_iff.mp hv
    obtain ⟨m, hm, hv⟩ := Option.bind_eq_some_iff.mp hv
    cases hv
    exact ⟨record, hrecord, hd, hc, hm⟩
  · rintro ⟨record, hrecord, hd, hc, hm⟩
    rw [ofValue?, hrecord]
    simp only [Option.bind_eq_bind, Option.bind_some]
    rw [hd, hc, hm]
    rfl

theorem required_eq_some_iff {record : Record} {field : String} {values : List Value}
    (hlookup : record.lookup field = values.head?) (hone : values.length ≤ 1)
    (hvalues : ∀ v ∈ values, ∃ text, Denotes text v) {n : Nat} :
    record.required field Value.natural? = some n ↔ ∃ v, values = [v] ∧ IsNatural v n := by
  rw [Record.required, hlookup]
  cases values with
  | nil =>
      constructor
      · rintro ⟨⟩
      · rintro ⟨_, ⟨⟩, _⟩
  | cons v more =>
      obtain rfl := List.eq_nil_of_length_eq_zero (Nat.le_zero.mp (Nat.le_of_succ_le_succ hone))
      obtain ⟨text, htext⟩ := hvalues v List.mem_cons_self
      refine (isNatural_iff htext).trans ⟨fun h => ⟨v, rfl, h⟩, ?_⟩
      rintro ⟨_, ⟨⟩, h⟩
      exact h

theorem describes_object_iff {text : Bytes} {members : List (Bytes × Value)}
    (hv : Denotes text (.object members)) {h : Header} :
    ofValue? (.object members) = some h ↔ Describes (.object members) h := by
  have hvalues : ∀ field, ∀ v ∈ valuesOf field members, ∃ text, Denotes text v := by
    intro field v hmem
    obtain ⟨m, hm, rfl⟩ := List.mem_map.mp hmem
    exact hv.member m (List.mem_of_mem_filter hm)
  rw [ofValue?_eq_some_iff]
  constructor
  · rintro ⟨record, hrecord, hdimension, hcount, hmetric⟩
    obtain ⟨hkeys, hone, hlookup⟩ := record?_object hrecord
    rw [required_eq_some_iff (hlookup _) (hone _ (by decide)) (hvalues _)] at hdimension hcount
    rw [optional_metric_iff (hlookup _) (hone _ (by decide))] at hmetric
    obtain ⟨d, hd, hdimension⟩ := hdimension
    obtain ⟨c, hc, hcount⟩ := hcount
    exact .members hkeys hd hdimension hc hcount hmetric
  · rintro (@⟨_, d, c, _, hkeys, hd, hdimension, hc, hcount, hmetric⟩)
    have hmetricOne := hmetric.length_le
    have hone : ∀ field ∈ fields, (valuesOf field members).length ≤ 1 := by
      refine List.forall_mem_cons.mpr ⟨by rw [hd]; exact Nat.le_refl 1, ?_⟩
      refine List.forall_mem_cons.mpr ⟨by rw [hc]; exact Nat.le_refl 1, ?_⟩
      exact List.forall_mem_singleton.mpr hmetricOne
    obtain ⟨record, hrecord⟩ := record?_object_isSome hkeys hone
    obtain ⟨-, -, hlookup⟩ := record?_object hrecord
    refine ⟨record, hrecord, ?_, ?_, ?_⟩
    · exact (required_eq_some_iff (hlookup _) (hone _ (by decide)) (hvalues _)).mpr
        ⟨d, hd, hdimension⟩
    · exact (required_eq_some_iff (hlookup _) (hone _ (by decide)) (hvalues _)).mpr
        ⟨c, hc, hcount⟩
    · exact (optional_metric_iff (hlookup _) hmetricOne).mpr hmetric

/-- The items of a list are the fields of a record in order. -/
def recordOfItems (d c : Value) (rest : List Value) : Record :=
  ("dimension", d) :: ("count", c) :: (["metric"].zip rest)

theorem record?_items (d c : Value) (rest : List Value) :
    (Value.array (d :: c :: rest)).record? fields =
      if rest.length ≤ 1 then some (recordOfItems d c rest) else none := by
  have hlength : (d :: c :: rest).length ≤ fields.length ↔ rest.length ≤ 1 := by
    show rest.length + 1 + 1 ≤ 3 ↔ rest.length ≤ 1
    omega
  rw [Value.record?]
  simp only [hlength]
  rfl

theorem lookup_metric_recordOfItems (d c : Value) (rest : List Value) :
    (recordOfItems d c rest).lookup "metric" = rest.head? := by
  cases rest <;> rfl

theorem describes_array_iff {text : Bytes} {items : List Value}
    (hv : Denotes text (.array items)) {h : Header} :
    ofValue? (.array items) = some h ↔ Describes (.array items) h := by
  have hitems := hv.item
  rw [ofValue?_eq_some_iff]
  match items with
  | [] =>
      constructor
      · rintro ⟨_, ⟨⟩, ⟨⟩, -⟩
      · rintro ⟨⟩
  | [d] =>
      constructor
      · rintro ⟨_, ⟨⟩, -, ⟨⟩, -⟩
      · rintro ⟨⟩
  | d :: c :: rest =>
      have hfirst : (recordOfItems d c rest).lookup "dimension" = [d].head? := rfl
      have hsecond : (recordOfItems d c rest).lookup "count" = [c].head? := rfl
      have hdimension := fun n => required_eq_some_iff (n := n) hfirst (Nat.le_refl 1)
        (List.forall_mem_singleton.mpr (hitems d (by simp)))
      have hcount := fun n => required_eq_some_iff (n := n) hsecond (Nat.le_refl 1)
        (List.forall_mem_singleton.mpr (hitems c (by simp)))
      have hlookup := lookup_metric_recordOfItems d c rest
      rw [record?_items]
      constructor
      · rintro ⟨record, hrecord, hd, hc, hmetric⟩
        split at hrecord
        · next hone =>
            cases hrecord
            obtain ⟨_, ⟨⟩, hd⟩ := (hdimension _).mp hd
            obtain ⟨_, ⟨⟩, hc⟩ := (hcount _).mp hc
            exact .items hd hc ((optional_metric_iff hlookup hone).mp hmetric)
        · cases hrecord
      · rintro (_ | ⟨hd, hc, hmetric⟩)
        have hone := hmetric.length_le
        exact ⟨_, if_pos hone, (hdimension _).mpr ⟨d, rfl, hd⟩, (hcount _).mpr ⟨c, rfl, hc⟩,
          (optional_metric_iff hlookup hone).mpr hmetric⟩

/-- A file holds a header exactly if it is a text of a document that stands
for it. -/
theorem decode?_eq_some_iff {content : Bytes} {h : Header} :
    decode? content = some h ↔ ∃ v, Item content v ∧ Describes v h := by
  have hvalue : ∀ {v}, Item content v → (ofValue? v = some h ↔ Describes v h) := by
    rintro v (@⟨_, _, _, _, -, hv, -⟩)
    cases v with
    | object => exact describes_object_iff hv
    | array => exact describes_array_iff hv
    | _ =>
        constructor
        · rintro ⟨⟩
        · rintro ⟨⟩
  rw [decode?]
  constructor
  · intro hdecode
    obtain ⟨v, hv, hdecode⟩ := Option.bind_eq_some_iff.mp hdecode
    rw [ofBytes?_eq_some_iff] at hv
    exact ⟨v, hv, (hvalue hv).mp hdecode⟩
  · rintro ⟨v, hv, hdescribes⟩
    exact Option.bind_eq_some_iff.mpr
      ⟨v, ofBytes?_eq_some_iff.mpr hv, (hvalue hv).mpr hdescribes⟩

end Header

/-! ## Components -/

/-- Four bytes make the number whose bits they are, lowest byte first. -/
theorem toNat_ofBytes (a b c d : UInt8) :
    (Single.ofBytes a b c d).bits.toNat = decodeLength [a, b, c, d] := by
  have ha := a.toNat_lt
  have hb := b.toNat_lt
  have hc := c.toNat_lt
  have hd := d.toNat_lt
  have hvalue : decodeLength [a, b, c, d] =
      a.toNat + 256 * (b.toNat + 256 * (c.toNat + 256 * d.toNat)) := rfl
  have hsmall : decodeLength [a, b, c, d] < UInt32.size := by
    rw [hvalue, show UInt32.size = 4294967296 from rfl]
    omega
  obtain ⟨x, hx⟩ : ∃ x : Single, x.bits.toNat = decodeLength [a, b, c, d] :=
    ⟨⟨UInt32.ofNat _⟩, UInt32.toNat_ofNat_of_lt' hsmall⟩
  rw [hvalue] at hx
  have hfirst : x.bits.toUInt8 = a := by
    rw [← UInt8.toNat_inj, UInt32.toNat_toUInt8]
    omega
  have hsecond : (x.bits >>> 8).toUInt8 = b := by
    rw [← UInt8.toNat_inj, UInt32.toNat_toUInt8, UInt32.toNat_shiftRight,
      Nat.shiftRight_eq_div_pow, show (8 : UInt32).toNat % 32 = 8 from rfl]
    omega
  have hthird : (x.bits >>> 16).toUInt8 = c := by
    rw [← UInt8.toNat_inj, UInt32.toNat_toUInt8, UInt32.toNat_shiftRight,
      Nat.shiftRight_eq_div_pow, show (16 : UInt32).toNat % 32 = 16 from rfl]
    omega
  have hfourth : (x.bits >>> 24).toUInt8 = d := by
    rw [← UInt8.toNat_inj, UInt32.toNat_toUInt8, UInt32.toNat_shiftRight,
      Nat.shiftRight_eq_div_pow, show (24 : UInt32).toNat % 32 = 24 from rfl]
    omega
  have hsame := ofBytes_toBytes x
  rw [hfirst, hsecond, hthird, hfourth] at hsame
  rw [hsame, hvalue, hx]

theorem takeComponents_of_short {count : Nat} {content : Bytes}
    (h : content.length < 4 * count) (done : List Single) :
    takeComponents done count content = none := by
  induction count generalizing content done with
  | zero => exact absurd h (Nat.not_lt_zero _)
  | succ count ih =>
      match content with
      | a :: b :: c :: d :: rest =>
          rw [takeComponents]
          refine ih ?_ _
          simp only [List.length_cons] at h
          omega
      | [] | [_] | [_, _] | [_, _, _] => rfl

theorem takeComponents_of_long {count : Nat} {content : Bytes}
    (h : 4 * count ≤ content.length) (done : List Single) :
    ∃ values, takeComponents done count content = some (done.reverse ++ values) ∧
      values.length = count ∧
      ∀ i < count, ∃ x, values[i]? = some x ∧
        x.bits.toNat = decodeLength ((content.drop (4 * i)).take 4) := by
  induction count generalizing content done with
  | zero =>
      refine ⟨[], by rw [takeComponents, List.append_nil], rfl, ?_⟩
      exact fun i hi => absurd hi (Nat.not_lt_zero i)
  | succ count ih =>
      match content with
      | a :: b :: c :: d :: rest =>
          simp only [List.length_cons] at h
          obtain ⟨values, htaken, hlength, hvalues⟩ :=
            ih (show 4 * count ≤ rest.length by omega) (Single.ofBytes a b c d :: done)
          refine ⟨Single.ofBytes a b c d :: values, ?_, by rw [List.length_cons, hlength], ?_⟩
          · rw [takeComponents, htaken, List.reverse_cons, List.append_assoc,
              List.singleton_append]
          · intro i hi
            cases i with
            | zero => exact ⟨_, rfl, toNat_ofBytes a b c d⟩
            | succ i => exact hvalues i (by omega)
      | [] | [_] | [_, _] | [_, _, _] =>
          simp only [List.length_cons, List.length_nil] at h
          omega

theorem decodeComponents?_of_short {content : Bytes}
    (h : content.length < 8 + 4 * decodeLength (content.take 8)) :
    decodeComponents? content = none := by
  rw [decodeComponents?]
  split
  · rfl
  · exact takeComponents_of_short (by rw [List.length_drop]; omega) []

theorem decodeComponents?_of_long {content : Bytes}
    (h : 8 + 4 * decodeLength (content.take 8) ≤ content.length) :
    ∃ values, decodeComponents? content = some values ∧
      values.length = decodeLength (content.take 8) ∧
      ∀ i < decodeLength (content.take 8), ∃ x, values[i]? = some x ∧
        x.bits.toNat = decodeLength ((content.drop (8 + 4 * i)).take 4) := by
  obtain ⟨values, htaken, hlength, hvalues⟩ := takeComponents_of_long
    (show 4 * decodeLength (content.take 8) ≤ (content.drop 8).length by
      rw [List.length_drop]; omega) []
  refine ⟨values, ?_, hlength, fun i hi => ?_⟩
  · rw [decodeComponents?, if_neg (by omega), htaken]
    rfl
  · rw [← List.drop_drop]
    exact hvalues i hi

/-! ## Both files -/

/-- Whether two files are an index with a header. Bytes behind the last
component do not matter. -/
structure IsIndex (header vectors : Bytes) (h : Header) : Prop where
  describes : ∃ v, Item header v ∧ h.Describes v
  dimension_pos : 0 < h.dimension
  fits : h.count * h.dimension < wholeLimit
  length_eq : decodeLength (vectors.take 8) = h.count * h.dimension
  enough : 8 + 4 * (h.count * h.dimension) ≤ vectors.length

namespace Flat

/-- What an index tells of itself. -/
def header (index : Flat) : Header := ⟨index.dimension, index.count, index.metric⟩

/-- Whether the components of an index are those of a file, row by row, each
as the four bytes at its offset. -/
def IsReadFrom (index : Flat) (vectors : Bytes) : Prop :=
  index.rows.length = index.count ∧
    ∀ i < index.count,
      i * index.dimension + index.dimension ≤ index.components.length ∧
      ∃ row, index.rows[i]? = some row ∧ row.length = index.dimension ∧
        ∀ j < index.dimension, ∃ x, row[j]? = some x ∧ x.bits.toNat =
          decodeLength ((vectors.drop (8 + 4 * (i * index.dimension + j))).take 4)

theorem isReadFrom_of_components {index : Flat} (hwell : index.WellFormed) {vectors : Bytes}
    (hvalues : ∀ i < index.count * index.dimension, ∃ x, index.components[i]? = some x ∧
      x.bits.toNat = decodeLength ((vectors.drop (8 + 4 * i)).take 4)) :
    index.IsReadFrom vectors := by
  refine ⟨by rw [rows_eq, List.length_map, List.length_range], fun i hi => ?_⟩
  have hin := hwell.row_le hi
  refine ⟨hin, index.row i, ?_, ?_, fun j hj => ?_⟩
  · rw [rows_eq, List.getElem?_map, List.getElem?_range hi]
    rfl
  · rw [row, List.length_take, List.length_drop]
    omega
  · rw [row, List.getElem?_take_of_lt hj, List.getElem?_drop]
    exact hvalues _ (by rw [← hwell.length_components]; omega)

section

variable {read : Name → Except FileFault Bytes} {header vectors : Bytes}

theorem openWith_of_isIndex (hheader : read headerFile = .ok header)
    (hvectors : read vectorsFile = .ok vectors) {h : Header} (hindex : IsIndex header vectors h) :
    ∃ index, openWith read = .ok index ∧ index.header = h ∧ index.IsReadFrom vectors := by
  have hdecode : Header.decode? header = some h := Header.decode?_eq_some_iff.mpr hindex.describes
  obtain ⟨values, hvalues, hlength, hcomponents⟩ := decodeComponents?_of_long
    (show 8 + 4 * decodeLength (vectors.take 8) ≤ vectors.length by
      rw [hindex.length_eq]; exact hindex.enough)
  rw [hindex.length_eq] at hlength hcomponents
  have hopen : openWith read = .ok ⟨h.dimension, h.count, h.metric, values⟩ := by
    rw [openWith, hheader, hvectors]
    simp only [Except.mapError, bind, Except.bind, hdecode, hvalues,
      if_neg (Nat.ne_of_gt hindex.dimension_pos)]
    rw [assemble, if_neg (Nat.not_le.mpr hindex.fits), if_neg (not_not.mpr hlength)]
  exact ⟨_, hopen, rfl, isReadFrom_of_components (wellFormed_of_openWith hopen) hcomponents⟩

theorem decoded_of_openWith {index : Flat} (hopen : openWith read = .ok index) :
    ∃ header vectors, read headerFile = .ok header ∧ read vectorsFile = .ok vectors ∧
      Header.decode? header = some index.header ∧
      decodeComponents? vectors = some index.components := by
  rw [openWith] at hopen
  obtain ⟨header, hheader, hopen⟩ := bind_eq_ok.mp hopen
  split at hopen
  · next h hdecode =>
      split at hopen
      · cases hopen
      · obtain ⟨vectors, hvectors, hopen⟩ := bind_eq_ok.mp hopen
        split at hopen
        · next values hvalues =>
            rw [assemble] at hopen
            split at hopen
            · cases hopen
            split at hopen
            · cases hopen
            · cases hopen
              exact ⟨header, vectors, mapError_eq_ok.mp hheader, mapError_eq_ok.mp hvectors,
                hdecode, hvalues⟩
        · cases hopen
  · cases hopen

theorem isIndex_of_openWith (hheader : read headerFile = .ok header)
    (hvectors : read vectorsFile = .ok vectors) {index : Flat}
    (hopen : openWith read = .ok index) : IsIndex header vectors index.header := by
  have hwell := wellFormed_of_openWith hopen
  obtain ⟨_, _, hheader', hvectors', hdecode, hcomponents⟩ := decoded_of_openWith hopen
  cases hheader.symm.trans hheader'
  cases hvectors.symm.trans hvectors'
  have henough : 8 + 4 * decodeLength (vectors.take 8) ≤ vectors.length := by
    refine Nat.le_of_not_lt fun hshort => ?_
    rw [decodeComponents?_of_short hshort] at hcomponents
    cases hcomponents
  obtain ⟨values, hvalues, hlength, -⟩ := decodeComponents?_of_long henough
  cases hvalues.symm.trans hcomponents
  rw [hwell.length_components] at hlength
  exact {
    describes := Header.decode?_eq_some_iff.mp hdecode
    dimension_pos := hwell.dimension_pos
    fits := hwell.noWrap
    length_eq := hlength.symm
    enough := hlength ▸ henough }

/-- An index opens exactly if its two files are one, with the header that is
described and the components that are there. -/
theorem openWith_spec (hheader : read headerFile = .ok header)
    (hvectors : read vectorsFile = .ok vectors) :
    (∀ h, IsIndex header vectors h →
      ∃ index, openWith read = .ok index ∧ index.header = h ∧ index.IsReadFrom vectors) ∧
    ((¬ ∃ h, IsIndex header vectors h) → ∃ e, openWith read = .error e) := by
  refine ⟨fun h => openWith_of_isIndex hheader hvectors, fun hnone => ?_⟩
  cases hopen : openWith read with
  | error e => exact ⟨e, rfl⟩
  | ok index => exact absurd ⟨_, isIndex_of_openWith hheader hvectors hopen⟩ hnone

end

/-- One row of two components opens, with a byte behind them. A length that
promises far more than the file holds does not. -/
theorem one_row_opens_and_long_length_is_refused :
    let read (vectors : Bytes) (name : Name) : Except FileFault Bytes :=
      if name = headerFile then .ok (Header.encode ⟨2, 1, .cosine⟩) else .ok vectors
    let components : Bytes := encodeLength 2 ++ [0, 0, 128, 63, 0, 0, 0, 64, 7]
    (∃ index, openWith (read components) = .ok index ∧ index.header = ⟨2, 1, .cosine⟩ ∧
      index.IsReadFrom components) ∧
    ∃ e, openWith (read (List.replicate 9 255)) = .error e := by
  intro read components
  have hheader : ∀ vectors, read vectors headerFile = .ok (Header.encode ⟨2, 1, .cosine⟩) :=
    fun _ => rfl
  have hvectors : ∀ vectors, read vectors vectorsFile = .ok vectors := fun _ => rfl
  have hdescribes := Header.decode?_eq_some_iff.mp
    (Header.decode?_encode (h := ⟨2, 1, .cosine⟩) (by decide) (by decide))
  have hindex : IsIndex (Header.encode ⟨2, 1, .cosine⟩) components ⟨2, 1, .cosine⟩ :=
    ⟨hdescribes, by decide, by decide, by decide, by decide⟩
  refine ⟨(openWith_spec (hheader _) (hvectors _)).1 _ hindex,
    (openWith_spec (hheader _) (hvectors _)).2 ?_⟩
  rintro ⟨h, -, -, -, hlength, henough⟩
  rw [← hlength] at henough
  exact absurd henough (by decide)

end Flat

end GlyphSearch.Index
