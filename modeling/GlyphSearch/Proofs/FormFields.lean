import GlyphSearch.Http.Form
import GlyphSearch.Json.Text
import GlyphSearch.Proofs.Encoding

/-!
# Fields of a form

A form has many spellings: each byte of a name or value may stand for itself or
be written in hexadecimal digits, and a space may be a plus sign. `Spells` says
what spells which fields. It leaves out only that a byte with a meaning of its
own stands for itself. However fields are spelled, they are read back.
-/

namespace GlyphSearch.Http

open Text

/-! ## Bytes -/

/-- What spells which bytes. -/
inductive SpellsBytes : Bytes → Bytes → Prop
  | nil : SpellsBytes [] []
  | plain {b : UInt8} {spelling raw : Bytes} (hplus : b ≠ byte '+') (hpercent : b ≠ byte '%')
      (hampersand : b ≠ byte '&') (h : SpellsBytes spelling raw) :
      SpellsBytes (b :: spelling) (b :: raw)
  | space {spelling raw : Bytes} (h : SpellsBytes spelling raw) :
      SpellsBytes (byte '+' :: spelling) (byte ' ' :: raw)
  | percent {high low : UInt8} {n : Nat} {spelling raw : Bytes}
      (hn : hexNumber? [high, low] = some n) (h : SpellsBytes spelling raw) :
      SpellsBytes (byte '%' :: high :: low :: spelling) (UInt8.ofNat n :: raw)

theorem percentDecodeOnto_of_spells {spelling raw : Bytes} (h : SpellsBytes spelling raw)
    (done : Bytes) : percentDecodeOnto done spelling = raw.reverse ++ done := by
  induction h generalizing done with
  | nil => rw [percentDecodeOnto.eq_def]; rfl
  | plain hplus hpercent _ _ ih =>
      rw [percentDecodeOnto.eq_def]
      dsimp only
      rw [if_neg hplus, if_neg hpercent, ih, List.reverse_cons, List.append_assoc]
      rfl
  | space _ ih =>
      rw [percentDecodeOnto.eq_def]
      dsimp only
      rw [if_pos rfl, ih, List.reverse_cons, List.append_assoc]
      rfl
  | percent hn _ ih =>
      rw [percentDecodeOnto.eq_def]
      dsimp only
      rw [if_neg (by decide), if_pos rfl, hn]
      dsimp only
      rw [ih, List.reverse_cons, List.append_assoc]
      rfl

/-- A text is read back from every spelling of it. -/
theorem percentDecode_of_spells {spelling : Bytes} {s : String}
    (h : SpellsBytes spelling (encode s)) : percentDecode spelling = s := by
  rw [percentDecode, percentDecodeOnto_of_spells h, List.append_nil, List.reverse_reverse,
    decodeLossy_encode]

theorem ne_of_hexNumber? {high low : UInt8} {n : Nat} (h : hexNumber? [high, low] = some n)
    {b : UInt8} (hb : hexValue? b = none) : high ≠ b ∧ low ≠ b := by
  constructor
  · rintro rfl
    simp [hexNumber?, hb] at h
  · rintro rfl
    simp [hexNumber?, hb] at h

theorem SpellsBytes.ampersand_not_mem {spelling raw : Bytes} (h : SpellsBytes spelling raw) :
    byte '&' ∉ spelling := by
  induction h with
  | nil => exact List.not_mem_nil
  | plain _ _ hampersand _ ih => simp [Ne.symm hampersand, ih]
  | space _ ih =>
      have hne : byte '&' ≠ byte '+' := by decide
      simp [hne, ih]
  | percent hn _ ih =>
      obtain ⟨hhigh, hlow⟩ := ne_of_hexNumber? hn (b := byte '&') (by decide)
      have hne : byte '&' ≠ byte '%' := by decide
      simp [hne, hhigh.symm, hlow.symm, ih]

/-! ## Pairs -/

/-- What spells a name and a value with an equals sign between them. -/
inductive SpellsPair : Bytes → String × String → Prop
  | intro {left right : Bytes} {name value : String} (hname : SpellsBytes left (encode name))
      (hequals : byte '=' ∉ left) (hvalue : SpellsBytes right (encode value)) :
      SpellsPair (left ++ byte '=' :: right) (name, value)

/-- What spells pairs with ampersands between them. -/
inductive SpellsPairs : Bytes → List (String × String) → Prop
  | nil : SpellsPairs [] []
  | last {text : Bytes} {pair : String × String} (h : SpellsPair text pair) :
      SpellsPairs text [pair]
  | more {text rest : Bytes} {pair : String × String} {pairs : List (String × String)}
      (h : SpellsPair text pair) (hrest : SpellsPairs rest pairs) :
      SpellsPairs (text ++ byte '&' :: rest) (pair :: pairs)

theorem SpellsPair.ne_nil {text : Bytes} {pair : String × String} (h : SpellsPair text pair) :
    text ≠ [] := by
  cases h
  exact List.append_ne_nil_of_right_ne_nil _ (List.cons_ne_nil _ _)

theorem SpellsPair.ampersand_not_mem {text : Bytes} {pair : String × String}
    (h : SpellsPair text pair) : byte '&' ∉ text := by
  cases h with
  | intro hname hequals hvalue =>
      have hne : byte '&' ≠ byte '=' := by decide
      simp [hname.ampersand_not_mem, hvalue.ampersand_not_mem, hne]

theorem SpellsPair.parse {text : Bytes} {pair : String × String} (h : SpellsPair text pair) :
    (percentDecode (text.takeWhile (· ≠ byte '=')),
      percentDecode (text.drop ((text.takeWhile (· ≠ byte '=')).length + 1))) = pair := by
  cases h with
  | @intro left right name value hname hequals hvalue =>
      have hleft : (left ++ byte '=' :: right).takeWhile (· ≠ byte '=') = left := by
        rw [List.takeWhile_append_of_pos, List.takeWhile_cons_of_neg (by simp), List.append_nil]
        exact fun b hb => decide_eq_true fun heq => hequals (heq ▸ hb)
      have hright : (left ++ byte '=' :: right).drop (left.length + 1) = right := by
        rw [List.drop_append, List.drop_of_length_le (Nat.le_succ _)]
        simp
      rw [hleft, hright, percentDecode_of_spells hname, percentDecode_of_spells hvalue]

/-- Pairs are read back from every spelling of them. -/
theorem parsePairs_of_spells {form : Bytes} {pairs : List (String × String)}
    (h : SpellsPairs form pairs) : parsePairs form = pairs := by
  have hcut : ∀ {text pair}, SpellsPair text pair → text.splitOnP (· = byte '&') = [text] := by
    intro text pair h
    refine List.splitOnP_eq_singleton fun b hb => decide_eq_false ?_
    rintro rfl
    exact h.ampersand_not_mem hb
  induction h with
  | nil => rfl
  | last h =>
      rw [parsePairs, hcut h, List.filter_cons_of_pos (by simpa using h.ne_nil)]
      exact congrArg (· :: []) h.parse
  | more h _ ih =>
      rw [parsePairs, List.splitOnP_append_cons _ _ (by simp), hcut h, List.singleton_append,
        List.filter_cons_of_pos (by simpa using h.ne_nil), List.map_cons]
      exact congr (congrArg List.cons h.parse) ih

/-! ## Fields -/

/-- The values that pairs have for a name. -/
def valuesOf (name : String) (pairs : List (String × String)) : List String :=
  (pairs.filter (·.1 = name)).map (·.2)

theorem valuesOf_cons_of_eq (name value : String) (pairs : List (String × String)) :
    valuesOf name ((name, value) :: pairs) = value :: valuesOf name pairs := by
  simp [valuesOf]

theorem valuesOf_cons_of_ne {name name' : String} (h : name' ≠ name) (value : String)
    (pairs : List (String × String)) :
    valuesOf name ((name', value) :: pairs) = valuesOf name pairs := by
  simp [valuesOf, h]

namespace SearchFields

/-- Whether pairs have these fields and no others, not regarding other names. -/
structure AreIn (fields : SearchFields) (pairs : List (String × String)) : Prop where
  query : valuesOf queryName pairs = fields.query.toList
  version : valuesOf versionName pairs = fields.version.toList

theorem eq_of_toList {o o' : Option String} (h : o.toList = o'.toList) : o = o' := by
  cases o <;> cases o' <;> simp_all

theorem eq_none_of_toList {o o' : Option String} {value : String} {values : List String}
    (h : o.toList ++ value :: values = o'.toList) : o = none := by
  cases o with
  | none => rfl
  | some x => cases o' <;> simp at h

/-- What has been collected and what is still to come are the fields. -/
theorem collect_eq_ok {known fields : SearchFields} {pairs : List (String × String)}
    (hquery : known.query.toList ++ valuesOf queryName pairs = fields.query.toList)
    (hversion : known.version.toList ++ valuesOf versionName pairs = fields.version.toList) :
    collect known pairs = .ok fields := by
  induction pairs generalizing known with
  | nil =>
      have hquery' : known.query = fields.query :=
        eq_of_toList (by rwa [← List.append_nil known.query.toList])
      have hversion' : known.version = fields.version :=
        eq_of_toList (by rwa [← List.append_nil known.version.toList])
      cases known
      cases hquery'
      cases hversion'
      rfl
  | cons pair pairs ih =>
      obtain ⟨name, value⟩ := pair
      have hne : queryName ≠ versionName := by decide
      rw [collect]
      by_cases hq : name = queryName
      · subst hq
        rw [valuesOf_cons_of_eq] at hquery
        rw [valuesOf_cons_of_ne hne] at hversion
        -- The fields have one value at most, so none has been collected yet.
        have hnone := eq_none_of_toList hquery
        rw [hnone] at hquery
        rw [if_pos rfl, if_neg (by simp [hnone])]
        exact ih hquery hversion
      rw [valuesOf_cons_of_ne hq] at hquery
      rw [if_neg hq]
      by_cases hv : name = versionName
      · subst hv
        rw [valuesOf_cons_of_eq] at hversion
        have hnone := eq_none_of_toList hversion
        rw [hnone] at hversion
        rw [if_pos rfl, if_neg (by simp [hnone])]
        exact ih hquery hversion
      rw [valuesOf_cons_of_ne hv] at hversion
      rw [if_neg hv]
      exact ih hquery hversion

end SearchFields

/-- What spells which fields, in any order and among pairs of other names. -/
def SpellsFields (form : Bytes) (fields : SearchFields) : Prop :=
  ∃ pairs, SpellsPairs form pairs ∧ fields.AreIn pairs

/-- Fields are read back from every spelling of them. -/
theorem parse_of_spells {form : Bytes} {fields : SearchFields} (h : SpellsFields form fields) :
    SearchFields.parse form = .ok fields := by
  obtain ⟨pairs, hpairs, hfields⟩ := h
  rw [SearchFields.parse, parsePairs_of_spells hpairs]
  exact SearchFields.collect_eq_ok hfields.query hfields.version

/-! ## Spelling every byte in digits -/

open Json (hexDigit)

/-- A text with all its bytes in hexadecimal digits. -/
def inDigits (s : String) : List Char :=
  (encode s).flatMap fun b => ['%', hexDigit (b.toNat / 16), hexDigit (b.toNat % 16)]

/-- Pairs with all names and values in hexadecimal digits. -/
def pairsInDigits : List (String × String) → List Char
  | [] => []
  | [(name, value)] => inDigits name ++ '=' :: inDigits value
  | (name, value) :: pair :: pairs =>
    (inDigits name ++ '=' :: inDigits value) ++ '&' :: pairsInDigits (pair :: pairs)

theorem hexNumber?_digits (b : UInt8) :
    hexNumber? [byte (hexDigit (b.toNat / 16)), byte (hexDigit (b.toNat % 16))] =
      some b.toNat := by
  have hall : ∀ n < 0x100, hexNumber? [byte (hexDigit (n / 16)), byte (hexDigit (n % 16))] =
      some n := by decide +kernel
  exact hall b.toNat b.toNat_lt

theorem spellsBytes_inDigits (s : String) :
    SpellsBytes ((inDigits s).map byte) (encode s) := by
  rw [inDigits]
  induction encode s with
  | nil => exact .nil
  | cons b raw ih =>
      have h := SpellsBytes.percent (hexNumber?_digits b) ih
      rwa [UInt8.ofNat_toNat] at h

theorem isPlain_inDigits (s : String) :
    ∀ c ∈ inDigits s, c.toNat < 0x80 ∧ c ≠ '#' ∧ c ≠ '=' := by
  have hall : ∀ n < 16, (hexDigit n).toNat < 0x80 ∧ hexDigit n ≠ '#' ∧ hexDigit n ≠ '=' := by
    decide
  intro c hc
  obtain ⟨b, -, hmem⟩ := List.mem_flatMap.mp hc
  simp only [List.mem_cons, List.not_mem_nil, or_false] at hmem
  rcases hmem with rfl | rfl | rfl
  · decide
  · exact hall _ (Nat.div_lt_of_lt_mul b.toNat_lt)
  · exact hall _ (Nat.mod_lt _ (by decide))

theorem spellsPairs_inDigits (pairs : List (String × String)) :
    SpellsPairs ((pairsInDigits pairs).map byte) pairs := by
  have hpair : ∀ name value, SpellsPair ((inDigits name ++ '=' :: inDigits value).map byte)
      (name, value) := by
    intro name value
    rw [List.map_append, List.map_cons]
    refine .intro (spellsBytes_inDigits name) ?_ (spellsBytes_inDigits value)
    intro hmem
    obtain ⟨c, hc, heq⟩ := List.mem_map.mp hmem
    obtain ⟨hascii, -, hequals⟩ := isPlain_inDigits name c hc
    exact hequals (eq_of_byte_eq hascii (by decide) heq)
  induction pairs using pairsInDigits.induct with
  | case1 => exact .nil
  | case2 name value => exact .last (hpair name value)
  | case3 name value pair pairs ih =>
      rw [pairsInDigits, List.map_append, List.map_cons]
      exact .more (hpair name value) ih

theorem isPlain_pairsInDigits (pairs : List (String × String)) :
    ∀ c ∈ pairsInDigits pairs, c.toNat < 0x80 ∧ c ≠ '#' := by
  have hpair : ∀ name value, ∀ c ∈ inDigits name ++ '=' :: inDigits value,
      c.toNat < 0x80 ∧ c ≠ '#' := by
    intro name value c hc
    rcases List.mem_append.mp hc with hname | hrest
    · exact ⟨(isPlain_inDigits name c hname).1, (isPlain_inDigits name c hname).2.1⟩
    rcases List.mem_cons.mp hrest with rfl | hvalue
    · decide
    · exact ⟨(isPlain_inDigits value c hvalue).1, (isPlain_inDigits value c hvalue).2.1⟩
  induction pairs using pairsInDigits.induct with
  | case1 => simp [pairsInDigits]
  | case2 name value => exact hpair name value
  | case3 name value pair pairs ih =>
      intro c hc
      rw [pairsInDigits] at hc
      rcases List.mem_append.mp hc with hfirst | hrest
      · exact hpair name value c hfirst
      rcases List.mem_cons.mp hrest with rfl | hrest
      · decide
      · exact ih c hrest

/-- All fields have a spelling, and one without a number sign. -/
theorem exists_spelling (fields : SearchFields) :
    ∃ text : String, SpellsFields (encode text) fields ∧ '#' ∉ text.toList := by
  let pairs := fields.query.toList.map (SearchFields.queryName, ·) ++
    fields.version.toList.map (SearchFields.versionName, ·)
  have hplain := isPlain_pairsInDigits pairs
  refine ⟨String.ofList (pairsInDigits pairs), ⟨pairs, ?_, ?_, ?_⟩, ?_⟩
  · rw [encode_of_ascii (by rw [String.toList_ofList]; exact fun c hc => (hplain c hc).1), bytes,
      String.toList_ofList]
    exact spellsPairs_inDigits pairs
  · cases fields with | mk q v => cases q <;> cases v <;> rfl
  · cases fields with | mk q v => cases q <;> cases v <;> rfl
  · rw [String.toList_ofList]
    exact fun hmem => (hplain _ hmem).2 rfl

end GlyphSearch.Http
