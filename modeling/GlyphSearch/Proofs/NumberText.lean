import GlyphSearch.Decimal.Layout
import GlyphSearch.Proofs.Grammar
import GlyphSearch.Proofs.Shortest

/-!
# The text of a number

A number is written in parts: digits before the point, digits behind it, an
exponent. However a layout cuts the digits into these parts, their text is a
number of the grammar of documents, and it is read as a numeral with the
magnitude of the digits. As the shortest digits are in the interval of the
number that they were found for, a finite number is read back from its text,
bit for bit.
-/

namespace GlyphSearch.Decimal

open Binary Json Text

/-! ## Parts -/

/-- The parts of a number without its sign. -/
structure Parts where
  whole : List Char
  fraction : List Char
  exponent : Option Int

namespace Parts

/-- The digits behind the point, with it. There is no point without digits. -/
def pointText (p : Parts) : List Char := if p.fraction = [] then [] else '.' :: p.fraction

/-- The exponent as it is written. -/
def ending (p : Parts) : List Char := (p.exponent.map fun e => (exponentText e).toList).getD []

/-- The text of a number. -/
def text (p : Parts) : List Char := p.whole ++ (p.pointText ++ p.ending)

/-- The numeral of a number with a sign. -/
def numeral (negative : Bool) (p : Parts) : Numeral :=
  ⟨negative, ofDigits (p.whole ++ p.fraction), p.exponent.getD 0 - p.fraction.length⟩

/-- Whether all digits are digits, and a zero before the point stands alone. -/
structure Proper (p : Parts) : Prop where
  whole_ne_nil : p.whole ≠ []
  whole_digits : ∀ c ∈ p.whole, isDigit c
  whole_head : p.whole.head? = some '0' → p.whole.length = 1
  fraction_digits : ∀ c ∈ p.fraction, isDigit c

end Parts

/-- A sign as it is written. -/
def signText (negative : Bool) : List Char := if negative then ['-'] else []

theorem splitDigits_append {digits rest : List Char} (hdigits : ∀ c ∈ digits, isDigit c)
    (hrest : ∀ c ∈ rest.head?, isDigit c = false) :
    splitDigits (digits ++ rest) = (digits, rest) := by
  rw [splitDigits, List.takeWhile_append_of_pos hdigits, List.dropWhile_append_of_pos hdigits]
  cases rest with
  | nil => simp
  | cons c rest =>
      have hc : isDigit c = false := hrest c rfl
      rw [List.takeWhile_cons_of_neg (by simp [hc]), List.dropWhile_cons_of_neg (by simp [hc]),
        List.append_nil]

/-! ## Exponents -/

theorem toList_exponentText (e : Int) : (exponentText e).toList =
    'e' :: (if e < 0 then '-' else '+') :: Nat.toDigits 10 e.natAbs := by
  rw [exponentText]
  split
  · simp only [String.toList_append, Nat.toString_eq_ofList_toDigits, String.toList_ofList]
    rfl
  · simp only [String.toList_append, Nat.toString_eq_ofList_toDigits, String.toList_ofList]
    rfl

theorem isDigit_of_mem_toDigits (n : Nat) : ∀ c ∈ Nat.toDigits 10 n, isDigit c = true :=
  forall_mem_toDigits (by decide) n

theorem readExponent_exponentText (e : Int) : readExponent (exponentText e).toList = some e := by
  have hproper : ¬ (Nat.toDigits 10 e.natAbs = [] ∨ ¬ (Nat.toDigits 10 e.natAbs).all isDigit) := by
    rintro (hnil | hdigits)
    · exact Nat.toDigits_ne_nil hnil
    · exact hdigits (List.all_eq_true.mpr (isDigit_of_mem_toDigits _))
  have hvalue : ofDigits (Nat.toDigits 10 e.natAbs) = e.natAbs := Nat.ofDigitChars_ten_toDigits
  rw [toList_exponentText, readExponent, if_pos (.inl rfl)]
  by_cases he : e < 0
  · rw [if_pos he]
    simp only [splitSign]
    rw [if_neg hproper, hvalue]
    exact congrArg some (by omega)
  · rw [if_neg he]
    simp only [splitSign]
    rw [if_neg hproper, hvalue]
    exact congrArg some (by omega)

/-! ## Reading the parts -/

namespace Parts

variable {p : Parts}

theorem readExponent_ending (p : Parts) : readExponent p.ending = some (p.exponent.getD 0) := by
  rw [ending]
  cases p.exponent with
  | none => rfl
  | some e => exact readExponent_exponentText e

theorem head?_ending {c : Char} (hc : c ∈ p.ending.head?) : c = 'e' := by
  rw [ending] at hc
  cases hexponent : p.exponent with
  | none => rw [hexponent] at hc; cases hc
  | some e =>
      rw [hexponent, Option.map_some, Option.getD_some, toList_exponentText] at hc
      cases hc
      rfl

theorem splitSign_text (hp : p.Proper) (negative : Bool) :
    splitSign (signText negative ++ p.text) = (negative, p.text) := by
  cases negative with
  | true => rfl
  | false =>
      obtain ⟨c, whole, hwhole⟩ := List.exists_cons_of_ne_nil hp.whole_ne_nil
      have hc : isDigit c = true := hp.whole_digits c (hwhole ▸ List.mem_cons_self)
      rw [text, hwhole]
      exact splitSign_cons_of_isDigit hc _

theorem splitDigits_text (hp : p.Proper) :
    splitDigits p.text = (p.whole, p.pointText ++ p.ending) := by
  refine splitDigits_append hp.whole_digits fun c hc => ?_
  rw [pointText] at hc
  split at hc
  · rw [head?_ending hc]
    decide
  · cases hc
    decide

theorem splitFraction_text (hp : p.Proper) :
    splitFraction (p.pointText ++ p.ending) = (p.fraction, p.ending) := by
  have hending : ∀ c ∈ p.ending.head?, c = 'e' := fun c => head?_ending
  rw [pointText]
  by_cases hfraction : p.fraction = []
  · rw [if_pos hfraction, List.nil_append, hfraction]
    generalize p.ending = tail at hending ⊢
    unfold splitFraction
    split
    · exact absurd (hending '.' rfl) (by decide)
    · rfl
  · rw [if_neg hfraction]
    refine splitDigits_append hp.fraction_digits fun c hc => ?_
    rw [hending c hc]
    decide

/-- The text of a number is read as its numeral. -/
theorem ofChars?_text (hp : p.Proper) (negative : Bool) :
    Numeral.ofChars? (signText negative ++ p.text) = some (p.numeral negative) := by
  have hnotEmpty : ¬ (p.whole = [] ∧ p.fraction = []) := fun h => hp.whole_ne_nil h.1
  rw [Numeral.ofChars?, splitSign_text hp]
  simp only [splitDigits_text hp, splitFraction_text hp, if_neg hnotEmpty, readExponent_ending,
    Option.map_some]
  rfl

/-! ## The grammar -/

theorem isDigits_map_byte {digits : List Char} (hne : digits ≠ [])
    (hdigits : ∀ c ∈ digits, isDigit c) : IsDigits (digits.map byte) := by
  have hbyte : ∀ n, n < 10 → isDigitByte (byte (Nat.digitChar n)) = true := by decide
  refine ⟨by simpa using hne, List.all_eq_true.mpr (List.forall_mem_map.mpr fun c hc => ?_)⟩
  obtain ⟨hsmall, hchar⟩ := digitChar_digitValue (hdigits c hc)
  rw [← hchar]
  exact hbyte _ hsmall

theorem isExponent_ending (p : Parts) : IsExponent (p.ending.map byte) := by
  rw [ending]
  cases p.exponent with
  | none => exact .inl rfl
  | some e =>
      refine .inr ⟨byte 'e', [byte (if e < 0 then '-' else '+')],
        (Nat.toDigits 10 e.natAbs).map byte, ?_, .inl rfl, ?_,
        isDigits_map_byte Nat.toDigits_ne_nil (isDigit_of_mem_toDigits _)⟩
      · rw [Option.map_some, Option.getD_some, toList_exponentText]
        rfl
      · by_cases he : e < 0
        · rw [if_pos he]
          exact .inr (.inr rfl)
        · rw [if_neg he]
          exact .inr (.inl rfl)

theorem isWhole_whole (hp : p.Proper) : IsWhole (p.whole.map byte) := by
  refine ⟨isDigits_map_byte hp.whole_ne_nil hp.whole_digits, fun hzero => ?_⟩
  obtain ⟨c, whole, hwhole⟩ := List.exists_cons_of_ne_nil hp.whole_ne_nil
  obtain ⟨hsmall, hchar⟩ := digitChar_digitValue (hp.whole_digits c (hwhole ▸ List.mem_cons_self))
  rw [List.length_map]
  refine hp.whole_head ?_
  rw [hwhole] at hzero ⊢
  have hzero : byte c = byte '0' := Option.some.inj hzero
  have hbyte : ∀ n, n < 10 → byte (Nat.digitChar n) = byte '0' → Nat.digitChar n = '0' := by
    decide
  have hdigit := hbyte _ hsmall (by rw [hchar, hzero])
  rw [hchar] at hdigit
  exact congrArg some hdigit

/-- The text of a number is one of the grammar of documents. -/
theorem isNumber_text (hp : p.Proper) (negative : Bool) :
    IsNumber ((signText negative ++ p.text).map byte) := by
  refine ⟨(signText negative).map byte, p.whole.map byte, p.pointText.map byte,
    p.ending.map byte, ?_, ?_, isWhole_whole hp, ?_, isExponent_ending p⟩
  · simp only [text, List.map_append, List.append_assoc]
  · cases negative
    · exact .inl rfl
    · exact .inr rfl
  · rw [pointText]
    by_cases hfraction : p.fraction = []
    · rw [if_pos hfraction]
      exact .inl rfl
    · rw [if_neg hfraction]
      exact .inr ⟨p.fraction.map byte, rfl, isDigits_map_byte hfraction hp.fraction_digits⟩

theorem isAscii_of_isDigit {c : Char} (hc : isDigit c) : c.toNat < 0x80 := by
  have hdigit : ∀ n, n < 10 → (Nat.digitChar n).toNat < 0x80 := by decide
  obtain ⟨hsmall, hchar⟩ := digitChar_digitValue hc
  rw [← hchar]
  exact hdigit _ hsmall

theorem isAscii_text (hp : p.Proper) (negative : Bool) :
    ∀ c ∈ signText negative ++ p.text, c.toNat < 0x80 := by
  have hsign : ∀ c ∈ signText negative, c.toNat < 0x80 := by
    cases negative with
    | true => exact List.forall_mem_singleton.mpr (by decide)
    | false => exact List.forall_mem_nil _
  have hwhole : ∀ c ∈ p.whole, c.toNat < 0x80 := fun c hc =>
    isAscii_of_isDigit (hp.whole_digits c hc)
  have hpoint : ∀ c ∈ p.pointText, c.toNat < 0x80 := by
    rw [pointText]
    split
    · exact fun c hc => absurd hc List.not_mem_nil
    · exact List.forall_mem_cons.mpr ⟨by decide, fun c hc =>
        isAscii_of_isDigit (hp.fraction_digits c hc)⟩
  have hending : ∀ c ∈ p.ending, c.toNat < 0x80 := by
    rw [ending]
    cases p.exponent with
    | none => exact fun c hc => absurd hc List.not_mem_nil
    | some e =>
        rw [Option.map_some, Option.getD_some, toList_exponentText]
        refine List.forall_mem_cons.mpr ⟨by decide, List.forall_mem_cons.mpr ⟨?_, ?_⟩⟩
        · split <;> decide
        · exact fun c hc => isAscii_of_isDigit (isDigit_of_mem_toDigits _ c hc)
  rw [text]
  exact List.forall_mem_append.mpr ⟨hsign, List.forall_mem_append.mpr
    ⟨hwhole, List.forall_mem_append.mpr ⟨hpoint, hending⟩⟩⟩

end Parts

/-! ## Layouts -/

/-- Whether a text is that of a number with a magnitude. -/
def Spells (text : List Char) (x : ℚ) : Prop :=
  ∃ p : Parts, p.Proper ∧ p.text = text ∧ ∀ negative, (p.numeral negative).magnitude = x

section

variable {d : Digits} (hd : d.Proper)

include hd

theorem whole_head_of_eq {whole : List Char} (h : whole.head? = d.digits.head?) :
    whole.head? = some '0' → whole.length = 1 := by
  intro hzero
  exact absurd (h ▸ hzero) hd.head_ne

/-- Digits with zeros behind them, up to the point. -/
theorem spells_zeros {zeros : Nat} (hpoint : d.point = d.digits.length + zeros) :
    Spells (d.digits ++ (List.replicate zeros '0' ++ ['.', '0'])) d.magnitude := by
  refine ⟨⟨d.digits ++ List.replicate zeros '0', ['0'], none⟩,
    ⟨List.append_ne_nil_of_left_ne_nil hd.ne_nil _, ?_, ?_, ?_⟩, ?_, fun _ => ?_⟩
  · intro c hc
    rcases List.mem_append.mp hc with hc | hc
    · exact hd.isDigit c hc
    · rw [(List.mem_replicate.mp hc).2]
      decide
  · exact whole_head_of_eq hd (List.head?_append_of_ne_nil _ hd.ne_nil)
  · exact List.forall_mem_singleton.mpr (by decide)
  · simp [Parts.text, Parts.pointText, Parts.ending]
  · have hdigits : ofDigits (d.digits ++ List.replicate zeros '0' ++ ['0']) =
        ofDigits d.digits * 10 ^ (zeros + 1) := by
      rw [← ofDigits_append_zeros, List.append_assoc, List.replicate_succ']
    have hzeros : d.point - d.digits.length = ((zeros + 1 : ℕ) : ℤ) + (0 - 1) := by omega
    change (ofDigits (d.digits ++ List.replicate zeros '0' ++ ['0']) : ℚ) * 10 ^ (0 - 1 : ℤ) = _
    rw [hdigits, Digits.magnitude, hzeros, zpow_add₀ (by norm_num), zpow_natCast]
    push_cast
    ring

theorem proper_split {n : Nat} (hn : 0 < n) (exponent : Option Int) :
    Parts.Proper ⟨d.digits.take n, d.digits.drop n, exponent⟩ := by
  obtain ⟨c, rest, hdigits⟩ := List.exists_cons_of_ne_nil hd.ne_nil
  obtain ⟨k, rfl⟩ : ∃ k, n = k + 1 := Nat.exists_eq_succ_of_ne_zero (Nat.ne_of_gt hn)
  refine ⟨?_, fun c hc => hd.isDigit c (List.mem_of_mem_take hc), whole_head_of_eq hd ?_,
    fun c hc => hd.isDigit c (List.mem_of_mem_drop hc)⟩
  · rw [hdigits, List.take_succ_cons]
    exact List.cons_ne_nil _ _
  · rw [hdigits, List.take_succ_cons]
    rfl

/-- Digits on both sides of the point. -/
theorem spells_split {point : Nat} (hpoint : d.point = point) (hpos : 0 < point)
    (hcount : point < d.digits.length) :
    Spells (d.digits.take point ++ ('.' :: d.digits.drop point)) d.magnitude := by
  have hfraction : d.digits.drop point ≠ [] := by
    intro hnil
    exact absurd (List.drop_eq_nil_iff.mp hnil) (Nat.not_le.mpr hcount)
  refine ⟨_, proper_split hd hpos none, ?_, fun _ => ?_⟩
  · simp [Parts.text, Parts.pointText, Parts.ending, hfraction]
  · have hexponent : d.point - d.digits.length = 0 - ((d.digits.drop point).length : ℤ) := by
      rw [List.length_drop]
      omega
    change (ofDigits (d.digits.take point ++ d.digits.drop point) : ℚ) *
      10 ^ (0 - ((d.digits.drop point).length : ℤ)) = _
    rw [List.take_append_drop, Digits.magnitude, hexponent]

/-- Digits behind zeros behind the point. -/
theorem spells_below {zeros : Nat} (hpoint : d.point = -zeros) :
    Spells ('0' :: '.' :: (List.replicate zeros '0' ++ d.digits)) d.magnitude := by
  have hfraction : List.replicate zeros '0' ++ d.digits ≠ [] :=
    List.append_ne_nil_of_right_ne_nil _ hd.ne_nil
  refine ⟨⟨['0'], List.replicate zeros '0' ++ d.digits, none⟩,
    ⟨List.cons_ne_nil _ _, List.forall_mem_singleton.mpr (by decide), fun _ => rfl, ?_⟩,
    ?_, fun _ => ?_⟩
  · intro c hc
    rcases List.mem_append.mp hc with hc | hc
    · rw [(List.mem_replicate.mp hc).2]
      decide
    · exact hd.isDigit c hc
  · rw [Parts.text, Parts.pointText, if_neg hfraction]
    simp [Parts.ending]
  · have hdigits : ofDigits (['0'] ++ (List.replicate zeros '0' ++ d.digits)) =
        ofDigits d.digits := by
      rw [← List.append_assoc, ← ofDigits_zeros_append (zeros + 1) d.digits]
      rfl
    have hexponent : d.point - d.digits.length =
        0 - ((List.replicate zeros '0' ++ d.digits).length : ℤ) := by
      rw [List.length_append, List.length_replicate]
      omega
    change (ofDigits (['0'] ++ (List.replicate zeros '0' ++ d.digits)) : ℚ) *
      10 ^ (0 - ((List.replicate zeros '0' ++ d.digits).length : ℤ)) = _
    rw [hdigits, Digits.magnitude, hexponent]

/-- One digit before the point, and an exponent. -/
theorem spells_exponent :
    Spells (d.digits.take 1 ++ ((if d.digits.drop 1 = [] then [] else '.' :: d.digits.drop 1) ++
      (exponentText (d.point - 1)).toList)) d.magnitude := by
  have hlength : 0 < d.digits.length := List.length_pos_iff.mpr hd.ne_nil
  refine ⟨_, proper_split hd Nat.one_pos (some (d.point - 1)), rfl, fun _ => ?_⟩
  have hexponent : d.point - d.digits.length = d.point - 1 - ((d.digits.drop 1).length : ℤ) := by
    rw [List.length_drop]
    omega
  change (ofDigits (d.digits.take 1 ++ d.digits.drop 1) : ℚ) *
    10 ^ (d.point - 1 - ((d.digits.drop 1).length : ℤ)) = _
  rw [List.take_append_drop, Digits.magnitude, hexponent]

/-- In every layout, digits are written as a number of their magnitude. -/
theorem spells_write (l : Layout) : Spells (l.write d).toList d.magnitude := by
  rw [Layout.write]
  split
  · next hpoint =>
      obtain ⟨point, hpoint⟩ := Int.eq_ofNat_of_zero_le (Int.le_of_lt hpoint.1)
      rw [hpoint, Int.toNat_natCast]
      dsimp only
      split
      · next hcount =>
          obtain ⟨zeros, rfl⟩ := Nat.exists_eq_add_of_le hcount
          simp only [String.toList_append, String.toList_ofList, Decimal.zeros,
            Nat.add_sub_cancel_left, List.append_assoc]
          exact spells_zeros hd (by rw [hpoint, Nat.cast_add])
      · next hcount =>
          simp only [String.toList_append, String.toList_ofList, List.append_assoc]
          exact spells_split hd hpoint (by omega) (Nat.not_le.mp hcount)
  · split
    · next hpoint =>
        obtain ⟨zeros, hzeros⟩ := Int.eq_ofNat_of_zero_le (show 0 ≤ -d.point by omega)
        rw [hzeros, Int.toNat_natCast]
        simp only [String.toList_append, String.toList_ofList, Decimal.zeros, List.append_assoc]
        exact spells_below hd (by omega)
    · have hexponent := spells_exponent hd
      dsimp only
      split
      · next hnil =>
          simp only [String.toList_append, String.toList_ofList, List.append_assoc]
          rw [if_pos hnil] at hexponent
          exact hexponent
      · next hne =>
          simp only [String.toList_append, String.toList_ofList, List.append_assoc]
          rw [if_neg hne] at hexponent
          exact hexponent

end

theorem spells_zero : Spells "0.0".toList 0 := by
  have hdigit : ∀ c ∈ ['0'], isDigit c := List.forall_mem_singleton.mpr (by decide)
  refine ⟨⟨['0'], ['0'], none⟩, ⟨by decide, hdigit, fun _ => rfl, hdigit⟩, rfl, fun _ => ?_⟩
  rw [Numeral.magnitude]
  exact zero_mul _

/-- The text of a finite number is that of a magnitude that rounds to it. -/
theorem finiteText_spells {f : Format} (hf : Moderate f) (l : Layout) {field : Nat}
    (hfinite : field < f.infinity) (negative : Bool) :
    ∃ text x, (l.finiteText f negative field).toList = signText negative ++ text ∧
      Spells text x ∧ ∀ n : Numeral, n.magnitude = x → n.nearest f = field := by
  have hsign : (if negative then "-" else "").toList = signText negative := by
    cases negative <;> rfl
  rw [Layout.finiteText, String.toList_append, hsign]
  by_cases hzero : field = 0
  · subst hzero
    refine ⟨_, 0, rfl, spells_zero, fun n hn => ?_⟩
    rcases mul_eq_zero.mp hn with hdigits | hpower
    · rw [Numeral.nearest, if_pos (Nat.cast_eq_zero.mp hdigits)]
    · exact absurd hpower (zpow_ne_zero _ (by norm_num))
  · have hpos : 0 < field := Nat.pos_of_ne_zero hzero
    obtain ⟨hproper, hcovers⟩ := shortest_spec hf hpos
    rw [if_neg hzero]
    refine ⟨_, _, rfl, spells_write hproper l, fun n hn => ?_⟩
    exact Numeral.nearest_of_covers hf hfinite (hn ▸ hcovers)

end GlyphSearch.Decimal

/-! ## Numbers of 32 bits -/

namespace GlyphSearch.Single

open Binary Decimal Json Text

theorem ofField_field (x : Single) : ofField x.isNegative x.field = x := by
  have hlimit : Nat.pow 2 31 = 2147483648 := rfl
  have hbits : x.bits.toNat < 4294967296 := x.bits.toNat_lt
  have hvalue : (if x.isNegative then Nat.pow 2 31 + x.field else x.field) = x.bits.toNat := by
    rw [isNegative, field, hlimit]
    by_cases h : 2147483648 ≤ x.bits.toNat
    · rw [if_pos (decide_eq_true h)]
      omega
    · rw [if_neg (by simpa using h)]
      omega
  rw [ofField, hvalue, UInt32.ofNat_toNat]

/-- A finite number is written as a number of the grammar of documents, and
read back from its text. -/
theorem text_reads_back {x : Single} (h : x.isFinite) :
    IsNumber (x.text.toList.map byte) ∧ (∀ c ∈ x.text.toList, c.toNat < 0x80) ∧
      ∃ n, Numeral.ofChars? x.text.toList = some n ∧ n.toSingle = x := by
  have hfinite : x.field < Format.single.infinity := of_decide_eq_true h
  have htext : x.text = Layout.single.finiteText .single x.isNegative x.field := if_pos hfinite
  obtain ⟨text, magnitude, hsigned, ⟨p, hp, rfl, hvalue⟩, hnearest⟩ :=
    finiteText_spells moderate_single .single hfinite x.isNegative
  rw [htext, hsigned]
  refine ⟨Parts.isNumber_text hp _, Parts.isAscii_text hp _, _, Parts.ofChars?_text hp _, ?_⟩
  rw [Numeral.toSingle, hnearest _ (hvalue _)]
  exact ofField_field x

end GlyphSearch.Single
