import GlyphSearch.Proofs.NumberText

/-!
# Decimal numbers

`SpellsNumeral` is the grammar of decimal numbers and `SpellsSpecial` that of
the words for infinity and NaN. Neither knows of the reader, which takes a
word apart from left to right; the reader accepts exactly the numbers of the
grammar, and no word is in both.

A number is in the interval of a field just when no field is closer to it, and
of two that are equally close it is the even one (`Closest`). So it is rounded
to the closest number of a format, up to the limit of the format.
-/

namespace GlyphSearch.Decimal

open Binary

/-! ## Nearest numbers -/

/-- Whether a field is the one nearest to a number. Of two it is the even
one. -/
structure Closest (f : Format) (field : Nat) (x : ℚ) : Prop where
  le : ∀ other, |x * 2 ^ f.unitScale - f.units field| ≤ |x * 2 ^ f.unitScale - f.units other|
  tie : ∀ other, other ≠ field →
    |x * 2 ^ f.unitScale - f.units field| = |x * 2 ^ f.unitScale - f.units other| → field % 2 = 0

section

variable {a b x : ℚ}

theorem sq_sub_sub_sq (a b x : ℚ) : (x - a) ^ 2 - (x - b) ^ 2 = (b - a) * (2 * x - (a + b)) := by
  ring

theorem abs_sub_le_left (hab : a < b) : |x - b| ≤ |x - a| ↔ a + b ≤ 2 * x := by
  rw [← sq_le_sq, ← sub_nonneg, sq_sub_sub_sq, mul_nonneg_iff_of_pos_left (sub_pos.mpr hab),
    sub_nonneg]

theorem abs_sub_le_right (hab : a < b) : |x - a| ≤ |x - b| ↔ 2 * x ≤ a + b := by
  rw [← sq_le_sq, ← sub_nonneg, ← neg_sub, sq_sub_sub_sq, ← mul_neg,
    mul_nonneg_iff_of_pos_left (sub_pos.mpr hab), neg_sub, sub_nonneg]

theorem abs_sub_eq (hab : a ≠ b) : |x - a| = |x - b| ↔ 2 * x = a + b := by
  rw [← sq_eq_sq_iff_abs_eq_abs, ← sub_eq_zero, sq_sub_sub_sq, mul_eq_zero,
    or_iff_right (sub_ne_zero.mpr hab.symm), sub_eq_zero]

end

variable {f : Format} {field : Nat} {x : ℚ}

theorem cast_units_lt {i j : Nat} (h : i < j) : (f.units i : ℚ) < f.units j :=
  Nat.cast_lt.mpr (Format.units_strictMono h)

theorem cast_units_le {i j : Nat} (h : i ≤ j) : (f.units i : ℚ) ≤ f.units j :=
  Nat.cast_le.mpr (Format.units_strictMono.monotone h)

theorem Covers.closest (h : Covers f field x) : Closest f field x := by
  obtain ⟨low, high, tie⟩ := h
  simp only [Nat.cast_add] at low high tie
  constructor
  · intro other
    rcases Nat.lt_trichotomy other field with hlt | rfl | hgt
    · have hbelow := @cast_units_le f _ _ (Nat.le_sub_one_of_lt hlt)
      exact (abs_sub_le_left (cast_units_lt hlt)).mpr (by linarith)
    · exact le_rfl
    · have habove := @cast_units_le f _ _ (Nat.succ_le_of_lt hgt)
      exact (abs_sub_le_right (cast_units_lt hgt)).mpr (by linarith)
  · intro other hother heq
    rcases Nat.lt_or_gt_of_ne hother with hlt | hgt
    · have hbelow := @cast_units_le f _ _ (Nat.le_sub_one_of_lt hlt)
      have hsum := (abs_sub_eq (cast_units_lt hlt).ne').mp heq
      exact tie (.inl (by linarith))
    · have habove := @cast_units_le f _ _ (Nat.succ_le_of_lt hgt)
      have hsum := (abs_sub_eq (cast_units_lt hgt).ne).mp heq
      exact tie (.inr (by linarith))

theorem Closest.covers (hx : 0 ≤ x) (h : Closest f field x) : Covers f field x := by
  have hnext := @cast_units_lt f _ _ (Nat.lt_succ_self field)
  have hzero : (f.units 0 : ℚ) = 0 := by rw [Format.units_of_le (Nat.zero_le _), Nat.cast_zero]
  refine ⟨?_, ?_, ?_⟩
  · rw [Nat.cast_add]
    rcases Nat.eq_zero_or_pos field with rfl | hpos
    · -- Nothing is below the field of zero, whose interval begins there.
      rw [Nat.zero_sub, hzero, add_zero]
      positivity
    · exact (abs_sub_le_left (cast_units_lt (Nat.sub_one_lt_of_lt hpos))).mp (h.le _)
  · rw [Nat.cast_add]
    exact (abs_sub_le_right hnext).mp (h.le _)
  · rw [Nat.cast_add, Nat.cast_add]
    rintro (heq | heq)
    · rcases Nat.eq_zero_or_pos field with rfl | hpos
      · rfl
      · have hbelow := @cast_units_lt f _ _ (Nat.sub_one_lt_of_lt hpos)
        exact h.tie _ (Nat.ne_of_lt (Nat.sub_one_lt_of_lt hpos))
          ((abs_sub_eq hbelow.ne').mpr (by linarith))
    · exact h.tie _ (Nat.succ_ne_self field) ((abs_sub_eq hnext.ne).mpr heq)

theorem limit_of_units {a b : Nat} (hba : b ≤ a)
    (h : f.units (f.infinity - 1) + f.units f.infinity =
      (2 ^ a - 2 ^ b) * 2 ^ (f.unitScale + 1)) : limit f = 2 ^ a - 2 ^ b := by
  have hpow : 2 ^ b ≤ 2 ^ a := Nat.pow_le_pow_right (by decide) hba
  rw [limit, h, Nat.cast_mul, Nat.cast_sub hpow, Nat.cast_pow, Nat.cast_pow, Nat.cast_pow,
    Nat.cast_ofNat]
  exact mul_div_cancel_right₀ _ (by positivity)

theorem limit_single : limit .single = 2 ^ 128 - 2 ^ 103 :=
  limit_of_units (by decide) (by decide +kernel)

theorem limit_double : limit .double = 2 ^ 1024 - 2 ^ 970 :=
  limit_of_units (by decide) (by decide +kernel)

theorem two_pow_sub_le {a b c d : Nat} (hac : a ≤ c) (hdc : d ≤ c) :
    (2 : ℚ) ^ a - 2 ^ b ≤ 2 ^ (c + 1) - 2 ^ d := by
  have ha : (2 : ℚ) ^ a ≤ 2 ^ c := pow_le_pow_right₀ (by norm_num) hac
  have hd : (2 : ℚ) ^ d ≤ 2 ^ c := pow_le_pow_right₀ (by norm_num) hdc
  have hb : (0 : ℚ) < 2 ^ b := by positivity
  rw [pow_succ]
  linarith

theorem limit_single_le_double : limit .single ≤ limit .double := by
  rw [limit_single, limit_double]
  exact two_pow_sub_le (by decide) (by decide)

/-! ## Decimal numbers -/

/-- An optional sign, and whether it is a minus. -/
inductive SpellsSign : List Char → Bool → Prop
  | none : SpellsSign [] false
  | plus : SpellsSign ['+'] false
  | minus : SpellsSign ['-'] true

/-- An optional exponent: a letter and digits that may have a sign. -/
inductive SpellsExponent : List Char → Int → Prop
  | none : SpellsExponent [] 0
  | some {letter : Char} {sign digits : List Char} {negative : Bool}
      (hletter : letter = 'e' ∨ letter = 'E') (hsign : SpellsSign sign negative)
      (hne : digits ≠ []) (hdigits : ∀ c ∈ digits, isDigit c) :
      SpellsExponent (letter :: (sign ++ digits))
        (if negative then -(ofDigits digits : Int) else ofDigits digits)

/-- A decimal number: an optional sign, digits on at least one side of an
optional point, an optional exponent. -/
inductive SpellsNumeral : List Char → Numeral → Prop
  | mk {sign whole point fraction ending : List Char} {negative : Bool} {e : Int}
      (hsign : SpellsSign sign negative) (hwhole : ∀ c ∈ whole, isDigit c)
      (hpoint : point = ['.'] ∨ point = [] ∧ fraction = [])
      (hfraction : ∀ c ∈ fraction, isDigit c) (hsome : ¬ (whole = [] ∧ fraction = []))
      (hending : SpellsExponent ending e) :
      SpellsNumeral (sign ++ (whole ++ (point ++ (fraction ++ ending))))
        ⟨negative, ofDigits (whole ++ fraction), e - fraction.length⟩

theorem splitSign_of_spells {sign rest : List Char} {negative : Bool}
    (h : SpellsSign sign negative) (hrest : ∀ c ∈ rest.head?, c ≠ '+' ∧ c ≠ '-') :
    splitSign (sign ++ rest) = (negative, rest) := by
  cases h with
  | plus => rfl
  | minus => rfl
  | none =>
      rw [List.nil_append]
      unfold splitSign
      split
      · exact absurd rfl (hrest '-' rfl).2
      · exact absurd rfl (hrest '+' rfl).1
      · rfl

theorem exists_sign (cs : List Char) :
    ∃ sign, SpellsSign sign (splitSign cs).1 ∧ cs = sign ++ (splitSign cs).2 := by
  unfold splitSign
  split
  · exact ⟨_, .minus, rfl⟩
  · exact ⟨_, .plus, rfl⟩
  · exact ⟨_, .none, rfl⟩

theorem ne_sign_of_isDigit {c : Char} (h : isDigit c) : c ≠ '+' ∧ c ≠ '-' := by
  constructor <;> (rintro rfl; exact absurd h (by decide))

theorem readExponent_eq_some_iff {cs : List Char} {e : Int} :
    readExponent cs = some e ↔ SpellsExponent cs e := by
  constructor
  · intro h
    cases cs with
    | nil =>
        cases h
        exact .none
    | cons letter rest =>
        rw [readExponent] at h
        split at h
        · next hletter =>
            obtain ⟨sign, hsign, hrest⟩ := exists_sign rest
            generalize splitSign rest = split at h hsign hrest
            obtain ⟨negative, digits⟩ := split
            dsimp only at h hsign hrest
            subst hrest
            split at h
            · cases h
            · next hdigits =>
                have hdigits := not_or.mp hdigits
                have hall := List.all_eq_true.mp (not_not.mp hdigits.2)
                have hspells := SpellsExponent.some hletter hsign hdigits.1 hall
                rw [← apply_ite some, Option.some.injEq] at h
                exact h ▸ hspells
        · cases h
  · intro h
    cases h with
    | none => rfl
    | @some letter sign digits negative hletter hsign hne hdigits =>
        have hproper : ¬ (digits = [] ∨ ¬ digits.all isDigit) := by
          rw [not_or, not_not, List.all_eq_true]
          exact ⟨hne, hdigits⟩
        have hsigned : splitSign (sign ++ digits) = (negative, digits) :=
          splitSign_of_spells hsign fun c hc =>
            ne_sign_of_isDigit (hdigits c (List.mem_of_mem_head? hc))
        rw [readExponent, if_pos hletter, hsigned]
        dsimp only
        rw [if_neg hproper, ← apply_ite some]

theorem SpellsExponent.head {ending : List Char} {e : Int} (h : SpellsExponent ending e) :
    ∀ c ∈ ending.head?, c = 'e' ∨ c = 'E' := by
  intro c hc
  cases h with
  | none => cases hc
  | some hletter _ _ _ =>
      cases hc
      exact hletter

theorem splitFraction_of_spells {point fraction ending : List Char} {e : Int}
    (hpoint : point = ['.'] ∨ point = [] ∧ fraction = []) (hfraction : ∀ c ∈ fraction, isDigit c)
    (hending : SpellsExponent ending e) :
    splitFraction (point ++ (fraction ++ ending)) = (fraction, ending) := by
  rcases hpoint with rfl | ⟨rfl, rfl⟩
  · refine splitDigits_append hfraction fun c hc => ?_
    rcases hending.head c hc with rfl | rfl <;> decide
  · have hhead := hending.head
    rw [List.nil_append, List.nil_append]
    unfold splitFraction
    split
    · exact absurd (hhead '.' rfl) (by decide)
    · rfl

theorem exists_fraction (cs : List Char) : ∃ point,
    (point = ['.'] ∨ point = [] ∧ (splitFraction cs).1 = []) ∧
      (∀ c ∈ (splitFraction cs).1, isDigit c) ∧
      cs = point ++ ((splitFraction cs).1 ++ (splitFraction cs).2) := by
  unfold splitFraction
  split
  · exact ⟨_, .inl rfl, fun c hc => List.mem_takeWhile_imp hc,
      congrArg _ List.takeWhile_append_dropWhile.symm⟩
  · exact ⟨[], .inr ⟨rfl, rfl⟩, List.forall_mem_nil _, rfl⟩

/-- The digits and the point of a number do not begin with a sign. -/
theorem head_of_mantissa {whole point fraction rest : List Char}
    (hwhole : ∀ c ∈ whole, isDigit c) (hpoint : point = ['.'] ∨ point = [] ∧ fraction = [])
    (hsome : ¬ (whole = [] ∧ fraction = [])) :
    ∀ c ∈ (whole ++ (point ++ rest)).head?, isDigit c ∨ c = '.' := by
  intro c hc
  cases whole with
  | cons d whole =>
      cases hc
      exact .inl (hwhole _ List.mem_cons_self)
  | nil =>
      rcases hpoint with rfl | ⟨-, hfraction⟩
      · cases hc
        exact .inr rfl
      · exact absurd ⟨rfl, hfraction⟩ hsome

theorem splitSign_of_mantissa {sign whole point fraction rest : List Char} {negative : Bool}
    (hsign : SpellsSign sign negative) (hwhole : ∀ c ∈ whole, isDigit c)
    (hpoint : point = ['.'] ∨ point = [] ∧ fraction = [])
    (hsome : ¬ (whole = [] ∧ fraction = [])) :
    splitSign (sign ++ (whole ++ (point ++ rest))) = (negative, whole ++ (point ++ rest)) := by
  refine splitSign_of_spells hsign fun c hc => ?_
  rcases head_of_mantissa hwhole hpoint hsome c hc with hdigit | rfl
  · exact ne_sign_of_isDigit hdigit
  · decide

/-- The reader takes the numbers of the grammar, and nothing else. -/
theorem ofChars?_eq_some_iff {cs : List Char} {n : Numeral} :
    Numeral.ofChars? cs = some n ↔ SpellsNumeral cs n := by
  constructor
  · intro h
    obtain ⟨sign, hsign, hcs⟩ := exists_sign cs
    obtain ⟨point, hpoint, hfraction, hrest⟩ := exists_fraction (splitDigits (splitSign cs).2).2
    have hwhole : ∀ c ∈ (splitDigits (splitSign cs).2).1, isDigit c :=
      fun c hc => List.mem_takeWhile_imp hc
    have hunsigned : (splitSign cs).2 =
        (splitDigits (splitSign cs).2).1 ++ (splitDigits (splitSign cs).2).2 :=
      List.takeWhile_append_dropWhile.symm
    simp only [Numeral.ofChars?] at h
    split at h
    · cases h
    · next hsome =>
        obtain ⟨e, he, rfl⟩ := Option.map_eq_some_iff.mp h
        have hspells := SpellsNumeral.mk hsign hwhole hpoint hfraction hsome
          (readExponent_eq_some_iff.mp he)
        rw [← hrest, ← hunsigned, ← hcs] at hspells
        exact hspells
  · intro h
    cases h with
    | @mk sign whole point fraction ending negative e hsign hwhole hpoint hfraction hsome hending =>
        have hdigits : splitDigits (whole ++ (point ++ (fraction ++ ending))) =
            (whole, point ++ (fraction ++ ending)) := by
          refine splitDigits_append hwhole fun c hc => ?_
          rcases hpoint with rfl | ⟨rfl, rfl⟩
          · cases hc
            decide
          · rcases hending.head c hc with rfl | rfl <;> decide
        simp only [Numeral.ofChars?, splitSign_of_mantissa hsign hwhole hpoint hsome, hdigits,
          splitFraction_of_spells hpoint hfraction hending, if_neg hsome,
          readExponent_eq_some_iff.mpr hending, Option.map_some]

/-! ## Words for what is not finite -/

/-- A word for infinity or NaN in any case, with an optional sign. -/
inductive SpellsSpecial : List Char → Prop
  | mk {sign word : List Char} {negative : Bool} (hsign : SpellsSign sign negative)
      (hword : String.ofList (word.map Char.toLower) ∈ ["inf", "infinity", "nan"]) :
      SpellsSpecial (sign ++ word)

theorem head_of_special {word : List Char}
    (h : String.ofList (word.map Char.toLower) ∈ ["inf", "infinity", "nan"]) :
    ∃ c rest, word = c :: rest ∧ (c.toLower = 'i' ∨ c.toLower = 'n') := by
  have hspecial : ∀ special ∈ ["inf", "infinity", "nan"],
      special.toList.head? = some 'i' ∨ special.toList.head? = some 'n' := by decide
  have hhead := hspecial _ h
  rw [String.toList_ofList, List.head?_map] at hhead
  cases word with
  | nil => rcases hhead with hhead | hhead <;> cases hhead
  | cons c rest => exact ⟨c, rest, rfl, hhead.imp Option.some.inj Option.some.inj⟩

theorem toLower_of_isDigit {c : Char} (h : isDigit c) : c.toLower ≠ 'i' ∧ c.toLower ≠ 'n' := by
  have hlower : ∀ k, k < 10 →
      (Nat.digitChar k).toLower ≠ 'i' ∧ (Nat.digitChar k).toLower ≠ 'n' := by decide
  obtain ⟨hsmall, hchar⟩ := digitChar_digitValue h
  exact hchar ▸ hlower _ hsmall

theorem SpellsSpecial.splitSign {cs : List Char} (h : SpellsSpecial cs) :
    String.ofList ((splitSign cs).2.map Char.toLower) ∈ ["inf", "infinity", "nan"] := by
  cases h with
  | mk hsign hword =>
      obtain ⟨c, rest, rfl, hc⟩ := head_of_special hword
      rw [splitSign_of_spells hsign fun d hd => ?_]
      · exact hword
      · cases hd
        constructor <;> (rintro rfl; exact absurd hc (by decide))

/-- No word is both. -/
theorem SpellsSpecial.not_spellsNumeral {cs : List Char} (h : SpellsSpecial cs) (n : Numeral) :
    ¬ SpellsNumeral cs n := by
  intro hn
  have hword := h.splitSign
  cases hn with
  | mk hsign hwhole hpoint hfraction hsome hending =>
      rw [splitSign_of_mantissa hsign hwhole hpoint hsome] at hword
      obtain ⟨c, rest, hrest, hc⟩ := head_of_special hword
      have hhead := head_of_mantissa hwhole hpoint hsome c (congrArg List.head? hrest)
      rcases hhead with hdigit | rfl
      · exact hc.elim (toLower_of_isDigit hdigit).1 (toLower_of_isDigit hdigit).2
      · exact absurd hc (by decide)

end GlyphSearch.Decimal
