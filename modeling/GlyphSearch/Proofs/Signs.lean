import GlyphSearch.Binary.Double
import GlyphSearch.Proofs.Rounding

/-!
# Signs of results

An operation on numbers of 64 bits gives its result a sign before it rounds,
and rounding keeps the sign even where the magnitude is lost. So whether a
result can be negative zero is a question about signs alone. `Unsigned` says
of a number that it has no minus sign; a NaN has no sign that would count.
Products of a number with itself, sums of such products and their roots have
none, and what has none is not negative zero after it has been narrowed.

The difference of one and another number may well have a minus sign, but then
it is too large to be lost: the numbers next to one are farther from it than
the smallest number of 32 bits from zero.
-/

namespace GlyphSearch

open Binary

/-! ## Fields -/

namespace Single

/-- The zero with a minus sign. -/
def negativeZero : Single := ⟨0x80000000⟩

theorem field_ofField {s : Bool} {field : Nat} (h : field < 2 ^ 31) :
    (ofField s field).field = field := by
  cases s <;>
  · simp only [ofField, Single.field, Nat.pow_eq, UInt32.toNat_ofNat', if_true, if_false,
      Bool.false_eq_true]
    omega

theorem isNegative_ofField {s : Bool} {field : Nat} (h : field < 2 ^ 31) :
    (ofField s field).isNegative = s := by
  cases s
  · simp only [ofField, isNegative, Nat.pow_eq, UInt32.toNat_ofNat', if_false,
      Bool.false_eq_true, decide_eq_false_iff_not]
    omega
  · simp only [ofField, isNegative, Nat.pow_eq, UInt32.toNat_ofNat', if_true,
      decide_eq_true_eq]
    omega

theorem ofField_ne_negativeZero {s : Bool} {field : Nat} (hsmall : field < 2 ^ 31)
    (h : s = false ∨ field ≠ 0) : ofField s field ≠ negativeZero := by
  intro heq
  have hneg := congrArg isNegative heq
  have hfield := congrArg Single.field heq
  rw [isNegative_ofField hsmall] at hneg
  rw [field_ofField hsmall] at hfield
  rcases h with rfl | hne
  · exact absurd hneg (by decide)
  · exact hne hfield

theorem nearest_lt (num den : Nat) : Format.single.nearest num den < 2 ^ 31 :=
  Nat.lt_of_le_of_lt (Nat.min_le_right ..) (by decide : Format.single.infinity < 2 ^ 31)

end Single

namespace Double

theorem field_ofField {s : Bool} {field : Nat} (h : field < 2 ^ 63) :
    (ofField s field).field = field := by
  cases s <;>
  · simp only [ofField, Double.field, Nat.pow_eq, UInt64.toNat_ofNat', if_true, if_false,
      Bool.false_eq_true]
    omega

theorem isNegative_ofField {s : Bool} {field : Nat} (h : field < 2 ^ 63) :
    (ofField s field).isNegative = s := by
  cases s
  · simp only [ofField, isNegative, Nat.pow_eq, UInt64.toNat_ofNat', if_false,
      Bool.false_eq_true, decide_eq_false_iff_not]
    omega
  · simp only [ofField, isNegative, Nat.pow_eq, UInt64.toNat_ofNat', if_true,
      decide_eq_true_eq]
    omega

theorem datum_ofField {s : Bool} {field : Nat} (h : field < 2 ^ 63) :
    (ofField s field).datum = Format.double.datum s field := by
  rw [datum, isNegative_ofField h, field_ofField h]

theorem field_lt (x : Double) : x.field < 2 ^ 63 := Nat.mod_lt _ (by decide)

theorem nearest_lt (num den : Nat) : Format.double.nearest num den < 2 ^ 63 :=
  Nat.lt_of_le_of_lt (Nat.min_le_right ..) (by decide : Format.double.infinity < 2 ^ 63)

/-! ## Data -/

variable {x y : Double}

theorem datum_eq_nan {s : Bool} {field : Nat} (h : x.datum = .nan s field) :
    Format.double.infinity < field ∧ field < 2 ^ 63 := by
  rw [datum, Format.datum] at h
  split at h
  · cases h
  · split at h
    · cases h
    · cases h
      have := x.field_lt
      omega

theorem datum_eq_finite {s : Bool} {m : Nat} (h : x.datum = .finite s m) :
    m = Format.double.units x.field := by
  rw [datum, Format.datum] at h
  split at h
  · cases h
    rfl
  · split at h <;> cases h

theorem datum_quiet {s : Bool} {field : Nat} (hlow : Format.double.infinity < field)
    (hhigh : field < 2 ^ 63) : ∃ field', (quiet s field).datum = .nan s field' := by
  have hor : field ||| Nat.pow 2 51 < 2 ^ 63 := Nat.or_lt_two_pow hhigh (by decide)
  have hle : field ≤ field ||| Nat.pow 2 51 := Nat.left_le_or
  refine ⟨field ||| Nat.pow 2 51, ?_⟩
  rw [quiet, datum_ofField hor, Format.datum, if_neg (by omega), if_neg (by omega)]

theorem datum_infinite (s : Bool) : (infinite s).datum = .infinite s := by
  rw [infinite, datum_ofField (by decide), Format.datum, if_neg (Nat.lt_irrefl _), if_pos rfl]

/-! ## No minus sign -/

/-- A number without a minus sign, or a NaN. -/
structure Unsigned (x : Double) : Prop where
  infinite {s : Bool} (h : x.datum = .infinite s) : s = false
  finite {s : Bool} {m : Nat} (h : x.datum = .finite s m) : s = false

theorem unsigned_of_nan {s : Bool} {field : Nat} (h : x.datum = .nan s field) : x.Unsigned :=
  ⟨fun h' => by simp [h] at h', fun h' => by simp [h] at h'⟩

theorem unsigned_quiet {s : Bool} {field : Nat} (h : x.datum = .nan s field) :
    (quiet s field).Unsigned := by
  obtain ⟨hlow, hhigh⟩ := datum_eq_nan h
  obtain ⟨field', hdatum⟩ := datum_quiet (s := s) hlow hhigh
  exact unsigned_of_nan hdatum

theorem unsigned_ofField {field : Nat} (h : field < 2 ^ 63) :
    (ofField false field).Unsigned := by
  have hdatum := datum_ofField (s := false) h
  rw [Format.datum] at hdatum
  constructor
  · intro s hs
    rw [hs] at hdatum
    split at hdatum
    · cases hdatum
    · split at hdatum <;> cases hdatum
      rfl
  · intro s m hs
    rw [hs] at hdatum
    split at hdatum
    · cases hdatum
      rfl
    · split at hdatum <;> cases hdatum

theorem unsigned_zero : zero.Unsigned := @unsigned_ofField 0 (by decide)

theorem unsigned_infinite : (Double.infinite false).Unsigned := unsigned_ofField (by decide)

theorem unsigned_round (num den : Nat) : (round false num den).Unsigned :=
  unsigned_ofField (nearest_lt num den)

theorem unsigned_mul_self (x : Double) : (x * x).Unsigned := by
  change (x.mul x).Unsigned
  rw [mul]
  cases hx : x.datum with
  | nan s field => exact unsigned_quiet hx
  | infinite s =>
      change (Double.infinite (s != s)).Unsigned
      rw [bne_self_eq_false]
      exact unsigned_infinite
  | finite s m =>
      generalize Nat.pow 2 Format.double.unitScale = scale
      change (round (s != s) _ _).Unsigned
      rw [bne_self_eq_false]
      exact unsigned_round ..

theorem unsigned_add (hx : x.Unsigned ∨ x = negativeZero) (hy : y.Unsigned) :
    (x + y).Unsigned := by
  change (x.add y).Unsigned
  have hzero : negativeZero.datum = .finite true 0 := by rfl
  rw [add]
  cases hxd : x.datum with
  | nan s field => exact unsigned_quiet hxd
  | infinite s =>
      obtain rfl : s = false := by
        rcases hx with hx | rfl
        · exact hx.infinite hxd
        · rw [hzero] at hxd
          cases hxd
      cases hyd : y.datum with
      | nan t field => exact unsigned_quiet hyd
      | infinite t =>
          obtain rfl := hy.infinite hyd
          exact unsigned_infinite
      | finite t n => exact unsigned_infinite
  | finite s m =>
      cases hyd : y.datum with
      | nan t field => exact unsigned_quiet hyd
      | infinite t =>
          obtain rfl := hy.infinite hyd
          exact unsigned_infinite
      | finite t n =>
          obtain rfl := hy.finite hyd
          change (addUnits s m false n).Unsigned
          rw [addUnits]
          cases s with
          | false => exact unsigned_round ..
          | true =>
              obtain rfl : m = 0 := by
                rcases hx with hx | rfl
                · cases hx.finite hxd
                · rw [hzero] at hxd
                  cases hxd
                  rfl
              rw [if_neg (by decide), if_neg (Nat.not_lt_zero n)]
              split
              · exact unsigned_zero
              · exact unsigned_round ..

theorem unsigned_sqrt (hx : x.Unsigned) : x.sqrt.Unsigned := by
  rw [sqrt]
  cases hxd : x.datum with
  | nan s field => exact unsigned_quiet hxd
  | infinite s =>
      obtain rfl := hx.infinite hxd
      exact hx
  | finite s m =>
      obtain rfl := hx.finite hxd
      generalize Nat.pow 2 Format.double.unitScale = scale
      dsimp only
      split
      · exact hx
      · rw [if_neg (by decide)]
        split
        · exact unsigned_round ..
        · exact unsigned_round ..

theorem unsigned_foldl {terms : List Double} (hterms : ∀ t ∈ terms, t.Unsigned)
    (hx : x.Unsigned ∨ x = negativeZero) (hne : terms = [] → x.Unsigned) :
    (terms.foldl (· + ·) x).Unsigned := by
  induction terms generalizing x with
  | nil => exact hne rfl
  | cons t terms ih =>
      have hsum := unsigned_add hx (hterms t List.mem_cons_self)
      exact ih (fun u hu => hterms u (List.mem_cons_of_mem _ hu)) (.inl hsum) fun _ => hsum

/-! ## Narrowing -/

/-- The smallest number of 32 bits, in units of 64 bits. -/
def smallestSingle : Nat := Nat.pow 2 (Format.double.unitScale - Format.single.unitScale)

theorem smallestSingle_pos : 0 < smallestSingle := by decide +kernel

theorem toSingle_of_finite {s : Bool} {m : Nat} (h : x.datum = .finite s m) :
    x.toSingle = Single.ofField s (Format.single.nearest m smallestSingle) := by
  unfold toSingle smallestSingle
  generalize Nat.pow 2 (Format.double.unitScale - Format.single.unitScale) = scale
  rw [h]

theorem toSingle_of_nan {s : Bool} {field : Nat} (h : x.datum = .nan s field) :
    x.toSingle ≠ Single.negativeZero := by
  obtain ⟨hlow, hhigh⟩ := datum_eq_nan h
  have hinfinity : Format.double.infinity = 9218868437227405312 := by decide
  have hpayload : (field - Format.double.infinity) / Nat.pow 2 29 < 2 ^ 23 := by
    rw [Nat.pow_eq, Nat.div_lt_iff_lt_mul (by decide)]
    omega
  have hor : (field - Format.double.infinity) / Nat.pow 2 29 ||| Nat.pow 2 22 < 2 ^ 23 :=
    Nat.or_lt_two_pow hpayload (by decide)
  have hsingle : Format.single.infinity = 2139095040 := by decide
  rw [toSingle, h]
  exact Single.ofField_ne_negativeZero (by omega) (.inr (by omega))

theorem toSingle_of_infinite {s : Bool} (h : x.datum = .infinite s) :
    x.toSingle ≠ Single.negativeZero := by
  rw [toSingle, h]
  exact Single.ofField_ne_negativeZero (by decide) (.inr (by decide))

theorem toSingle_of_unsigned (hx : x.Unsigned) : x.toSingle ≠ Single.negativeZero := by
  cases hxd : x.datum with
  | nan s field => exact toSingle_of_nan hxd
  | infinite s => exact toSingle_of_infinite hxd
  | finite s m =>
      obtain rfl := hx.finite hxd
      rw [toSingle_of_finite hxd]
      exact Single.ofField_ne_negativeZero (Single.nearest_lt ..) (.inl rfl)

theorem toSingle_of_large {s : Bool} {m : Nat} (h : x.datum = .finite s m)
    (hm : smallestSingle ≤ m) : x.toSingle ≠ Single.negativeZero := by
  have hpos : 1 ≤ Format.single.nearest m smallestSingle := by
    refine Format.le_nearest (by decide) smallestSingle_pos ?_ (by decide)
    rwa [show Format.single.units 1 = 1 by decide, Nat.one_mul]
  rw [toSingle_of_finite h]
  exact Single.ofField_ne_negativeZero (Single.nearest_lt ..) (.inr (by omega))

theorem round_toSingle_of_large {s : Bool} {m : Nat} (hm : smallestSingle ≤ m) :
    (round s m 1).toSingle ≠ Single.negativeZero := by
  have hsmallest : Format.double.units (874 * Format.double.binade) = smallestSingle := by
    decide +kernel
  have hfield : 874 * Format.double.binade ≤ Format.double.nearest m 1 := by
    refine Format.le_nearest (by decide) Nat.one_pos ?_ (by decide)
    rwa [hsmallest, Nat.mul_one]
  cases hdatum : (round s m 1).datum with
  | nan t field => exact toSingle_of_nan hdatum
  | infinite t => exact toSingle_of_infinite hdatum
  | finite t k =>
      refine toSingle_of_large hdatum ?_
      rw [datum_eq_finite hdatum, round, field_ofField (nearest_lt ..), ← hsmallest]
      exact Format.units_strictMono.monotone hfield

/-- One minus whatever number is not negative zero. -/
theorem one_add_toSingle (x : Double) : (one.add x).toSingle ≠ Single.negativeZero := by
  have hone : one.datum = .finite false (Format.double.units one.field) := by rfl
  rw [add, hone]
  cases hxd : x.datum with
  | nan s field => exact toSingle_of_unsigned (unsigned_quiet hxd)
  | infinite s => exact toSingle_of_infinite (datum_infinite s)
  | finite s n =>
      change (addUnits false (Format.double.units one.field) s n).toSingle ≠ _
      rw [addUnits]
      split
      · exact toSingle_of_unsigned (unsigned_round ..)
      split
      · exact toSingle_of_unsigned unsigned_zero
      split
      · exact toSingle_of_unsigned (unsigned_round ..)
      · next hsign hne hlt =>
          -- What is taken from one is larger than one, so at least its neighbour above.
          have hnext : Format.double.units one.field + smallestSingle ≤
              Format.double.units (one.field + 1) := by decide +kernel
          rw [datum_eq_finite hxd] at hne hlt ⊢
          have habove : one.field < x.field :=
            Format.units_strictMono.lt_iff_lt.mp (Nat.lt_of_le_of_ne (Nat.not_lt.mp hlt) hne)
          have hstep : Format.double.units (one.field + 1) ≤ Format.double.units x.field :=
            Format.units_strictMono.monotone habove
          exact round_toSingle_of_large (by omega)

theorem one_sub_toSingle (x : Double) : (one - x).toSingle ≠ Single.negativeZero := by
  change (one.sub x).toSingle ≠ _
  rw [sub]
  split
  · exact one_add_toSingle x
  · exact one_add_toSingle x.neg

end Double

end GlyphSearch
