import GlyphSearch.Proofs.Digits
import GlyphSearch.Proofs.Rounding
import Mathlib.Algebra.Order.Field.Power
import Mathlib.Data.Rat.Cast.Order
import Mathlib.Tactic.Linarith
import Mathlib.Tactic.NormNum
import Mathlib.Tactic.Positivity

/-!
# The shortest digits read back

`Covers` says that a rational number is in the interval of a field. Every
numeral is rounded to a field that covers it, or reaches the limit of the
format and is rounded to infinity; so one that is covered by a finite field is
rounded to that. A point of a decimal grid that the search finds is covered by
the field it is searched for.

It has to be shown that the search finds one. The numbers of a format are
not too close together: the step to a field is at least the `2 ^ precision`th
part of its magnitude. With twenty digits the step of the grid is smaller than
that, so the next point of the grid below the number is in the interval. For
this the point may be estimated too low, but not too high.
-/

namespace GlyphSearch.Decimal

open Binary

/-- Whether a number is in the interval of a field. -/
structure Covers (f : Format) (field : Nat) (x : ℚ) : Prop where
  low : ((f.units (field - 1) + f.units field : ℕ) : ℚ) ≤ 2 * (x * 2 ^ f.unitScale)
  high : 2 * (x * 2 ^ f.unitScale) ≤ ((f.units field + f.units (field + 1) : ℕ) : ℚ)
  tie : ((f.units (field - 1) + f.units field : ℕ) : ℚ) = 2 * (x * 2 ^ f.unitScale) ∨
    2 * (x * 2 ^ f.unitScale) = ((f.units field + f.units (field + 1) : ℕ) : ℚ) → field % 2 = 0

variable {f : Format} {field : Nat}

theorem covers_iff_reads {x : ℚ} {num den : Nat} (hden : 0 < den)
    (hx : x * 2 ^ f.unitScale * den = num) : Covers f field x ↔ f.Reads field num den := by
  have hpos : (0 : ℚ) < den := Nat.cast_pos.mpr hden
  have hnum : ((2 * num : ℕ) : ℚ) = 2 * (x * 2 ^ f.unitScale) * den := by
    rw [Nat.cast_mul, ← hx, Nat.cast_ofNat]
    ring
  have hlow (a : ℕ) : (a : ℚ) ≤ 2 * (x * 2 ^ f.unitScale) ↔ a * den ≤ 2 * num := by
    rw [← Nat.cast_le (α := ℚ), hnum, Nat.cast_mul, mul_le_mul_iff_left₀ hpos]
  have hhigh (a : ℕ) : 2 * (x * 2 ^ f.unitScale) ≤ a ↔ 2 * num ≤ a * den := by
    rw [← Nat.cast_le (α := ℚ), hnum, Nat.cast_mul, mul_le_mul_iff_left₀ hpos]
  have htie (a : ℕ) : (a : ℚ) = 2 * (x * 2 ^ f.unitScale) ↔ a * den = 2 * num := by
    rw [← Nat.cast_inj (R := ℚ), hnum, Nat.cast_mul, mul_left_inj' hpos.ne']
  constructor
  · rintro ⟨low, high, tie⟩
    refine ⟨(hlow _).mp low, (hhigh _).mp high, fun h => tie (h.imp (htie _).mpr fun heq => ?_)⟩
    exact ((htie _).mpr heq.symm).symm
  · rintro ⟨low, high, tie⟩
    refine ⟨(hlow _).mpr low, (hhigh _).mpr high, fun h => tie (h.imp (htie _).mp fun heq => ?_)⟩
    exact ((htie _).mp heq.symm).symm

theorem Covers.one_le (hpos : 0 < field) {x : ℚ} (h : Covers f field x) :
    1 ≤ 2 * (x * 2 ^ f.unitScale) := by
  refine le_trans ?_ h.low
  exact_mod_cast Nat.le_trans (Format.units_pos hpos) (Nat.le_add_left _ _)

/-! ## Powers of ten -/

theorem ten_zpow_mul_pow (e : ℤ) : (10 : ℚ) ^ e * 10 ^ (-e).toNat = 10 ^ e.toNat := by
  rw [← zpow_natCast, ← zpow_natCast, ← zpow_add₀ (by norm_num)]
  congr 1
  omega

theorem ten_pow_exponentReach : ((10 ^ exponentReach.toNat : ℕ) : ℚ) = 10 ^ exponentReach := by
  rw [Nat.cast_pow, ← zpow_natCast, Int.toNat_of_nonneg (by decide), Nat.cast_ofNat]

/-- A format with a precision below that of twenty digits, whose numbers are
all within the reach of exponents. -/
structure Moderate (f : Format) : Prop where
  precision_ge : 2 ≤ f.precision
  precision_le : 2 ^ (f.precision + 1) ≤ 10 ^ 19
  small : 2 ^ (f.unitScale + 1) ≤ 10 ^ exponentReach.toNat
  large : f.units f.infinity ≤ 2 ^ f.unitScale * 10 ^ exponentReach.toNat

theorem moderate_single : Moderate .single where
  precision_ge := by decide
  precision_le := by decide
  small := by decide +kernel
  large := by decide +kernel

theorem moderate_double : Moderate .double where
  precision_ge := by decide
  precision_le := by decide
  small := by decide +kernel
  large := by decide +kernel

/-! ## Limits -/

/-- The least number that a format has no finite number for: half way from the
largest of them to the power of two above it. -/
def limit (f : Format) : ℚ :=
  ((f.units (f.infinity - 1) + f.units f.infinity : ℕ) : ℚ) / 2 ^ (f.unitScale + 1)

theorem limit_le_iff {x : ℚ} : limit f ≤ x ↔
    ((f.units (f.infinity - 1) + f.units f.infinity : ℕ) : ℚ) ≤ 2 * (x * 2 ^ f.unitScale) := by
  have hscale : x * 2 ^ (f.unitScale + 1) = 2 * (x * 2 ^ f.unitScale) := by ring
  rw [limit, div_le_iff₀ (by positivity), hscale]

/-- The intervals of the finite fields end below the limit. The last of them
would end there, but its field is odd. -/
theorem Covers.lt_limit (hprecision : 2 ≤ f.precision) (hfinite : field < f.infinity) {x : ℚ}
    (h : Covers f field x) : x < limit f := by
  rw [← not_le, limit_le_iff]
  intro hlimit
  have hlast : f.units field ≤ f.units (f.infinity - 1) :=
    Format.units_strictMono.monotone (by omega)
  have hnext : f.units (field + 1) ≤ f.units f.infinity := Format.units_strictMono.monotone hfinite
  have hle : ((f.units field + f.units (field + 1) : ℕ) : ℚ) ≤
      ((f.units (f.infinity - 1) + f.units f.infinity : ℕ) : ℚ) :=
    Nat.cast_le.mpr (Nat.add_le_add hlast hnext)
  have heven := h.tie (.inr (le_antisymm h.high (hle.trans hlimit)))
  have hsum := Nat.cast_le.mp (hlimit.trans h.high)
  have hfield : ¬ field < f.infinity - 1 := by
    intro hlt
    have hstrict : f.units field < f.units (f.infinity - 1) := Format.units_strictMono hlt
    omega
  have hinfinity := Format.infinity_even hprecision
  omega

theorem limit_le_zpow (hf : Moderate f) : limit f ≤ (10 : ℚ) ^ exponentReach := by
  have hlast : f.units (f.infinity - 1) ≤ f.units f.infinity :=
    Format.units_strictMono.monotone (Nat.sub_le ..)
  have hsum : f.units (f.infinity - 1) + f.units f.infinity ≤
      2 * (10 ^ exponentReach.toNat * 2 ^ f.unitScale) := by
    have hlarge := hf.large
    rw [Nat.mul_comm] at hlarge
    omega
  rw [limit_le_iff, ← ten_pow_exponentReach]
  exact_mod_cast hsum

/-- What a number is rounded to: a finite field that has it in its interval,
or infinity. -/
inductive Rounds (f : Format) (x : ℚ) : Nat → Prop
  | finite {field : Nat} (hfinite : field < f.infinity) (h : Covers f field x) : Rounds f x field
  | overflow (h : limit f ≤ x) : Rounds f x f.infinity

/-! ## Numerals -/

/-- The number that a numeral stands for, without its sign. -/
def Numeral.magnitude (n : Numeral) : ℚ := n.digits * 10 ^ n.exponent

theorem Numeral.magnitude_nonneg (n : Numeral) : 0 ≤ n.magnitude := by
  rw [Numeral.magnitude]
  positivity

theorem Numeral.zpow_le_magnitude {n : Numeral} (h : n.digits ≠ 0) :
    (10 : ℚ) ^ n.exponent ≤ n.magnitude := by
  have hone : (1 : ℚ) ≤ n.digits := by exact_mod_cast Nat.one_le_iff_ne_zero.mpr h
  exact le_mul_of_one_le_left (by positivity) hone

theorem Numeral.magnitude_lt_zpow (n : Numeral) :
    n.magnitude < (10 : ℚ) ^ (n.exponent + (n.digits.log2 + 1 : ℕ)) := by
  have hdigits : n.digits < 10 ^ (n.digits.log2 + 1) :=
    Nat.lt_of_lt_of_le Nat.lt_log2_self (Nat.pow_le_pow_left (by decide) _)
  have hcast : (n.digits : ℚ) < 10 ^ (n.digits.log2 + 1) := by exact_mod_cast hdigits
  rw [zpow_add₀ (by norm_num), zpow_natCast, mul_comm, Numeral.magnitude]
  exact mul_lt_mul_of_pos_right hcast (by positivity)

/-- The fraction of units that a numeral is. -/
theorem Numeral.magnitude_mul (n : Numeral) (f : Format) :
    n.magnitude * 2 ^ f.unitScale * ((10 ^ (-n.exponent).toNat : ℕ) : ℚ) =
      ((n.digits * 10 ^ n.exponent.toNat * 2 ^ f.unitScale : ℕ) : ℚ) := by
  push_cast
  calc n.magnitude * 2 ^ f.unitScale * 10 ^ (-n.exponent).toNat
      = n.digits * (10 ^ n.exponent * 10 ^ (-n.exponent).toNat) * 2 ^ f.unitScale := by
        rw [Numeral.magnitude]
        ring
    _ = n.digits * 10 ^ n.exponent.toNat * 2 ^ f.unitScale := by rw [ten_zpow_mul_pow]

theorem Numeral.nearest_eq {n : Numeral} (hdigits : n.digits ≠ 0)
    (hreach : ¬ exponentReach < n.exponent)
    (hvisible : ¬ n.exponent + (n.digits.log2 + 1 : Nat) < -exponentReach) :
    n.nearest f = f.nearest (n.digits * 10 ^ n.exponent.toNat * 2 ^ f.unitScale)
      (10 ^ (-n.exponent).toNat) := by
  rw [Numeral.nearest, if_neg hdigits, if_neg hreach, if_neg hvisible]
  split
  · next hnonneg =>
      rw [Int.toNat_of_nonpos (Int.neg_nonpos_of_nonneg hnonneg)]
      rfl
  · next hnegative =>
      rw [Int.toNat_of_nonpos (Int.le_of_lt (Int.not_le.mp hnegative)), Nat.pow_zero,
        Nat.mul_one]
      rfl

theorem covers_zero {x : ℚ} (hnonneg : 0 ≤ x) (hsmall : 2 * (x * 2 ^ f.unitScale) ≤ 1) :
    Covers f 0 x := by
  have hzero : f.units 0 = 0 := Format.units_of_le (Nat.zero_le _)
  have hone : 1 ≤ f.units 1 := Format.units_pos Nat.one_pos
  refine ⟨?_, hsmall.trans ?_, fun _ => rfl⟩
  · rw [Nat.zero_sub, hzero, Nat.cast_zero]
    positivity
  · rw [hzero, Nat.zero_add, Nat.one_le_cast]
    exact hone

/-- Every numeral is rounded to a finite number or beyond all of them, also
where its exponent alone decides it. -/
theorem Numeral.rounds_nearest (hf : Moderate f) (hinfinity : 0 < f.infinity) (n : Numeral) :
    Rounds f n.magnitude (n.nearest f) := by
  by_cases hdigits : n.digits = 0
  · rw [Numeral.nearest, if_pos hdigits]
    exact .finite hinfinity (covers_zero n.magnitude_nonneg (by simp [Numeral.magnitude, hdigits]))
  by_cases hreach : exponentReach < n.exponent
  · rw [Numeral.nearest, if_neg hdigits, if_pos hreach]
    refine .overflow ((limit_le_zpow hf).trans (le_trans ?_ (zpow_le_magnitude hdigits)))
    exact zpow_le_zpow_right₀ (by norm_num) hreach.le
  by_cases hvisible : n.exponent + (n.digits.log2 + 1 : Nat) < -exponentReach
  · rw [Numeral.nearest, if_neg hdigits, if_neg hreach, if_pos hvisible]
    refine .finite hinfinity (covers_zero n.magnitude_nonneg ?_)
    have hmagnitude : n.magnitude ≤ 10 ^ (-exponentReach) :=
      n.magnitude_lt_zpow.le.trans (zpow_le_zpow_right₀ (by norm_num) hvisible.le)
    have hsmall : (2 : ℚ) ^ (f.unitScale + 1) ≤ 10 ^ exponentReach := by
      rw [← ten_pow_exponentReach]
      exact_mod_cast hf.small
    calc 2 * (n.magnitude * 2 ^ f.unitScale) = n.magnitude * 2 ^ (f.unitScale + 1) := by ring
      _ ≤ 10 ^ (-exponentReach) * 10 ^ exponentReach := by gcongr
      _ = 1 := by rw [← zpow_add₀ (by norm_num), neg_add_cancel, zpow_zero]
  · have hden : 0 < 10 ^ (-n.exponent).toNat := Nat.pow_pos (by decide)
    rw [nearest_eq hdigits hreach hvisible]
    obtain ⟨field, hreads, hnearest⟩ := Format.reads_nearest hf.precision_ge hden
    rw [hnearest]
    have hcovers := (covers_iff_reads hden (n.magnitude_mul f)).mpr hreads
    rcases Nat.lt_or_ge field f.infinity with hfinite | hbeyond
    · rw [Nat.min_eq_left hfinite.le]
      exact .finite hfinite hcovers
    · rw [Nat.min_eq_right hbeyond]
      refine .overflow (limit_le_iff.mpr (le_trans (Nat.cast_le.mpr ?_) hcovers.low))
      exact Nat.add_le_add (Format.units_strictMono.monotone (Nat.sub_le_sub_right hbeyond 1))
        (Format.units_strictMono.monotone hbeyond)

/-- A numeral whose value is in the interval of a field is rounded to it. -/
theorem Numeral.nearest_of_covers (hf : Moderate f) (hfinite : field < f.infinity) {n : Numeral}
    (h : Covers f field n.magnitude) : n.nearest f = field := by
  have hden : 0 < 10 ^ (-n.exponent).toNat := Nat.pow_pos (by decide)
  have hreads := fun field' => @covers_iff_reads f field' _ _ _ hden (n.magnitude_mul f)
  have hrounds := n.rounds_nearest hf (Nat.zero_lt_of_lt hfinite)
  generalize n.nearest f = found at hrounds ⊢
  cases hrounds with
  | finite _ hfound => exact ((hreads _).mp hfound).unique hden ((hreads _).mp h)
  | overflow hlimit => exact absurd hlimit (not_le.mpr (h.lt_limit hf.precision_ge hfinite))

theorem Numeral.nearest_le_infinity (hf : Moderate f) (hinfinity : 0 < f.infinity) (n : Numeral) :
    n.nearest f ≤ f.infinity := by
  have hrounds := n.rounds_nearest hf hinfinity
  generalize n.nearest f = found at hrounds ⊢
  cases hrounds with
  | finite hfinite _ => exact hfinite.le
  | overflow _ => exact Nat.le_refl _

theorem Numeral.nearest_lt_infinity_iff (hf : Moderate f) (hinfinity : 0 < f.infinity)
    {n : Numeral} : n.nearest f < f.infinity ↔ n.magnitude < limit f := by
  have hrounds := n.rounds_nearest hf hinfinity
  generalize n.nearest f = found at hrounds ⊢
  cases hrounds with
  | finite hfinite h => exact iff_of_true hfinite (h.lt_limit hf.precision_ge hfinite)
  | overflow h => exact iff_of_false (Nat.lt_irrefl _) (not_lt.mpr h)

/-! ## The search -/

/-- What one unit of a grid is in an interval whose bounds have been scaled. -/
def Interval.step (i : Interval) (exponent : Int) : Nat := i.scale * 10 ^ exponent.toNat

/-- What the bounds of an interval are scaled by for a grid. -/
def Interval.factor (exponent : Int) : Nat := 10 ^ (-exponent).toNat

theorem Interval.cast_step (i : Interval) (exponent : Int) :
    (i.step exponent : ℚ) = i.scale * 10 ^ exponent * Interval.factor exponent := by
  rw [step, factor]
  push_cast
  rw [mul_assoc, ten_zpow_mul_pow]

theorem Interval.contains_of_onGrid {i : Interval} {exponent : Int} {n : Nat}
    (h : i.onGrid exponent = some n) :
    i.contains (Interval.factor exponent) (n * i.step exponent) = true := by
  rw [onGrid] at h
  split at h
  · next hbelow habove =>
      cases h
      split
      · exact hbelow
      · split
        · exact habove
        · generalize i.value * _ / _ = below at hbelow habove ⊢
          rcases Nat.mod_two_eq_zero_or_one below with heven | hodd
          · rw [heven]
            exact hbelow
          · rw [hodd]
            exact habove
  · next hbelow _ => cases h; exact hbelow
  · next habove => cases h; exact habove
  · cases h

theorem Interval.onGrid_isSome {i : Interval} {exponent : Int}
    (h : i.contains (Interval.factor exponent)
      (i.value * Interval.factor exponent / i.step exponent * i.step exponent) = true) :
    (i.onGrid exponent).isSome := by
  have h : i.contains (Nat.pow 10 (-exponent).toNat)
      (i.value * Nat.pow 10 (-exponent).toNat / (i.scale * Nat.pow 10 exponent.toNat) *
        (i.scale * Nat.pow 10 exponent.toNat)) = true := h
  rw [onGrid]
  rw [h]
  split <;> first | rfl | contradiction

theorem Interval.search_spec {i : Interval} {point : Int} {fuel count c : Nat}
    (hc : (i.onGrid (point - c)).isSome) (hlow : count ≤ c) (hhigh : c < count + fuel) :
    i.onGrid (i.search point fuel count).2 = some (i.search point fuel count).1 := by
  induction fuel generalizing count with
  | zero => omega
  | succ fuel ih =>
      rw [search]
      split
      · next n hn => exact hn
      · next hnone =>
          have hne : count ≠ c := by
            rintro rfl
            rw [hnone] at hc
            cases hc
          exact ih (by omega) (by omega)

/-! ## The point -/

theorem Interval.pointBelowOne_spec {i : Interval} {fuel shifted : Nat}
    (h : i.scale ≤ shifted * 10 ^ fuel) :
    (i.scale : ℚ) * 10 ^ (i.pointBelowOne fuel shifted) ≤ 10 * shifted := by
  have hstop : ∀ {n : Nat}, i.scale ≤ 10 * n → (i.scale : ℚ) * 10 ^ (0 : ℤ) ≤ 10 * n := by
    intro n hn
    rw [zpow_zero, mul_one]
    exact_mod_cast hn
  induction fuel generalizing shifted with
  | zero =>
      rw [Nat.pow_zero, Nat.mul_one] at h
      rw [pointBelowOne, if_neg (Nat.not_lt.mpr h)]
      exact hstop (by omega)
  | succ fuel ih =>
      rw [pointBelowOne]
      split
      · have hshifted : i.scale ≤ shifted * 10 * 10 ^ fuel := by
          rw [Nat.mul_assoc, ← Nat.pow_succ']
          exact h
        have hnext := ih hshifted
        rw [zpow_sub₀ (by norm_num), zpow_one]
        push_cast at hnext
        linarith
      · exact hstop (by omega)

/-- The point is not estimated too high. -/
theorem Interval.point_spec {i : Interval} (hvalue : 0 < i.value)
    (h : i.scale ≤ 10 ^ exponentReach.toNat) : (i.scale : ℚ) * 10 ^ i.point ≤ 10 * i.value := by
  have hfuel : exponentReach.toNat = 400 := rfl
  rw [point, ← hfuel]
  split
  · exact pointBelowOne_spec (Nat.le_trans h (Nat.le_mul_of_pos_left _ hvalue))
  · next hwhole =>
      have hdigits := pow_length_toDigits_le (Nat.pos_of_ne_zero hwhole)
      have hmul : i.scale * 10 ^ (Nat.toDigits 10 (i.value / i.scale)).length ≤ 10 * i.value :=
        calc i.scale * 10 ^ (Nat.toDigits 10 (i.value / i.scale)).length
            ≤ i.scale * (10 * (i.value / i.scale)) := Nat.mul_le_mul_left _ hdigits
          _ = 10 * (i.value / i.scale * i.scale) := by ring
          _ ≤ 10 * i.value := Nat.mul_le_mul_left _ (Nat.div_mul_le_self _ _)
      rw [zpow_natCast]
      exact_mod_cast hmul

/-! ## The search finds a point -/

theorem Interval.contains_of_lt {i : Interval} {factor numerator : Nat}
    (hlow : i.low * factor < numerator) (hhigh : numerator < i.high * factor) :
    i.contains factor numerator = true := by
  rw [contains]
  split
  · exact Bool.and_eq_true_iff.mpr
      ⟨decide_eq_true (Nat.le_of_lt hlow), decide_eq_true (Nat.le_of_lt hhigh)⟩
  · exact Bool.and_eq_true_iff.mpr ⟨decide_eq_true hlow, decide_eq_true hhigh⟩

section

variable (hf : Moderate f) (hpos : 0 < field)

include hf hpos

theorem value_le_mul_step :
    (Interval.ofField f field).value + 10 ^ 19 * (Interval.ofField f field).low ≤
      10 ^ 19 * (Interval.ofField f field).value := by
  have hstep := f.units_le_mul_step (field - 1)
  have hless := f.units_lt_succ (field - 1)
  have hprecision := hf.precision_le
  rw [Nat.pow_succ', ← Format.two_mul_binade hf.precision_ge] at hprecision
  rw [Nat.sub_add_cancel hpos] at hstep hless
  change 2 * f.units field + 10 ^ 19 * (f.units (field - 1) + f.units field) ≤
    10 ^ 19 * (2 * f.units field)
  generalize f.units (field - 1) = before at *
  generalize f.units field = units at *
  obtain ⟨gap, rfl⟩ : ∃ gap, units = before + gap := Nat.exists_eq_add_of_le (Nat.le_of_lt hless)
  have hmul : 2 * (2 * f.binade * gap) ≤ 10 ^ 19 * gap := by
    rw [← Nat.mul_assoc]
    exact Nat.mul_le_mul_right _ hprecision
  rw [Nat.mul_add (2 * f.binade)] at hstep
  omega

/-- With twenty digits, the next point of the grid below a number is in its
interval. -/
theorem onGrid_twenty :
    ((Interval.ofField f field).onGrid ((Interval.ofField f field).point - 20)).isSome := by
  obtain ⟨i, hi⟩ : ∃ i, i = Interval.ofField f field := ⟨_, rfl⟩
  have hvalue : 0 < i.value := by
    rw [hi]
    exact Nat.mul_pos (by decide) (Format.units_pos hpos)
  have hscale : 0 < i.scale := by rw [hi]; exact Nat.two_pow_pos _
  have hhigh : i.value < i.high := by
    have := f.units_lt_succ field
    rw [hi]
    change 2 * f.units field < f.units field + f.units (field + 1)
    omega
  have hgap : i.value + 10 ^ 19 * i.low ≤ 10 ^ 19 * i.value := by
    rw [hi]
    exact value_le_mul_step hf hpos
  have hpoint := Interval.point_spec hvalue (by rw [hi]; exact hf.small)
  rw [← hi]
  obtain ⟨exponent, hexponent⟩ : ∃ e, e = i.point - 20 := ⟨_, rfl⟩
  rw [← hexponent]
  have hfactor : 0 < Interval.factor exponent := Nat.pow_pos (by decide)
  -- A step of the grid is at most 10⁻¹⁹ of the value, which is no longer than
  -- the way down to the end of the interval.
  have hfits : i.step exponent + i.low * Interval.factor exponent ≤
      i.value * Interval.factor exponent := by
    have hfine : (i.step exponent : ℚ) * 10 ^ 19 ≤ i.value * Interval.factor exponent := by
      have htwenty : (10 : ℚ) ^ exponent * 10 ^ 20 = 10 ^ i.point := by
        rw [hexponent, zpow_sub₀ (by norm_num)]
        exact div_mul_cancel₀ _ (by norm_num)
      rw [Interval.cast_step]
      have hscaled := mul_le_mul_of_nonneg_right hpoint (Nat.cast_nonneg (Interval.factor exponent))
      rw [← htwenty] at hscaled
      linarith
    have hfineNat : i.step exponent * 10 ^ 19 ≤ i.value * Interval.factor exponent := by
      exact_mod_cast hfine
    have hgapScaled := Nat.mul_le_mul_right (Interval.factor exponent) hgap
    rw [Nat.add_mul, Nat.mul_assoc, Nat.mul_assoc] at hgapScaled
    omega
  refine Interval.onGrid_isSome (Interval.contains_of_lt ?_ ?_)
  · have hdiv := Nat.lt_div_mul_add (a := i.value * Interval.factor exponent)
      (show 0 < i.step exponent from Nat.mul_pos hscale (Nat.pow_pos (by decide)))
    omega
  · exact Nat.lt_of_le_of_lt (Nat.div_mul_le_self _ _) (Nat.mul_lt_mul_of_pos_right hhigh hfactor)

end

theorem covers_of_contains {n : Nat} {exponent : Int}
    (h : (Interval.ofField f field).contains (Interval.factor exponent)
      (n * (Interval.ofField f field).step exponent) = true) :
    Covers f field (n * 10 ^ exponent) := by
  have hfactor : (0 : ℚ) < Interval.factor exponent := by
    exact_mod_cast Nat.pow_pos (by decide)
  have hpoint : ((n * (Interval.ofField f field).step exponent : ℕ) : ℚ) =
      2 * (n * 10 ^ exponent * 2 ^ f.unitScale) * Interval.factor exponent := by
    have hscale : ((Interval.ofField f field).scale : ℚ) = 2 * 2 ^ f.unitScale := by
      rw [← pow_succ', Interval.ofField, Nat.pow_eq, Nat.cast_pow, Nat.cast_ofNat]
    rw [Nat.cast_mul, Interval.cast_step, hscale]
    ring
  have hle : ∀ {low : Nat}, low * Interval.factor exponent ≤
      n * (Interval.ofField f field).step exponent ↔
      (low : ℚ) ≤ 2 * (n * 10 ^ exponent * 2 ^ f.unitScale) := by
    intro low
    rw [← Nat.cast_le (α := ℚ), hpoint, Nat.cast_mul, mul_le_mul_iff_of_pos_right hfactor]
  have hge : ∀ {high : Nat}, n * (Interval.ofField f field).step exponent ≤
      high * Interval.factor exponent ↔
      2 * (n * 10 ^ exponent * 2 ^ f.unitScale) ≤ (high : ℚ) := by
    intro high
    rw [← Nat.cast_le (α := ℚ), hpoint, Nat.cast_mul, mul_le_mul_iff_of_pos_right hfactor]
  rw [Interval.contains] at h
  split at h
  · next hclosed =>
      obtain ⟨hlow, hhigh⟩ := Bool.and_eq_true_iff.mp h
      exact ⟨hle.mp (of_decide_eq_true hlow), hge.mp (of_decide_eq_true hhigh),
        fun _ => of_decide_eq_true hclosed⟩
  · obtain ⟨hlow, hhigh⟩ := Bool.and_eq_true_iff.mp h
    have hlow := of_decide_eq_true hlow
    have hhigh := of_decide_eq_true hhigh
    refine ⟨hle.mp (Nat.le_of_lt hlow), hge.mp (Nat.le_of_lt hhigh), ?_⟩
    rintro (htie | htie)
    · exact absurd (hge.mpr htie.ge) (Nat.not_le.mpr hlow)
    · exact absurd (hle.mpr htie.ge) (Nat.not_le.mpr hhigh)

/-! ## The digits -/

/-- The number that digits stand for. -/
def Digits.magnitude (d : Digits) : ℚ := ofDigits d.digits * 10 ^ (d.point - d.digits.length)

/-- Digits as they are written: there is one, and the first is not zero. -/
structure Digits.Proper (d : Digits) : Prop where
  ne_nil : d.digits ≠ []
  isDigit : ∀ c ∈ d.digits, isDigit c
  head_ne : d.digits.head? ≠ some '0'

theorem Digits.magnitude_ofNat (n : Nat) (exponent : Int) :
    (Digits.ofNat n exponent).magnitude = n * 10 ^ exponent := by
  obtain ⟨zeros, hzeros⟩ := exists_trimZeros_append (Nat.toDigits 10 n)
  have hvalue : ofDigits (trimZeros (Nat.toDigits 10 n)) * 10 ^ zeros = n := by
    rw [← ofDigits_append_zeros, hzeros]
    exact Nat.ofDigitChars_ten_toDigits
  have hlength : (Nat.toDigits 10 n).length = (trimZeros (Nat.toDigits 10 n)).length + zeros := by
    rw [← List.length_replicate (n := zeros) (a := '0'), ← List.length_append, hzeros]
  have hexponent : exponent + ((Nat.toDigits 10 n).length : ℤ) -
      (trimZeros (Nat.toDigits 10 n)).length = zeros + exponent := by
    omega
  rw [Digits.magnitude]
  change (ofDigits (trimZeros (Nat.toDigits 10 n)) : ℚ) *
    10 ^ (exponent + ((Nat.toDigits 10 n).length : ℤ) - (trimZeros (Nat.toDigits 10 n)).length) = _
  rw [hexponent, zpow_add₀ (by norm_num), zpow_natCast, ← mul_assoc]
  exact_mod_cast congrArg (fun m : ℕ => (m : ℚ) * 10 ^ exponent) hvalue

theorem Digits.proper_ofNat {n : Nat} (hn : 0 < n) (exponent : Int) :
    (Digits.ofNat n exponent).Proper := by
  obtain ⟨zeros, hzeros⟩ := exists_trimZeros_append (Nat.toDigits 10 n)
  have hhead := head?_toDigits_ne hn
  have hne : trimZeros (Nat.toDigits 10 n) ≠ [] := by
    intro hnil
    rw [hnil, List.nil_append] at hzeros
    cases zeros with
    | zero => exact Nat.toDigits_ne_nil hzeros.symm
    | succ zeros => exact hhead (by rw [← hzeros]; rfl)
  refine ⟨hne, fun c hc => ?_, fun hzero => hhead ?_⟩
  · have hall : ∀ c ∈ Nat.toDigits 10 n, Decimal.isDigit c = true :=
      forall_mem_toDigits (by decide) n
    exact hall c (hzeros ▸ List.mem_append_left _ hc)
  · have hzero : (trimZeros (Nat.toDigits 10 n)).head? = some '0' := hzero
    rw [← hzeros, List.head?_append, hzero]
    rfl

/-- The digits found for a field stand for a number in its interval. -/
theorem shortest_spec (hf : Moderate f) (hpos : 0 < field) :
    (shortest f field).Proper ∧ Covers f field (shortest f field).magnitude := by
  have hfound := Interval.search_spec (onGrid_twenty hf hpos)
    (show 1 ≤ 20 by decide) (show 20 < 1 + 20 by decide)
  have hcovers := covers_of_contains (Interval.contains_of_onGrid hfound)
  have hn : 0 < ((Interval.ofField f field).search (Interval.ofField f field).point 20 1).1 := by
    refine Nat.pos_of_ne_zero fun hzero => ?_
    have hone := hcovers.one_le hpos
    rw [hzero] at hone
    norm_num at hone
  exact ⟨Digits.proper_ofNat hn _, by rw [shortest]; exact Digits.magnitude_ofNat .. ▸ hcovers⟩

end GlyphSearch.Decimal
