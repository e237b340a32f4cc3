import GlyphSearch.Binary.Format
import Mathlib.Order.Monotone.Basic
import Mathlib.Tactic.Ring

/-!
# Rounding to a format

The magnitudes of a format grow with their fields, and each field has an
interval of numbers that round to it: the interval ends half way to the
neighbouring fields, and its ends belong to the field that is even. `Reads`
says that a fraction is in the interval of a field.

A fraction is in no two intervals, as the even fields are no neighbours
(`Reads.unique`), and `nearest` finds one that it is in (`reads_nearest`). So
nothing has to be known of how `nearest` chooses its shift.
-/

namespace GlyphSearch.Binary

/-! ## Halves -/

/-- What is rounded is no farther than a half, and exactly a half away only
from an even number. -/
structure RoundsTo (num den n : Nat) : Prop where
  low : 2 * n * den ≤ 2 * num + den
  high : 2 * num ≤ (2 * n + 1) * den
  tie : 2 * n * den = 2 * num + den ∨ 2 * num = (2 * n + 1) * den → n % 2 = 0

theorem roundsTo_roundHalfEven {num den : Nat} (hden : 0 < den) :
    RoundsTo num den (roundHalfEven num den) := by
  have hnum : den * (num / den) + num % den = num := Nat.div_add_mod num den
  have hrest : num % den < den := Nat.mod_lt num hden
  rw [roundHalfEven]
  generalize num / den = q at hnum ⊢
  generalize num % den = r at hnum hrest ⊢
  have hbelow : 2 * q * den = 2 * (den * q) := by ring
  have hhalf : (2 * q + 1) * den = 2 * (den * q) + den := by ring
  have habove : 2 * (q + 1) * den = 2 * (den * q) + 2 * den := by ring
  have hbeyond : (2 * (q + 1) + 1) * den = 2 * (den * q) + 3 * den := by ring
  split
  · exact ⟨by omega, by omega, by omega⟩
  · split
    · exact ⟨by omega, by omega, by omega⟩
    · rcases Nat.mod_two_eq_zero_or_one q with heven | hodd
      · rw [heven, Nat.add_zero]
        exact ⟨by omega, by omega, fun _ => heven⟩
      · rw [hodd]
        exact ⟨by omega, by omega, fun _ => by omega⟩

namespace Format

variable {f : Format}

/-! ## Magnitudes -/

theorem binade_pos : 0 < f.binade := Nat.two_pow_pos _

theorem binade_even (hprecision : 2 ≤ f.precision) : f.binade % 2 = 0 := by
  obtain ⟨k, hk⟩ := Nat.exists_eq_add_of_le' hprecision
  rw [binade, fractionBits, hk]
  exact Nat.mul_mod_left (2 ^ k) 2

theorem infinity_even (hprecision : 2 ≤ f.precision) : f.infinity % 2 = 0 := by
  rw [infinity, Nat.mul_mod, binade_even hprecision, Nat.mul_zero, Nat.zero_mod]

theorem units_of_le {field : Nat} (h : field ≤ 2 * f.binade) : f.units field = field := by
  rw [units]
  split
  · rfl
  · next hge =>
      obtain rfl : field = 2 * f.binade := Nat.le_antisymm h (Nat.le_of_not_lt hge)
      rw [Nat.mul_mod_left, Nat.mul_div_cancel _ binade_pos, Nat.add_zero, Nat.mul_comm]

/-- The fields of one exponent, and the first of the next. -/
theorem units_of_mem {s m : Nat} (hlow : f.binade ≤ m) (hhigh : m ≤ 2 * f.binade) :
    f.units (s * f.binade + m) = m * Nat.pow 2 s := by
  have hpos : 0 < f.binade := binade_pos
  cases s with
  | zero =>
      rw [Nat.zero_mul, Nat.zero_add, units_of_le hhigh]
      exact (Nat.mul_one m).symm
  | succ s =>
      have hlarge : ¬ (s + 1) * f.binade + m < 2 * f.binade := by
        rw [Nat.succ_mul]
        omega
      rw [units, if_neg hlarge]
      rcases Nat.lt_or_eq_of_le hhigh with hless | rfl
      · obtain ⟨k, rfl⟩ := Nat.exists_eq_add_of_le hlow
        have hk : k < f.binade := by omega
        have hfield : (s + 1) * f.binade + (f.binade + k) = k + f.binade * (s + 2) := by ring
        rw [hfield, Nat.add_mul_mod_self_left, Nat.add_mul_div_left _ _ hpos,
          Nat.mod_eq_of_lt hk, Nat.div_eq_of_lt hk, Nat.zero_add]
        rfl
      · have hfield : (s + 1) * f.binade + 2 * f.binade = f.binade * (s + 3) := by ring
        rw [hfield, Nat.mul_mod_right, Nat.mul_div_cancel_left _ hpos]
        change f.binade * 2 ^ (s + 2) = 2 * f.binade * 2 ^ (s + 1)
        ring

theorem exists_eq_of_not_lt {field : Nat} (h : ¬ field < 2 * f.binade) :
    ∃ s m, m < f.binade ∧ field = s * f.binade + (f.binade + m) := by
  have hpos : 0 < f.binade := binade_pos
  obtain ⟨s, hs⟩ : ∃ s, field / f.binade = s + 1 :=
    Nat.exists_eq_succ_of_ne_zero (Nat.ne_of_gt (Nat.div_pos (by omega) hpos))
  refine ⟨s, field % f.binade, Nat.mod_lt _ hpos, ?_⟩
  have hdiv := Nat.div_add_mod field f.binade
  rw [hs, Nat.mul_succ, Nat.mul_comm f.binade s] at hdiv
  omega

theorem units_lt_succ (field : Nat) : f.units field < f.units (field + 1) := by
  by_cases hsmall : field < 2 * f.binade
  · rw [units_of_le (Nat.le_of_lt hsmall), units_of_le hsmall]
    exact Nat.lt_succ_self field
  · obtain ⟨s, m, hm, rfl⟩ := exists_eq_of_not_lt hsmall
    rw [Nat.add_assoc, Nat.add_assoc, units_of_mem (by omega) (by omega),
      units_of_mem (by omega) (by omega)]
    exact Nat.mul_lt_mul_of_pos_right (by omega) (Nat.two_pow_pos s)

/-- The step to a field is not small against its magnitude. -/
theorem units_le_mul_step (field : Nat) :
    f.units (field + 1) + 2 * f.binade * f.units field ≤ 2 * f.binade * f.units (field + 1) := by
  by_cases hsmall : field < 2 * f.binade
  · rw [units_of_le (Nat.le_of_lt hsmall), units_of_le hsmall, Nat.mul_succ]
    omega
  · obtain ⟨s, m, hm, rfl⟩ := exists_eq_of_not_lt hsmall
    rw [Nat.add_assoc, Nat.add_assoc, units_of_mem (by omega) (by omega),
      units_of_mem (by omega) (by omega)]
    calc (f.binade + (m + 1)) * Nat.pow 2 s + 2 * f.binade * ((f.binade + m) * Nat.pow 2 s)
        ≤ 2 * f.binade * Nat.pow 2 s + 2 * f.binade * ((f.binade + m) * Nat.pow 2 s) :=
          Nat.add_le_add_right (Nat.mul_le_mul_right _ (by omega)) _
      _ = 2 * f.binade * ((f.binade + (m + 1)) * Nat.pow 2 s) := by ring

theorem units_strictMono : StrictMono f.units := strictMono_nat_of_lt_succ units_lt_succ

theorem units_pos {field : Nat} (h : 0 < field) : 0 < f.units field :=
  Nat.lt_of_le_of_lt (Nat.zero_le _) (units_strictMono h)

/-! ## Intervals -/

/-- Whether a fraction of units is in the interval of a field. -/
structure Reads (f : Format) (field num den : Nat) : Prop where
  low : (f.units (field - 1) + f.units field) * den ≤ 2 * num
  high : 2 * num ≤ (f.units field + f.units (field + 1)) * den
  tie : (f.units (field - 1) + f.units field) * den = 2 * num ∨
    2 * num = (f.units field + f.units (field + 1)) * den → field % 2 = 0

theorem not_reads_of_lt {field field' num den : Nat} (hden : 0 < den) (hlt : field < field')
    (h : f.Reads field num den) (h' : f.Reads field' num den) : False := by
  have hleft : f.units field ≤ f.units (field' - 1) := units_strictMono.monotone (by omega)
  have hright : f.units (field + 1) ≤ f.units field' := units_strictMono.monotone hlt
  have hmeet : (f.units field + f.units (field + 1)) * den ≤
      (f.units (field' - 1) + f.units field') * den :=
    Nat.mul_le_mul_right den (Nat.add_le_add hleft hright)
  have hhigh := h.high
  have hlow := h'.low
  -- The two intervals meet in one point at most, and it would be in both.
  have heven := h.tie (.inr (by omega))
  have heven' := h'.tie (.inl (by omega))
  have hstrict : f.units field < f.units (field' - 1) := units_strictMono (by omega)
  have hapart : (f.units field + f.units (field + 1)) * den <
      (f.units (field' - 1) + f.units field') * den :=
    Nat.mul_lt_mul_of_pos_right (Nat.add_lt_add_of_lt_of_le hstrict hright) hden
  omega

/-- A fraction is in the interval of one field only. -/
theorem Reads.unique {field field' num den : Nat} (hden : 0 < den)
    (h : f.Reads field num den) (h' : f.Reads field' num den) : field = field' := by
  rcases Nat.lt_trichotomy field field' with hlt | heq | hgt
  · exact (not_reads_of_lt hden hlt h h').elim
  · exact heq
  · exact (not_reads_of_lt hden hgt h' h).elim

/-! ## Rounding -/

/-- The shift that `nearest` takes for a fraction. -/
def shift (f : Format) (num den : Nat) : Nat := (num / den).log2 + 1 - f.precision

theorem two_mul_binade (hprecision : 2 ≤ f.precision) : 2 * f.binade = 2 ^ f.precision := by
  obtain ⟨k, hk⟩ := Nat.exists_eq_add_of_le' hprecision
  rw [binade, fractionBits, hk]
  exact (Nat.pow_succ' (m := 2) (n := k + 1)).symm

theorem lt_of_shift (hprecision : 2 ≤ f.precision) {num den : Nat} (hden : 0 < den) :
    num < 2 * f.binade * (den * 2 ^ f.shift num den) := by
  have hquotient : num / den < 2 ^ (f.precision + f.shift num den) :=
    Nat.lt_of_lt_of_le Nat.lt_log2_self (Nat.pow_le_pow_right (by decide) (by rw [shift]; omega))
  rw [Nat.div_lt_iff_lt_mul hden, Nat.pow_add, ← two_mul_binade hprecision] at hquotient
  rwa [Nat.mul_comm den, ← Nat.mul_assoc]

theorem le_of_shift (hprecision : 2 ≤ f.precision) {num den : Nat} (hden : 0 < den)
    (hshift : f.shift num den ≠ 0) : f.binade * (den * 2 ^ f.shift num den) ≤ num := by
  have hne : num / den ≠ 0 := by
    intro hzero
    rw [shift, hzero, Nat.log2_zero] at hshift
    omega
  have hquotient : 2 ^ (f.fractionBits + f.shift num den) ≤ num / den := by
    refine Nat.le_trans (Nat.pow_le_pow_right (by decide) ?_) (Nat.log2_self_le hne)
    rw [shift] at hshift ⊢
    rw [fractionBits]
    omega
  rw [Nat.le_div_iff_mul_le hden, Nat.pow_add] at hquotient
  calc f.binade * (den * 2 ^ f.shift num den)
      = 2 ^ f.fractionBits * 2 ^ f.shift num den * den := by rw [binade, Nat.pow_eq]; ring
    _ ≤ num := hquotient

theorem units_of_shift {s r : Nat} (hlow : s ≠ 0 → f.binade ≤ r) (hhigh : r ≤ 2 * f.binade) :
    f.units (s * f.binade + r) = r * 2 ^ s := by
  by_cases hs : s = 0
  · subst hs
    rw [Nat.zero_mul, Nat.zero_add, units_of_le hhigh, Nat.pow_zero, Nat.mul_one]
  · exact units_of_mem (hlow hs) hhigh

theorem even_field (heven : f.binade % 2 = 0) {s r : Nat} (hr : r % 2 = 0) :
    (s * f.binade + r) % 2 = 0 := by
  rw [Nat.add_mod, Nat.mul_mod, heven, hr, Nat.mul_zero]

section

variable {s r num den : Nat} (hround : RoundsTo num (den * 2 ^ s) r)
  (hnum : num < 2 * f.binade * (den * 2 ^ s)) (hlarge : s ≠ 0 → f.binade * (den * 2 ^ s) ≤ num)

include hround

include hnum in
theorem le_of_roundsTo : r ≤ 2 * f.binade := by
  refine Nat.le_of_not_lt fun hgt => ?_
  have hmul : (2 * f.binade + 1) * (den * 2 ^ s) ≤ r * (den * 2 ^ s) := Nat.mul_le_mul_right _ hgt
  have hlow := hround.low
  rw [Nat.mul_assoc] at hlow hnum
  rw [Nat.add_mul, Nat.mul_assoc, Nat.one_mul] at hmul
  have hpos : 0 < f.binade * (den * 2 ^ s) := by omega
  have hden : 0 < den * 2 ^ s := Nat.pos_of_mul_pos_left hpos
  omega

include hnum hlarge in
theorem binade_le_of_roundsTo (hs : s ≠ 0) : f.binade ≤ r := by
  have hlow := hlarge hs
  have hhigh := hround.high
  refine Nat.le_of_not_lt fun hlt => ?_
  have hmul : (r + 1) * (den * 2 ^ s) ≤ f.binade * (den * 2 ^ s) := Nat.mul_le_mul_right _ hlt
  rw [Nat.mul_assoc] at hnum
  rw [Nat.add_mul, Nat.one_mul] at hmul
  rw [Nat.add_mul, Nat.mul_assoc, Nat.one_mul] at hhigh
  have hpos : 0 < f.binade * (den * 2 ^ s) := by omega
  have hden : 0 < den * 2 ^ s := Nat.pos_of_mul_pos_left hpos
  omega

include hnum hlarge in
theorem above_half_below (heven : f.binade % 2 = 0) :
    (f.units (s * f.binade + r - 1) + f.units (s * f.binade + r)) * den ≤ 2 * num ∧
      ((f.units (s * f.binade + r - 1) + f.units (s * f.binade + r)) * den = 2 * num →
        (s * f.binade + r) % 2 = 0) := by
  have hhigh := le_of_roundsTo hround hnum
  have hlow := binade_le_of_roundsTo hround hnum hlarge
  have hunits := units_of_shift hlow hhigh
  have hden : 0 < den := Nat.pos_of_ne_zero fun h => by simp [h] at hnum
  rw [hunits]
  by_cases hfirst : s ≠ 0 ∧ r = f.binade
  -- Below the first field of an exponent the step is half as long.
  · obtain ⟨hs, rfl⟩ := hfirst
    have hless : f.units (s * f.binade + f.binade - 1) < f.binade * 2 ^ s := by
      rw [← hunits]
      exact units_strictMono (Nat.sub_lt (Nat.add_pos_right _ binade_pos) Nat.one_pos)
    have hlt := Nat.mul_lt_mul_of_pos_right (Nat.add_lt_add_right hless (f.binade * 2 ^ s)) hden
    have hdouble : (f.binade * 2 ^ s + f.binade * 2 ^ s) * den =
        2 * (f.binade * (den * 2 ^ s)) := by ring
    rw [hdouble] at hlt
    have hnum := hlarge hs
    exact ⟨by omega, by omega⟩
  · by_cases hzero : r = 0
    · subst hzero
      obtain rfl : s = 0 := by
        by_contra hs
        exact absurd (hlow hs) (Nat.not_le.mpr binade_pos)
      simp [units_of_le]
    · obtain ⟨k, rfl⟩ : ∃ k, r = k + 1 := Nat.exists_eq_succ_of_ne_zero hzero
      have hprevious : f.units (s * f.binade + (k + 1) - 1) = k * 2 ^ s :=
        units_of_shift (fun hs => by have := hlow hs; omega) (by omega)
      have hsum : (k * 2 ^ s + (k + 1) * 2 ^ s) * den + den * 2 ^ s =
          2 * (k + 1) * (den * 2 ^ s) := by ring
      have hround' := hround.low
      rw [hprevious]
      exact ⟨by omega, fun heq => even_field heven (hround.tie (.inl (by omega)))⟩

include hnum hlarge in
theorem below_half_above (heven : f.binade % 2 = 0) :
    2 * num ≤ (f.units (s * f.binade + r) + f.units (s * f.binade + r + 1)) * den ∧
      (2 * num = (f.units (s * f.binade + r) + f.units (s * f.binade + r + 1)) * den →
        (s * f.binade + r) % 2 = 0) := by
  have hhigh := le_of_roundsTo hround hnum
  have hlow := binade_le_of_roundsTo hround hnum hlarge
  have hunits := units_of_shift hlow hhigh
  have hden : 0 < den := Nat.pos_of_ne_zero fun h => by simp [h] at hnum
  rw [hunits]
  rcases Nat.lt_or_eq_of_le hhigh with hless | rfl
  · have hnext : f.units (s * f.binade + r + 1) = (r + 1) * 2 ^ s :=
      units_of_shift (fun hs => Nat.le_succ_of_le (hlow hs)) hless
    have hsum : (r * 2 ^ s + (r + 1) * 2 ^ s) * den = (2 * r + 1) * (den * 2 ^ s) := by ring
    rw [hnext, hsum]
    exact ⟨hround.high, fun heq => even_field heven (hround.tie (.inr heq))⟩
  · have hmore : 2 * f.binade * 2 ^ s < f.units (s * f.binade + 2 * f.binade + 1) := by
      rw [← hunits]
      exact units_lt_succ _
    have hlt := Nat.mul_lt_mul_of_pos_right
      (Nat.add_lt_add_left hmore (2 * f.binade * 2 ^ s)) hden
    have hdouble : (2 * f.binade * 2 ^ s + 2 * f.binade * 2 ^ s) * den =
        2 * (2 * f.binade * (den * 2 ^ s)) := by ring
    rw [hdouble] at hlt
    exact ⟨by omega, by omega⟩

include hnum hlarge in
/-- The field that a rounded significand makes with its shift has the fraction
in its interval. -/
theorem reads_of_roundsTo (heven : f.binade % 2 = 0) : f.Reads (s * f.binade + r) num den := by
  have hbelow := above_half_below hround hnum hlarge heven
  have habove := below_half_above hround hnum hlarge heven
  exact ⟨hbelow.1, habove.1, fun h => h.elim hbelow.2 habove.2⟩

end

/-- What is rounded is in the interval of the field that it is rounded to,
if that is finite. -/
theorem reads_nearest (hprecision : 2 ≤ f.precision) {num den : Nat} (hden : 0 < den) :
    ∃ field, f.Reads field num den ∧ f.nearest num den = min field f.infinity := by
  have heven := binade_even hprecision
  have hround := @roundsTo_roundHalfEven num _
    (Nat.mul_pos hden (Nat.two_pow_pos (f.shift num den)))
  exact ⟨_, reads_of_roundsTo hround (lt_of_shift hprecision hden)
    (le_of_shift hprecision hden) heven, rfl⟩

/-- What is no smaller than a number is rounded to no smaller one. -/
theorem le_nearest (hprecision : 2 ≤ f.precision) {field num den : Nat}
    (hden : 0 < den) (hle : f.units field * den ≤ num) (hfinite : field ≤ f.infinity) :
    field ≤ f.nearest num den := by
  obtain ⟨found, hreads, hnearest⟩ := @reads_nearest f hprecision num den hden
  rw [hnearest]
  refine Nat.le_min.mpr ⟨Nat.le_of_not_lt fun hlt => ?_, hfinite⟩
  -- A smaller field has its interval below the number, up to a half of the step.
  have hnext : f.units (found + 1) ≤ f.units field := units_strictMono.monotone hlt
  have hless : f.units found < f.units field := units_strictMono hlt
  have hsum : (f.units found + f.units (found + 1)) * den < (2 * f.units field) * den :=
    Nat.mul_lt_mul_of_pos_right (by omega) hden
  have hhigh := hreads.high
  rw [Nat.mul_assoc] at hsum
  omega

end Format

end GlyphSearch.Binary
