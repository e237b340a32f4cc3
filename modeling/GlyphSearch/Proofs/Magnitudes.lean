import GlyphSearch.Proofs.Signs
import Mathlib.Data.Nat.Sqrt
import Mathlib.Tactic.Linarith

/-!
# How large results are

Every operation on numbers of 64 bits rounds a fraction of units, and a power
of two that bounds the fraction bounds what it is rounded to. So the magnitude
of a result follows from the magnitudes of its operands as if nothing were
rounded: the exponents are added, halved or subtracted.

Only a sum of many terms could leave such bounds behind, and it does not: where
the sum is so much larger than the terms that one of them is less than half of
the step to the next number, it stays where it is (`Double.Within.add`).
-/

namespace GlyphSearch

open Binary

namespace Binary

/-! ## Rounding and order -/

namespace Format

variable {f : Format}

/-- What is rounded stays at an even field or below it up to half of the way to
the next. -/
theorem nearest_le_iff (hprecision : 2 ≤ f.precision) {field num den : Nat} (hden : 0 < den)
    (heven : field % 2 = 0) (hfinite : field < f.infinity) :
    f.nearest num den ≤ field ↔ 2 * num ≤ (f.units field + f.units (field + 1)) * den := by
  obtain ⟨found, hreads, hnearest⟩ := @reads_nearest f hprecision num den hden
  rw [hnearest]
  constructor
  · intro hle
    have hfound : found ≤ field := by omega
    refine hreads.high.trans (Nat.mul_le_mul_right den (Nat.add_le_add ?_ ?_))
    · exact units_strictMono.monotone hfound
    · exact units_strictMono.monotone (Nat.succ_le_succ hfound)
  · intro hle
    refine (Nat.min_le_left ..).trans (Nat.le_of_not_lt fun hlt => ?_)
    have hlow := hreads.low
    have hbelow : f.units field ≤ f.units (found - 1) := units_strictMono.monotone (by omega)
    have habove : f.units (field + 1) ≤ f.units found := units_strictMono.monotone hlt
    have hsum := Nat.mul_le_mul_right den (Nat.add_le_add hbelow habove)
    -- The fraction is where the two intervals meet, and goes to the even one.
    have hodd := hreads.tie (.inl (by omega))
    have hnext : field + 1 < found := by omega
    have hstrict : f.units (field + 1) < f.units found := units_strictMono hnext
    have hless := Nat.mul_lt_mul_of_pos_right (Nat.add_lt_add_of_le_of_lt hbelow hstrict) hden
    omega

/-- Rounding at most doubles. -/
theorem units_nearest_mul_le (hprecision : 2 ≤ f.precision) {num den : Nat} (hden : 0 < den) :
    f.units (f.nearest num den) * den ≤ 2 * num := by
  obtain ⟨found, hreads, hnearest⟩ := @reads_nearest f hprecision num den hden
  have hle : f.units (f.nearest num den) ≤ f.units found := by
    rw [hnearest]
    exact units_strictMono.monotone (Nat.min_le_left ..)
  exact (Nat.mul_le_mul_right den (hle.trans (Nat.le_add_left ..))).trans hreads.low

theorem nearest_zero (hprecision : 2 ≤ f.precision) {den : Nat} (hden : 0 < den) :
    f.nearest 0 den = 0 := by
  have hmul := @units_nearest_mul_le f hprecision 0 den hden
  refine Nat.eq_zero_of_not_pos fun hpos => ?_
  exact Nat.ne_of_gt (Nat.mul_pos (units_pos hpos) hden) (Nat.le_zero.mp hmul)

end Format

/-! ## Square roots -/

/-- The mean of a guess and its quotient is no smaller than the root. -/
theorem sqrt_le_mean {n guess : Nat} (hguess : 0 < guess) :
    n.sqrt ≤ (guess + n / guess) / 2 := by
  have hroot : n.sqrt * n.sqrt ≤ n := n.sqrt_le
  have hquotient : n < guess * (n / guess + 1) := Nat.lt_mul_div_succ n hguess
  generalize n / guess = quotient at hquotient ⊢
  rw [Nat.le_div_iff_mul_le Nat.two_pos]
  by_contra hlt
  have hsum : guess + (quotient + 1) ≤ 2 * n.sqrt := by omega
  have hproduct : 4 * (guess * (quotient + 1)) ≤ 4 * n := by
    calc 4 * (guess * (quotient + 1)) = 4 * guess * (quotient + 1) := by ring
      _ ≤ (guess + (quotient + 1)) ^ 2 := four_mul_le_sq_add _ _
      _ ≤ (2 * n.sqrt) ^ 2 := Nat.pow_le_pow_left hsum 2
      _ = 4 * (n.sqrt * n.sqrt) := by ring
      _ ≤ 4 * n := Nat.mul_le_mul_left 4 hroot
  omega

/-- From above, each step at least halves the way to the root. -/
theorem squareRootFrom_eq {n : Nat} (hn : 0 < n) : ∀ {fuel guess : Nat}, n.sqrt ≤ guess →
    guess < n.sqrt + 2 ^ fuel → squareRootFrom n fuel guess = n.sqrt := by
  have hpos : 0 < n.sqrt := Nat.sqrt_pos.mpr hn
  intro fuel
  induction fuel with
  | zero =>
      intro guess hlow hhigh
      rw [squareRootFrom]
      omega
  | succ fuel ih =>
      intro guess hlow hhigh
      have hguess : 0 < guess := hpos.trans_le hlow
      have hmean : n.sqrt ≤ (guess + n / guess) / 2 := sqrt_le_mean hguess
      rw [squareRootFrom]
      split
      · next hless =>
          have hquotient : n / guess ≤ n.sqrt := by
            rw [← Nat.lt_succ_iff, Nat.div_lt_iff_lt_mul hguess]
            exact n.lt_succ_sqrt.trans_le (Nat.mul_le_mul_left _ (by omega))
          rw [Nat.pow_succ] at hhigh
          exact ih hmean (by omega)
      · next hstop =>
          have hquotient : guess ≤ n / guess := by omega
          rw [Nat.le_div_iff_mul_le hguess] at hquotient
          exact Nat.le_antisymm (Nat.le_sqrt.mpr hquotient) hlow

theorem squareRoot_eq_sqrt (n : Nat) : squareRoot n = n.sqrt := by
  rw [squareRoot]
  split
  · next hzero => rw [hzero, Nat.sqrt_zero]
  · next hne =>
      have hroot : n.sqrt < 2 ^ (n.log2 / 2 + 1) := by
        rw [Nat.sqrt_lt, ← Nat.pow_add]
        exact Nat.lt_log2_self.trans_le (Nat.pow_le_pow_right Nat.two_pos (by omega))
      have hfuel : 2 ^ (n.log2 / 2 + 1) ≤ 2 ^ (n.log2 + 2) :=
        Nat.pow_le_pow_right Nat.two_pos (by omega)
      have hpos : 0 < n.sqrt := Nat.sqrt_pos.mpr (Nat.pos_of_ne_zero hne)
      exact squareRootFrom_eq (Nat.pos_of_ne_zero hne) hroot.le (by rw [Nat.pow_eq]; omega)

end Binary

namespace Double

variable {x y : Double} {s t : Bool} {m n c d e : Nat}

/-! ## Powers of two -/

theorem binade_double : Format.double.binade = 2 ^ 52 := by decide

/-- The field of two to a power of units. -/
def powerField (e : Nat) : Nat := (e - 52) * Format.double.binade + Format.double.binade

theorem units_powerField (he : 52 ≤ e) : Format.double.units (powerField e) = 2 ^ e := by
  have hpos : 0 < Format.double.binade := Format.binade_pos
  rw [powerField, Format.units_of_mem (Nat.le_refl _) (by omega), binade_double]
  change 2 ^ 52 * 2 ^ (e - 52) = 2 ^ e
  rw [← Nat.pow_add, Nat.add_sub_cancel' he]

/-- The next number is a step above. -/
theorem units_powerField_succ (he : 52 ≤ e) :
    Format.double.units (powerField e + 1) = 2 ^ e + 2 ^ (e - 52) := by
  have hpos : 0 < Format.double.binade := Format.binade_pos
  rw [powerField, Nat.add_assoc, Format.units_of_mem (by omega) (by omega), binade_double]
  change (2 ^ 52 + 1) * 2 ^ (e - 52) = _
  rw [Nat.add_mul, ← Nat.pow_add, Nat.add_sub_cancel' he, Nat.one_mul]

theorem powerField_even (e : Nat) : powerField e % 2 = 0 :=
  Format.even_field (by decide) (by decide)

theorem powerField_lt (he : e < 2098) : powerField e < Format.double.infinity := by
  have hpower : powerField e ≤ 2046 * Format.double.binade := by
    rw [powerField, ← Nat.succ_mul]
    exact Nat.mul_le_mul_right _ (by omega)
  exact hpower.trans_lt (by decide)

/-! ## Rounding -/

/-- A number that has been rounded, if two to the power `e` is a bound for it:
it is as large as every number that was not above it, and no more than twice of
what it was. -/
structure RoundedWithin (e : Nat) (num den m : Nat) : Prop where
  le_power : m ≤ 2 ^ e
  le_double : m * den ≤ 2 * num
  le_self {field : Nat} (hfield : field ≤ Format.double.infinity)
    (h : Format.double.units field * den ≤ num) : Format.double.units field ≤ m

theorem datum_round {num den : Nat} (hden : 0 < den) (hlow : 52 ≤ e) (hhigh : e < 2098)
    (hnum : 2 * num ≤ (2 ^ e + (2 ^ e + 2 ^ (e - 52))) * den) :
    ∃ m, (round s num den).datum = .finite s m ∧ RoundedWithin e num den m := by
  have hprecision : 2 ≤ Format.double.precision := by decide
  have hle : Format.double.nearest num den ≤ powerField e := by
    rw [Format.nearest_le_iff hprecision hden (powerField_even e) (powerField_lt hhigh),
      units_powerField hlow, units_powerField_succ hlow]
    exact hnum
  refine ⟨Format.double.units (Format.double.nearest num den), ?_, ?_, ?_, ?_⟩
  · rw [round, datum_ofField (nearest_lt ..), Format.datum,
      if_pos (hle.trans_lt (powerField_lt hhigh))]
  · rw [← units_powerField hlow]
    exact Format.units_strictMono.monotone hle
  · exact Format.units_nearest_mul_le hprecision hden
  · intro field hfield h
    exact Format.units_strictMono.monotone (Format.le_nearest hprecision hden h hfield)

theorem datum_round_of_le {num den : Nat} (hden : 0 < den) (hlow : 52 ≤ e) (hhigh : e < 2098)
    (hnum : num ≤ 2 ^ e * den) :
    ∃ m, (round s num den).datum = .finite s m ∧ RoundedWithin e num den m := by
  refine datum_round hden hlow hhigh ?_
  calc 2 * num ≤ 2 * (2 ^ e * den) := Nat.mul_le_mul_left 2 hnum
    _ = (2 ^ e + 2 ^ e) * den := by ring
    _ ≤ _ := Nat.mul_le_mul_right den (Nat.add_le_add_left (Nat.le_add_right ..) _)

theorem RoundedWithin.power_le {num den : Nat} (h : RoundedWithin e num den m) (hlow : 52 ≤ d)
    (hhigh : d < 2098) (hnum : 2 ^ d * den ≤ num) : 2 ^ d ≤ m := by
  rw [← units_powerField hlow] at hnum ⊢
  exact h.le_self (powerField_lt hhigh).le hnum

/-! ## Operations -/

/-- A finite number of at most two to the power `e` units. -/
def Within (e : Nat) (x : Double) : Prop := ∃ s m, x.datum = .finite s m ∧ m ≤ 2 ^ e

/-- A positive number of at least two to the power `d` units, and within two to
the power `e`. -/
def Between (d e : Nat) (x : Double) : Prop :=
  ∃ m, x.datum = .finite false m ∧ 2 ^ d ≤ m ∧ m ≤ 2 ^ e

/-- One, in units. -/
def unitsOfOne : Nat := Nat.pow 2 Format.double.unitScale

theorem unitsOfOne_pos : 0 < unitsOfOne := by decide +kernel

theorem pow_mul_unitsOfOne (e : Nat) : 2 ^ e * unitsOfOne = 2 ^ (e + 1074) := by
  have hscale : Format.double.unitScale = 1074 := by decide
  unfold unitsOfOne
  generalize Format.double.unitScale = scale at hscale ⊢
  rw [← hscale]
  exact (Nat.pow_add 2 e scale).symm

theorem pow_mul_unitsOfOne_eq (h : d + e = c + 1074) : 2 ^ c * unitsOfOne = 2 ^ d * 2 ^ e := by
  rw [pow_mul_unitsOfOne, ← h, Nat.pow_add]

theorem datum_zero : zero.datum = .finite false 0 := by rfl

theorem within_zero : zero.Within e := ⟨false, 0, datum_zero, Nat.zero_le _⟩

theorem unitsOfOne_eq (h : d + e = 1074) : unitsOfOne = 2 ^ d * 2 ^ e := by
  rw [← pow_mul_unitsOfOne_eq (h.trans (Nat.zero_add 1074).symm), Nat.pow_zero, Nat.one_mul]

/-- A term of less than half of the step does not make a sum leave its bound. -/
theorem sum_le_half (hstep : d + 54 ≤ e) (hm : m ≤ 2 ^ e) (hn : n ≤ 2 ^ d) :
    2 * (m + n) ≤ (2 ^ e + (2 ^ e + 2 ^ (e - 52))) * 1 := by
  have hle : 4 * 2 ^ d ≤ 2 ^ (e - 52) := by
    calc 4 * 2 ^ d = 2 ^ (2 + d) := (Nat.pow_add 2 2 d).symm
      _ ≤ 2 ^ (e - 52) := Nat.pow_le_pow_right Nat.two_pos (by omega)
  omega

theorem Within.add (hx : x.Within e) (hy : y.Within d) (hstep : d + 54 ≤ e) (hhigh : e < 2098) :
    (x + y).Within e := by
  obtain ⟨s, m, hx, hm⟩ := hx
  obtain ⟨t, n, hy, hn⟩ := hy
  have hlow : 52 ≤ e := by omega
  change (x.add y).Within e
  simp only [Double.add, hx, hy, addUnits]
  have hround : ∀ {u k}, k ≤ 2 ^ e → (round u k 1).Within e := by
    intro u k hk
    obtain ⟨l, hdatum, hl⟩ := datum_round_of_le (s := u) Nat.one_pos hlow hhigh
      (hk.trans_eq (Nat.mul_one _).symm)
    exact ⟨u, l, hdatum, hl.le_power⟩
  split
  · obtain ⟨l, hdatum, hl⟩ := datum_round (s := s) Nat.one_pos hlow hhigh
      (sum_le_half hstep hm hn)
    exact ⟨s, l, hdatum, hl.le_power⟩
  split
  · exact within_zero
  split
  · exact hround ((Nat.sub_le ..).trans hm)
  · have hpower : 2 ^ d ≤ 2 ^ e := Nat.pow_le_pow_right Nat.two_pos (by omega)
    exact hround ((Nat.sub_le ..).trans (hn.trans hpower))

/-- However many terms there are, their sum is within the same bound. -/
theorem Within.foldl {terms : List Double} (hterms : ∀ t ∈ terms, t.Within d)
    (hstep : d + 54 ≤ e) (hhigh : e < 2098) (hx : x.Within e) :
    (terms.foldl (· + ·) x).Within e := by
  induction terms generalizing x with
  | nil => exact hx
  | cons t terms ih =>
      obtain ⟨hfirst, hrest⟩ := List.forall_mem_cons.mp hterms
      exact ih hrest (hx.add hfirst hstep hhigh)

theorem field_lt_infinity (h : x.datum = .finite s m) : x.field < Format.double.infinity := by
  rw [datum, Format.datum] at h
  split at h
  · assumption
  · split at h <;> cases h

/-- A sum without minus signs is no smaller than what has been added. -/
theorem datum_add (hx : x.datum = .finite false m) (hy : y.datum = .finite false n)
    (hm : m ≤ 2 ^ e) (hn : n ≤ 2 ^ d) (hstep : d + 54 ≤ e) (hhigh : e < 2098) :
    ∃ k, (x + y).datum = .finite false k ∧ k ≤ 2 ^ e ∧ m ≤ k ∧ n ≤ k := by
  obtain ⟨k, hdatum, hk⟩ := datum_round (s := false) Nat.one_pos (by omega) hhigh
    (sum_le_half hstep hm hn)
  have hle : ∀ {z : Double} {l}, z.datum = .finite false l → l ≤ m + n → l ≤ k := by
    intro z l hz hl
    have hself := hk.le_self (field_lt_infinity hz).le
    rw [← datum_eq_finite hz, Nat.mul_one] at hself
    exact hself hl
  refine ⟨k, ?_, hk.le_power, hle hx (by omega), hle hy (by omega)⟩
  change (x.add y).datum = _
  simp only [Double.add, hx, hy, addUnits, if_true]
  exact hdatum

theorem datum_foldl {terms : List Double}
    (hterms : ∀ t ∈ terms, ∃ n, t.datum = .finite false n ∧ n ≤ 2 ^ d) (hstep : d + 54 ≤ e)
    (hhigh : e < 2098) (hx : x.datum = .finite false m) (hm : m ≤ 2 ^ e) :
    ∃ k, (terms.foldl (· + ·) x).datum = .finite false k ∧ k ≤ 2 ^ e ∧ m ≤ k ∧
      ∀ t ∈ terms, ∀ n, t.datum = .finite false n → n ≤ k := by
  induction terms generalizing x m with
  | nil => exact ⟨m, hx, hm, Nat.le_refl m, fun _ ht => absurd ht List.not_mem_nil⟩
  | cons t terms ih =>
      obtain ⟨⟨n, ht, hn⟩, hrest⟩ := List.forall_mem_cons.mp hterms
      obtain ⟨l, hsum, hl, hml, hnl⟩ := datum_add hx ht hm hn hstep hhigh
      obtain ⟨k, hdatum, hk, hlk, hall⟩ := ih hrest hsum hl
      refine ⟨k, hdatum, hk, hml.trans hlk, List.forall_mem_cons.mpr ⟨fun n' ht' => ?_, hall⟩⟩
      rw [ht] at ht'
      cases ht'
      exact hnl.trans hlk

theorem mul_eq (hx : x.datum = .finite s m) (hy : y.datum = .finite t n) :
    x * y = round (s != t) (m * n) unitsOfOne := by
  change x.mul y = _
  unfold mul unitsOfOne
  generalize Nat.pow 2 Format.double.unitScale = scale
  rw [hx, hy]

theorem datum_mul (hx : x.datum = .finite s m) (hy : y.datum = .finite t n) (hm : m ≤ 2 ^ d)
    (hn : n ≤ 2 ^ e) (hexponent : d + e = c + 1074) (hlow : 52 ≤ c) (hhigh : c < 2098) :
    ∃ k, (x * y).datum = .finite (s != t) k ∧ RoundedWithin c (m * n) unitsOfOne k := by
  rw [mul_eq hx hy]
  refine datum_round_of_le unitsOfOne_pos hlow hhigh ?_
  rw [pow_mul_unitsOfOne_eq hexponent]
  exact Nat.mul_le_mul hm hn

theorem Within.mul (hx : x.Within d) (hy : y.Within e) (hexponent : d + e = c + 1074)
    (hlow : 52 ≤ c) (hhigh : c < 2098) : (x * y).Within c := by
  obtain ⟨s, m, hx, hm⟩ := hx
  obtain ⟨t, n, hy, hn⟩ := hy
  obtain ⟨k, hdatum, hk⟩ := datum_mul hx hy hm hn hexponent hlow hhigh
  exact ⟨_, k, hdatum, hk.le_power⟩

theorem Between.mul {b d' e' : Nat} (hx : x.Between d e) (hy : y.Between d' e')
    (hexponent : d + d' = b + 1074) (hexponent' : e + e' = c + 1074) (hlow : 52 ≤ b)
    (hle : b ≤ c) (hhigh : c < 2098) : (x * y).Between b c := by
  obtain ⟨m, hx, hdm, hm⟩ := hx
  obtain ⟨n, hy, hdn, hn⟩ := hy
  obtain ⟨k, hdatum, hk⟩ := datum_mul hx hy hm hn hexponent' (by omega) hhigh
  refine ⟨k, hdatum, hk.power_le hlow (by omega) ?_, hk.le_power⟩
  rw [pow_mul_unitsOfOne_eq hexponent]
  exact Nat.mul_le_mul hdm hdn

theorem div_eq (hx : x.datum = .finite s m) (hy : y.datum = .finite t n) (hn : 0 < n) :
    x / y = round (s != t) (m * unitsOfOne) n := by
  change x.div y = _
  unfold Double.div unitsOfOne
  generalize Nat.pow 2 Format.double.unitScale = scale
  simp only [hx, hy, if_neg (Nat.ne_of_gt hn)]

theorem datum_div {e' : Nat} (hx : x.datum = .finite s m) (hm : m ≤ 2 ^ e)
    (hy : y.Between d e') (hexponent : c + d = e + 1074) (hlow : 52 ≤ c) (hhigh : c < 2098) :
    ∃ n k, y.datum = .finite false n ∧ (x / y).datum = .finite s k ∧
      RoundedWithin c (m * unitsOfOne) n k := by
  obtain ⟨n, hy, hn, -⟩ := hy
  have hpos : 0 < n := (Nat.two_pow_pos d).trans_le hn
  have hle : m * unitsOfOne ≤ 2 ^ c * n := by
    calc m * unitsOfOne ≤ 2 ^ e * unitsOfOne := Nat.mul_le_mul_right _ hm
      _ = 2 ^ c * 2 ^ d := pow_mul_unitsOfOne_eq hexponent
      _ ≤ 2 ^ c * n := Nat.mul_le_mul_left _ hn
  rw [div_eq hx hy hpos, Bool.bne_false]
  obtain ⟨k, hdatum, hk⟩ := datum_round_of_le hpos hlow hhigh hle
  exact ⟨n, k, hy, hdatum, hk⟩

theorem Within.div {e' : Nat} (hx : x.Within e) (hy : y.Between d e')
    (hexponent : c + d = e + 1074) (hlow : 52 ≤ c) (hhigh : c < 2098) : (x / y).Within c := by
  obtain ⟨s, m, hx, hm⟩ := hx
  obtain ⟨_, k, -, hdatum, hk⟩ := datum_div hx hm hy hexponent hlow hhigh
  exact ⟨s, k, hdatum, hk.le_power⟩

/-- What is rounded to a root: the root of the square of units, or what is
half way to the next number. -/
theorem sqrt_eq (hx : x.datum = .finite false m) (hm : 0 < m) :
    x.sqrt = (let root := (m * unitsOfOne).sqrt
      if root * root = m * unitsOfOne then round false root 1
      else round false (2 * root + 1) 2) := by
  unfold Double.sqrt unitsOfOne
  generalize Nat.pow 2 Format.double.unitScale = scale
  simp only [hx, if_neg (Nat.ne_of_gt hm), squareRoot_eq_sqrt, Bool.false_eq_true, if_false]

/-- A root is between the roots of bounds, and its square no more than nine
times of what it is taken from. -/
theorem datum_sqrt (hx : x.datum = .finite false m) (hm : 0 < m) (hhigh : m ≤ 2 ^ e)
    (hexponent : d + d = e + 1074) (hsmall : d < 2098) :
    ∃ k, x.sqrt.datum = .finite false k ∧ k ≤ 2 ^ d ∧ k * k ≤ 9 * (m * unitsOfOne) ∧
      ∀ b c, 52 ≤ b → b + b = c + 1074 → 2 ^ c ≤ m → 2 ^ b ≤ k := by
  rw [sqrt_eq hx hm]
  have hsquare : m * unitsOfOne ≤ 2 ^ d * 2 ^ d := by
    rw [← pow_mul_unitsOfOne_eq hexponent]
    exact Nat.mul_le_mul_right _ hhigh
  have hbelow : ∀ b c, b + b = c + 1074 → 2 ^ c ≤ m → 2 ^ b ≤ (m * unitsOfOne).sqrt := by
    intro b c h hc
    rw [Nat.le_sqrt, ← pow_mul_unitsOfOne_eq h]
    exact Nat.mul_le_mul_right _ hc
  have hpos : 0 < m * unitsOfOne := Nat.mul_pos hm unitsOfOne_pos
  generalize m * unitsOfOne = square at hsquare hpos hbelow ⊢
  have hroot : square.sqrt * square.sqrt ≤ square := square.sqrt_le
  have hrootpos : 0 < square.sqrt := Nat.sqrt_pos.mpr hpos
  have hle : square.sqrt ≤ 2 ^ d := by
    rw [← Nat.sqrt_eq (2 ^ d)]
    exact Nat.sqrt_le_sqrt hsquare
  generalize square.sqrt = root at hroot hrootpos hbelow hle ⊢
  dsimp only
  -- Rounding at most doubles, and what is rounded is at most half above the root.
  have htriple : ∀ {k}, k ≤ 3 * root → k * k ≤ 9 * square := by
    intro k hk
    calc k * k ≤ (3 * root) * (3 * root) := Nat.mul_le_mul hk hk
      _ = 9 * (root * root) := by ring
      _ ≤ 9 * square := Nat.mul_le_mul_left 9 hroot
  have hsmaller : ∀ {b}, 2 ^ b ≤ root → b < 2098 := by
    intro b hb
    have := (Nat.pow_le_pow_iff_right (Nat.lt_succ_self 1)).mp (hb.trans hle)
    omega
  split
  · obtain ⟨k, hdatum, hk⟩ := datum_round_of_le (s := false) Nat.one_pos (by omega) hsmall
      (hle.trans_eq (Nat.mul_one _).symm)
    have hdouble := hk.le_double
    refine ⟨k, hdatum, hk.le_power, htriple (by omega), fun b c hlow h hc => ?_⟩
    have hb := hbelow b c h hc
    exact hk.power_le hlow (hsmaller hb) (by omega)
  · next hinexact =>
      have hless : root < 2 ^ d := by
        refine Nat.lt_of_le_of_ne hle ?_
        rintro rfl
        exact hinexact (Nat.le_antisymm hroot hsquare)
      have hhalf : 2 * root + 1 ≤ 2 ^ d * 2 := by omega
      obtain ⟨k, hdatum, hk⟩ := datum_round_of_le (s := false) Nat.two_pos (by omega) hsmall hhalf
      have hdouble := hk.le_double
      refine ⟨k, hdatum, hk.le_power, htriple (by omega), fun b c hlow h hc => ?_⟩
      have hb := hbelow b c h hc
      exact hk.power_le hlow (hsmaller hb) (by omega)

/-! ## Zeros -/

theorem round_zero {den : Nat} (hden : 0 < den) : (round s 0 den).datum = .finite s 0 := by
  rw [round, Format.nearest_zero (by decide) hden, datum_ofField (by decide)]
  rfl

theorem add_zeros (hx : x.datum = .finite false 0) (hy : y.datum = .finite t 0) :
    (x + y).datum = .finite false 0 := by
  change (x.add y).datum = _
  simp only [Double.add, hx, hy, addUnits, if_true]
  cases t with
  | false => exact round_zero Nat.one_pos
  | true => exact datum_zero

theorem foldl_zeros {terms : List Double} (hterms : ∀ t ∈ terms, ∃ s, t.datum = .finite s 0)
    (hx : x.datum = .finite false 0) : (terms.foldl (· + ·) x).datum = .finite false 0 := by
  induction terms generalizing x with
  | nil => exact hx
  | cons t terms ih =>
      obtain ⟨⟨s, ht⟩, hrest⟩ := List.forall_mem_cons.mp hterms
      exact ih hrest (add_zeros hx ht)

theorem sqrt_zero (hx : x.datum = .finite s 0) : x.sqrt = x := by
  unfold Double.sqrt
  generalize Nat.pow 2 Format.double.unitScale = scale
  simp only [hx, if_true]

theorem isZero_iff (hx : x.datum = .finite s m) : x.isZero = true ↔ m = 0 := by
  rw [isZero, decide_eq_true_iff, datum_eq_finite hx]
  constructor
  · intro h
    rw [h]
    rfl
  · intro h
    refine Nat.eq_zero_of_not_pos fun hpos => ?_
    exact Nat.ne_of_gt (Format.units_pos hpos) h

theorem Between.not_isZero (hx : x.Between d e) : x.isZero = false := by
  obtain ⟨m, hx, hm, -⟩ := hx
  rw [Bool.eq_false_iff, ne_eq, isZero_iff hx]
  exact Nat.ne_of_gt ((Nat.two_pow_pos d).trans_le hm)

/-! ## Negated sums -/

theorem datum_neg (hx : x.datum = .finite s m) : x.neg.datum = .finite (!s) m := by
  have hfinite := field_lt_infinity hx
  rw [datum, Format.datum, if_pos hfinite] at hx
  rw [neg, datum_ofField x.field_lt, Format.datum, if_pos hfinite]
  cases hx
  rfl

theorem neg_round (s : Bool) (num den : Nat) : (round s num den).neg = round (!s) num den := by
  rw [neg, round, round, isNegative_ofField (nearest_lt ..), field_ofField (nearest_lt ..)]

/-- A negated term added to a negated sum. The empty sum stays positive. -/
theorem add_neg {z : Double} {k : Nat} (hx : x.datum = .finite false m)
    (hy : y.datum = .finite s m) (hs : s = true ∨ m = 0) (hz : z.datum = .finite false n)
    (hsum : (x + z).datum = .finite false k) :
    ∃ t, (y + z.neg).datum = .finite t k ∧ (t = true ∨ k = 0) := by
  have hround : (round false (m + n) 1).datum = .finite false k := by
    change (x.add z).datum = _ at hsum
    simpa only [Double.add, hx, hz, addUnits, if_true] using hsum
  have hnegative : (round true (m + n) 1).datum = .finite true k := by
    have hneg := datum_neg hround
    rwa [neg_round] at hneg
  change ∃ t, (y.add z.neg).datum = .finite t k ∧ _
  simp only [Double.add, hy, datum_neg hz, addUnits]
  cases s with
  | true => exact ⟨true, hnegative, .inl rfl⟩
  | false =>
      obtain rfl : m = 0 := hs.resolve_left (by decide)
      rw [Nat.zero_add] at hround hnegative
      rw [if_neg (by decide), if_neg (Nat.not_lt_zero n), Nat.sub_zero]
      split
      · next hzero =>
          rw [← hzero, round_zero Nat.one_pos] at hround
          cases hround
          exact ⟨false, datum_zero, .inr rfl⟩
      · exact ⟨true, hnegative, .inl rfl⟩

/-- The sum of negated terms, term by term beside the sum of the terms. -/
theorem foldl_neg {terms : List Double}
    (hterms : ∀ t ∈ terms, ∃ n, t.datum = .finite false n ∧ n ≤ 2 ^ d) (hstep : d + 54 ≤ e)
    (hhigh : e < 2098) (hx : x.datum = .finite false m) (hm : m ≤ 2 ^ e)
    (hy : y.datum = .finite s m) (hs : s = true ∨ m = 0) :
    ∃ t k, ((terms.map neg).foldl (· + ·) y).datum = .finite t k ∧
      (terms.foldl (· + ·) x).datum = .finite false k ∧ (t = true ∨ k = 0) := by
  induction terms generalizing x y s m with
  | nil => exact ⟨s, m, hy, hx, hs⟩
  | cons z terms ih =>
      obtain ⟨⟨n, hz, hn⟩, hrest⟩ := List.forall_mem_cons.mp hterms
      obtain ⟨k, hsum, hk, -⟩ := datum_add hx hz hm hn hstep hhigh
      obtain ⟨t, hneg, ht⟩ := add_neg hx hy hs hz hsum
      exact ih hrest hsum hk hneg ht

end Double

/-! ## Widening -/

namespace Single

theorem datum_of_isFinite {x : Single} (h : x.isFinite) :
    x.datum = .finite x.isNegative (Format.single.units x.field) := by
  rw [datum, Format.datum, if_pos (of_decide_eq_true h)]

theorem pow_mul_smallestSingle (e : Nat) : 2 ^ e * Double.smallestSingle = 2 ^ (e + 925) := by
  have hscale : Format.double.unitScale - Format.single.unitScale = 925 := by decide
  unfold Double.smallestSingle
  generalize Format.double.unitScale - Format.single.unitScale = scale at hscale ⊢
  rw [← hscale]
  exact (Nat.pow_add 2 e scale).symm

theorem units_le {field : Nat} (h : field < Format.single.infinity) :
    Format.single.units field ≤ 2 ^ (23 + 254) := by
  have hinfinity : Format.single.units Format.single.infinity = 2 ^ (23 + 254) := by
    rw [show Format.single.infinity = 254 * Format.single.binade + Format.single.binade by decide,
      Format.units_of_mem (Nat.le_refl _) (by decide), Nat.pow_add]
    rfl
  rw [← hinfinity]
  exact Format.units_strictMono.monotone h.le

theorem toDouble_of_isFinite {x : Single} (h : x.isFinite) : x.toDouble =
    Double.round x.isNegative (Format.single.units x.field * Double.smallestSingle) 1 := by
  unfold toDouble Double.smallestSingle
  generalize Nat.pow 2 (Format.double.unitScale - Format.single.unitScale) = scale
  simp only [datum_of_isFinite h]

/-- A finite number of 32 bits, widened: zero, or of a magnitude between the
smallest and the largest. -/
theorem datum_toDouble {x : Single} (h : x.isFinite) :
    ∃ m, x.toDouble.datum = .finite x.isNegative m ∧ m ≤ 2 ^ 1202 ∧
      (x.field = 0 → m = 0) ∧ (x.field ≠ 0 → 2 ^ 925 ≤ m) := by
  have hunits : Format.single.units x.field * Double.smallestSingle ≤ 2 ^ 1202 := by
    rw [← pow_mul_smallestSingle (23 + 254)]
    exact Nat.mul_le_mul_right _ (units_le (of_decide_eq_true h))
  have hunitsOne := hunits.trans_eq (Nat.mul_one _).symm
  obtain ⟨m, hdatum, hm⟩ := Double.datum_round_of_le (s := x.isNegative) Nat.one_pos
    (by decide) (by decide) hunitsOne
  rw [toDouble_of_isFinite h]
  refine ⟨m, hdatum, hm.le_power, fun hzero => ?_, fun hne => ?_⟩
  · have hdouble := hm.le_double
    rw [hzero, Format.units_of_le (Nat.zero_le _)] at hdouble
    omega
  · refine hm.power_le (by decide) (by decide) ?_
    rw [Nat.mul_one, ← pow_mul_smallestSingle 0]
    exact Nat.mul_le_mul_right _ (Format.units_pos (Nat.pos_of_ne_zero hne))

end Single

end GlyphSearch
