import GlyphSearch.Proofs.Magnitudes
import GlyphSearch.Proofs.Ties

/-!
# Zero vectors under the cosine metric

A vector of zeros has no direction, and its distance from any vector is one.
That is the distance of vectors at a right angle. Vectors that enclose a
greater angle are farther from each other, up to the distance two of opposite
ones, and so a zero vector is ranked before them.

The distance is one minus the rounded cosine, rounded twice more. What is
rounded is more than one exactly if the cosine is below zero by more than half
of the step above one, of the narrow format and of the wide one together
(`Double.IsObtuse`).
-/

namespace GlyphSearch

open Binary

/-! ## One minus a cosine -/

namespace Single

def one : Single := ⟨0x3f800000⟩

theorem one_precedes_ofField_iff {s : Bool} {field : Nat} (hfield : field < 2 ^ 31) :
    one.Precedes (ofField s field) ↔ s = false ∧ one.field < field := by
  rw [Precedes, isNegative_ofField hfield, field_ofField hfield,
    show one.isNegative = false by decide]
  cases s <;> simp

end Single

namespace Double

variable {q : Double} {s : Bool} {m d e : Nat}

/-- Whether a number is so far below zero that one minus it is rounded to more
than one: by more than `2 ^ -24 + 2 ^ -53`. -/
def IsObtuse (q : Double) : Prop :=
  ∃ m, q.datum = .finite true m ∧ (2 ^ 29 + 1) * unitsOfOne < 2 ^ 53 * m

theorem isObtuse_iff (hq : q.datum = .finite s m) :
    q.IsObtuse ↔ s = true ∧ (2 ^ 29 + 1) * unitsOfOne < 2 ^ 53 * m := by
  rw [IsObtuse, hq]
  constructor
  · rintro ⟨m, heq, hlt⟩
    cases heq
    exact ⟨rfl, hlt⟩
  · rintro ⟨rfl, hlt⟩
    exact ⟨m, rfl, hlt⟩

theorem isObtuse_of_le (hq : q.datum = .finite true m) (hm : unitsOfOne ≤ 2 ^ 5 * m) :
    q.IsObtuse := by
  have hpos := unitsOfOne_pos
  exact ⟨m, hq, by omega⟩

theorem datum_one : one.datum = .finite false unitsOfOne := by
  have hone : one.datum = .finite false (Format.double.units one.field) := by rfl
  rw [hone, show Format.double.units one.field = unitsOfOne by decide +kernel]

/-- The field that is half of a step of the narrow format above one. -/
def halfAboveOne : Nat := one.field + 2 ^ 28

theorem units_halfAboveOne : 2 ^ 53 *
    (Format.double.units halfAboveOne + Format.double.units (halfAboveOne + 1)) =
      2 ^ 54 * unitsOfOne + 2 * ((2 ^ 29 + 1) * unitsOfOne) := by
  decide +kernel

theorem toSingle_one : one.toSingle = Single.one := by decide +kernel

theorem units_around_one : (Format.single.units Single.one.field +
    Format.single.units (Single.one.field + 1)) * smallestSingle =
      2 * Format.double.units halfAboveOne := by
  decide +kernel

/-- What is narrowed to more than one. -/
theorem one_lt_nearest_iff :
    Single.one.field < Format.single.nearest m smallestSingle ↔
      Format.double.units halfAboveOne < m := by
  rw [← Nat.not_le, Format.nearest_le_iff (by decide) smallestSingle_pos (by decide +kernel)
    (by decide +kernel), units_around_one]
  omega

theorem toSingle_precedes_iff (hq : q.datum = .finite s m) :
    Single.one.Precedes q.toSingle ↔ s = false ∧ Format.double.units halfAboveOne < m := by
  rw [toSingle_of_finite hq, Single.one_precedes_ofField_iff (Single.nearest_lt ..),
    one_lt_nearest_iff]

theorem sub_eq_add_neg (hq : q.datum = .finite s m) (x : Double) : x - q = x + q.neg := by
  change x.sub q = x.add q.neg
  rw [sub, hq]

/-- What is rounded and narrowed to more than one. -/
theorem round_toSingle_precedes_iff (hlow : 52 ≤ e) (hhigh : e < 2098) (hm : m ≤ 2 ^ e) :
    Single.one.Precedes (round s m 1).toSingle ↔ s = false ∧
      Format.double.units halfAboveOne + Format.double.units (halfAboveOne + 1) < 2 * m := by
  obtain ⟨k, hdatum, -⟩ := datum_round_of_le (s := s) Nat.one_pos hlow hhigh
    (hm.trans_eq (Nat.mul_one _).symm)
  have hk := datum_eq_finite hdatum
  rw [round, field_ofField (nearest_lt ..)] at hk
  rw [toSingle_precedes_iff hdatum, hk, Format.units_strictMono.lt_iff_lt, ← Nat.not_le,
    Format.nearest_le_iff (by decide) Nat.one_pos (by decide) (by decide), Nat.mul_one,
    Nat.not_le]

/-- Twice what is above one, against the numbers around the half step. -/
theorem half_steps_lt_iff : Format.double.units halfAboveOne +
    Format.double.units (halfAboveOne + 1) < 2 * (unitsOfOne + m) ↔
      (2 ^ 29 + 1) * unitsOfOne < 2 ^ 53 * m := by
  have hunits := units_halfAboveOne
  constructor
  · intro h
    linarith
  · intro h
    linarith

theorem not_half_steps_lt (hm : m ≤ unitsOfOne) : ¬ Format.double.units halfAboveOne +
    Format.double.units (halfAboveOne + 1) < 2 * m := by
  intro hlt
  have hone := (half_steps_lt_iff (m := 0)).mp (by omega)
  exact Nat.not_lt_zero _ hone

theorem unitsOfOne_le (he : 1074 ≤ e) : unitsOfOne ≤ 2 ^ e := by
  obtain ⟨k, rfl⟩ := Nat.exists_eq_add_of_le' he
  rw [← pow_mul_unitsOfOne]
  exact Nat.le_mul_of_pos_left _ (Nat.two_pow_pos k)

/-- One minus a number is narrowed to more than one exactly if the number is far
enough below zero. -/
theorem one_precedes_one_sub_iff (hlow : 1074 ≤ e) (hhigh : e < 2097) (hq : q.Within e) :
    Single.one.Precedes (one - q).toSingle ↔ q.IsObtuse := by
  obtain ⟨s, m, hq, hm⟩ := hq
  have hpower : 2 ^ (e + 1) = 2 ^ e * 2 := Nat.pow_succ ..
  have hone : unitsOfOne ≤ 2 ^ e := unitsOfOne_le hlow
  have hround : ∀ {u k}, k ≤ 2 ^ (e + 1) → (Single.one.Precedes (round u k 1).toSingle ↔ _) :=
    fun hk => round_toSingle_precedes_iff (by omega) (by omega) hk
  rw [isObtuse_iff hq, sub_eq_add_neg hq]
  change Single.one.Precedes (one.add q.neg).toSingle ↔ _
  simp only [add, datum_one, datum_neg hq, addUnits]
  cases s with
  | true =>
      rw [Bool.not_true, if_pos rfl, hround (by omega), half_steps_lt_iff]
      simp only [true_and]
  | false =>
      rw [Bool.not_false, if_neg (by decide)]
      simp only [Bool.false_eq_true, false_and, iff_false]
      split
      · rw [toSingle_precedes_iff datum_zero]
        exact fun h => Nat.not_lt_zero _ h.2
      split
      · rw [hround (by omega)]
        exact fun h => not_half_steps_lt (Nat.sub_le ..) h.2
      · rw [hround (by omega)]
        exact fun h => absurd h.1 (by decide)

/-- What is divided by zero is no number. -/
theorem not_isObtuse_div_zero {x y : Double} (hx : x.Within e) (hy : y.datum = .finite s 0) :
    ¬ (x / y).IsObtuse := by
  obtain ⟨t, m, hx, -⟩ := hx
  rintro ⟨k, hk, -⟩
  change (x.div y).datum = _ at hk
  unfold Double.div at hk
  generalize Nat.pow 2 Format.double.unitScale = scale at hk
  simp only [hx, hy, if_true] at hk
  split at hk
  · cases hk
  · rw [datum_infinite] at hk
    cases hk

theorem toSingle_isNaN_of_within (hq : q.Within e) : q.toSingle.isNaN = false := by
  obtain ⟨s, m, hq, -⟩ := hq
  have hle : Format.single.nearest m smallestSingle ≤ Format.single.infinity := Nat.min_le_right ..
  rw [toSingle_of_finite hq, Single.isNaN, Single.field_ofField (Single.nearest_lt ..)]
  exact decide_eq_false (Nat.not_lt.mpr hle)

theorem one_sub_isNaN (hq : q.Within d) (hlow : 1020 ≤ d) (hhigh : d < 2044) :
    (one - q).toSingle.isNaN = false := by
  obtain ⟨s, m, hq, hm⟩ := hq
  have hone : one.Within (d + 54) := ⟨false, unitsOfOne, datum_one, unitsOfOne_le (by omega)⟩
  have hneg : q.neg.Within d := ⟨!s, m, datum_neg hq, hm⟩
  rw [sub_eq_add_neg hq]
  exact toSingle_isNaN_of_within (hone.add hneg (Nat.le_refl _) (by omega))

end Double

namespace Index

variable {a b z : List Single}

/-! ## Cosines -/

/-- A vector of zeros of either sign. -/
def IsZeroVector (v : List Single) : Prop := ∀ x ∈ v, x.field = 0

instance (v : List Single) : Decidable (IsZeroVector v) :=
  inferInstanceAs (Decidable (∀ x ∈ v, x.field = 0))

/-- The inner product as it is rounded. -/
def innerProduct (a b : List Single) : Double :=
  ((pairs a b).map fun p => p.1 * p.2).foldl (· + ·) .zero

def norm (a : List Single) : Double := (innerProduct a a).sqrt

/-- The cosine of the angle between two vectors as it is rounded. -/
def cosine (a b : List Single) : Double := innerProduct a b / (norm a * norm b)

theorem pairs_eq (a b : List Single) :
    pairs a b = (a.zip b).map fun p => (p.1.toDouble, p.2.toDouble) := by
  rw [pairs, List.map_zip_eq_zipWith]
  rfl

theorem mem_pairs {p : Double × Double} (h : p ∈ pairs a b) :
    ∃ x ∈ a, ∃ y ∈ b, p = (x.toDouble, y.toDouble) := by
  rw [pairs_eq] at h
  obtain ⟨⟨x, y⟩, hmem, rfl⟩ := List.mem_map.mp h
  obtain ⟨hx, hy⟩ := List.of_mem_zip hmem
  exact ⟨x, hx, y, hy, rfl⟩

theorem pairs_self (a : List Single) : pairs a a = a.map fun x => (x.toDouble, x.toDouble) := by
  rw [pairs, List.zipWith_self]

/-- The squares of one vector are taken from its pairs with any other of the
same length. -/
theorem map_fst_pairs (h : a.length = b.length) :
    (pairs a b).map (fun p => p.1 * p.1) = (pairs a a).map fun p => p.1 * p.2 := by
  have hfst : (a.zip b).map Prod.fst = a := List.map_fst_zip h.le
  rw [pairs_eq, pairs_self, List.map_map, List.map_map]
  conv_rhs => rw [← hfst, List.map_map]
  rfl

theorem map_snd_pairs (h : a.length = b.length) :
    (pairs a b).map (fun p => p.2 * p.2) = (pairs b b).map fun p => p.1 * p.2 := by
  have hsnd : (a.zip b).map Prod.snd = b := List.map_snd_zip h.ge
  rw [pairs_eq, pairs_self, List.map_map, List.map_map]
  conv_rhs => rw [← hsnd, List.map_map]
  rfl

theorem cosineDistance_eq (h : a.length = b.length) : cosineDistance a b =
    if (norm a * norm b).isZero then Single.one
    else (Double.one - cosine a b).toSingle := by
  rw [← Double.toSingle_one, cosine, norm, norm, innerProduct, innerProduct, innerProduct, ← map_fst_pairs h,
    ← map_snd_pairs h]
  rfl

theorem innerProduct_within (ha : ∀ x ∈ a, x.isFinite) (hb : ∀ x ∈ b, x.isFinite) :
    (innerProduct a b).Within 1384 := by
  have hterms : ∀ t ∈ (pairs a b).map fun p => p.1 * p.2, t.Within 1330 := by
    refine List.forall_mem_map.mpr fun p hp => ?_
    obtain ⟨x, hx, y, hy, rfl⟩ := mem_pairs hp
    obtain ⟨m, hm, hle, -⟩ := Single.datum_toDouble (ha x hx)
    obtain ⟨n, hn, hle', -⟩ := Single.datum_toDouble (hb y hy)
    have hxwithin : x.toDouble.Within 1202 := ⟨_, m, hm, hle⟩
    exact hxwithin.mul ⟨_, n, hn, hle'⟩ (by decide) (by decide) (by decide)
  exact Double.Within.foldl hterms (by decide) (by decide) Double.within_zero

/-- The square of a number has no sign, and is zero only with the number. -/
theorem datum_square {x : Single} (h : x.isFinite) :
    ∃ m, (x.toDouble * x.toDouble).datum = .finite false m ∧ m ≤ 2 ^ 1330 ∧
      (x.field = 0 → m = 0) ∧ (x.field ≠ 0 → 2 ^ 776 ≤ m) := by
  obtain ⟨m, hm, hle, hzero, hne⟩ := Single.datum_toDouble h
  obtain ⟨k, hdatum, hk⟩ := Double.datum_mul (c := 1330) hm hm hle hle (by decide) (by decide)
    (by decide)
  rw [bne_self_eq_false] at hdatum
  refine ⟨k, hdatum, hk.le_power, fun h => ?_, fun h => ?_⟩
  · have hdouble := hk.le_double
    rw [hzero h, Nat.zero_mul, Nat.mul_zero, Nat.le_zero, Nat.mul_eq_zero] at hdouble
    exact hdouble.resolve_right (Nat.ne_of_gt Double.unitsOfOne_pos)
  · refine hk.power_le (by decide) (by decide) ?_
    rw [Double.pow_mul_unitsOfOne_eq (d := 925) (e := 925) (by decide)]
    exact Nat.mul_le_mul (hne h) (hne h)

theorem innerProduct_self_eq (a : List Single) : innerProduct a a =
    (a.map fun x => x.toDouble * x.toDouble).foldl (· + ·) .zero := by
  rw [innerProduct, pairs_self, List.map_map]
  rfl

theorem squares_within (ha : ∀ x ∈ a, x.isFinite) : ∀ t ∈ a.map fun x => x.toDouble * x.toDouble,
    ∃ n, t.datum = .finite false n ∧ n ≤ 2 ^ 1330 := by
  refine List.forall_mem_map.mpr fun x hx => ?_
  obtain ⟨m, hm, hle, -⟩ := datum_square (ha x hx)
  exact ⟨m, hm, hle⟩

theorem innerProduct_self (ha : ∀ x ∈ a, x.isFinite) :
    ∃ m, (innerProduct a a).datum = .finite false m ∧ m ≤ 2 ^ 1384 ∧
      (IsZeroVector a → m = 0) ∧ (¬ IsZeroVector a → 2 ^ 776 ≤ m) := by
  obtain ⟨m, hdatum, hm, -, hall⟩ := Double.datum_foldl (squares_within ha) (e := 1384)
    (by decide) (by decide) Double.datum_zero (Nat.zero_le _)
  rw [innerProduct_self_eq]
  refine ⟨m, hdatum, hm, fun hzero => ?_, fun hne => ?_⟩
  · have hterms : ∀ t ∈ a.map fun x => x.toDouble * x.toDouble, ∃ s, t.datum = .finite s 0 := by
      refine List.forall_mem_map.mpr fun x hx => ?_
      obtain ⟨n, hn, -, hn0, -⟩ := datum_square (ha x hx)
      rw [hn0 (hzero x hx)] at hn
      exact ⟨false, hn⟩
    have hzeros := Double.foldl_zeros hterms Double.datum_zero
    rw [hdatum] at hzeros
    cases hzeros
    rfl
  · simp only [IsZeroVector, not_forall] at hne
    obtain ⟨x, hx, hfield⟩ := hne
    obtain ⟨n, hn, -, -, hlarge⟩ := datum_square (ha x hx)
    exact (hlarge hfield).trans (hall _ (List.mem_map_of_mem hx) n hn)

theorem norm_of_zero (ha : ∀ x ∈ a, x.isFinite) (hzero : IsZeroVector a) :
    (norm a).datum = .finite false 0 := by
  obtain ⟨m, hdatum, -, hm, -⟩ := innerProduct_self ha
  rw [hm hzero] at hdatum
  rwa [norm, Double.sqrt_zero hdatum]

theorem norm_spec (ha : ∀ x ∈ a, x.isFinite) (hne : ¬ IsZeroVector a) :
    ∃ m k, (innerProduct a a).datum = .finite false m ∧ (norm a).datum = .finite false k ∧
      0 < m ∧ 2 ^ 925 ≤ k ∧ k ≤ 2 ^ 1229 ∧ k * k ≤ 9 * (m * Double.unitsOfOne) := by
  obtain ⟨m, hdatum, hle, -, hm⟩ := innerProduct_self ha
  have hpos : 0 < m := (pow_pos Nat.two_pos 776).trans_le (hm hne)
  obtain ⟨k, hk, hhigh, hsquare, hlow⟩ := Double.datum_sqrt hdatum hpos hle (d := 1229)
    (by decide) (by decide)
  exact ⟨m, k, hdatum, hk, hpos, hlow 925 776 (by decide) (by decide) (hm hne), hhigh, hsquare⟩

theorem norm_between (ha : ∀ x ∈ a, x.isFinite) (hne : ¬ IsZeroVector a) :
    (norm a).Between 925 1229 := by
  obtain ⟨-, k, -, hk, -, hlow, hhigh, -⟩ := norm_spec ha hne
  exact ⟨k, hk, hlow, hhigh⟩

section

variable (ha : ∀ x ∈ a, x.isFinite) (hb : ∀ x ∈ b, x.isFinite)

include ha hb

theorem norms_of_zero (h : IsZeroVector a ∨ IsZeroVector b) :
    (norm a * norm b).datum = .finite false 0 := by
  have hnorm : ∀ {v : List Single}, (∀ x ∈ v, x.isFinite) → ∃ m, (norm v).datum = .finite false m ∧
      (IsZeroVector v → m = 0) := by
    intro v hv
    by_cases hzero : IsZeroVector v
    · exact ⟨0, norm_of_zero hv hzero, fun _ => rfl⟩
    · obtain ⟨m, hm, -⟩ := norm_between hv hzero
      exact ⟨m, hm, fun h => absurd h hzero⟩
  obtain ⟨m, hm, ham⟩ := hnorm ha
  obtain ⟨n, hn, hbn⟩ := hnorm hb
  have hproduct : m * n = 0 := Nat.mul_eq_zero.mpr (h.imp ham hbn)
  rw [Double.mul_eq hm hn, hproduct]
  exact Double.round_zero Double.unitsOfOne_pos

theorem norms_between (hane : ¬ IsZeroVector a) (hbne : ¬ IsZeroVector b) :
    (norm a * norm b).Between 776 1384 :=
  (norm_between ha hane).mul (norm_between hb hbne) (by decide) (by decide) (by decide)
    (by decide) (by decide)

theorem cosine_within (hane : ¬ IsZeroVector a) (hbne : ¬ IsZeroVector b) :
    (cosine a b).Within 1682 :=
  (innerProduct_within ha hb).div (norms_between ha hb hane hbne) (by decide) (by decide)
    (by decide)

variable (hlength : a.length = b.length)

include hlength

theorem cosineDistance_of_zero (h : IsZeroVector a ∨ IsZeroVector b) :
    cosineDistance a b = Single.one := by
  rw [cosineDistance_eq hlength, if_pos ((Double.isZero_iff (norms_of_zero ha hb h)).mpr rfl)]

theorem cosineDistance_of_nonzero (hane : ¬ IsZeroVector a) (hbne : ¬ IsZeroVector b) :
    cosineDistance a b = (Double.one - cosine a b).toSingle := by
  rw [cosineDistance_eq hlength, (norms_between ha hb hane hbne).not_isZero]
  rfl

theorem cosineDistance_isNaN : (cosineDistance a b).isNaN = false := by
  by_cases hzero : IsZeroVector a ∨ IsZeroVector b
  · rw [cosineDistance_of_zero ha hb hlength hzero]
    decide +kernel
  · obtain ⟨hane, hbne⟩ := not_or.mp hzero
    rw [cosineDistance_of_nonzero ha hb hlength hane hbne]
    exact Double.one_sub_isNaN (cosine_within ha hb hane hbne) (by decide) (by decide)

/-- Farther than a zero vector are the vectors at an obtuse angle. -/
theorem one_precedes_cosineDistance_iff :
    Single.one.Precedes (cosineDistance a b) ↔ (cosine a b).IsObtuse := by
  by_cases hzero : IsZeroVector a ∨ IsZeroVector b
  · have hm := norms_of_zero ha hb hzero
    rw [cosineDistance_of_zero ha hb hlength hzero]
    refine iff_of_false (Single.not_precedes_self _) ?_
    exact Double.not_isObtuse_div_zero (innerProduct_within ha hb) hm
  · obtain ⟨hane, hbne⟩ := not_or.mp hzero
    rw [cosineDistance_of_nonzero ha hb hlength hane hbne]
    exact Double.one_precedes_one_sub_iff (by decide) (by decide) (cosine_within ha hb hane hbne)

end

/-! ## Opposite vectors -/

/-- The vector of the other direction. -/
def opposite (v : List Single) : List Single := v.map Single.neg

theorem field_neg (x : Single) : x.neg.field = x.field :=
  Single.field_ofField (Nat.mod_lt _ (by decide))

theorem isFinite_neg {x : Single} (h : x.isFinite) : x.neg.isFinite := by
  rwa [Single.isFinite, field_neg]

theorem toDouble_neg {x : Single} (h : x.isFinite) : x.neg.toDouble = x.toDouble.neg := by
  have hnegative : x.neg.isNegative = !x.isNegative :=
    Single.isNegative_ofField (Nat.mod_lt _ (by decide))
  rw [Single.toDouble_of_isFinite h, Single.toDouble_of_isFinite (isFinite_neg h), Double.neg_round,
    field_neg, hnegative]

/-- The product of a number and its opposite, and of its opposite with itself. -/
theorem toDouble_neg_mul {x : Single} (h : x.isFinite) :
    x.neg.toDouble * x.toDouble = (x.toDouble * x.toDouble).neg ∧
      x.neg.toDouble * x.neg.toDouble = x.toDouble * x.toDouble := by
  obtain ⟨m, hm, -⟩ := Single.datum_toDouble h
  have hneg := Double.datum_neg hm
  rw [toDouble_neg h, Double.mul_eq hneg hm, Double.mul_eq hneg hneg, Double.mul_eq hm hm,
    Double.neg_round]
  cases x.isNegative <;> exact ⟨rfl, rfl⟩

theorem opposite_isFinite (hb : ∀ x ∈ b, x.isFinite) : ∀ x ∈ opposite b, x.isFinite :=
  List.forall_mem_map.mpr fun x hx => isFinite_neg (hb x hx)

theorem innerProduct_opposite_opposite (hb : ∀ x ∈ b, x.isFinite) :
    innerProduct (opposite b) (opposite b) = innerProduct b b := by
  rw [innerProduct_self_eq, innerProduct_self_eq, opposite, List.map_map]
  congr 1
  exact List.map_congr_left fun x hx => (toDouble_neg_mul (hb x hx)).2

theorem innerProduct_opposite_eq (hb : ∀ x ∈ b, x.isFinite) : innerProduct (opposite b) b =
    ((b.map fun x => x.toDouble * x.toDouble).map Double.neg).foldl (· + ·) .zero := by
  rw [innerProduct, pairs, opposite, List.zipWith_map_left, List.zipWith_self, List.map_map,
    List.map_map]
  congr 1
  exact List.map_congr_left fun x hx => (toDouble_neg_mul (hb x hx)).1

theorem innerProduct_opposite (hb : ∀ x ∈ b, x.isFinite) :
    ∃ s m, (innerProduct (opposite b) b).datum = .finite s m ∧
      (innerProduct b b).datum = .finite false m ∧ (s = true ∨ m = 0) := by
  rw [innerProduct_opposite_eq hb, innerProduct_self_eq]
  exact Double.foldl_neg (squares_within hb) (e := 1384) (by decide) (by decide) Double.datum_zero
    (Nat.zero_le _) Double.datum_zero (.inr rfl)

/-- The cosine of a vector and its opposite is about minus one. -/
theorem cosine_opposite_isObtuse (hb : ∀ x ∈ b, x.isFinite) (hne : ¬ IsZeroVector b) :
    (cosine (opposite b) b).IsObtuse := by
  obtain ⟨m, k, hself, hk, hm, hlow, hhigh, hsquare⟩ := norm_spec hb hne
  obtain ⟨s, m', hproduct, hself', hs⟩ := innerProduct_opposite hb
  obtain ⟨s', m'', hproduct', hle⟩ := innerProduct_within (opposite_isFinite hb) hb
  rw [hself] at hself'
  cases hself'
  rw [hproduct] at hproduct'
  cases hproduct'
  obtain rfl : s = true := hs.resolve_right (Nat.ne_of_gt hm)
  have hnorm : norm (opposite b) = norm b := by rw [norm, innerProduct_opposite_opposite hb, norm]
  obtain ⟨l, hl, hround⟩ := Double.datum_mul (c := 1384) hk hk hhigh hhigh (by decide) (by decide)
    (by decide)
  obtain ⟨_, q, hl', hcosine, hq⟩ := Double.datum_div (c := 1682) hproduct hle
    (norms_between hb hb hne hne) (by decide) (by decide) (by decide)
  rw [hl] at hl'
  cases hl'
  rw [cosine, hnorm]
  -- Squared and rounded twice, the norm is at most eighteen times the inner product.
  have heighteen : l ≤ 18 * m := by
    refine Nat.le_of_mul_le_mul_right ?_ Double.unitsOfOne_pos
    calc l * Double.unitsOfOne ≤ 2 * (k * k) := hround.le_double
      _ ≤ 2 * (9 * (m * Double.unitsOfOne)) := Nat.mul_le_mul_left 2 hsquare
      _ = 18 * m * Double.unitsOfOne := by ring
  refine Double.isObtuse_of_le hcosine ?_
  rw [Double.unitsOfOne_eq (d := 5) (e := 1069) (by decide)]
  refine Nat.mul_le_mul_left _ (hq.power_le (by decide) (by decide) ?_)
  rw [Double.unitsOfOne_eq (d := 5) (e := 1069) (by decide)]
  generalize 2 ^ 1069 = power
  calc power * l ≤ power * (2 ^ 5 * m) := Nat.mul_le_mul_left _ (by omega)
    _ = m * (2 ^ 5 * power) := by ring

/-! ## Vectors in one direction -/

/-- Where no two components have different signs, the angle is not obtuse. -/
theorem cosine_not_isObtuse (ha : ∀ x ∈ a, x.isFinite) (hb : ∀ x ∈ b, x.isFinite)
    (hsigns : ∀ p ∈ a.zip b, p.1.isNegative = p.2.isNegative) : ¬ (cosine a b).IsObtuse := by
  by_cases hzero : IsZeroVector a ∨ IsZeroVector b
  · exact Double.not_isObtuse_div_zero (innerProduct_within ha hb) (norms_of_zero ha hb hzero)
  · obtain ⟨hane, hbne⟩ := not_or.mp hzero
    have hterms : ∀ t ∈ (pairs a b).map fun p => p.1 * p.2,
        ∃ n, t.datum = .finite false n ∧ n ≤ 2 ^ 1330 := by
      rw [pairs_eq, List.map_map]
      refine List.forall_mem_map.mpr fun p hp => ?_
      obtain ⟨hx, hy⟩ := List.of_mem_zip hp
      obtain ⟨m, hm, hle, -⟩ := Single.datum_toDouble (ha p.1 hx)
      obtain ⟨n, hn, hle', -⟩ := Single.datum_toDouble (hb p.2 hy)
      obtain ⟨k, hdatum, hk⟩ := Double.datum_mul (c := 1330) hm hn hle hle' (by decide) (by decide)
        (by decide)
      rw [hsigns p hp, bne_self_eq_false] at hdatum
      exact ⟨k, hdatum, hk.le_power⟩
    obtain ⟨m, hdatum, hm, -⟩ := Double.datum_foldl hterms (e := 1384) (by decide) (by decide)
      Double.datum_zero (Nat.zero_le _)
    obtain ⟨_, k, -, hcosine, -⟩ := Double.datum_div (c := 1682) hdatum hm
      (norms_between ha hb hane hbne) (by decide) (by decide) (by decide)
    exact fun h => absurd ((Double.isObtuse_iff hcosine).mp h).1 (by decide)

/-! ## Rankings -/

theorem IsZeroVector.isFinite (hz : IsZeroVector z) : ∀ x ∈ z, x.isFinite := by
  intro x hx
  rw [Single.isFinite, hz x hx]
  decide

namespace Flat

variable {index : Flat} {query : List Single} {i j : Nat}

theorem row_isFinite (h : ∀ x ∈ index.components, x.isFinite) (i : Nat) :
    ∀ x ∈ index.row i, x.isFinite :=
  fun x hx => h x (List.mem_of_mem_drop (List.mem_of_mem_take hx))

theorem WellFormed.length_row (h : index.WellFormed) (hi : i < index.count) :
    (index.row i).length = index.dimension := by
  have hle := h.row_le hi
  rw [row, List.length_take, List.length_drop]
  omega

/-- The distances of a query from the vectors of an index. -/
structure MeasuresCosines (index : Flat) (query : List Single) : Prop where
  zero {i : Nat} (hi : i < index.count) (hzero : IsZeroVector (index.row i)) :
    (index.neighbor query i).distance = Single.one
  farther_iff {j : Nat} (hj : j < index.count) :
    Single.one.Precedes (index.neighbor query j).distance ↔
      (cosine query (index.row j)).IsObtuse

theorem WellFormed.measuresCosines (h : index.WellFormed) (hmetric : index.metric = .cosine)
    (hcomponents : ∀ x ∈ index.components, x.isFinite) (hlength : query.length = index.dimension)
    (hquery : ∀ x ∈ query, x.isFinite) : index.MeasuresCosines query := by
  have hdistance : ∀ i, (index.neighbor query i).distance =
      cosineDistance query (index.row i) := by
    intro i
    rw [neighbor, hmetric]
    rfl
  constructor
  · intro i hi hzero
    rw [hdistance]
    exact cosineDistance_of_zero hquery (row_isFinite hcomponents i)
      (hlength.trans (h.length_row hi).symm) (.inr hzero)
  · intro j hj
    rw [hdistance]
    exact one_precedes_cosineDistance_iff hquery (row_isFinite hcomponents j)
      (hlength.trans (h.length_row hj).symm)

end Flat

/-- Whether no zero vector of an index is ranked before another vector at a
smaller distance. -/
def ZeroVectorsLast (index : Flat) (found : List Neighbor) : Prop :=
  found.Pairwise fun m n => IsZeroVector (index.row m.id) → ¬ IsZeroVector (index.row n.id) →
    ¬ m.distance.Precedes n.distance

theorem zeroVectorsLast_iff {index : Flat} {query : List Single}
    (h : index.MeasuresCosines query) :
    ZeroVectorsLast index (ranked (index.measured query)) ↔
      ∀ i < index.count, ∀ j < index.count, IsZeroVector (index.row i) →
        ¬ IsZeroVector (index.row j) → ¬ (cosine query (index.row j)).IsObtuse := by
  have hstrict := ranked_pairwise_precedes (index.measured_nodup query)
  have hmem : ∀ {n}, n ∈ ranked (index.measured query) ↔
      ∃ i < index.count, index.neighbor query i = n := by
    intro n
    rw [(ranked_perm _).mem_iff, Flat.measured_eq, List.mem_map]
    simp only [List.mem_range]
  constructor
  · intro hlast i hi j hj hzero hne hobtuse
    have hcloser : (index.neighbor query i).distance.Precedes
        (index.neighbor query j).distance := by
      rw [h.zero hi hzero]
      exact (h.farther_iff hj).mpr hobtuse
    obtain ⟨front, behind, heq⟩ := List.append_of_mem (hmem.mpr ⟨i, hi, rfl⟩)
    have hj := hmem.mpr ⟨j, hj, rfl⟩
    rw [ZeroVectorsLast, heq] at hlast
    rw [heq] at hj hstrict
    rcases List.mem_append.mp hj with hfront | hbehind
    · have hback := (List.pairwise_append.mp hstrict).2.2 _ hfront _ List.mem_cons_self
      exact Neighbor.not_precedes_of_precedes hback (.inl hcloser)
    · rcases List.mem_cons.mp hbehind with hsame | hbehind
      · rw [hsame] at hcloser
        exact Single.not_precedes_self _ hcloser
      · have hlast := (List.pairwise_cons.mp (List.pairwise_append.mp hlast).2.1).1 _ hbehind
        exact hlast hzero hne hcloser
  · intro hacute
    refine List.Pairwise.imp_of_mem (fun hm hn _ hzero hne hcloser => ?_) hstrict
    obtain ⟨i, hi, rfl⟩ := hmem.mp hm
    obtain ⟨j, hj, rfl⟩ := hmem.mp hn
    rw [h.zero hi hzero] at hcloser
    exact hacute i hi j hj hzero hne ((h.farther_iff hj).mp hcloser)

/-- A zero vector is at distance one of every vector, and farther than that are
the vectors at an obtuse angle. So nothing is farther than a zero vector only
from zero vectors, and in a ranking no zero vector comes before another one at a
smaller distance exactly if no other vector is at an obtuse angle to the query. -/
theorem zero_vector_farthest_iff_none_obtuse {b z : List Single} (hb : ∀ x ∈ b, x.isFinite)
    (hz : IsZeroVector z) (hlength : z.length = b.length) :
    cosineDistance z b = Single.one ∧
    (∀ a : List Single, a.length = b.length → (∀ x ∈ a, x.isFinite) →
      (cosineDistance a b).isNaN = false ∧
      ((cosineDistance z b).Precedes (cosineDistance a b) ↔ (cosine a b).IsObtuse) ∧
      ((∀ p ∈ a.zip b, p.1.isNegative = p.2.isNegative) → ¬ (cosine a b).IsObtuse)) ∧
    ((∀ a : List Single, a.length = b.length → (∀ x ∈ a, x.isFinite) →
      ¬ (cosineDistance z b).Precedes (cosineDistance a b)) ↔ IsZeroVector b) ∧
    ∀ (index : Flat) (query : List Single), index.WellFormed → index.metric = .cosine →
      (∀ x ∈ index.components, x.isFinite) → query.length = index.dimension →
      (∀ x ∈ query, x.isFinite) →
      ∃ all : List Neighbor, all.Perm (index.measured query) ∧
        (∀ k, index.search query k = .ok (all.take k)) ∧
        (ZeroVectorsLast index all ↔ ∀ i < index.count, ∀ j < index.count,
          IsZeroVector (index.row i) → ¬ IsZeroVector (index.row j) →
            ¬ (cosine query (index.row j)).IsObtuse) := by
  have hone := cosineDistance_of_zero hz.isFinite hb hlength (.inl hz)
  rw [hone]
  refine ⟨rfl, fun a ha hfinite => ⟨?_, ?_, ?_⟩, ⟨fun hall => ?_, fun hzero a ha hfinite => ?_⟩, ?_⟩
  · exact cosineDistance_isNaN hfinite hb ha
  · exact one_precedes_cosineDistance_iff hfinite hb ha
  · exact cosine_not_isObtuse hfinite hb
  · by_contra hne
    have hfinite := opposite_isFinite hb
    have hopposite : (opposite b).length = b.length := List.length_map _
    refine hall (opposite b) hopposite hfinite ?_
    rw [one_precedes_cosineDistance_iff hfinite hb hopposite]
    exact cosine_opposite_isObtuse hb hne
  · rw [cosineDistance_of_zero hfinite hb ha (.inr hzero)]
    exact Single.not_precedes_self _
  · intro index query hindex hmetric hcomponents hquery hfinite
    refine ⟨_, ranked_perm _, Flat.search_eq hquery, zeroVectorsLast_iff ?_⟩
    exact hindex.measuresCosines hmetric hcomponents hquery hfinite

/-- Zeros of both signs, a vector that is not zero, and an index of the two. -/
theorem zero_vector_farthest_iff_none_obtuse_of_zeros :
    let b : List Single := [.one, ⟨0xc0000000⟩]
    let z : List Single := [.negativeZero, .zero]
    let index : Flat := ⟨2, 2, .cosine, z ++ b⟩
    (∀ x ∈ b, x.isFinite) ∧ IsZeroVector z ∧ z.length = b.length ∧
      cosineDistance z b = .one ∧
      ¬ (∀ a : List Single, a.length = b.length → (∀ x ∈ a, x.isFinite) →
        ¬ (cosineDistance z b).Precedes (cosineDistance a b)) ∧
      ∃ all, index.search b 2 = .ok all ∧ ZeroVectorsLast index all := by
  intro b z index
  have hb : ∀ x ∈ b, x.isFinite := by decide
  have hz : IsZeroVector z := by decide
  have hlength : z.length = b.length := rfl
  obtain ⟨hone, hall, hiff, hindex⟩ := zero_vector_farthest_iff_none_obtuse hb hz hlength
  obtain ⟨all, -, hsearch, hlast⟩ := hindex index b ⟨by decide, by decide, by decide⟩ rfl
    (by decide) rfl hb
  have hacute : ¬ (cosine b b).IsObtuse := (hall b rfl hb).2.2 (by decide)
  have hnone := hlast.mpr fun i _ j hj _ hne => by
    rcases Nat.lt_succ_iff_lt_or_eq.mp hj with hj | rfl
    · obtain rfl : j = 0 := Nat.lt_one_iff.mp hj
      exact absurd hz hne
    · exact hacute
  exact ⟨hb, hz, hlength, hone, fun h => absurd (hiff.mp h) (by decide), _, hsearch 2,
    hnone.sublist (List.take_sublist 2 all)⟩

/-- A zero vector and an opposite one: the zero vector is named first, or alone. -/
theorem zero_vector_before_opposite_one :
    let index : Flat := ⟨1, 2, .cosine, [⟨0xbf800000⟩, .zero]⟩
    let query : List Single := [.one]
    index.WellFormed ∧ index.metric = .cosine ∧ query.length = index.dimension ∧
      (∀ x ∈ index.components ++ query, x.isFinite) ∧
      IsZeroVector (index.row 1) ∧ ¬ IsZeroVector (index.row 0) ∧
      (cosineDistance (index.row 1) query).Precedes (cosineDistance (index.row 0) query) ∧
      index.search query 2 = .ok [⟨1, .one⟩, ⟨0, ⟨0x40000000⟩⟩] ∧
      index.search query 1 = .ok [⟨1, .one⟩] ∧
      ¬ ZeroVectorsLast index [⟨1, .one⟩, ⟨0, ⟨0x40000000⟩⟩] := by
  intro index query
  have hmeasured : index.measured query = [⟨0, ⟨0x40000000⟩⟩, ⟨1, .one⟩] := by decide +kernel
  have hranked : ranked (index.measured query) = [⟨1, .one⟩, ⟨0, ⟨0x40000000⟩⟩] := by
    rw [hmeasured]
    exact (eq_ranked (List.Perm.swap ..) (by decide)).symm
  have hsearch : ∀ k, index.search query k = .ok ([⟨1, .one⟩, ⟨0, ⟨0x40000000⟩⟩].take k) :=
    fun k => hranked ▸ Flat.search_eq rfl k
  have hcloser : Single.one.Precedes ⟨0x40000000⟩ := by
    rw [Single.precedes_iff]
    decide
  refine ⟨⟨by decide, by decide, by decide⟩, rfl, rfl, by decide, by decide, by decide, ?_,
    hsearch 2, hsearch 1, fun h => ?_⟩
  · rw [Single.precedes_iff]
    decide +kernel
  · have hlast := (List.pairwise_cons.mp h).1 ⟨0, ⟨0x40000000⟩⟩ List.mem_cons_self
    exact hlast (by decide) (by decide) hcloser

end Index

end GlyphSearch
