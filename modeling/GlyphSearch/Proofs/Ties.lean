import GlyphSearch.Proofs.Consistency
import GlyphSearch.Proofs.Nearest
import GlyphSearch.Proofs.Signs

/-!
# Ties between neighbours

Neighbours are ranked by the total order of bit patterns, and a client reads
their distances as numbers. The two orders have but one pair apart: the zeros
with and without a sign are the same number, and the one with a minus sign comes
first whatever the ids are. Where distances are the same number and not such a
pair, they are the same pattern, and the ids decide.

Neither the length of a difference nor one minus a cosine is ever negative zero.
An inner product may round to either zero, so there a tie can be out of order,
and it is so exactly if a hit with the negative zero has a greater id than a
vector with the positive one.
-/

namespace GlyphSearch

open Binary

/-! ## The same number -/

/-- A number of units with a sign. -/
def Binary.signed (negative : Bool) (units : Nat) : Int := if negative then -units else units

/-- Equality of numbers: zero has no sign, and a NaN is equal to nothing. -/
def Binary.Datum.SameNumber : Datum → Datum → Prop
  | .finite s m, .finite t n => signed s m = signed t n
  | .infinite s, .infinite t => s = t
  | _, _ => False

namespace Single

/-- Whether a client reads the same number. -/
def SameNumber (x y : Single) : Prop := x.datum.SameNumber y.datum

variable {x y : Single}

theorem eq_of_field_eq (hsign : x.isNegative = y.isNegative) (hfield : x.field = y.field) :
    x = y := by
  refine eq_of_orderKey_eq ?_
  rw [orderKey, orderKey, hsign, hfield]

theorem eq_zero (h : x.field = 0) : x = zero ∨ x = negativeZero := by
  cases hsign : x.isNegative with
  | false => exact .inl (eq_of_field_eq hsign h)
  | true => exact .inr (eq_of_field_eq hsign h)

theorem datum_cases (x : Single) :
    (x.datum = .finite x.isNegative (Format.single.units x.field) ∧ x.isNaN = false) ∨
    (x.datum = .infinite x.isNegative ∧ x.field = Format.single.infinity ∧ x.isNaN = false) ∨
    (x.datum = .nan x.isNegative x.field ∧ x.isNaN = true) := by
  simp only [datum, Format.datum, isNaN, decide_eq_true_eq, decide_eq_false_iff_not]
  split
  · exact .inl ⟨rfl, by omega⟩
  · split
    · next heq => exact .inr (.inl ⟨rfl, heq, by omega⟩)
    · exact .inr (.inr ⟨rfl, by omega⟩)

/-- Numbers of opposite sign are the same only if both are zero. -/
theorem eq_of_signed_eq {s t : Bool} {m n : Nat} (h : signed s m = signed t n) :
    m = n ∧ (s = t ∨ m = 0) := by
  cases s with
  | false =>
      cases t with
      | false => exact ⟨Int.ofNat.inj h, .inl rfl⟩
      | true =>
          have hneg : (m : Int) = -n := h
          exact ⟨by omega, .inr (by omega)⟩
  | true =>
      cases t with
      | false =>
          have hneg : -(m : Int) = n := h
          exact ⟨by omega, .inr (by omega)⟩
      | true =>
          have hneg : -(m : Int) = -n := h
          exact ⟨by omega, .inl rfl⟩

/-- Different patterns are the same number only where they are the two zeros. -/
theorem sameNumber_cases (h : x.SameNumber y) :
    x = y ∨ (x = zero ∧ y = negativeZero) ∨ (x = negativeZero ∧ y = zero) := by
  rw [SameNumber] at h
  rcases x.datum_cases with ⟨hx, -⟩ | ⟨hx, hfield, -⟩ | ⟨hx, -⟩ <;>
    rcases y.datum_cases with ⟨hy, -⟩ | ⟨hy, hfield', -⟩ | ⟨hy, -⟩ <;>
    rw [hx, hy] at h
  · have hinjective := Format.units_strictMono (f := .single) |>.injective
    obtain ⟨hunits, hsign | hzero⟩ := eq_of_signed_eq h
    · exact .inl (eq_of_field_eq hsign (hinjective hunits))
    · have hx0 : x.field = 0 := Nat.eq_zero_of_not_pos fun hpos =>
        Nat.ne_of_gt (Format.units_pos hpos) hzero
      have hy0 : y.field = 0 := Nat.eq_zero_of_not_pos fun hpos =>
        Nat.ne_of_gt (Format.units_pos hpos) (hunits.symm.trans hzero)
      rcases eq_zero hx0 with rfl | rfl <;> rcases eq_zero hy0 with rfl | rfl
      · exact .inl rfl
      · exact .inr (.inl ⟨rfl, rfl⟩)
      · exact .inr (.inr ⟨rfl, rfl⟩)
      · exact .inl rfl
  · cases h
  · cases h
  · cases h
  · exact .inl (eq_of_field_eq h (hfield.trans hfield'.symm))
  · cases h
  · cases h
  · cases h
  · cases h

theorem sameNumber_zeros : negativeZero.SameNumber zero := by
  rw [SameNumber, show negativeZero.datum = .finite true 0 by rfl,
    show zero.datum = .finite false 0 by rfl]
  rfl

theorem not_precedes_self (x : Single) : ¬ x.Precedes x := by
  rw [precedes_iff]
  exact Int.lt_irrefl _

theorem not_zero_precedes : ¬ zero.Precedes negativeZero := by
  rw [precedes_iff]
  decide

end Single

namespace Index

/-! ## Distances that are never negative zero -/

theorem pairs_ne_nil {a b : List Single} (ha : a ≠ []) (hb : b ≠ []) : pairs a b ≠ [] := by
  cases a with
  | nil => exact absurd rfl ha
  | cons x a =>
      cases b with
      | nil => exact absurd rfl hb
      | cons y b => exact List.cons_ne_nil _ _

theorem euclideanDistance_ne_negativeZero {a b : List Single} (ha : a ≠ []) (hb : b ≠ []) :
    euclideanDistance a b ≠ Single.negativeZero := by
  have hne := pairs_ne_nil ha hb
  have hsquares : ∀ t ∈ (pairs a b).map fun p => (p.1 - p.2) * (p.1 - p.2), t.Unsigned := by
    rw [List.forall_mem_map]
    exact fun p _ => Double.unsigned_mul_self (p.1 - p.2)
  have hsum := Double.unsigned_foldl hsquares (.inr rfl) fun hnil =>
    absurd (List.map_eq_nil_iff.mp hnil) hne
  exact Double.toSingle_of_unsigned (Double.unsigned_sqrt hsum)

theorem cosineDistance_ne_negativeZero (a b : List Single) :
    cosineDistance a b ≠ Single.negativeZero := by
  rw [cosineDistance]
  dsimp only
  split
  · decide +kernel
  · exact Double.one_sub_toSingle _

theorem Flat.WellFormed.row_ne_nil {index : Flat} (h : index.WellFormed) {id : Nat}
    (hid : id < index.count) : index.row id ≠ [] := by
  intro hnil
  have hlength := congrArg List.length hnil
  have hle := h.row_le hid
  have hpos := h.dimension_pos
  simp only [Flat.row, List.length_take, List.length_drop, List.length_nil] at hlength
  omega

theorem Flat.WellFormed.distance_ne_negativeZero {index : Flat} (h : index.WellFormed)
    {query : List Single} (hquery : query.length = index.dimension)
    (hmetric : index.metric ≠ .dotProduct) {n : Neighbor} (hn : n ∈ index.measured query) :
    n.distance ≠ Single.negativeZero := by
  rw [measured_eq] at hn
  obtain ⟨id, hid, rfl⟩ := List.mem_map.mp hn
  have hne : query ≠ [] := by
    rintro rfl
    exact Nat.ne_of_gt h.dimension_pos hquery.symm
  rw [neighbor]
  dsimp only
  cases hm : index.metric with
  | cosine => exact cosineDistance_ne_negativeZero _ _
  | euclidean => exact euclideanDistance_ne_negativeZero hne (h.row_ne_nil (List.mem_range.mp hid))
  | dotProduct => exact absurd hm hmetric

/-! ## Ties -/

/-- Ties of numbers are in the order of the ids: between hits, and between a hit
and what is left out. -/
structure TiesById (all found : List Neighbor) : Prop where
  named : found.Pairwise fun a b => a.distance.SameNumber b.distance → a.id < b.id
  leftOut : ∀ a ∈ found, ∀ b ∈ all, b ∉ found →
    a.distance.SameNumber b.distance → a.id < b.id

theorem Neighbor.Precedes.id_lt {a b : Neighbor} (h : a.Precedes b)
    (hsame : a.distance.SameNumber b.distance)
    (hzeros : a.distance = Single.negativeZero → b.distance = Single.zero → a.id < b.id) :
    a.id < b.id := by
  rcases h with hdistance | ⟨-, hid⟩
  · rcases Single.sameNumber_cases hsame with heq | ⟨ha, hb⟩ | ⟨ha, hb⟩
    · rw [heq] at hdistance
      exact absurd hdistance (Single.not_precedes_self _)
    · rw [ha, hb] at hdistance
      exact absurd hdistance Single.not_zero_precedes
    · exact hzeros ha hb
  · exact hid

theorem TiesById.id_lt {all found : List Neighbor} (h : TiesById all found)
    (hstrict : found.Pairwise Neighbor.Precedes) {a b : Neighbor} (ha : a ∈ found) (hb : b ∈ all)
    (hnegative : a.distance = Single.negativeZero) (hzero : b.distance = Single.zero) :
    a.id < b.id := by
  have hsame : a.distance.SameNumber b.distance := by
    rw [hnegative, hzero]
    exact Single.sameNumber_zeros
  have hne : b ≠ a := by
    rintro rfl
    rw [hnegative] at hzero
    exact absurd hzero (by decide)
  have hback : ¬ b.Precedes a := by
    rintro (hdistance | ⟨heq, -⟩)
    · rw [hnegative, hzero] at hdistance
      exact absurd hdistance Single.not_zero_precedes
    · rw [hnegative, hzero] at heq
      exact absurd heq (by decide)
  by_cases hfound : b ∈ found
  · obtain ⟨front, behind, rfl⟩ := List.append_of_mem ha
    rcases List.mem_append.mp hfound with hb | hb
    · have hprecedes := (List.pairwise_append.mp hstrict).2.2 b hb a List.mem_cons_self
      exact absurd hprecedes hback
    · have hnamed := List.pairwise_cons.mp (List.pairwise_append.mp h.named).2.1
      exact hnamed.1 b ((List.mem_cons.mp hb).resolve_left hne) hsame
  · exact h.leftOut a ha b hb hfound hsame

/-- The ties of a search are in the order of the ids unless a hit with negative
zero has a greater id than a vector with positive zero, and under all metrics
but the inner product they are. -/
theorem ties_by_id_iff_no_zeros_out_of_order {index : Flat} {query : List Single}
    (hindex : index.WellFormed) (hquery : query.length = index.dimension) (k : Nat) :
    ∃ found, index.search query k = .ok found ∧
      (TiesById (index.measured query) found ↔
        ∀ a ∈ found, ∀ b ∈ index.measured query, a.distance = Single.negativeZero →
          b.distance = Single.zero → a.id < b.id) ∧
      (index.metric ≠ .dotProduct → TiesById (index.measured query) found) := by
  have hmem : ∀ {n}, n ∈ ranked (index.measured query) ↔ n ∈ index.measured query :=
    (ranked_perm _).mem_iff
  have hstrict := ranked_pairwise_precedes (index.measured_nodup query)
  have hties : (∀ a ∈ (ranked (index.measured query)).take k, ∀ b ∈ index.measured query,
      a.distance = Single.negativeZero → b.distance = Single.zero → a.id < b.id) →
      TiesById (index.measured query) ((ranked (index.measured query)).take k) := by
    intro hzeros
    constructor
    · have hfound := hstrict.sublist (List.take_sublist k _)
      refine List.Pairwise.imp_of_mem (fun ha hb hab hsame => ?_) hfound
      exact hab.id_lt hsame (hzeros _ ha _ (hmem.mp (List.mem_of_mem_take hb)))
    · intro a ha b hb hout hsame
      exact (precedes_of_left_out hstrict ha (hmem.mpr hb) hout).id_lt hsame (hzeros a ha b hb)
  refine ⟨_, Flat.search_eq hquery k, ⟨fun h a ha b hb => ?_, hties⟩, fun hmetric => ?_⟩
  · exact h.id_lt (hstrict.sublist (List.take_sublist k _)) ha hb
  · refine hties fun a ha b hb hnegative => absurd hnegative ?_
    exact hindex.distance_ne_negativeZero hquery hmetric (hmem.mp (List.mem_of_mem_take ha))

/-- Three vectors at the same distance, of which two are asked for. -/
theorem ties_by_id_iff_no_zeros_out_of_order_of_three :
    let index : Flat := ⟨1, 3, .euclidean, [⟨0x3f800000⟩, ⟨0xbf800000⟩, ⟨0x3f800000⟩]⟩
    let query : List Single := [.negativeZero]
    index.WellFormed ∧ query.length = index.dimension ∧ index.metric ≠ .dotProduct ∧
      ∃ found, index.search query 2 = .ok found ∧ TiesById (index.measured query) found := by
  intro index query
  have hindex : index.WellFormed := ⟨by decide, by decide, by decide⟩
  have hmetric : index.metric ≠ .dotProduct := by decide
  have hquery : query.length = index.dimension := rfl
  obtain ⟨found, hsearch, -, hties⟩ := ties_by_id_iff_no_zeros_out_of_order hindex hquery 2
  exact ⟨hindex, hquery, hmetric, found, hsearch, hties hmetric⟩

/-- The inner products of one with the two zeros are the same number, and the
vector with the greater id is named first, or alone. -/
theorem zeros_of_inner_products_out_of_order :
    let index : Flat := ⟨1, 2, .dotProduct, [.negativeZero, .zero]⟩
    let query : List Single := [⟨0x3f800000⟩]
    index.WellFormed ∧ query.length = index.dimension ∧
      (∀ x ∈ index.components ++ query, x.isFinite) ∧
      index.search query 2 = .ok [⟨1, .negativeZero⟩, ⟨0, .zero⟩] ∧
      index.search query 1 = .ok [⟨1, .negativeZero⟩] ∧
      Single.negativeZero.SameNumber .zero ∧
      ¬ TiesById (index.measured query) [⟨1, .negativeZero⟩, ⟨0, .zero⟩] ∧
      ¬ TiesById (index.measured query) [⟨1, .negativeZero⟩] := by
  intro index query
  have hmeasured : index.measured query = [⟨0, .zero⟩, ⟨1, .negativeZero⟩] := by decide +kernel
  have hranked : ranked (index.measured query) = [⟨1, .negativeZero⟩, ⟨0, .zero⟩] := by
    rw [hmeasured]
    exact (eq_ranked (List.Perm.swap ..) (by decide)).symm
  have hsearch : ∀ k, index.search query k =
      .ok ([⟨1, .negativeZero⟩, ⟨0, .zero⟩].take k) := fun k =>
    hranked ▸ Flat.search_eq rfl k
  refine ⟨⟨by decide, by decide, by decide⟩, rfl, by decide, hsearch 2, hsearch 1,
    Single.sameNumber_zeros, fun h => ?_, fun h => ?_⟩
  · have hid := (List.pairwise_cons.mp h.named).1 ⟨0, .zero⟩ List.mem_cons_self
    exact absurd (hid Single.sameNumber_zeros) (by decide)
  · have hid := h.leftOut ⟨1, .negativeZero⟩ List.mem_cons_self ⟨0, .zero⟩
      (hmeasured ▸ List.mem_cons_self) (by decide)
    exact absurd (hid Single.sameNumber_zeros) (by decide)

end Index

end GlyphSearch
