import GlyphSearch.Index.Selection

/-!
# The order of neighbours, and the few that come first

Neighbours are ordered by distance, in the total order of the format, and then
by id. With that order no two neighbours are tied: two that are not before
each other are the same. So a ranking is the only one there is, however it has
been found, and to know a ranking it is enough to know that it is one.

That is how the few nearest are found without ranking all. An arrangement
brings them to the front, in some order; what stays behind comes later than
all of them. Ranking the front and ranking what is behind it then gives two
lists that, put together, are a ranking of everything.
-/

namespace GlyphSearch

namespace Single

/-- The total order of all bit patterns, by its rules: the negative ones come
first, and among them those of greater magnitude. -/
def Precedes (x y : Single) : Prop :=
  match x.isNegative, y.isNegative with
  | true, false => True
  | false, true => False
  | false, false => x.field < y.field
  | true, true => y.field < x.field

theorem precedes_iff {x y : Single} : x.Precedes y ↔ x.orderKey < y.orderKey := by
  unfold Precedes orderKey
  cases x.isNegative <;> cases y.isNegative <;> simp <;> omega

/-- Sign and field are all of a bit pattern. -/
theorem eq_of_orderKey_eq {x y : Single} (h : x.orderKey = y.orderKey) : x = y := by
  have hx := x.bits.toNat_lt
  have hy := y.bits.toNat_lt
  have hbits : x.bits.toNat = y.bits.toNat := by
    simp only [orderKey, isNegative, field, Nat.pow_eq, decide_eq_true_eq] at h
    split at h <;> split at h <;> omega
  cases x
  cases y
  exact congrArg Single.mk (UInt32.toNat_inj.mp hbits)

end Single

namespace Index

namespace Neighbor

/-- Whether a neighbour is named before another one. -/
def Precedes (a b : Neighbor) : Prop :=
  a.distance.Precedes b.distance ∨ (a.distance = b.distance ∧ a.id < b.id)

theorem before_iff {a b : Neighbor} :
    a.before b = true ↔ a.distance.orderKey < b.distance.orderKey ∨
      (a.distance.orderKey = b.distance.orderKey ∧ a.id ≤ b.id) := by
  simp [before]

theorem precedes_iff {a b : Neighbor} : a.Precedes b ↔ a.before b = true ∧ a ≠ b := by
  rw [Precedes, Single.precedes_iff, before_iff]
  constructor
  · rintro (hlt | ⟨heq, hid⟩)
    · exact ⟨Or.inl hlt, by rintro rfl; omega⟩
    · exact ⟨Or.inr ⟨by rw [heq], by omega⟩, by rintro rfl; omega⟩
  · rintro ⟨hlt | ⟨heq, hid⟩, hne⟩
    · exact Or.inl hlt
    · have hdist := Single.eq_of_orderKey_eq heq
      refine Or.inr ⟨hdist, Nat.lt_of_le_of_ne hid fun hsame => hne ?_⟩
      cases a
      cases b
      simp_all

theorem before_refl (a : Neighbor) : a.before a = true := by
  simp [before]

theorem before_trans (a b c : Neighbor) (hab : a.before b = true) (hbc : b.before c = true) :
    a.before c = true := by
  rw [before_iff] at hab hbc ⊢
  omega

theorem before_total (a b : Neighbor) : (a.before b || b.before a) = true := by
  rw [Bool.or_eq_true, before_iff, before_iff]
  omega

theorem eq_of_before {a b : Neighbor} (hab : a.before b = true) (hba : b.before a = true) :
    a = b := by
  by_cases hne : a = b
  · exact hne
  · rcases precedes_iff.mpr ⟨hab, hne⟩ with hlt | ⟨_, hlt⟩
    · rw [Single.precedes_iff] at hlt
      rw [before_iff] at hba
      omega
    · rw [before_iff] at hab hba
      omega

theorem not_precedes_of_precedes {a b : Neighbor} (h : a.Precedes b) : ¬ b.Precedes a := by
  intro hback
  rw [precedes_iff] at h hback
  exact h.2 (eq_of_before h.1 hback.1)

end Neighbor

/-! ## Rankings -/

theorem ranked_perm (ns : List Neighbor) : (ranked ns).Perm ns := List.mergeSort_perm ns _

theorem ranked_pairwise (ns : List Neighbor) :
    (ranked ns).Pairwise fun a b => a.before b = true :=
  List.pairwise_mergeSort Neighbor.before_trans Neighbor.before_total ns

/-- A ranking is the only one that its neighbours have. -/
theorem eq_ranked {ns ms : List Neighbor} (hperm : ms.Perm ns)
    (hsorted : ms.Pairwise fun a b => a.before b = true) : ms = ranked ns :=
  List.Perm.eq_of_pairwise (fun _ _ _ _ => Neighbor.eq_of_before) hsorted (ranked_pairwise ns)
    (hperm.trans (ranked_perm ns).symm)

/-- Where no neighbour is there twice, each one precedes those behind it. -/
theorem ranked_pairwise_precedes {ns : List Neighbor} (h : ns.Nodup) :
    (ranked ns).Pairwise Neighbor.Precedes := by
  have hnodup : (ranked ns).Nodup := (ranked_perm ns).nodup_iff.mpr h
  exact (List.Pairwise.and (ranked_pairwise ns) hnodup).imp fun hab =>
    Neighbor.precedes_iff.mpr hab

/-- Two rankings put together, if all of the first come before all of the
second, are a ranking of both. -/
theorem ranked_append {ns ms : List Neighbor} (h : ∀ a ∈ ns, ∀ b ∈ ms, a.before b = true) :
    ranked ns ++ ranked ms = ranked (ns ++ ms) := by
  refine eq_ranked ((ranked_perm ns).append (ranked_perm ms)) ?_
  refine List.pairwise_append.mpr ⟨ranked_pairwise ns, ranked_pairwise ms, ?_⟩
  intro a ha b hb
  exact h a ((ranked_perm ns).mem_iff.mp ha) b ((ranked_perm ms).mem_iff.mp hb)

/-! ## Selecting the first few -/

/-- Everything that a selection brings to the first `k` places comes before
everything that it leaves behind them. -/
theorem IsSelection.take_before_drop {arrange : Arrangement Neighbor}
    (h : IsSelection Neighbor.before arrange) {ns : List Neighbor} {k : Nat} (hk : k ≠ 0)
    (hlen : k < ns.length) :
    ∀ a ∈ (arrange (k - 1) ns).take k, ∀ b ∈ (arrange (k - 1) ns).drop k,
      a.before b = true := by
  intro a ha b hb
  obtain ⟨hperm, hplace⟩ := h (k - 1) ns (by omega)
  generalize hys : arrange (k - 1) ns = ys at *
  have hpos : k - 1 < ys.length := by rw [hperm.length_eq]; omega
  have hget : ys[k - 1]? = some ys[k - 1] := List.getElem?_eq_getElem hpos
  obtain ⟨hfront, hback⟩ := hplace _ hget
  have hk' : k - 1 + 1 = k := by omega
  rw [hk'] at hback
  rw [← hk', List.take_add_one, hget] at ha
  -- The last of the first `k` is the one at the place itself.
  have hax : a.before ys[k - 1] = true := by
    rcases List.mem_append.mp ha with hbefore | hlast
    · exact hfront a hbefore
    · rw [Option.toList_some, List.mem_singleton] at hlast
      rw [hlast]
      exact Neighbor.before_refl _
  exact Neighbor.before_trans a _ b hax (hback b hb)

/-- Whatever the arrangement, the nearest are the first of the ranking. -/
theorem nearestBy_eq_take {arrange : Arrangement Neighbor}
    (h : IsSelection Neighbor.before arrange) (ns : List Neighbor) (k : Nat) :
    nearestBy arrange ns k = (ranked ns).take k := by
  rw [nearestBy]
  split
  · next hk => rw [hk, List.take_zero]
  · next hk =>
      split
      · next hlen =>
          have hperm : (arrange (k - 1) ns).Perm ns := (h (k - 1) ns (by omega)).1
          have hsplit := ranked_append (h.take_before_drop hk hlen)
          rw [List.take_append_drop] at hsplit
          have hall : ranked (arrange (k - 1) ns) = ranked ns :=
            eq_ranked ((ranked_perm _).trans hperm) (ranked_pairwise _)
          have hfew : (ranked ((arrange (k - 1) ns).take k)).length = k := by
            rw [(ranked_perm _).length_eq, List.length_take, hperm.length_eq]
            omega
          rw [← hall, ← hsplit, List.take_left' hfew]
      · next hlen =>
          have hshort : (ranked ns).length ≤ k := by
            rw [(ranked_perm ns).length_eq]
            omega
          rw [List.take_of_length_le hshort]

/-! ## The selection by partition

What `select` leaves is a front, the element that belongs to the place, and a
back. It is built around the pivots, so the proof never has to count. -/

/-- A list is cut at a place: nothing before it is later, and nothing behind
it is earlier. -/
def CutAt {α : Type} (before : α → α → Bool) (place : Nat) (ys : List α) : Prop :=
  ∃ front x back, ys = front ++ x :: back ∧ front.length = place ∧
    (∀ y ∈ front, before y x = true) ∧ ∀ y ∈ back, before x y = true

section Select

variable {α : Type} {before : α → α → Bool}

theorem CutAt.append_right {place : Nat} {ys zs : List α} (h : CutAt before place ys)
    (hlater : ∀ y ∈ ys, ∀ z ∈ zs, before y z = true) : CutAt before place (ys ++ zs) := by
  obtain ⟨front, x, back, rfl, hlen, hfront, hback⟩ := h
  refine ⟨front, x, back ++ zs, by simp, hlen, hfront, ?_⟩
  intro y hy
  rcases List.mem_append.mp hy with hy | hy
  · exact hback y hy
  · exact hlater x (by simp) y hy

theorem CutAt.append_left {place : Nat} {ys zs : List α} (h : CutAt before place zs)
    (hearlier : ∀ y ∈ ys, ∀ z ∈ zs, before y z = true) :
    CutAt before (ys.length + place) (ys ++ zs) := by
  obtain ⟨front, x, back, rfl, hlen, hfront, hback⟩ := h
  refine ⟨ys ++ front, x, back, by simp, by simp [hlen], ?_, hback⟩
  intro y hy
  rcases List.mem_append.mp hy with hy | hy
  · exact hearlier y hy x (by simp)
  · exact hfront y hy

theorem perm_of_takeMiddle? {xs rest : List α} {pivot : α}
    (h : takeMiddle? xs = some (pivot, rest)) : (pivot :: rest).Perm xs := by
  rw [takeMiddle?] at h
  split at h
  · cases h
  · next tail hcut =>
      cases h
      have hxs : xs.take (xs.length / 2) ++ pivot :: tail = xs := by
        rw [← hcut, List.take_append_drop]
      calc (pivot :: (xs.take (xs.length / 2) ++ tail)).Perm
            (xs.take (xs.length / 2) ++ pivot :: tail) := List.perm_middle.symm
        _ = xs := hxs

theorem eq_nil_of_takeMiddle?_eq_none {xs : List α} (h : takeMiddle? xs = none) : xs = [] := by
  cases xs with
  | nil => rfl
  | cons x more =>
      rw [takeMiddle?] at h
      split at h
      · next hdrop =>
          rw [List.drop_eq_nil_iff, List.length_cons] at hdrop
          omega
      · cases h

/-- Around its pivot a list is cut, and both of its parts are on their side
of every element of the other. -/
theorem perm_partition (p : α → Bool) {xs rest : List α} {pivot : α}
    (h : (pivot :: rest).Perm xs) :
    (rest.filter p ++ pivot :: rest.filter (!p ·)).Perm xs :=
  List.perm_middle.trans (((List.filter_append_perm p rest).cons pivot).trans h)

theorem select_eq {xs rest : List α} {pivot : α}
    (h : takeMiddle? xs = some (pivot, rest)) (place : Nat) :
    select before place xs =
      if place < (rest.filter (before · pivot)).length then
        select before place (rest.filter (before · pivot)) ++
          pivot :: rest.filter (!before · pivot)
      else if place = (rest.filter (before · pivot)).length then
        rest.filter (before · pivot) ++ pivot :: rest.filter (!before · pivot)
      else
        rest.filter (before · pivot) ++
          pivot :: select before (place - (rest.filter (before · pivot)).length - 1)
            (rest.filter (!before · pivot)) := by
  rw [select.eq_def]
  split
  · next hnone =>
      rw [hnone] at h
      cases h
  · next hsome =>
      rw [hsome] at h
      cases h
      rfl

theorem select_perm_and_cutAt
    (htrans : ∀ a b c, before a b = true → before b c = true → before a c = true)
    (htotal : ∀ a b, (before a b || before b a) = true) (place : Nat) (xs : List α) :
    (select before place xs).Perm xs ∧
      (place < xs.length → CutAt before place (select before place xs)) := by
  have hlower : ∀ (rest : List α) (pivot : α), ∀ y ∈ rest.filter (before · pivot),
      before y pivot = true := fun rest pivot y hy => (List.mem_filter.mp hy).2
  have hupper : ∀ (rest : List α) (pivot : α), ∀ z ∈ rest.filter (!before · pivot),
      before pivot z = true := by
    intro rest pivot z hz
    have hnot := (List.mem_filter.mp hz).2
    have htot := htotal pivot z
    cases hzp : before z pivot
    · simpa [hzp] using htot
    · simp [hzp] at hnot
  induction place, xs using select.induct before with
  | case1 place xs hnone =>
      have hnil := eq_nil_of_takeMiddle?_eq_none hnone
      subst hnil
      refine ⟨?_, fun hlt => absurd hlt (Nat.not_lt_zero _)⟩
      rw [select.eq_def]
      split
      · exact List.Perm.refl _
      · next hsome => exact absurd hsome (by simp [takeMiddle?])
  | case2 place xs pivot rest htaken low high hlow hhigh hplace ih =>
      have hall := perm_partition (before · pivot) (perm_of_takeMiddle? htaken)
      rw [select_eq htaken, if_pos hplace]
      refine ⟨(ih.1.append_right _).trans hall, fun _ => (ih.2 hplace).append_right ?_⟩
      intro y hy z hz
      have hyp := hlower rest pivot y (ih.1.mem_iff.mp hy)
      rcases List.mem_cons.mp hz with rfl | hz
      · exact hyp
      · exact htrans y pivot z hyp (hupper rest pivot z hz)
  | case3 xs pivot rest htaken low high hlow hhigh hplace =>
      rw [select_eq htaken, if_neg hplace, if_pos rfl]
      exact ⟨perm_partition (before · pivot) (perm_of_takeMiddle? htaken),
        fun _ => ⟨low, pivot, high, rfl, rfl, hlower rest pivot,
          hupper rest pivot⟩⟩
  | case4 place xs pivot rest htaken low high hlow hhigh hplace hne ih =>
      have hall := perm_partition (before · pivot) (perm_of_takeMiddle? htaken)
      rw [select_eq htaken, if_neg hplace, if_neg hne]
      refine ⟨((ih.1.cons pivot).append_left low).trans hall, fun hlt => ?_⟩
      have hlen : low.length + (high.length + 1) = xs.length := by
        rw [← hall.length_eq, List.length_append, List.length_cons]
      have hindex : (low ++ [pivot]).length + (place - low.length - 1) = place := by
        rw [List.length_append, List.length_singleton]
        omega
      have hbelow : ∀ y ∈ low ++ [pivot],
          ∀ z ∈ select before (place - low.length - 1) high, before y z = true := by
        intro y hy z hz
        have hpz := hupper rest pivot z (ih.1.mem_iff.mp hz)
        rcases List.mem_append.mp hy with hy | hy
        · exact htrans y pivot z (hlower rest pivot y hy) hpz
        · rw [List.mem_singleton.mp hy]
          exact hpz
      have hcut := (ih.2 (by omega)).append_left hbelow
      rw [hindex, ← List.append_cons] at hcut
      exact hcut

/-- Partitioning around pivots is a selection. -/
theorem isSelection_select
    (htrans : ∀ a b c, before a b = true → before b c = true → before a c = true)
    (htotal : ∀ a b, (before a b || before b a) = true) : IsSelection before (select before) := by
  intro place xs hlt
  obtain ⟨hperm, hcut⟩ := select_perm_and_cutAt htrans htotal place xs
  obtain ⟨front, x, back, heq, hlen, hfront, hback⟩ := hcut hlt
  refine ⟨hperm, fun y hy => ?_⟩
  subst hlen
  have hxy : x = y := by
    rw [heq, List.getElem?_append_right (Nat.le_refl _), Nat.sub_self] at hy
    exact Option.some.inj hy
  subst hxy
  rw [heq, List.take_left' rfl, List.append_cons, List.drop_left' (by simp)]
  exact ⟨hfront, hback⟩

end Select

end Index
end GlyphSearch
