import GlyphSearch.Index.Flat
import GlyphSearch.Proofs.Ranking
import Mathlib.Data.List.Nodup

/-!
# A search names the first of the ranking

The components of a flat index are cut into rows, and each row is measured.
Ids are given in the order of the rows, so no neighbour is there twice, and
the ranking of all of them is strict. By `nearestBy_eq_take` a search names the
first of that ranking, whatever the selection did to find them. What a client
may rely on follows from this alone: the ids are distinct and those of rows, no
row that is left out should have been named, and asking for more neighbours
only adds to the end.
-/

namespace GlyphSearch.Index

namespace Flat

/-- The vector with an id. -/
def row (index : Flat) (id : Nat) : List Single :=
  (index.components.drop (id * index.dimension)).take index.dimension

theorem rowsOf_eq (dimension : Nat) : ∀ (count : Nat) (components : List Single),
    rowsOf dimension count components =
      (List.range count).map fun id => (components.drop (id * dimension)).take dimension := by
  intro count
  induction count with
  | zero =>
      intro components
      rw [rowsOf, List.range_zero, List.map_nil]
  | succ count ih =>
      intro components
      rw [rowsOf, ih, List.range_succ_eq_map, List.map_cons, List.map_map, Nat.zero_mul,
        List.drop_zero]
      congr 1
      refine List.map_congr_left fun id _ => ?_
      rw [List.drop_drop, Function.comp_apply, Nat.succ_mul, Nat.add_comm]

theorem rows_eq (index : Flat) : index.rows = (List.range index.count).map index.row :=
  rowsOf_eq index.dimension index.count index.components

/-- A vector as a neighbour of a query. -/
def neighbor (index : Flat) (query : List Single) (id : Nat) : Neighbor :=
  ⟨id, distance index.metric query (index.row id)⟩

theorem measured_eq (index : Flat) (query : List Single) :
    index.measured query = (List.range index.count).map (index.neighbor query) := by
  rw [measured, rows_eq]
  refine List.ext_getElem (by simp) fun i h₁ h₂ => ?_
  simp [neighbor]

theorem map_id_measured (index : Flat) (query : List Single) :
    (index.measured query).map (·.id) = List.range index.count := by
  rw [measured_eq, List.map_map]
  exact List.map_id _

theorem measured_nodup (index : Flat) (query : List Single) : (index.measured query).Nodup := by
  refine List.Nodup.of_map (·.id) ?_
  rw [map_id_measured]
  exact List.nodup_range

theorem length_measured (index : Flat) (query : List Single) :
    (index.measured query).length = index.count := by
  rw [measured_eq, List.length_map, List.length_range]

theorem length_ranked_measured (index : Flat) (query : List Single) :
    (ranked (index.measured query)).length = index.count := by
  rw [(ranked_perm _).length_eq, length_measured]

/-- A search for a query of the index's dimension always succeeds. -/
theorem searchBy_eq {arrange : Arrangement Neighbor}
    (h : IsSelection Neighbor.before arrange) {index : Flat} {query : List Single}
    (hquery : query.length = index.dimension) (k : Nat) :
    index.searchBy arrange query k = .ok ((ranked (index.measured query)).take k) := by
  rw [searchBy, if_neg (by simpa using hquery), nearestBy_eq_take h]

theorem search_eq {index : Flat} {query : List Single}
    (hquery : query.length = index.dimension) (k : Nat) :
    index.search query k = .ok ((ranked (index.measured query)).take k) :=
  searchBy_eq (isSelection_select Neighbor.before_trans Neighbor.before_total) hquery k

end Flat

/-- In a list without repetition, what is left behind the first few is behind
each of them. -/
theorem precedes_of_left_out {all : List Neighbor} (h : all.Pairwise Neighbor.Precedes)
    {k : Nat} {n m : Neighbor} (hn : n ∈ all.take k) (hm : m ∈ all) (hout : m ∉ all.take k) :
    n.Precedes m := by
  rw [← List.take_append_drop k all] at h hm
  rcases List.mem_append.mp hm with hfront | hback
  · exact absurd hfront hout
  · exact (List.pairwise_append.mp h).2.2 n hn m hback

/-- The neighbours of a query have one strict ranking, and every search gives
the first `min k count` of it, whatever selection it makes use of. So the ids
are distinct and in range, no neighbour that is left out precedes one that is
named, and a search for more neighbours names these first. -/
theorem search_names_first_of_ranking {index : Flat} {query : List Single}
    (hquery : query.length = index.dimension) :
    ∃ all : List Neighbor,
      all.Perm ((List.range index.count).map fun id =>
        ⟨id, distance index.metric query (index.row id)⟩) ∧
      all.Pairwise Neighbor.Precedes ∧
      ∀ k, let found := all.take (min k index.count)
        (∀ arrange, IsSelection Neighbor.before arrange →
          index.searchBy arrange query k = .ok found) ∧
        index.search query k = .ok found ∧
        found.length = min k index.count ∧
        (found.map (·.id)).Nodup ∧
        (∀ n ∈ found, n.id < index.count) ∧
        (∀ n ∈ found, ∀ m ∈ all, m ∉ found → ¬ m.Precedes n) ∧
        ∀ k', k ≤ k' → ∃ more, index.search query k' = .ok (found ++ more) := by
  have hperm := ranked_perm (index.measured query)
  have hstrict := ranked_pairwise_precedes (index.measured_nodup query)
  have hlen := index.length_ranked_measured query
  have hsearch := Flat.search_eq hquery
  have hsearchBy : ∀ arrange, IsSelection Neighbor.before arrange → ∀ k,
      index.searchBy arrange query k = .ok ((ranked (index.measured query)).take k) :=
    fun _ h => Flat.searchBy_eq h hquery
  have hids := (hperm.map (·.id)).trans (List.Perm.of_eq (index.map_id_measured query))
  generalize ranked (index.measured query) = all at *
  have hmin : ∀ k, all.take (min k index.count) = all.take k := by
    intro k
    rw [← hlen, ← List.take_eq_take_min]
  refine ⟨all, hperm.trans (List.Perm.of_eq (index.measured_eq query)), hstrict, ?_⟩
  intro k found
  have hfound : found = all.take k := hmin k
  have hnodup : (all.map (·.id)).Nodup := hids.nodup_iff.mpr List.nodup_range
  refine ⟨?_, ?_, ?_, ?_, ?_, ?_, ?_⟩
  · intro arrange h
    rw [hfound]
    exact hsearchBy arrange h k
  · rw [hfound]
    exact hsearch k
  · rw [List.length_take, hlen]
    omega
  · rw [hfound, List.map_take]
    exact hnodup.sublist (List.take_sublist _ _)
  · intro n hn
    have hmem : n.id ∈ all.map (·.id) := List.mem_map_of_mem (List.mem_of_mem_take hn)
    exact List.mem_range.mp (hids.mem_iff.mp hmem)
  · intro n hn m hm hout
    exact Neighbor.not_precedes_of_precedes (precedes_of_left_out hstrict hn hm hout)
  · intro k' hk
    have hcut : all.take k' = found ++ (all.take k').drop k := by
      have hsplit := List.take_append_drop k (all.take k')
      rw [List.take_take, Nat.min_eq_left hk, ← hfound] at hsplit
      exact hsplit.symm
    refine ⟨(all.take k').drop k, ?_⟩
    rw [hsearch k']
    exact congrArg Except.ok hcut

/-- Three rows, two of them alike and one a NaN, of which two are asked for. -/
theorem search_names_first_of_ranking_of_ties :
    let index : Flat := ⟨1, 3, .euclidean, [⟨0x3f800000⟩, ⟨0x7fc00001⟩, ⟨0x3f800000⟩]⟩
    [Single.zero].length = index.dimension ∧
      ∃ found, index.search [Single.zero] 2 = .ok found ∧ found.length = 2 ∧
        (found.map (·.id)).Nodup ∧ ∀ n ∈ found, n.id < 3 := by
  intro index
  have hquery : [Single.zero].length = index.dimension := by decide
  obtain ⟨all, _, _, hk⟩ := search_names_first_of_ranking hquery
  obtain ⟨_, hfound, hlen, hnodup, hrange, _⟩ := hk 2
  exact ⟨hquery, _, hfound, hlen, hnodup, hrange⟩

end GlyphSearch.Index
