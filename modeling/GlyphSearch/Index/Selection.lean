import GlyphSearch.Index.Engine

/-!
# The nearest of many

To name a few neighbours out of many, the few are brought to the front first,
and only they are sorted. How the others lie, and in which order the few stand
before they are sorted, is up to the arrangement: `IsSelection` is all that is
asked of it. `select` is one that partitions around an element from the middle
and goes on in the part that holds the place.
-/

namespace GlyphSearch.Index

/-- Arranges a list, given a place in it. -/
abbrev Arrangement (α : Type) := Nat → List α → List α

/-- An arrangement loses nothing, and what it puts at the place has nothing
later before it and nothing earlier behind it. -/
def IsSelection {α : Type} (before : α → α → Bool) (arrange : Arrangement α) : Prop :=
  ∀ place xs, place < xs.length → (arrange place xs).Perm xs ∧
    ∀ x, (arrange place xs)[place]? = some x →
      (∀ y ∈ (arrange place xs).take place, before y x) ∧
      ∀ y ∈ (arrange place xs).drop (place + 1), before x y

/-- Takes the element in the middle out of a list. -/
def takeMiddle? {α : Type} (xs : List α) : Option (α × List α) :=
  match xs.drop (xs.length / 2) with
  | [] => none
  | pivot :: rest => some (pivot, xs.take (xs.length / 2) ++ rest)

theorem length_of_takeMiddle? {α : Type} {xs rest : List α} {pivot : α}
    (h : takeMiddle? xs = some (pivot, rest)) : rest.length < xs.length := by
  unfold takeMiddle? at h
  split at h
  · cases h
  · next tail cut =>
    cases h
    have := congrArg List.length cut
    simp only [List.length_drop, List.length_cons] at this
    simp only [List.length_append, List.length_take]
    omega

/-- Brings to a place what belongs there. -/
def select {α : Type} (before : α → α → Bool) (place : Nat) (xs : List α) : List α :=
  match taken : takeMiddle? xs with
  | none => []
  | some (pivot, rest) =>
    let low := rest.filter (before · pivot)
    let high := rest.filter (!before · pivot)
    have : low.length < xs.length :=
      Nat.lt_of_le_of_lt (List.length_filter_le ..) (length_of_takeMiddle? taken)
    have : high.length < xs.length :=
      Nat.lt_of_le_of_lt (List.length_filter_le ..) (length_of_takeMiddle? taken)
    if place < low.length then select before place low ++ pivot :: high
    else if place = low.length then low ++ pivot :: high
    else low ++ pivot :: select before (place - low.length - 1) high
termination_by xs.length

/-- The `k` nearest of the candidates, in the order in which they are named. -/
def nearestBy (arrange : Arrangement Neighbor) (candidates : List Neighbor) (k : Nat) :
    List Neighbor :=
  if k = 0 then []
  else if k < candidates.length then ranked ((arrange (k - 1) candidates).take k)
  else ranked candidates

end GlyphSearch.Index
