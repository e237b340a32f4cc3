import GlyphSearch.Error
import GlyphSearch.Index.Distance

/-!
# Search engines

The query side knows of an index only that it has a dimension, a number of
vectors and a metric, and that it can name the nearest vectors. `ranked` is
the order in which neighbours are named: by the total order of distances, then
by id.
-/

namespace GlyphSearch.Index

/-- A vector that was found, and its distance from the query. -/
structure Neighbor where
  id : Nat
  distance : Single
  deriving DecidableEq, Repr

/-- Whether `a` is named no later than `b`. -/
def Neighbor.before (a b : Neighbor) : Bool :=
  a.distance.orderKey < b.distance.orderKey
    || (a.distance.orderKey = b.distance.orderKey && a.id ≤ b.id)

/-- Neighbours in the order in which they are named. -/
def ranked (neighbors : List Neighbor) : List Neighbor :=
  neighbors.mergeSort Neighbor.before

/-- An opened index. `search query k` names at most `k` neighbours of a
query. -/
structure Engine where
  dimension : Nat
  count : Nat
  metric : Metric
  search : List Single → Nat → Except Error (List Neighbor)

end GlyphSearch.Index
