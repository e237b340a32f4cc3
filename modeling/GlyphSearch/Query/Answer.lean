import GlyphSearch.Dataset.Basic
import GlyphSearch.Query.Parse

/-!
# Answers

Searching an opened dataset: the query is filled to the dimension, the nearest
vectors are found, and their labels are attached in the same order. A distance
that does not fit a `Single` refuses the query as a whole.
-/

namespace GlyphSearch.Query

open Index

/-- A glyph that was found. -/
structure Hit where
  label : String
  distance : Single
  deriving DecidableEq, Repr

/-- The number of hits in an answer. -/
def resultCount : Nat := 20

/-- Attaches labels, keeping the order. -/
def resolveLabels (labels : List String) (neighbors : List Neighbor) :
    Except Error (List Hit) :=
  neighbors.mapM fun n => do
    return ⟨← Dataset.resolveLabel labels n.id, n.distance⟩

/-- The `k` glyphs nearest to a query of the index's dimension. -/
def searchFitted (d : Dataset) (query : List Single) (k : Nat) : Except Error (List Hit) := do
  let neighbors ← d.engine.search query k
  if neighbors.any (!·.distance.isFinite) then
    .error (.invalidQuery .distancesOverflow)
  else resolveLabels d.labels neighbors

/-- The `k` glyphs nearest to a query. -/
def search (d : Dataset) (query : List Single) (k : Nat) : Except Error (List Hit) := do
  searchFitted d (← fitDimension query d.engine.dimension) k

/-- Refuses a client that was made for another version. -/
def checkVersion (d : Dataset) (version : String) : Except Error Unit :=
  if version = d.version then .ok () else .error (.versionMismatch d.version version)

/-- What comes before the search: the version of the client, if it names one,
and the dimension of the query. Gives the query that the index is searched
for. -/
def prepare (d : Dataset) (query : List Single) (version : Option String) :
    Except Error (List Single) := do
  checkVersion d (version.getD Dataset.defaultVersion)
  fitDimension query d.engine.dimension

/-- A result as a document: pairs of label and distance. -/
def resultDocument (hits : List Hit) : Json.Value :=
  .array (hits.map fun h => .array [.ofText h.label, .ofSingle h.distance])

/-- The text of a result. -/
def resultText (hits : List Hit) : String := (resultDocument hits).compactText

end GlyphSearch.Query
