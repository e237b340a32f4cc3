import GlyphSearch.Index.Selection
import GlyphSearch.Files.Tree
import GlyphSearch.Json.Record
import GlyphSearch.Json.Writing

/-!
# Flat index

All vectors are kept, and every search measures them all. On disk an index is
a directory of two files: `meta.json` with the dimension, the number of
vectors and the metric, and `vectors.bin` with the number of components in all
as eight bytes and then each component as four, lowest byte first.

The decoder of each file stands beside its encoder.
-/

namespace GlyphSearch.Index

open Files Json Text

/-- What `meta.json` tells. -/
structure Header where
  dimension : Nat
  count : Nat
  metric : Metric
  deriving DecidableEq, Repr

def headerFile : Name := bytes "meta.json"
def vectorsFile : Name := bytes "vectors.bin"

namespace Header

/-- The content of `meta.json`. -/
def encode (h : Header) : Bytes :=
  Text.encode ("\x7b\n  \"dimension\": " ++ toString h.dimension
    ++ ",\n  \"count\": " ++ toString h.count
    ++ ",\n  \"metric\": \"" ++ h.metric.name ++ "\"\n\x7d")

/-- The names of the fields, in the order that they have in an array. -/
def fields : List String := ["dimension", "count", "metric"]

/-- Reads a metric: its name, or an object with the name as its key. -/
def readMetric : Value → Option Metric
  | .object [(key, .null)] => unescape? key >>= Metric.ofName?
  | v => v.text? >>= Metric.ofName?

def ofValue? (v : Value) : Option Header := do
  let record ← v.record? fields
  return {
    dimension := ← record.required "dimension" Value.natural?
    count := ← record.required "count" Value.natural?
    metric := ← record.optional "metric" .euclidean readMetric }

/-- The header in the content of `meta.json`. -/
def decode? (content : Bytes) : Option Header := Value.ofBytes? content >>= ofValue?

end Header

/-- A natural number as eight bytes, lowest first. -/
def encodeLength (n : Nat) : Bytes :=
  (List.range 8).map fun i => UInt8.ofNat (n / Nat.pow 256 i)

/-- The number that bytes stand for, lowest first. -/
def decodeLength (bs : Bytes) : Nat := bs.foldr (fun b n => b.toNat + 256 * n) 0

/-- The content of `vectors.bin`. -/
def encodeComponents (values : List Single) : Bytes :=
  encodeLength values.length ++ values.flatMap Single.toBytes

/-- Takes `count` components, if there are as many. What has been taken is in
reverse in `done`. -/
def takeComponents (done : List Single) : Nat → Bytes → Option (List Single)
  | 0, _ => some done.reverse
  | count + 1, a :: b :: c :: d :: rest =>
    takeComponents (Single.ofBytes a b c d :: done) count rest
  | _ + 1, _ => none

/-- The components in the content of `vectors.bin`. Bytes behind the last one
are passed over. -/
def decodeComponents? (content : Bytes) : Option (List Single) :=
  if content.length < 8 then none
  else takeComponents [] (decodeLength (content.take 8)) (content.drop 8)

/-- Vectors of one dimension, by their ids. -/
structure Flat where
  dimension : Nat
  count : Nat
  metric : Metric
  components : List Single

namespace Flat

/-- Cuts components into rows; the number of rows is given. -/
def rowsOf (dimension : Nat) : Nat → List Single → List (List Single)
  | 0, _ => []
  | count + 1, components =>
    components.take dimension :: rowsOf dimension count (components.drop dimension)

/-- The vectors in the order of their ids. -/
def rows (index : Flat) : List (List Single) :=
  rowsOf index.dimension index.count index.components

/-- All vectors with their distances from a query, in the order of their
ids. -/
def measured (index : Flat) (query : List Single) : List Neighbor :=
  index.rows.mapIdx fun id row => ⟨id, distance index.metric query row⟩

/-- The `k` nearest vectors, found with a given arrangement. -/
def searchBy (arrange : Arrangement Neighbor) (index : Flat) (query : List Single) (k : Nat) :
    Except Error (List Neighbor) :=
  if query.length ≠ index.dimension then
    .error (.dimensionMismatch index.dimension query.length)
  else .ok (nearestBy arrange (index.measured query) k)

/-- The `k` nearest vectors. -/
def search (index : Flat) (query : List Single) (k : Nat) : Except Error (List Neighbor) :=
  index.searchBy (select Neighbor.before) query k

def toEngine (index : Flat) : Engine where
  dimension := index.dimension
  count := index.count
  metric := index.metric
  search := index.search

/-- Joins a header to the components that belong to it. -/
def assemble (h : Header) (components : List Single) : Except Error Flat :=
  let expected := h.count * h.dimension
  if wholeLimit ≤ expected then .error (.index (.tooLarge h.count h.dimension))
  else if components.length ≠ expected then
    .error (.index (.wrongLength components.length expected h.count h.dimension))
  else .ok ⟨h.dimension, h.count, h.metric, components⟩

/-- Opens an index, given how to read the files of its directory. -/
def openWith (read : Name → Except FileFault Bytes) : Except Error Flat := do
  let headerBytes ← (read headerFile).mapError .file
  let some h := Header.decode? headerBytes | .error .json
  if h.dimension = 0 then .error (.index .zeroDimension)
  let vectorBytes ← (read vectorsFile).mapError .file
  let some components := decodeComponents? vectorBytes | .error (.vectorData "truncated")
  assemble h components

/-- The header of an index with these rows, which have one dimension that is
not zero. -/
def headerOf (metric : Metric) (rows : List (List Single)) : Except Error Header :=
  let dimension := (rows.head?.map List.length).getD 0
  if dimension = 0 then .error (.index .noDimensions)
  else
    match rows.find? (·.length ≠ dimension) with
    | some row => .error (.dimensionMismatch dimension row.length)
    | none => .ok ⟨dimension, rows.length, metric⟩

/-- Writes an index into a directory, which is made if it is not there. -/
def write (t : Tree) (parent : Route) (directory : List Name) (metric : Metric)
    (rows : List (List Single)) : Tree × Except Error Header :=
  match headerOf metric rows with
  | .error e => (t, .error e)
  | .ok h =>
    let (t, made) := t.makeDirectories parent directory
    match made with
    | .error fault => (t, .error (.file fault))
    | .ok () =>
      let (t, written) := t.writeFile parent (directory ++ [headerFile]) h.encode
      match written with
      | .error fault => (t, .error (.file fault))
      | .ok () =>
        let (t, written) :=
          t.writeFile parent (directory ++ [vectorsFile]) (encodeComponents rows.flatten)
        (t, (written.mapError .file).map fun _ => h)

end Flat

end GlyphSearch.Index
