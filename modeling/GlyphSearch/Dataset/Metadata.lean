import GlyphSearch.Decimal.Layout
import GlyphSearch.Index.Engine
import GlyphSearch.Json.Record

/-!
# Metadata

What the build of a dataset tells about it: the version that clients have to
name, the time of the dump it was built from, and the expected size of the
index. All of it may be missing.

The version is a text or a number; a number means the text that it is written
as.
-/

namespace GlyphSearch.Dataset

open Json

/-- The version of a dataset that names none, and of a client that names
none. -/
def defaultVersion : String := "1"

structure Metadata where
  /-- Milliseconds since the epoch. -/
  dumpTime : Option Double
  itemCount : Option Nat
  version : String
  dimension : Option Nat
  deriving DecidableEq

namespace Metadata

def default : Metadata := ⟨none, none, defaultVersion, none⟩

/-- The names of the fields, in the order that they have in an array. -/
def fields : List String := ["dumpTime", "numItems", "v", "dimen"]

/-- The text that a number is written as. -/
def numberText : Number → String
  | .whole n => toString n
  | .real d => d.text

/-- Reads a version. -/
def readVersion : Value → Option String
  | .number literal => (Number.ofLiteral? literal).map numberText
  | v => v.text?

def readTime (v : Value) : Option Double := v.number?.map Number.toDouble

/-- The metadata that a document gives. -/
def ofValue? (v : Value) : Option Metadata := do
  let record ← v.record? fields
  return {
    dumpTime := ← record.optional "dumpTime" none (Value.nullable readTime)
    itemCount := ← record.optional "numItems" none (Value.nullable Value.natural?)
    version := ← record.optional "v" defaultVersion readVersion
    dimension := ← record.optional "dimen" none (Value.nullable Value.natural?) }

/-- The metadata in the content of a file. -/
def parse (content : Bytes) : Except Error Metadata :=
  match Value.ofBytes? content >>= ofValue? with
  | some m => .ok m
  | none => .error .json

/-- The recorded size, where there is one, has to be that of the index. -/
def check (m : Metadata) (count dimension : Nat) : Except Error Unit :=
  if m.itemCount.any (· ≠ count) then
    .error (.consistency (.itemCount (m.itemCount.getD 0) count))
  else if m.dimension.any (· ≠ dimension) then
    .error (.consistency (.dimension (m.dimension.getD 0) dimension))
  else .ok ()

end Metadata

end GlyphSearch.Dataset
