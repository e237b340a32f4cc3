import GlyphSearch.Json.Text
import GlyphSearch.Json.Number

/-!
# Records in JSON documents

A record with named fields is an object, or an array of the fields in their
order. In an object, the keys have to be well-formed text and no field may be
there twice; keys that no field has are passed over.
-/

namespace GlyphSearch.Json

/-- The fields of a record that are present, by name. -/
abbrev Record := List (String × Value)

/-- Gives the keys of members as text. -/
def readKeys (members : List (Bytes × Value)) : Option Record :=
  members.mapM fun (key, value) => (unescape? key).map (·, value)

/-- Whether no field is there twice. -/
def fieldsDistinct (fields : List String) (record : Record) : Bool :=
  fields.all fun field => (record.filter (·.1 = field)).length ≤ 1

/-- The record that a document is, for the names of its fields in order. -/
def Value.record? (fields : List String) : Value → Option Record
  | .object members => do
    let record ← readKeys members
    if fieldsDistinct fields record then some record else none
  | .array items =>
    if items.length ≤ fields.length then some (fields.zip items) else none
  | _ => none

/-- Reads a field that may be absent. -/
def Record.optional {α : Type} (record : Record) (field : String) (absent : α)
    (read : Value → Option α) : Option α :=
  match record.lookup field with
  | none => some absent
  | some value => read value

/-- Reads a field that has to be there. -/
def Record.required {α : Type} (record : Record) (field : String)
    (read : Value → Option α) : Option α :=
  record.lookup field >>= read

/-- Reads `null` as nothing. -/
def Value.nullable {α : Type} (read : Value → Option α) : Value → Option (Option α)
  | .null => some none
  | v => (read v).map some

end GlyphSearch.Json
