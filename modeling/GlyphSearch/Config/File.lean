import GlyphSearch.Config.Basic
import GlyphSearch.Toml.Document

/-!
# Configuration files

A file has a table for each group of settings. Settings that are not there
keep their defaults, and keys that are no setting are passed over. A group may
also be an array of its settings in their order.
-/

namespace GlyphSearch.Config

open Storage Toml

/-- The settings of a group that are there, by name. -/
abbrev Group := Members

/-- The group that a node is, for the names of its settings in order. -/
def group? (names : List String) : Node → Option Group
  | .table _ members => some members
  | .inlineTable members => some members
  | .array items => some (names.zip items)
  | .tables items => some (names.zip (items.map (.table .header ·)))
  | _ => none

/-- Reads a setting that may be absent. -/
def Group.read {α : Type} (g : Group) (name : String) (absent : α)
    (read : Node → Option α) : Option α :=
  match g.lookup name with
  | none => some absent
  | some node => read node

def readString : Node → Option String
  | .string s => some s
  | _ => none

def readBool : Node → Option Bool
  | .boolean b => some b
  | _ => none

/-- Reads a natural number below a limit. -/
def readNat (limit : Nat) : Node → Option Nat
  | .integer n => if 0 ≤ n ∧ n < limit then some n.toNat else none
  | _ => none

/-- Whether a node has nothing in it. -/
def isEmptyNode : Node → Bool
  | .array [] | .inlineTable [] | .table _ [] | .tables [] => true
  | _ => false

/-- Reads a backend: its name, or a table with the name as a key that has
nothing in it. -/
def readBackend : Node → Option Backend
  | .string s => Backend.ofName? s
  | .inlineTable [(key, node)] => if isEmptyNode node then Backend.ofName? key else none
  | .table _ ((key, node) :: _) => if isEmptyNode node then Backend.ofName? key else none
  | _ => none

/-- Ports are below this. -/
def portLimit : Nat := Nat.pow 2 16

/-- Other numbers are below this. -/
def numberLimit : Nat := Nat.pow 2 64

def readServer (node : Node) : Option ServerSettings := do
  let d := ServerSettings.default
  let g ← group? ["host", "port", "request_timeout_secs", "max_body_bytes"] node
  return {
    host := ← g.read "host" d.host readString
    port := ← g.read "port" d.port (readNat portLimit)
    requestTimeout := ← g.read "request_timeout_secs" d.requestTimeout (readNat numberLimit)
    bodyLimit := ← g.read "max_body_bytes" d.bodyLimit (readNat numberLimit) }

def readDataset (node : Node) : Option DatasetSettings := do
  let d := DatasetSettings.default
  let g ← group? ["local_path", "archive_path", "bucket", "object", "backend", "index_subpath",
    "labels_file", "metadata_file", "load_timeout_secs", "warmup_on_start"] node
  let text := fun node => (readString node).map some
  return {
    localPath := ← g.read "local_path" d.localPath text
    archivePath := ← g.read "archive_path" d.archivePath text
    bucket := ← g.read "bucket" d.bucket text
    object := ← g.read "object" d.object text
    backend := ← g.read "backend" d.backend readBackend
    indexPath := ← g.read "index_subpath" d.indexPath readString
    labelsPath := ← g.read "labels_file" d.labelsPath readString
    metadataPath := ← g.read "metadata_file" d.metadataPath readString
    loadTimeout := ← g.read "load_timeout_secs" d.loadTimeout (readNat numberLimit)
    warmup := ← g.read "warmup_on_start" d.warmup readBool }

def readLogging (node : Node) : Option LogSettings := do
  let d := LogSettings.default
  let g ← group? ["level", "format"] node
  return {
    level := ← g.read "level" d.level readString
    format := ← g.read "format" d.format readString }

/-- The settings that a document gives. -/
def ofMembers? (members : Members) : Option Settings := do
  let d := Settings.default
  return {
    server := ← Group.read members "server" d.server readServer
    dataset := ← Group.read members "dataset" d.dataset readDataset
    logging := ← Group.read members "logging" d.logging readLogging }

/-- The settings in the text of a file. -/
def ofText (text : String) : Except Error Settings :=
  match parse? text >>= ofMembers? with
  | some s => .ok s
  | none => .error (.config .unreadable)

/-- The settings in the content of a file. -/
def ofContent (content : Bytes) : Except Error Settings :=
  match Text.decode? content with
  | some text => ofText text
  | none => .error (.config .unreadable)

end GlyphSearch.Config
