/-!
# Counters

What the service counts: searches by their outcome, each with one observation
of its duration; loads by their outcome, likewise; and archive members that
were unpacked.
-/

namespace GlyphSearch.Service

/-- The outcome of a search. -/
inductive Status where
  | ok
  | invalid
  | error
  deriving DecidableEq, Repr

/-- The outcome that the status of a response stands for. -/
def Status.ofCode (code : Nat) : Status :=
  if code < 400 then ok else if code < 500 then invalid else error

/-- Numbers by outcome. -/
structure Tally where
  ok : Nat
  invalid : Nat
  error : Nat
  deriving DecidableEq, Repr

def Tally.zero : Tally := ⟨0, 0, 0⟩

/-- Counts one more. -/
def Tally.count (t : Tally) : Status → Tally
  | .ok => { t with ok := t.ok + 1 }
  | .invalid => { t with invalid := t.invalid + 1 }
  | .error => { t with error := t.error + 1 }

structure Counters where
  queries : Tally
  queryDurations : Tally
  loadsOk : Nat
  loadsFailed : Nat
  loadDurations : Nat
  members : Nat
  deriving DecidableEq, Repr

namespace Counters

def zero : Counters := ⟨.zero, .zero, 0, 0, 0, 0⟩

/-- Counts a search. -/
def query (c : Counters) (s : Status) : Counters :=
  { c with queries := c.queries.count s, queryDurations := c.queryDurations.count s }

/-- Counts a load, with the members that it has unpacked. -/
def load (c : Counters) (isOk : Bool) (members : Nat) : Counters :=
  { c with
    loadsOk := if isOk then c.loadsOk + 1 else c.loadsOk
    loadsFailed := if isOk then c.loadsFailed else c.loadsFailed + 1
    loadDurations := c.loadDurations + 1
    members := c.members + members }

end Counters

/-- A family of counters: its name, what it counts, and its form. -/
structure Family where
  name : String
  help : String
  form : String

/-- All families, in the order of their names. -/
def families : List Family := [
  ⟨"hwr_archive_members_total", "Archive members extracted", "counter"⟩,
  ⟨"hwr_dataset_load_duration_seconds", "Dataset fetch, extract and open duration",
    "histogram"⟩,
  ⟨"hwr_dataset_loads_total", "Dataset load attempts", "counter"⟩,
  ⟨"hwr_queries_total", "Total search queries", "counter"⟩,
  ⟨"hwr_query_duration_seconds", "Search query duration", "histogram"⟩]

/-- The lines that describe a family. -/
def Family.describe (f : Family) : List String :=
  ["# HELP " ++ f.name ++ " " ++ f.help, "# TYPE " ++ f.name ++ " " ++ f.form]

end GlyphSearch.Service
