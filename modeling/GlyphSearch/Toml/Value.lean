/-!
# TOML documents

A document is a table of nodes. A node is a plain value, a table that headers
and dotted keys may still add to, or a list of such tables. How a table came
about decides what may be added to it: `[a.b]` makes `b` and, unless it is
there, `a` in passing; `a.b = 1` makes `a` by a dotted key.

Of numbers with a fraction and of times only the kind is kept, as nothing is
configured with them.
-/

namespace GlyphSearch.Toml

/-- How a table came about. -/
inductive Origin where
  /-- By its own header. -/
  | header
  /-- In passing, on the way to a table below it. -/
  | passing
  /-- By a dotted key. -/
  | dotted
  deriving DecidableEq, Repr

inductive Node where
  | string (value : String)
  | integer (value : Int)
  | boolean (value : Bool)
  | float
  | time
  | array (items : List Node)
  /-- A table in braces, to which nothing can be added. -/
  | inlineTable (members : List (String × Node))
  | table (origin : Origin) (members : List (String × Node))
  /-- Tables that share a header in double brackets. -/
  | tables (items : List (List (String × Node)))
  deriving Inhabited

/-- The keys of a table with their nodes. -/
abbrev Members := List (String × Node)

/-- Puts a node in place of the one that a key has. -/
def replace (members : Members) (key : String) (node : Node) : Members :=
  members.map fun (k, n) => if k = key then (k, node) else (k, n)

/-- Adds a key that is not there yet. -/
def Members.add? (members : Members) (key : String) (node : Node) : Option Members :=
  match members.lookup key with
  | none => some (members ++ [(key, node)])
  | some _ => none

/-- Changes the table that a path of keys leads to, making tables on the way;
the last of several tables stands for them. A dotted key does not reach tables
that have a header of their own. -/
def change (isDotted : Bool) (f : Origin → Members → Option Members) :
    List String → Origin → Members → Option Members
  | [], origin, members => f origin members
  | key :: path, _, members =>
    match members.lookup key with
    | none => do
      let made := if isDotted then .dotted else .passing
      return members ++ [(key, .table made (← change isDotted f path made []))]
    | some (.table origin below) =>
      if isDotted ∧ origin = .header then none
      else do
        return replace members key (.table origin (← change isDotted f path origin below))
    | some (.tables items) => do
      let last ← items.getLast?
      return replace members key
        (.tables (items.dropLast ++ [← change isDotted f path .header last]))
    | some _ => none

/-- Sets a key in a table. A dotted key adds only to tables made by dotted
keys. -/
def setKey (path : List String) (key : String) (node : Node) (origin : Origin)
    (members : Members) : Option Members :=
  if path = [] then members.add? key node
  else
    change true
      (fun reached members => if reached = .dotted then members.add? key node else none)
      path origin members

/-- Opens the table of a header. It must not have been opened before. -/
def openTable (key : String) (_ : Origin) (members : Members) : Option Members :=
  match members.lookup key with
  | none => some (members ++ [(key, .table .header [])])
  | some (.table .passing below) => some (replace members key (.table .header below))
  | some _ => none

/-- Adds a table to those of a header in double brackets. -/
def openNext (key : String) (_ : Origin) (members : Members) : Option Members :=
  match members.lookup key with
  | none => some (members ++ [(key, .tables [[]])])
  | some (.tables items) => some (replace members key (.tables (items ++ [[]])))
  | some _ => none

/-- Sets a key of a table in braces; a path leads through tables that other
keys of the same braces have made. -/
def setInline (key : String) (node : Node) : List String → Members → Option Members
  | [], members => members.add? key node
  | step :: path, members =>
    match members.lookup step with
    | none => do
      return members ++ [(step, .table .dotted (← setInline key node path []))]
    | some (.table origin below) => do
      return replace members step (.table origin (← setInline key node path below))
    | some _ => none

end GlyphSearch.Toml
