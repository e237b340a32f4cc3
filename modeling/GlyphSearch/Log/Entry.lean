import GlyphSearch.Json.Writing
import GlyphSearch.Log.Filter

/-!
# The log

Entries that the filter lets through, in the order in which they were made. An
entry is written as one line, either as text or as a JSON document.
-/

namespace GlyphSearch

namespace Log

structure Entry where
  level : Level
  /-- The part of the program that has made it. -/
  part : String
  message : String
  /-- What the message is about, by name. -/
  details : List (String × String)
  deriving DecidableEq, Repr

/-- How entries are written. -/
inductive Format where
  | text
  | json
  deriving DecidableEq, Repr

/-- The format that settings name. -/
def Format.ofName (name : String) : Format := if name = "json" then json else text

/-- An entry as text, with the time. -/
def Entry.text (e : Entry) (time : String) : String :=
  let details := String.join (e.details.map fun (name, value) => " " ++ name ++ "=" ++ value)
  let level := String.ofList (List.replicate (5 - e.level.name.length) ' ') ++ e.level.name
  time ++ " " ++ level ++ " " ++ e.part ++ ": " ++ e.message ++ details

/-- An entry as a JSON document, with the time. -/
def Entry.json (e : Entry) (time : String) : String :=
  (Json.Value.ofFields [
    ("timestamp", .ofText time),
    ("level", .ofText e.level.name),
    ("fields", .ofFields (("message", .ofText e.message) ::
      e.details.map fun (name, value) => (name, .ofText value))),
    ("target", .ofText e.part)]).compactText

/-- An entry as a line. -/
def Entry.line (e : Entry) (format : Format) (time : String) : String :=
  match format with
  | .text => e.text time
  | .json => e.json time

end Log

structure Log where
  filter : Log.Filter
  entries : List Log.Entry

namespace Log

/-- A log that lets nothing through. -/
def silent : Log := ⟨[], []⟩

/-- Adds an entry, if it is let through. -/
def note (l : Log) (e : Entry) : Log :=
  if l.filter.admits e.part e.level then { l with entries := l.entries ++ [e] } else l

/-- Adds entries one after the other. -/
def noteAll (l : Log) (es : List Entry) : Log := es.foldl note l

end Log

end GlyphSearch
