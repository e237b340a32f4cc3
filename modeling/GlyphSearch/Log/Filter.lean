import GlyphSearch.Text.Blank

/-!
# What is logged

A filter is a list of directives. Each lets entries of some parts of the
program through, up to a level; of the directives that are about a part, the
one that names it most closely decides. In text, directives stand between
commas: a level is about every part, and `part=level` about those parts whose
names begin so. A part without a level lets everything through.
-/

namespace GlyphSearch.Log

open Text

/-- How urgent an entry is. -/
inductive Level where
  | error
  | warn
  | info
  | debug
  | trace
  deriving DecidableEq, Repr

namespace Level

def name : Level → String
  | error => "ERROR"
  | warn => "WARN"
  | info => "INFO"
  | debug => "DEBUG"
  | trace => "TRACE"

/-- From one, for the most urgent, upwards. -/
def rank : Level → Nat
  | error => 1
  | warn => 2
  | info => 3
  | debug => 4
  | trace => 5

end Level

/-- How many levels are let through, beginning with the most urgent. -/
abbrev Threshold := Nat

/-- Reads a threshold: a word in any case, or a number. -/
def threshold? (word : String) : Option Threshold :=
  let words := ["off", "error", "warn", "info", "debug", "trace"]
  let number := words.idxOf (lowerAscii word)
  if number < words.length then some number
  else ["0", "1", "2", "3", "4", "5"].idxOf? word

/-- Everything is let through. -/
def everything : Threshold := Level.trace.rank

/-- A directive is about the parts whose names begin with `part`. -/
structure Directive where
  part : String
  threshold : Threshold
  deriving DecidableEq, Repr

/-- Whether a character may stand in the name of a part. -/
def isPartChar (c : Char) : Bool := c.isAlphanum || c = '_' || c = ':' || c = '-'

/-- Reads a directive. -/
def Directive.parse? (text : String) : Option Directive :=
  match threshold? text with
  | some threshold => some ⟨"", threshold⟩
  | none =>
    let name := text.toList.takeWhile isPartChar
    let part := String.ofList name
    let part := if (threshold? part).isSome then "" else part
    if name = [] then none
    else
      match text.toList.drop name.length with
      | [] | ['='] => some ⟨part, everything⟩
      | '=' :: word => (threshold? (String.ofList word)).map (⟨part, ·⟩)
      | _ => none

abbrev Filter := List Directive

namespace Filter

/-- The parts of a text between commas that are not empty. -/
def parts (text : String) : List String :=
  ((text.toList.splitOnP (· = ',')).filter (· ≠ [])).map String.ofList

/-- Reads a filter, if every directive can be read. -/
def parse? (text : String) : Option Filter := (parts text).mapM Directive.parse?

/-- Reads a filter without the directives that cannot be read. If nothing is
left, errors are let through. -/
def parse (text : String) : Filter :=
  match (parts text).filterMap Directive.parse? with
  | [] => [⟨"", Level.error.rank⟩]
  | filter => filter

/-- Of two directives, the one that names its parts more closely; the second
if they are alike. -/
def closer (a b : Directive) : Directive :=
  if b.part.length < a.part.length then a else b

/-- How much of a part is let through. -/
def threshold (f : Filter) (part : String) : Threshold :=
  match f.filter fun d => d.part.isPrefixOf part with
  | [] => 0
  | d :: rest => (rest.foldl closer d).threshold

/-- Whether an entry of a part is let through. -/
def admits (f : Filter) (part : String) (level : Level) : Bool :=
  level.rank ≤ f.threshold part

end Filter

end GlyphSearch.Log
