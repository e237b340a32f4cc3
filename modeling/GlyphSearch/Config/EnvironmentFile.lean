import GlyphSearch.Config.Overrides
import GlyphSearch.Files.Disk

/-!
# Variables from a file

A file named `.env` sets variables that the environment does not set. Each
line assigns a value to a key, after an optional `export`. In a value, quotes
keep blanks and line ends; a backslash takes the meaning from the next
character; and outside of single quotes, `$` and a name stand for the value of
a variable, or else for the value that the file has given to this key before.
A comment is a line of its own, or follows a blank.

Reading ends at the first line that is not of this form. What the lines before
it have set stays.
-/

namespace GlyphSearch.Config

open Text Files

namespace EnvironmentFile

/-! ## Lines -/

/-- Where a reader that looks for the end of a line stands. -/
inductive Place where
  | plain
  /-- After a blank that may begin a comment. -/
  | blank
  | escaped
  | single
  | singleEscaped
  | double
  | doubleEscaped
  deriving DecidableEq

/-- Where a character outside of quotes leads to. -/
def Place.open : Char → Place
  | '\\' => escaped
  | '"' => double
  | '\'' => single
  | _ => plain

/-- Where a character leads to. -/
def Place.step : Place → Char → Place
  | plain, c => if isBlank c && c ≠ '\n' && c ≠ '\r' then blank else Place.open c
  | blank, c => Place.open c
  | escaped, _ => plain
  | single, c => if c = '\\' then singleEscaped else if c = '\'' then plain else single
  | singleEscaped, _ => single
  | double, c => if c = '\\' then doubleEscaped else if c = '"' then plain else double
  | doubleEscaped, _ => double

/-- Takes a line without its comment, and what follows it. A line goes on
behind its end if that is quoted. Fails if the text ends inside of a line. -/
def takeLine (place : Place) (done : List Char) : List Char → Option (List Char × List Char)
  | [] => if place = .plain then some (done.reverse, []) else none
  | c :: rest =>
    if place = .blank ∧ c = '#' then some (done.reverse, (rest.dropWhile (· ≠ '\n')).drop 1)
    else if c = '\n' ∧ place.step c = .plain then some (done.reverse, rest)
    else takeLine (place.step c) (c :: done) rest

/-- The lines of a text that has at most so many of them, without those that
are comments, up to one that does not end. -/
def lines : Nat → List Char → List (List Char)
  | 0, _ => []
  | _, [] => []
  | fuel + 1, text =>
    let first := text.takeWhile (· ≠ '\n')
    if (first.dropWhile isBlank).head? = some '#' then
      lines fuel ((text.drop first.length).drop 1)
    else
      match takeLine .plain [] text with
      | some (line, rest) => line :: lines fuel rest
      | none => []

/-! ## Values -/

/-- A reference to a variable that is being read. -/
inductive Reference where
  | none
  | bare (name : List Char)
  | braced (name : List Char)

/-- How far a value has been read. -/
structure Value where
  /-- What has been read, the last character first. -/
  done : List Char
  quote : Option Char
  escaped : Bool
  reference : Reference
  /-- Only blanks and a comment may follow. -/
  isOver : Bool

namespace Value

def start : Value := ⟨[], none, false, .none, false⟩

def push (v : Value) (c : Char) : Value := { v with done := c :: v.done }

/-- Ends a reference. -/
def insert (lookup : String → String) (name : List Char) (v : Value) : Value :=
  { v with
    done := (lookup (String.ofList name.reverse)).toList.reverse ++ v.done
    reference := .none }

/-- Reads a character behind a backslash. -/
def stepEscaped (v : Value) (c : Char) : Option Value :=
  let v := { v with escaped := false }
  if c = 'n' then some (v.push '\n')
  else if ['\\', '\'', '"', '$', ' '].contains c then some (v.push c)
  else none

/-- Reads a character behind `$` and a part of a name. Whatever ends a name
without braces belongs to the value. -/
def stepBare (lookup : String → String) (v : Value) (name : List Char) (c : Char) : Value :=
  if c.isAlphanum then { v with reference := .bare (c :: name) }
  else if c = '\x7b' ∧ name = [] then { v with reference := .braced [] }
  else
    let v := v.insert lookup name
    if c = '$' then { v with reference := .bare [] } else v.push c

/-- Reads a character of a name in braces. -/
def stepBraced (lookup : String → String) (v : Value) (name : List Char) (c : Char) : Value :=
  if c = '\x7d' then v.insert lookup name else { v with reference := .braced (c :: name) }

/-- Reads a character that is no part of anything begun before, except perhaps
of double quotes. -/
def stepPlain (v : Value) (c : Char) : Value :=
  if c = '$' then { v with reference := .bare [] }
  else if c = '\\' then { v with escaped := true }
  else if v.quote.isSome then if c = '"' then { v with quote := none } else v.push c
  else if c = '\'' ∨ c = '"' then { v with quote := some c }
  else if c = ' ' ∨ c = '\t' then { v with isOver := true }
  else v.push c

/-- Reads a character. -/
def step (lookup : String → String) (v : Value) (c : Char) : Option Value :=
  if v.isOver then if c = ' ' ∨ c = '\t' then some v else none
  else if v.escaped then v.stepEscaped c
  else if v.quote = some '\'' then
    some (if c = '\'' then { v with quote := none } else v.push c)
  else
    match v.reference with
    | .bare name => some (v.stepBare lookup name c)
    | .braced name => some (v.stepBraced lookup name c)
    | .none => some (v.stepPlain c)

/-- Reads characters up to a comment. -/
def read (lookup : String → String) (v : Value) : List Char → Option Value
  | [] => some v
  | c :: rest =>
    if v.isOver ∧ c = '#' then some v
    else
      match v.step lookup c with
      | some v => v.read lookup rest
      | none => none

/-- The text of a value that has been read to its end. -/
def finish (lookup : String → String) (v : Value) : Option String :=
  let text := fun (v : Value) => some (String.ofList v.done.reverse)
  match v.quote, v.reference with
  | some _, _ | _, .braced _ => none
  | none, .bare name => text (v.insert lookup name)
  | none, .none => text v

/-- The value that a text stands for. -/
def parse (lookup : String → String) (text : List Char) : Option String :=
  (start.read lookup text).bind (finish lookup)

end Value

/-! ## Assignments -/

def isKeyStart (c : Char) : Bool := c.isAlpha || c = '_'

def isKeyChar (c : Char) : Bool := c.isAlphanum || c = '_' || c = '.'

/-- Takes a key and the blanks behind it. -/
def takeKey (line : List Char) : Option (String × List Char) :=
  if line.head?.any isKeyStart then
    let key := line.takeWhile isKeyChar
    some (String.ofList key, (line.drop key.length).dropWhile isBlank)
  else none

/-- Takes a key and the sign behind it. A word `export` before the key means
nothing, unless it is the key. -/
def takeAssigned (line : List Char) : Option (String × List Char) := do
  match ← takeKey line with
  | (key, '=' :: rest) => return (key, rest)
  | ("export", rest) =>
    match ← takeKey rest with
    | (key, '=' :: rest) => return (key, rest)
    | _ => none
  | _ => none

/-- What lines have been read. -/
structure Progress where
  /-- The variables that they have set. -/
  set : List (String × String)
  /-- The values that they have given to keys, the last one first. -/
  given : List (String × String)

/-- The environment with the variables that have been set. -/
def Progress.environment (p : Progress) (env : Environment) : Environment :=
  fun name => (env name).or (p.set.lookup name)

/-- What a reference to a name stands for. -/
def Progress.lookup (p : Progress) (env : Environment) (name : String) : String :=
  ((p.environment env name).or (p.given.lookup name)).getD ""

/-- Gives a value to a key. A variable that is set keeps its value. -/
def Progress.assign (p : Progress) (env : Environment) (key value : String) : Progress where
  set := if (p.environment env key).isSome then p.set else (key, value) :: p.set
  given := (key, value) :: p.given

/-- Reads a line. -/
def Progress.readLine (p : Progress) (env : Environment) (line : List Char) :
    Option Progress := do
  let line := trim line
  if line = [] ∨ line.head? = some '#' then return p
  let (key, rest) ← takeAssigned line
  let rest := rest.dropWhile isBlank
  if rest = [] ∨ rest.head? = some '#' then return p.assign env key ""
  return p.assign env key (← Value.parse (p.lookup env) rest)

/-- Reads lines up to one that cannot be read. -/
def Progress.readLines (p : Progress) (env : Environment) : List (List Char) → Progress
  | [] => p
  | line :: rest =>
    match p.readLine env line with
    | some p => p.readLines env rest
    | none => p

/-! ## Files -/

/-- The text up to a line that is not encoded properly, without a mark at its
beginning. -/
def decodeLines (content : Bytes) : List Char :=
  let content := if [0xef, 0xbb, 0xbf].isPrefixOf content then content.drop 3 else content
  let lines := (content.splitOnP (· = byte '\n')).map decode?
  let readable := (lines.takeWhile Option.isSome).map fun line => (line.getD "").toList
  if readable.length = lines.length then (readable.intersperse ['\n']).flatten
  else (readable.map (· ++ ['\n'])).flatten

/-- The environment, with the variables that the content of a file sets. -/
def extend (content : Bytes) (env : Environment) : Environment :=
  let text := decodeLines content
  ((⟨[], []⟩ : Progress).readLines env (lines (text.length + 1) text)).environment env

/-- The name of the file. -/
def fileName : Name := bytes ".env"

/-- The content of the file in the working directory, or in the closest
directory above it that has one. -/
def find (d : Disk) : Option Bytes :=
  let depth := d.workingDirectory.length
  (List.range (depth + 1)).findSome? fun up =>
    let directory := d.workingDirectory.take (depth - up)
    match d.tree.get? (directory ++ [fileName]) with
    | some (.file content) => some content
    | some (.link _) =>
      match d.tree.follow directory [fileName] with
      | .ok (_, .file content) => some content
      | _ => none
    | _ => none

end EnvironmentFile

/-- The environment, with the variables that a file on disk sets. -/
def Environment.extendFrom (env : Environment) (d : Disk) : Environment :=
  match EnvironmentFile.find d with
  | some content => EnvironmentFile.extend content env
  | none => env

end GlyphSearch.Config
