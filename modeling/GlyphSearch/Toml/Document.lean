import GlyphSearch.Toml.Literal
import GlyphSearch.Toml.Value

/-!
# Reading TOML documents

A document is read line by line; a value may go over several lines. A header
moves to its table, and the keys behind it are set there. What a document
means does not depend on anything but its keys and values, so they are put
into the tables as they are read.
-/

namespace GlyphSearch.Toml

/-- Values are nested less deep than this, and keys have fewer parts. -/
def depthLimit : Nat := 80

/-- Drops blanks in a line. -/
def dropBlanks (input : List Char) : List Char :=
  input.dropWhile fun c => c = ' ' || c = '\t'

/-- Drops a comment, if there is one. -/
def dropComment : List Char → List Char
  | '#' :: rest => rest.dropWhile isPlain
  | input => input

/-- Drops blanks, comments and line ends. -/
def dropBlankLines (inComment : Bool) : List Char → List Char
  | '\n' :: rest => dropBlankLines false rest
  | '\r' :: '\n' :: rest => dropBlankLines false rest
  | c :: rest =>
    if inComment then if isPlain c then dropBlankLines true rest else c :: rest
    else if c = ' ' ∨ c = '\t' then dropBlankLines false rest
    else if c = '#' then dropBlankLines true rest
    else c :: rest
  | [] => []

/-- Takes the end of a line, which may have a comment. -/
def takeLineEnd (input : List Char) : Option (List Char) :=
  match dropComment (dropBlanks input) with
  | [] => some []
  | input => takeNewline input

def isKeyChar (c : Char) : Bool :=
  ('a' ≤ c && c ≤ 'z') || ('A' ≤ c && c ≤ 'Z') || ('0' ≤ c && c ≤ '9') || c = '_' || c = '-'

/-- Takes one part of a key. -/
def takeKeyPart (input : List Char) : Option (String × List Char) :=
  let plain := input.takeWhile isKeyChar
  if plain ≠ [] then some (String.ofList plain, input.drop plain.length)
  else takeShortString input

/-- Takes a key with the blanks around its parts. -/
def takeKeyParts : Nat → List String → List Char → Option (List String × List Char)
  | 0, _, _ => none
  | fuel + 1, done, input =>
    match takeKeyPart (dropBlanks input) with
    | none => none
    | some (part, rest) =>
      match dropBlanks rest with
      | '.' :: rest => takeKeyParts fuel (part :: done) rest
      | rest => some ((part :: done).reverse, rest)

/-- Takes a key: the parts that lead to a table, and the last one. -/
def takeKey (input : List Char) : Option ((List String × String) × List Char) := do
  let (parts, rest) ← takeKeyParts depthLimit [] input
  if depthLimit ≤ parts.length then none
  return ((parts.dropLast, ← parts.getLast?), rest)

mutual

/-- Takes a value. -/
def takeValue : Nat → Nat → List Char → Option (Node × List Char)
  | 0, _, _ => none
  | fuel + 1, depth, input =>
    match input with
    | [] => none
    | c :: rest =>
      if c = '"' ∨ c = '\'' then (takeString input).map fun (s, rest) => (.string s, rest)
      else if c = '[' then
        if depth = 0 then none else takeItems fuel (depth - 1) [] rest
      else if c = '{' then
        if depth = 0 then none
        else
          match dropBlanks rest with
          | '}' :: rest => some (.inlineTable [], rest)
          | rest => takeMembers fuel (depth - 1) [] rest
      else if c = 't' then (takeWord "true" input).map fun rest => (.boolean true, rest)
      else if c = 'f' then (takeWord "false" input).map fun rest => (.boolean false, rest)
      else
        match takeTime input with
        | some rest => some (.time, rest)
        | none =>
          match takeFloat input with
          | some rest => some (.float, rest)
          | none => (takeInteger input).map fun (n, rest) => (.integer n, rest)

/-- Takes the items of an array and its end. A comma may follow the last
item. -/
def takeItems : Nat → Nat → List Node → List Char → Option (Node × List Char)
  | 0, _, _, _ => none
  | fuel + 1, depth, done, input =>
    match dropBlankLines false input with
    | ']' :: rest => some (.array done.reverse, rest)
    | input =>
      match takeValue fuel depth input with
      | none => none
      | some (item, rest) =>
        match dropBlankLines false rest with
        | ',' :: rest => takeItems fuel depth (item :: done) rest
        | ']' :: rest => some (.array (item :: done).reverse, rest)
        | _ => none

/-- Takes the members of a table in braces and its end. -/
def takeMembers : Nat → Nat → Members → List Char → Option (Node × List Char)
  | 0, _, _, _ => none
  | fuel + 1, depth, done, input =>
    match takeKey input with
    | some ((path, key), '=' :: rest) =>
      match takeValue fuel depth (dropBlanks rest) with
      | none => none
      | some (value, rest) =>
        match setInline key value path done with
        | none => none
        | some members =>
          match dropBlanks rest with
          | ',' :: rest => takeMembers fuel depth members rest
          | '}' :: rest => some (.inlineTable members, rest)
          | _ => none
    | _ => none

end

/-- What has been read of a document, and the table that keys are set in. -/
structure Progress where
  root : Members
  current : List String

/-- Takes a line that sets a key. -/
def takeSetting (p : Progress) (input : List Char) : Option (Progress × List Char) :=
  match takeKey input with
  | some ((path, key), '=' :: rest) => do
    let (value, rest) ← takeValue (2 * rest.length + 2) (depthLimit - 1) (dropBlanks rest)
    let rest ← takeLineEnd rest
    let root ← change false (setKey path key value) p.current .header p.root
    return ({ p with root }, rest)
  | _ => none

/-- Takes a header behind its opening brackets. -/
def takeHeader (p : Progress) (closing : String)
    (opening : String → Origin → Members → Option Members) (input : List Char) :
    Option (Progress × List Char) := do
  let ((path, key), rest) ← takeKey input
  let rest ← takeLineEnd (← takeWord closing rest)
  let root ← change false (opening key) path .header p.root
  return (⟨root, path ++ [key]⟩, rest)

/-- Takes lines up to the end. -/
def readLines : Nat → Progress → List Char → Option Members
  | 0, _, _ => none
  | fuel + 1, p, input =>
    match dropBlankLines false input with
    | [] => some p.root
    | '[' :: '[' :: rest =>
      match takeHeader p "]]" openNext rest with
      | some (p, rest) => readLines fuel p rest
      | none => none
    | '[' :: rest =>
      match takeHeader p "]" openTable rest with
      | some (p, rest) => readLines fuel p rest
      | none => none
    | input =>
      match takeSetting p input with
      | some (p, rest) => readLines fuel p rest
      | none => none

/-- The table that a document is. -/
def parse? (text : String) : Option Members :=
  let input := text.toList
  let input := if input.head? = some '\ufeff' then input.drop 1 else input
  readLines (input.length + 1) ⟨[], []⟩ input

end GlyphSearch.Toml
