import GlyphSearch.Error
import GlyphSearch.Json.Writing
import GlyphSearch.Text.Blank

/-!
# Requests and responses

A request as it has been received, and the response to it. The names of
headers are compared without regard to case.
-/

namespace GlyphSearch.Http

open Text

structure Request where
  method : String
  /-- Path and query string, with or without scheme and host before them. -/
  target : String
  headers : List (String × String)
  body : Bytes

structure Response where
  status : Nat
  headers : List (String × String)
  body : Bytes

/-- The value of the first header with a name in lower case. -/
def Request.header? (r : Request) (name : String) : Option String :=
  (r.headers.find? fun (n, _) => lowerAscii n = name).map (·.2)

/-- The part of a target behind scheme and host. -/
def dropHost (target : List Char) : List Char :=
  let scheme := target.takeWhile fun c => c ≠ ':' && c ≠ '/' && c ≠ '?'
  match target.drop scheme.length with
  | ':' :: '/' :: '/' :: rest => rest.dropWhile fun c => c ≠ '/' && c ≠ '?'
  | _ => target

/-- Path and query of a target, without a fragment. -/
def Request.parts (r : Request) : List Char × List Char :=
  let target := (dropHost r.target.toList).takeWhile (· ≠ '#')
  let path := target.takeWhile (· ≠ '?')
  (if path = [] then ['/'] else path, (target.drop path.length).drop 1)

/-- The path of a target. -/
def Request.path (r : Request) : String := String.ofList r.parts.1

/-- The query string of a target. -/
def Request.query (r : Request) : Bytes := encode (String.ofList r.parts.2)

namespace Response

def empty (status : Nat) : Response := ⟨status, [], []⟩

/-- A response with a text. -/
def text (status : Nat) (contentType body : String) : Response :=
  ⟨status, [("content-type", contentType)], encode body⟩

/-- A response with a document. -/
def json (status : Nat) (body : Json.Value) : Response :=
  ⟨status, [("content-type", "application/json")], body.compact⟩

/-- The response that reports an error. -/
def ofError (e : Error) : Response :=
  json e.status (.ofFields [("error", .ofText e.message), ("status", .ofNat e.status)])

/-- Adds headers. -/
def withHeaders (r : Response) (headers : List (String × String)) : Response :=
  { r with headers := r.headers ++ headers }

/-- Leaves out the body. -/
def withoutBody (r : Response) : Response := { r with body := [] }

end Response

end GlyphSearch.Http
