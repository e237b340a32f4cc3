import GlyphSearch.Http.Handler

/-!
# Messages on a connection

A request is a line with method and target, headers, an empty line, and as
many bytes of a body as the headers state. A response is written in the same
form. Each connection carries one of each.
-/

namespace GlyphSearch.Http

open Text

/-- The bytes that end the head of a message. -/
def headEnd : Bytes := bytes "\r\n\r\n"

/-- Divides a message into its head and what follows it, if the head has
ended. -/
def splitHead (done : Bytes) : Bytes → Option (Bytes × Bytes)
  | [] => none
  | b :: rest =>
    if headEnd.isPrefixOf (b :: rest) then some (done.reverse, rest.drop (headEnd.length - 1))
    else splitHead (b :: done) rest

/-- The lines of a head. -/
def headLines (head : Bytes) : List String :=
  (head.splitOnP (· = byte '\n')).map fun line =>
    decodeLossy (if line.getLast? = some (byte '\r') then line.dropLast else line)

/-- Reads a header. -/
def readHeader? (line : String) : Option (String × String) :=
  let name := line.toList.takeWhile (· ≠ ':')
  if name = [] ∨ name.any isBlank ∨ name.length = line.toList.length then none
  else some (String.ofList name, String.ofList (trim (line.toList.drop (name.length + 1))))

/-- Reads the head of a request. -/
def readHead? (head : Bytes) : Option Request :=
  match headLines head with
  | [] => none
  | first :: rest =>
    match first.toList.splitOnP (· = ' ') with
    | [method, target, version] =>
      if method = [] ∨ target = [] ∨ ¬ "HTTP/1.".toList.isPrefixOf version then none
      else do
        let headers ← rest.mapM readHeader?
        return ⟨String.ofList method, String.ofList target, headers, []⟩
    | _ => none

/-- What has been received on a connection. -/
inductive Received where
  | incomplete
  | malformed
  | complete (r : Request)

/-- Reads what has been received. A body that is longer than the limit is not
waited for. -/
def receive (bodyLimit : Nat) (input : Bytes) : Received :=
  match splitHead [] input with
  | none => .incomplete
  | some (head, rest) =>
    match readHead? head with
    | none => .malformed
    | some r =>
      let length := (statedLength? r).getD 0
      if bodyLimit < length then .complete r
      else if rest.length < length then .incomplete
      else .complete { r with body := rest.take length }

/-- The phrase that goes with a status. -/
def reason : Nat → String
  | 200 => "OK"
  | 400 => "Bad Request"
  | 404 => "Not Found"
  | 405 => "Method Not Allowed"
  | 409 => "Conflict"
  | 413 => "Payload Too Large"
  | 500 => "Internal Server Error"
  | 503 => "Service Unavailable"
  | 504 => "Gateway Timeout"
  | _ => ""

/-- A response as it is sent. -/
def Response.toBytes (r : Response) : Bytes :=
  let headers := r.headers ++
    [("content-length", toString r.body.length), ("connection", "close")]
  let lines := ("HTTP/1.1 " ++ toString r.status ++ " " ++ reason r.status) ::
    headers.map fun (name, value) => name ++ ": " ++ value
  lines.flatMap (fun line => encode (line ++ "\r\n")) ++ encode "\r\n" ++ r.body

end GlyphSearch.Http
