import GlyphSearch.Http.Handler

/-!
# Routing

Which handler a request goes to. Every response allows requests from
everywhere, and the question whether a request would be allowed is answered
before anything else. A request that states too long a body is refused on
every path.
-/

namespace GlyphSearch.Http

/-- The handlers of a path by method, and what a client is told of the
methods. -/
structure Route where
  path : String
  allowed : String
  handler? : String → Option Handler

/-- Runs a handler without sending its body. -/
def headOf (h : Handler) : Handler := fun r s =>
  let (s, response) := h r s
  (s, response.withoutBody)

/-- The handlers of a path that can be read. -/
def readOnly (get : Handler) : String → Option Handler
  | "GET" => some get
  | "HEAD" => some (headOf get)
  | _ => none

/-- The handlers of a path that takes orders. -/
def orderOnly (post : Handler) : String → Option Handler
  | "POST" => some post
  | _ => none

/-- All paths. -/
def routes : List Route := [
  ⟨"/", "GET,HEAD,POST",
    fun method => (readOnly searchUrl method).or (orderOnly searchForm method)⟩,
  ⟨"/warmup", "POST", orderOnly warmUp⟩,
  ⟨"/healthz", "GET,HEAD", readOnly health⟩,
  ⟨"/metrics", "GET,HEAD", readOnly metrics⟩]

/-- Headers of every response. -/
def sharedHeaders : List (String × String) := [
  ("access-control-allow-origin", "*"),
  ("vary", "origin, access-control-request-method, access-control-request-headers")]

/-- Headers that answer the question whether a request would be allowed. -/
def permissionHeaders : List (String × String) := [
  ("access-control-allow-methods", "*"),
  ("access-control-allow-headers", "content-type"),
  ("access-control-max-age", "3600")]

/-- Whether a request states a body that is too long. -/
def statesTooMuch (bodyLimit : Nat) (r : Request) : Bool :=
  (statedLength? r).any (bodyLimit < ·)

/-- The refusal of a body that is too long. -/
def tooLong : Response := .text 413 "text/plain; charset=utf-8" "length limit exceeded"

/-- Answers before and after a handler: the question whether a request would be
allowed, the limit of the body, and the headers of every response. -/
def guarded (h : Handler) : Handler := fun r s =>
  if r.method = "OPTIONS" then
    (s, (Response.empty 200).withHeaders (permissionHeaders ++ sharedHeaders))
  else if statesTooMuch s.bodyLimit r then (s, tooLong.withHeaders sharedHeaders)
  else
    let (s, response) := h r s
    (s, response.withHeaders sharedHeaders)

/-- Answers with a status alone. -/
def refuse (status : Nat) : Handler := fun _ s => (s, .empty status)

/-- Answers a request. -/
def respond : Handler := fun r s =>
  match routes.find? (·.path = r.path) with
  | none => guarded (refuse 404) r s
  | some route =>
    match route.handler? r.method with
    | some h => guarded h r s
    | none =>
      let (s, response) := guarded (refuse 405) r s
      (s, response.withHeaders [("allow", route.allowed)])

end GlyphSearch.Http
