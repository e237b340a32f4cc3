import GlyphSearch.Http.Form
import GlyphSearch.Http.Message
import GlyphSearch.Service.State

/-!
# Handlers

What the service does for each kind of request. A search takes its fields from
the query string; if a form is sent, the fields of the form come first and
those of the query string fill the rest.
-/

namespace GlyphSearch.Http

open Service

/-- What a handler does. -/
abbrev Handler := Request → Service → Service × Response

/-- The content type of forms. -/
def formType : String := "application/x-www-form-urlencoded"

/-- No form may be longer than this, whatever the settings allow. -/
def formLimit : Nat := 2 * 1024 * 1024

/-- Whether the bytes of a header can be read as text. -/
def isReadable (value : String) : Bool :=
  value.toList.all fun c => c = '\t' || (0x20 ≤ c.toNat && c.toNat < 0x7f)

/-- Whether a request carries a form. -/
def hasForm (r : Request) : Bool :=
  (r.header? "content-type").any fun value => isReadable value && formType.isPrefixOf value

/-- The length that a request states for its body, if it can be read. -/
def statedLength? (r : Request) : Option Nat :=
  (r.header? "content-length").bind fun value =>
    let digits := match value.toList with
      | '+' :: rest => rest
      | cs => cs
    if digits = [] ∨ ¬ digits.all Decimal.isDigit then none
    else
      let n := Decimal.ofDigits digits
      if n < Nat.pow 2 64 then some n else none

/-- The bytes that are read of a form. -/
def readLimit (bodyLimit : Nat) (r : Request) : Nat :=
  min (min bodyLimit formLimit) ((statedLength? r).getD bodyLimit)

/-- The fields of the query string. -/
def urlFields (r : Request) : Except Error SearchFields :=
  (SearchFields.parse r.query).mapError fun field => .invalidQuery (.repeatedUrlField field)

/-- The fields of a form, if the request carries one. -/
def formFields (bodyLimit : Nat) (r : Request) : Except Error SearchFields :=
  if ¬ hasForm r then .ok .empty
  else if readLimit bodyLimit r < r.body.length then .error (.invalidQuery .formTooLong)
  else
    (SearchFields.parse r.body).mapError fun field => .invalidQuery (.repeatedFormField field)

/-- Answers a search that is well formed, and counts it. -/
def runSearch (fields : SearchFields) (s : Service) : Service × Response :=
  let query := fields.query.getD ""
  if query = "" then
    ({ s with counters := s.counters.query .invalid }, .ofError (.invalidQuery .missing))
  else
    match s.handle query fields.version with
    | (s, .ok hits) =>
      ({ s with counters := s.counters.query .ok }, .json 200 (Query.resultDocument hits))
    | (s, .error e) =>
      ({ s with counters := s.counters.query (.ofCode e.status) }, .ofError e)

/-- A search with the fields of the query string. -/
def searchUrl : Handler := fun r s =>
  match urlFields r with
  | .error e => (s, .ofError e)
  | .ok fields => runSearch fields s

/-- A search that may have a form. -/
def searchForm : Handler := fun r s =>
  match urlFields r with
  | .error e => (s, .ofError e)
  | .ok url =>
    match formFields s.bodyLimit r with
    | .error e => (s, .ofError e)
    | .ok form => runSearch (form.or url) s

/-- What is told of a dataset that has been loaded. -/
def datasetDocument (d : Dataset) (loadedAt : String) : Json.Value :=
  .ofFields [
    ("num_items", .ofNat d.engine.count),
    ("dimension", .ofNat d.engine.dimension),
    ("metric", .ofText d.engine.metric.name),
    ("v", .ofText d.version),
    ("dump_time", d.metadata.dumpTime.elim .null .ofDouble),
    ("loaded_at", .ofText loadedAt)]

/-- Loads the dataset, and tells what was loaded. -/
def warmUp : Handler := fun _ s =>
  match s.get with
  | (s, .error e) => (s, .ofError e)
  | (s, .ok d) => (s, .json 200 (datasetDocument d s.now))

/-- Tells whether the service is ready. -/
def health : Handler := fun _ s =>
  let stage := s.stage
  let word := if stage = .ready then "ok" else stage.name
  (s, .json (if stage = .ready then 200 else 503)
    (.ofFields [("dataset", .ofText stage.name), ("status", .ofText word)]))

/-- A number of a family, for one value of its label. -/
def sample (family label : String) (n : Nat) : String :=
  family ++ "\x7bstatus=\"" ++ label ++ "\"\x7d " ++ toString n

/-- The numbers of a family of counters. -/
def samples (c : Counters) (family : String) : List String :=
  if family = "hwr_queries_total" then
    [sample family "ok" c.queries.ok, sample family "invalid" c.queries.invalid,
      sample family "error" c.queries.error]
  else if family = "hwr_dataset_loads_total" then
    [sample family "ok" c.loadsOk, sample family "error" c.loadsFailed]
  else if family = "hwr_archive_members_total" then [family ++ " " ++ toString c.members]
  else if family = "hwr_dataset_load_duration_seconds" then
    [family ++ "_count " ++ toString c.loadDurations]
  else
    [sample (family ++ "_count") "ok" c.queryDurations.ok,
      sample (family ++ "_count") "invalid" c.queryDurations.invalid,
      sample (family ++ "_count") "error" c.queryDurations.error]

/-- Tells all counters. -/
def metrics : Handler := fun _ s =>
  let lines := families.flatMap fun f => f.describe ++ samples s.counters f.name
  (s, .text 200 "text/plain; version=0.0.4; charset=utf-8"
    (String.join (lines.map (· ++ "\n"))))

end GlyphSearch.Http
