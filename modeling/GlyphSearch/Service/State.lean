import GlyphSearch.Dataset.Source
import GlyphSearch.Loading.Shared
import GlyphSearch.Query.Answer
import GlyphSearch.Service.Counters

/-!
# The running service

The service has a loader, which loads its dataset once, and a processor, which
answers queries from it. Callers of the loader are those of
`GlyphSearch.Loading`; here their steps are taken in a fixed order, and loads
do their work on the disk.

A source may be held back: a load then waits for it, and runs into the time
limit if somebody waits for the load.

A temporary directory belongs to the dataset that was opened in it. It is
removed when the loader is closed, or, if there are other references to the
dataset by then, when the last of them is dropped. A caller in the background
that has come back with the dataset refers to it until it is waited for.
-/

namespace GlyphSearch

open Dataset Files Loading Query

/-- What a load comes to. -/
abbrev Outcome := Except Error Dataset

structure Service where
  disk : Disk
  source : Source
  layout : Layout
  /-- Whole seconds that a load may take. -/
  loadTimeout : Nat
  heldBack : Bool
  loader : Shared Outcome
  loaderIsOpen : Bool
  processorIsOpen : Bool
  /-- Callers that were started in the background and not yet waited for. -/
  started : List Nat
  /-- References to the dataset that are kept. -/
  kept : Nat
  counters : Service.Counters
  /-- Searches of the index. -/
  searches : Nat
  /-- Bytes that a request's body may have. -/
  bodyLimit : Nat
  /-- The time, as a text. -/
  now : String
  log : Log

namespace Service

/-- A service that loads its dataset from a source. -/
def ofSource (disk : Disk) (source : Source) (layout : Layout) (loadTimeout bodyLimit : Nat)
    (now : String) : Service where
  disk := disk
  source := source
  layout := layout
  loadTimeout := loadTimeout
  heldBack := false
  loader := .start
  loaderIsOpen := true
  processorIsOpen := true
  started := []
  kept := 0
  counters := .zero
  searches := 0
  bodyLimit := bodyLimit
  now := now
  log := .silent

/-- A service whose dataset is there from the beginning. -/
def ofDataset (disk : Disk) (d : Dataset) (bodyLimit : Nat) (now : String) : Service :=
  { ofSource disk .absent Config.DatasetSettings.default.layout 1 bodyLimit now with
    loader := .done (.ok d) }

def isReady (o : Outcome) : Bool := o.toBool

def stage (s : Service) : Stage := s.loader.stage isReady

/-- What a caller gets for an outcome: a failure is wrapped as that of the
load. -/
def unwrap (o : Outcome) : Except Error Dataset := o.mapError .loadFailed

/-- The dataset, if it has been loaded. -/
def dataset? (s : Service) : Option Dataset := s.loader.published.bind Except.toOption

/-- Logs entries. -/
def note (s : Service) (entries : List Log.Entry) : Service :=
  { s with log := s.log.noteAll entries }

/-- What is logged of a load. -/
def loadLog (inside : List Log.Entry) (o : Outcome) : List Log.Entry :=
  let last := match o with
    | .ok _ => Dataset.entry .info "dataset load finished"
    | .error e =>
      { Dataset.entry .error "dataset load failed" with details := [("error", e.message)] }
  Dataset.entry .info "dataset load started" :: (inside ++ [last])

/-- Ends a load: it is counted and logged. -/
def record (s : Service) (members : Nat) (log : List Log.Entry) (o : Outcome) :
    Service × Outcome :=
  ({ s with counters := s.counters.load (isReady o) members }.note (loadLog log o), o)

/-- Takes over what a load has come to. -/
def conclude (loaded : Loaded) (s : Service) : Service × Outcome :=
  { s with disk := loaded.disk }.record loaded.members loaded.log loaded.result

/-- Does the work of a load. -/
def work (s : Service) : Service × Outcome := s.conclude (load s.source s.layout s.disk)

/-- Gives up a load whose source is held back for too long. -/
def giveUp (s : Service) : Service × Outcome :=
  s.conclude ⟨s.disk, 0, .error (.loadTimeout s.loadTimeout), []⟩

/-- Removes what belongs to an outcome that nobody wants. -/
def discardOutcome (s : Service) (o : Outcome) : Service :=
  match o with
  | .ok d => { s with disk := d.directory.elim s.disk (·.discard s.disk) }
  | .error _ => s

/-- Ends a load. What it has loaded is thrown away if there is no loader any
more. -/
def endLoad (finish : Service → Service × Outcome) (s : Service) (load : Nat) : Service :=
  let (s, outcome) := finish s
  let s := { s with loader := s.loader.finishLoad load outcome }
  if s.loaderIsOpen then s else s.discardOutcome outcome

/-- Ends all loads that are under way, and lets their callers go on. -/
def endLoads (finish : Service → Service × Outcome) (s : Service) : Service :=
  let s := s.loader.underWay.foldl (endLoad finish) s
  { s with loader := s.loader.settle }

/-- Waits for the loads that are under way. -/
def await (s : Service) : Service :=
  if s.heldBack then s.endLoads giveUp else s.endLoads work

/-- Starts a caller, and lets it go as far as it can. Gives its number. -/
def callLoader (s : Service) : Service × Nat :=
  let i := s.loader.callers.length
  ({ s with loader := (s.loader.apply isReady .call).settleCaller i }, i)

/-- The outcome that a caller came back with. -/
def outcomeOf (s : Service) (i : Nat) : Except Error Dataset :=
  match s.loader.outcomeOf? i with
  | some o => unwrap o
  | none => .error (.internal "the load has not finished")

/-- Gets the dataset, loading it if need be. -/
def get (s : Service) : Service × Except Error Dataset :=
  let (s, i) := s.callLoader
  match s.loader.outcomeOf? i with
  | some o => (s, unwrap o)
  | none =>
    let s := s.await
    (s, s.outcomeOf i)

/-! ## Queries -/

/-- Searches the dataset, once the query has passed all checks. -/
def answer (s : Service) (d : Dataset) (query : List Single) (version : Option String) :
    Service × Except Error (List Hit) :=
  match prepare d query version with
  | .error e => (s, .error e)
  | .ok query => ({ s with searches := s.searches + 1 }, searchFitted d query resultCount)

/-- Answers a query with what a caller has got from the loader. -/
def respond (s : Service) (got : Except Error Dataset) (query : List Single)
    (version : Option String) : Service × Except Error (List Hit) :=
  match got with
  | .error e => (s, .error e)
  | .ok d => s.answer d query version

/-- Answers a query text, for a client that may name a version. The dataset is
asked for only if the text can be read. -/
def handle (s : Service) (text : String) (version : Option String) :
    Service × Except Error (List Hit) :=
  match parse text with
  | .error e => (s, .error e)
  | .ok query =>
    let (s, got) := s.get
    s.respond got query version

/-! ## Callers in the background -/

/-- Starts a caller in the background. It holds on to the loader until it comes
back or is cancelled. -/
def warmUp (s : Service) : Service :=
  let (s, i) := s.callLoader
  { s with started := s.started ++ [i] }

/-- Lets loads in the background finish, unless their source is held back. -/
def idle (s : Service) : Service := if s.heldBack then s else s.endLoads work

/-- Stops holding back the source. -/
def letGo (s : Service) : Service := { s with heldBack := false }.idle

/-- Cancels the callers in the background that still wait. Gives how many
callers there are. -/
def cancelStarted (s : Service) : Service × Nat :=
  ({ s with loader := s.started.foldl Shared.cancelCaller s.loader }, s.started.length)

/-- Whether a caller has neither come back nor been cancelled. -/
def isWaiting (s : Service) (i : Nat) : Bool :=
  match s.loader.callers[i]? with
  | some (.returned _) | some .cancelled | none => false
  | _ => true

/-- References to the dataset: those that are kept, and those of callers in the
background that have come back. -/
def references (s : Service) : Nat :=
  s.kept + (s.started.filter fun i => (s.loader.outcomeOf? i).any isReady).length

/-- Removes the directory of a dataset, if it was made for it. -/
def closeDataset (s : Service) (d : Dataset) : Service × Except Error Unit :=
  match d.directory with
  | some (.temporary path) =>
    let (disk, removed) := s.disk.removeDirectory path
    ({ s with disk }, removed.mapError .file)
  | _ => (s, .ok ())

/-- Lets go of references, so that only those of `kept` and `started` are left.
The last one may be that of a dataset whose loader has been closed. -/
def release (s : Service) (kept : Nat) (started : List Nat) : Service :=
  let t := { s with kept, started }
  match s.references, t.references, t.loaderIsOpen, t.dataset? with
  | _ + 1, 0, false, some d => (t.closeDataset d).1
  | _, _, _, _ => t

/-- Waits for the callers in the background. Gives what each came back with, if
it was not cancelled. -/
def join (s : Service) : Service × List (Option (Except Error Dataset)) :=
  let s := if s.started.any s.isWaiting then s.await else s
  (s.release s.kept [], s.started.map fun i => (s.loader.outcomeOf? i).map unwrap)

/-! ## The end -/

/-- Gets the dataset and keeps the reference. -/
def keep (s : Service) : Service × Except Error Unit :=
  match s.get with
  | (s, .ok _) => ({ s with kept := s.kept + 1 }, .ok ())
  | (s, .error e) => (s, .error e)

/-- Drops all references that are kept. -/
def dropKept (s : Service) : Service × Nat := (s.release 0 s.started, s.kept)

/-- What came of an attempt to shut down. -/
inductive Shutdown where
  | closed (result : Except Error Unit)
  /-- Callers in the background still hold on to the loader. -/
  | shared
  | alreadyClosed

/-- Closes the loader. A dataset that somebody refers to stays until nobody
does. What a load has come to that nobody has heard of goes with the loader. -/
def closeLoader (s : Service) : Service × Except Error Unit :=
  let s := { s with loaderIsOpen := false }
  match s.dataset?, s.references with
  | some d, 0 => s.closeDataset d
  | some _, _ => (s, .ok ())
  | none, _ => (s.loader.unheard?.elim s s.discardOutcome, .ok ())

/-- Drops the processor and, unless callers in the background hold on to it,
closes the loader. -/
def shutDown (s : Service) : Service × Shutdown :=
  if ¬ s.loaderIsOpen then (s, .alreadyClosed)
  else
    let s := { s with processorIsOpen := false }
    if s.started.any s.isWaiting then (s, .shared)
    else
      let (s, result) := s.closeLoader
      (s, .closed result)

end Service

end GlyphSearch
