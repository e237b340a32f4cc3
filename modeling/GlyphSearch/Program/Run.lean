import GlyphSearch.Config.EnvironmentFile
import GlyphSearch.Program.Ending
import GlyphSearch.Service.State

/-!
# The program from start to end

A program reads its configuration, chooses the source of its dataset, and
listens. If the settings ask for it, the dataset is loaded at once; a program
whose dataset cannot be loaded then stops by itself. When it stops, whether by
itself or by an interrupt, it removes the temporary directory of its dataset.

Here one thing happens after the other, and `course` tells in which order.
`Ending` tells what comes of it, and of every other order.
-/

namespace GlyphSearch

open Files

/-- What a program finds when it starts. -/
structure Surroundings where
  environment : Config.Environment
  disk : Disk
  /-- Whether it can listen at a host and port. -/
  canListen : String → Nat → Bool
  /-- Whether it waits for ever if it reads what is at a path. -/
  isSilent : Path → Bool
  /-- The time, as a text. -/
  now : String

structure Program where
  settings : Config.Settings
  service : Service

namespace Program

/-- Why a program does not start. -/
inductive StartFault where
  | config (cause : Error)
  | source (cause : Error)
  | address (address : String)

namespace StartFault

/-- What has failed. -/
def step : StartFault → String
  | config _ => "failed to load config"
  | source _ => "failed to configure dataset source"
  | address _ => "failed to bind to address"

def message (f : StartFault) : String :=
  f.step ++ ": " ++ match f with
    | .config cause | .source cause => cause.message
    | .address text => text

end StartFault

/-- What came of starting. -/
inductive Started where
  /-- The program has not started. The log is in a format, if it got that
  far. -/
  | refused (fault : StartFault) (log : Log) (format : Log.Format)
  | running (p : Program)

/-- An entry of the log about the program itself. -/
def entry (level : Log.Level) (message : String) : Log.Entry := ⟨level, "hwr_search", message, []⟩

/-- The variable that takes the place of the configured level of the log. -/
def filterVariable : String := "RUST_LOG"

/-- The filter of the log: from the environment, if it can be read, or else
from the settings. -/
def filter (env : Config.Environment) (s : Config.LogSettings) : Log.Filter :=
  ((env filterVariable).bind Log.Filter.parse?).getD (Log.Filter.parse s.level)

/-- How the log is written. -/
def format (p : Program) : Log.Format := .ofName p.settings.logging.format

/-- A source whose archive is still being extracted when the load runs out of
time. -/
def stalled (source : Dataset.Source) (seconds : Nat) : Dataset.Source where
  name := source.name
  fetch := fun d =>
    match d.makeTemporary with
    | (d, .error fault) => .failed d (.file fault)
    | (d, .ok _) => .failed d (.loadTimeout seconds)

/-- The source that settings select. -/
def sourceOf (settings : Config.DatasetSettings) (env : Config.Environment) (s : Surroundings) :
    Except Error Dataset.Source := do
  let source ← Dataset.Source.ofSettings settings env s.disk
  match settings.localPath, settings.archivePath with
  | none, some path =>
    return if s.isSilent (Text.encode path) then stalled source settings.loadTimeout else source
  | _, _ => return source

/-- The service for a source, before anybody has called it. -/
def serve (settings : Config.Settings) (source : Dataset.Source) (log : Log)
    (s : Surroundings) : Service :=
  let dataset := settings.dataset
  { Service.ofSource s.disk source dataset.layout dataset.loadTimeout settings.server.bodyLimit
      s.now with log }

/-- Starts with settings that have been read. -/
def startWith (settings : Config.Settings) (env : Config.Environment) (s : Surroundings) :
    Started :=
  let format := Log.Format.ofName settings.logging.format
  let log := Log.note ⟨filter env settings.logging, []⟩ (entry .info "hwr-search starting")
  match sourceOf settings.dataset env s with
  | .error e => .refused (.source e) log format
  | .ok source =>
    let service := serve settings source (log.note (entry .info "dataset source configured")) s
    let service := if settings.dataset.warmup then service.warmUp else service
    let service := service.note [entry .info "listening"]
    let server := settings.server
    if s.canListen server.host server.port then .running ⟨settings, service⟩
    else .refused (.address (server.host ++ ":" ++ toString server.port)) service.log format

/-- Starts a program. -/
def start (s : Surroundings) : Started :=
  let env := s.environment.extendFrom s.disk
  match Config.load (fun path => s.disk.read (Text.encode path)) none env with
  | .error e => .refused (.config e) .silent .text
  | .ok settings => startWith settings env s

/-- Lets loads in the background finish. -/
def idle (p : Program) : Program := { p with service := p.service.idle }

/-- Whether the dataset was to be loaded at once, and could not be. -/
def hasFailed (p : Program) : Bool :=
  p.settings.dataset.warmup && p.service.stage = .failed

/-- What is logged of the attempt to shut down. -/
def shutdownLog : Service.Shutdown → List Log.Entry
  | .closed (.ok ()) | .alreadyClosed => []
  | .closed (.error e) =>
    [{ entry .warn "dataset shutdown failed" with details := [("error", e.message)] }]
  | .shared => [entry .warn "dataset loader still shared at exit, skipping close"]

/-- Stops a program: callers that still wait are cancelled, what the others have
come back with is taken, and the loader is closed. -/
def stop (p : Program) : Program :=
  let (service, _) := p.service.cancelStarted
  let (service, _) := service.join
  let (service, outcome) := service.shutDown
  { p with service := service.note (shutdownLog outcome ++ [entry .info "hwr-search stopped"]) }

/-- Stops a program that has been interrupted. -/
def interrupt (p : Program) : Program :=
  { p with service := p.service.note [entry .info "interrupt received"] }.stop

/-- Stops a program whose dataset could not be loaded. -/
def giveUp (p : Program) : Program :=
  { p with service := p.service.note [entry .error "dataset warmup failed, shutting down"] }.stop

/-- The code that tells that a program has not started. -/
def startFaultCode : Nat := 101

/-- What has happened to the load of a program. -/
def loadEvents (p : Program) : List Event :=
  match p.service.loader.published with
  | none => []
  | some (.ok d) =>
    match d.directory with
    | some (.temporary _) => [.ask true, .begin, .make, .finish true, .begin, .finish true]
    | _ => [.ask false, .begin, .finish true]
  | some (.error (.loadTimeout _)) => [.ask true, .begin, .make, .timeOut]
  | some (.error _) => [.failLoad]

/-- What happens to a program from its start to its end. One whose dataset could
not be loaded has stopped before it is interrupted. -/
def course (p : Program) : List Event := p.loadEvents ++ [.hear, .interrupt, .close, .quit]

/-- The code with which a program that has stopped ends. There is none if it
waits for ever. -/
def exitCode? (p : Program) : Option Nat :=
  ((Ending.start p.settings.dataset.warmup).run p.course).exitCode?

end Program

end GlyphSearch
