/-!
# How a program ends

The load that a program begins with does its file work beside everything else,
in two jobs: the archive is extracted into a temporary directory, which is made
first, and then the dataset in it is opened. A dataset that is in a directory
already is only opened. A job that has been handed over cannot be taken back. It
is done although the load has run out of time by then, and its result is thrown
away if there is nobody who waits for it.

The warmup waits for the load, and the program stops when the warmup has failed
or when it is interrupted. It takes leave of a warmup that still waits, and
closes the loader with what has been loaded. Then it ends at once if the warmup
has failed, and whatever was going on ends with it. Otherwise the load ends, and
the program waits for the job that a thread works on.

`Ending` follows the temporary directory through this, and `Event` is one step
that cannot be cut in two. Steps may follow each other in any order.
-/

namespace GlyphSearch.Program

/-- Work on files that a thread of its own does. -/
inductive Job where
  /-- Extracts the archive. The temporary directory may have been made or not. -/
  | extract (made : Bool)
  /-- Opens the dataset in a directory, which may be a temporary one. -/
  | open (temporary : Bool)
  deriving DecidableEq, Repr

/-- How far the file work of the load has come. -/
inductive Work where
  | ahead
  /-- A job has been handed over, and no thread has taken it yet. -/
  | waiting (job : Job)
  | running (job : Job)
  | finished
  deriving DecidableEq, Repr

/-- Where the load stands. -/
inductive LoadState where
  | pending
  | succeeded
  | failed
  | timedOut
  /-- It has ended with the program. -/
  | dropped
  deriving DecidableEq, Repr

/-- Where the warmup stands, if there is one. -/
inductive Warmup where
  | absent
  | waiting
  | succeeded
  | failed
  | cancelled
  deriving DecidableEq, Repr

/-- How far the program has come. -/
inductive Phase where
  | serving
  /-- It has stopped serving. -/
  | stopping
  /-- The loader has been closed. -/
  | closed
  /-- It waits for a job to be done. -/
  | leaving
  | exited (code : Nat)
  deriving DecidableEq, Repr

structure Ending where
  phase : Phase
  load : LoadState
  warmup : Warmup
  work : Work
  /-- Whether the temporary directory is there. -/
  directory : Bool
  deriving DecidableEq, Repr

/-- What happens to a program and its load. -/
inductive Event where
  /-- The load hands over its first job. -/
  | ask (extracts : Bool)
  /-- A thread takes the job. -/
  | begin
  /-- The temporary directory is made. -/
  | make
  /-- The job is done, for good or not. -/
  | finish (isGood : Bool)
  /-- A job that no thread has taken is given up when the program leaves. -/
  | discard
  /-- The load fails before its first job. -/
  | failLoad
  /-- The load has run out of time. -/
  | timeOut
  /-- The warmup hears what the load has come to. -/
  | hear
  | interrupt
  /-- A program that has stopped serving closes the loader. -/
  | close
  /-- A program that has closed the loader gets to its end. -/
  | quit
  deriving DecidableEq, Repr

namespace Phase

/-- Whether the program is still there. -/
def isAlive : Phase → Bool
  | exited _ => false
  | serving | stopping | closed | leaving => true

/-- Whether the loader is still there. -/
def hasLoader : Phase → Bool
  | serving | stopping => true
  | closed | leaving | exited _ => false

/-- A program that serves stops doing so. -/
def stop : Phase → Phase
  | serving => stopping
  | phase => phase

/-- A program that has waited for a job ends. -/
def release : Phase → Phase
  | leaving => exited 0
  | phase => phase

end Phase

/-- Whether a job has a temporary directory. -/
def Job.holdsDirectory : Job → Bool
  | extract made => made
  | .open temporary => temporary

namespace Work

/-- Whether there is a job that has a temporary directory. -/
def holdsDirectory : Work → Bool
  | waiting job | running job => job.holdsDirectory
  | ahead | finished => false

/-- Whether there is a job. -/
def isGoingOn : Work → Bool
  | waiting _ | running _ => true
  | ahead | finished => false

end Work

namespace Ending

/-- A program that serves, with a warmup or without. -/
def start (warmsUp : Bool) : Ending :=
  ⟨.serving, .pending, if warmsUp then .waiting else .absent, .ahead, false⟩

/-- Ends the file work. A program that has waited for it ends as well. -/
def endWork (e : Ending) (directory : Bool) : Ending :=
  { e with
    work := .finished
    directory
    phase := e.phase.release }

/-- Goes on from a job that has been done for good. A load that is not pending
any more does not want its result. -/
def succeed (e : Ending) (job : Job) : Ending :=
  match e.load, job with
  | .pending, .extract _ => { e with work := .waiting (.open true) }
  | .pending, .open _ => { e with load := .succeeded }.endWork (e.directory && e.phase.hasLoader)
  | _, _ => e.endWork false

/-- Goes on from a job that has failed, and has removed its directory. -/
def fail (e : Ending) : Ending :=
  let load := if e.load = .pending then LoadState.failed else e.load
  { e with load }.endWork false

/-- What the warmup makes of the load. A failure stops the program. -/
def hear (e : Ending) : Ending :=
  match e.load with
  | .succeeded => { e with warmup := .succeeded }
  | .failed | .timedOut => { e with warmup := .failed, phase := e.phase.stop }
  | .pending | .dropped => e

/-- Takes leave of the warmup, and closes the loader. -/
def close (e : Ending) : Ending :=
  { e with
    phase := .closed
    warmup := if e.warmup = .waiting then .cancelled else e.warmup
    directory := e.directory && e.load ≠ .succeeded }

/-- Ends the program, or lets it wait for a job. -/
def quit (e : Ending) : Ending :=
  if e.warmup = .failed then { e with phase := .exited 1 }
  else
    { e with
      load := if e.load = .pending then .dropped else e.load
      phase := if e.work.isGoingOn then .leaving else .exited 0 }

/-- What an event does. One that cannot happen does nothing. -/
def step (e : Ending) : Event → Ending
  | .ask extracts =>
    if e.load = .pending ∧ e.work = .ahead then
      { e with work := .waiting (if extracts then .extract false else .open false) }
    else e
  | .begin =>
    match e.work with
    | .waiting job => if e.phase.isAlive then { e with work := .running job } else e
    | _ => e
  | .make =>
    if e.phase.isAlive ∧ e.work = .running (.extract false) then
      { e with work := .running (.extract true), directory := true }
    else e
  | .finish isGood =>
    match e.work with
    | .running job =>
      if ¬ e.phase.isAlive ∨ isGood ∧ job = .extract false then e
      else if isGood then e.succeed job
      else e.fail
    | _ => e
  | .discard =>
    match e.work with
    | .waiting _ => if e.phase = .leaving then e.endWork false else e
    | _ => e
  | .failLoad =>
    if e.load = .pending ∧ e.work = .ahead then { e with load := .failed } else e
  | .timeOut => if e.load = .pending then { e with load := .timedOut } else e
  | .hear => if e.warmup = .waiting then e.hear else e
  | .interrupt => { e with phase := e.phase.stop }
  | .close => if e.phase = .stopping then e.close else e
  | .quit => if e.phase = .closed then e.quit else e

/-- What events do one after the other. -/
def run (e : Ending) (events : List Event) : Ending := events.foldl step e

/-- The code that the program has ended with. -/
def exitCode? (e : Ending) : Option Nat :=
  match e.phase with
  | .exited code => some code
  | _ => none

end Ending

end GlyphSearch.Program
