/-!
# One load for all callers

Callers ask for a value that is loaded once. The first of them starts the
load, and all wait for the same one. When it has finished, a caller publishes
its outcome, and from then on the outcome is read without waiting.

`Shared` is what the callers see, and `Event` is one step that cannot be cut
in two. Steps of different callers may follow each other in any order, and a
caller may be cancelled while it waits. The load goes on without its callers;
`finish` is its end.

The outcome is read and published without a lock. The pending load is behind
one, which a caller keeps from its second look at the outcome until it has
joined a load. Nobody else looks at the pending load or clears it meanwhile,
but an outcome may be published.

A caller that looks at the stage reads the outcome first and then, if there is
none, whether a load is pending. These are two steps as well.
-/

namespace GlyphSearch.Loading

/-- How far loading has come, as it is reported. -/
inductive Stage where
  | uninitialized
  | loading
  | ready
  | failed
  deriving DecidableEq, Repr

/-- The word for a stage. -/
def Stage.name : Stage → String
  | uninitialized => "uninitialized"
  | loading => "loading"
  | ready => "ready"
  | failed => "failed"

/-- Where a caller stands. -/
inductive Caller (ω : Type) where
  /-- Before it has read the published outcome. -/
  | arriving
  /-- There was none; before it locks the pending load and looks again. -/
  | entering
  /-- There was none either; holds the lock, before it joins a load. -/
  | joining
  /-- Waits for a load. -/
  | waiting (load : Nat)
  /-- Knows the outcome, before it publishes it. -/
  | publishing (outcome : ω)
  /-- Has the published outcome, before it clears the pending load. -/
  | clearing (outcome : ω)
  | returned (outcome : ω)
  | cancelled

/-- Whether a caller holds the lock. -/
def Caller.isJoining {ω : Type} : Caller ω → Bool
  | joining => true
  | _ => false

/-- Where a caller that asks for the stage stands. -/
inductive Observer where
  | reading
  /-- There was no outcome; before it looks for a pending load. -/
  | looking
  | saw (stage : Stage)

/-- What all callers share, and the callers themselves. -/
structure Shared (ω : Type) where
  published : Option ω
  /-- The load that callers are to wait for. -/
  pending : Option Nat
  /-- All loads that were ever started, with the outcome of those that have
  finished. -/
  loads : List (Option ω)
  callers : List (Caller ω)
  observers : List Observer

/-- A step of a caller or of a load. -/
inductive Event (ω : Type) where
  | call
  | step (caller : Nat)
  | cancel (caller : Nat)
  | finish (load : Nat) (outcome : ω)
  | observe
  | stepObserver (observer : Nat)

namespace Shared

variable {ω : Type}

/-- Nothing has been asked for yet. -/
def start : Shared ω := ⟨none, none, [], [], []⟩

/-- The outcome is there from the beginning. -/
def done (outcome : ω) : Shared ω := ⟨some outcome, none, [], [], []⟩

/-- Moves a caller. -/
def place (s : Shared ω) (i : Nat) (c : Caller ω) : Shared ω :=
  { s with callers := s.callers.set i c }

/-- Whether a caller holds the lock on the pending load. -/
def isLocked (s : Shared ω) : Bool := s.callers.any Caller.isJoining

/-- Takes the published outcome, or goes on without one. -/
def look (s : Shared ω) (i : Nat) (without : Caller ω) : Shared ω :=
  match s.published with
  | some outcome => s.place i (.returned outcome)
  | none => s.place i without

/-- Joins the pending load, or starts one. The lock is given back. -/
def join (s : Shared ω) (i : Nat) : Shared ω :=
  match s.pending with
  | some load => s.place i (.waiting load)
  | none =>
    let load := s.loads.length
    { s with loads := s.loads ++ [none], pending := some load }.place i (.waiting load)

/-- Takes the outcome of a load, if it has finished. -/
def wait (s : Shared ω) (i load : Nat) : Shared ω :=
  match s.loads[load]? with
  | some (some outcome) => s.place i (.publishing outcome)
  | _ => s

/-- Publishes an outcome, unless there is one already, which is then the
caller's. -/
def publish (s : Shared ω) (i : Nat) (outcome : ω) : Shared ω :=
  let outcome := s.published.getD outcome
  { s with published := some outcome }.place i (.clearing outcome)

/-- Clears the pending load. -/
def clear (s : Shared ω) (i : Nat) (outcome : ω) : Shared ω :=
  { s with pending := none }.place i (.returned outcome)

/-- One step of a caller. One that waits for a load that has not finished, or
for the lock, stays where it is. -/
def stepCaller (s : Shared ω) (i : Nat) : Shared ω :=
  match s.callers[i]? with
  | some .arriving => s.look i .entering
  | some .entering => if s.isLocked then s else s.look i .joining
  | some .joining => s.join i
  | some (.waiting load) => s.wait i load
  | some (.publishing outcome) => s.publish i outcome
  | some (.clearing outcome) => if s.isLocked then s else s.clear i outcome
  | some (.returned _) | some .cancelled | none => s

/-- Cancels a caller, which is possible while it waits. -/
def cancelCaller (s : Shared ω) (i : Nat) : Shared ω :=
  match s.callers[i]? with
  | some (.waiting _) => s.place i .cancelled
  | _ => s

/-- Ends a load that is under way. -/
def finishLoad (s : Shared ω) (load : Nat) (outcome : ω) : Shared ω :=
  match s.loads[load]? with
  | some none => { s with loads := s.loads.set load (some outcome) }
  | _ => s

/-- The stage that an outcome is reported as. -/
def stageOf (isReady : ω → Bool) (outcome : ω) : Stage :=
  if isReady outcome then .ready else .failed

/-- One step of a caller that asks for the stage. The pending load is looked at
under its lock. -/
def stepObserver (isReady : ω → Bool) (s : Shared ω) (i : Nat) : Shared ω :=
  let place := fun o => { s with observers := s.observers.set i o }
  match s.observers[i]? with
  | some .reading =>
    match s.published with
    | some outcome => place (.saw (stageOf isReady outcome))
    | none => place .looking
  | some .looking =>
    if s.isLocked then s
    else place (.saw (if s.pending.isSome then .loading else .uninitialized))
  | _ => s

/-- What an event does. -/
def apply (isReady : ω → Bool) (s : Shared ω) : Event ω → Shared ω
  | .call => { s with callers := s.callers ++ [.arriving] }
  | .step i => s.stepCaller i
  | .cancel i => s.cancelCaller i
  | .finish load outcome => s.finishLoad load outcome
  | .observe => { s with observers := s.observers ++ [.reading] }
  | .stepObserver i => s.stepObserver isReady i

/-- What events do one after the other. -/
def run (isReady : ω → Bool) (s : Shared ω) (events : List (Event ω)) : Shared ω :=
  events.foldl (apply isReady) s

/-- The stage, as an observer sees it that nobody interrupts. -/
def stage (isReady : ω → Bool) (s : Shared ω) : Stage :=
  match s.published with
  | some outcome => stageOf isReady outcome
  | none => if s.pending.isSome then .loading else .uninitialized

/-- The outcome that a caller came back with. -/
def outcomeOf? (s : Shared ω) (i : Nat) : Option ω :=
  match s.callers[i]? with
  | some (.returned outcome) => some outcome
  | _ => none

/-- The outcome of the pending load, if it has finished. -/
def unheard? (s : Shared ω) : Option ω := s.pending.bind fun load => s.loads[load]?.join

/-- The loads that are under way. -/
def underWay (s : Shared ω) : List Nat :=
  (List.range s.loads.length).filter fun load => (s.loads[load]?.join).isNone

/-- Lets a caller go as far as it can: six steps lead it from its arrival to
its return. -/
def settleCaller (s : Shared ω) (i : Nat) : Shared ω :=
  Nat.repeat (·.stepCaller i) 6 s

/-- Lets all callers go as far as they can, one after the other. -/
def settle (s : Shared ω) : Shared ω :=
  (List.range s.callers.length).foldl settleCaller s

end Shared

end GlyphSearch.Loading
