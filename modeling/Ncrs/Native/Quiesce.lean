import Ncrs.Native.FuseSched

/-!
# Draining the scheduler

`quiesce` pauses the scheduler for a planned restart and waits until no task is left; `resume`
lifts the pause. The dispatch thread may be waiting in `submit` meanwhile, in one of two loops: for
the pause to end, or for room. Both, and `quiesce`, wait on one condition variable, and each looks
at its own predicate whenever it gets the lock back. Times are in milliseconds.
-/

namespace Ncrs

namespace FuseSched

variable {K : Type}

/-- Where the dispatch thread is. -/
inductive Dispatch (K : Type) where
  | idle
  /-- In the first loop of `submit`, until the pause is over. -/
  | paused (keys : List (K × Mode))
  /-- In the second one, until there is room. -/
  | full (keys : List (K × Mode))
  deriving DecidableEq, Repr

/-- A call of `quiesce` that waits. -/
structure Drain where
  deadline : Nat
  /-- The end of the pause it set. -/
  lifts : Nat
  deriving DecidableEq, Repr

structure Gate (K : Type) where
  run : Run K := {}
  maxInflight : Nat
  now : Nat := 0
  pausedUntil : Option Nat := none
  dispatch : Dispatch K := .idle
  draining : List Drain := []
  /-- The ends of the pauses whose `quiesce` has returned true since the last `resume`. -/
  drained : List Nat := []
  /-- The tasks added before such a pause had ended. -/
  breaches : List Nat := []

inductive GateEvent (K : Type) where
  | tick (ms : Nat)
  | submit (keys : List (K × Mode))
  /-- The dispatch thread gets the lock back. -/
  | wakeDispatch
  | handOver (id : Nat)
  | complete (id : Nat)
  | quiesce (budget : Nat)
  /-- The waiting `quiesce` call `i` gets the lock back. -/
  | wakeQuiesce (i : Nat)
  | resume
  deriving DecidableEq, Repr

namespace Gate

variable [DecidableEq K]

/-- The pause lifts this long after the budget. -/
def pauseSlack : Nat := 5000

/-- The task is added. -/
def admitTask (s : Gate K) (keys : List (K × Mode)) : Option (Gate K) :=
  (s.run.step (.submit keys)).map fun run =>
    { s with
      run
      dispatch := .idle
      breaches := if s.drained.any (fun lifts => decide (s.now < lifts)) then
          s.breaches ++ [s.run.sched.nextId + 1]
        else s.breaches }

/-- The second loop of `submit`. -/
def awaitRoom (s : Gate K) (keys : List (K × Mode)) : Option (Gate K) :=
  if s.maxInflight ≤ s.run.sched.tasks.length then some { s with dispatch := .full keys }
  else s.admitTask keys

/-- The first one. -/
def awaitPause (s : Gate K) (keys : List (K × Mode)) : Option (Gate K) :=
  match s.pausedUntil with
  | some lifts =>
    if s.now < lifts then some { s with dispatch := .paused keys }
    else { s with pausedUntil := none }.awaitRoom keys
  | none => s.awaitRoom keys

/-- The loop of `quiesce`: it returns true once no task is left, false at its deadline. -/
def drainOrWait (s : Gate K) (d : Drain) : Gate K :=
  if s.run.sched.tasks.isEmpty then { s with drained := d.lifts :: s.drained }
  else if d.deadline ≤ s.now then s
  else { s with draining := s.draining ++ [d] }

def step (s : Gate K) : GateEvent K → Option (Gate K)
  | .tick ms => some { s with now := s.now + ms }
  | .submit keys =>
    match s.dispatch with
    | .idle => s.awaitPause keys
    | _ => none
  | .wakeDispatch =>
    match s.dispatch with
    | .idle => none
    | .paused keys => s.awaitPause keys
    | .full keys => s.awaitRoom keys
  | .handOver id => (s.run.step (.handOver id)).map fun run => { s with run }
  | .complete id => (s.run.step (.complete id)).map fun run => { s with run }
  | .quiesce budget =>
    let d : Drain := { deadline := s.now + budget, lifts := s.now + budget + pauseSlack }
    some ({ s with pausedUntil := some d.lifts }.drainOrWait d)
  | .wakeQuiesce i =>
    (s.draining[i]?).map fun d => { s with draining := s.draining.eraseIdx i }.drainOrWait d
  | .resume => some { s with pausedUntil := none, drained := [] }

def steps (s : Gate K) : List (GateEvent K) → Option (Gate K)
  | [] => some s
  | e :: es => (s.step e).bind (·.steps es)

end Gate

end FuseSched

end Ncrs
