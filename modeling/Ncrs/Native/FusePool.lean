import Ncrs.Native.FuseSched

/-!
# The pool the FUSE scheduler runs on

Model of a `Pool` of `bg.rs` as the scheduler feeds it. A task that may run is handed to the pool by
the thread that made it runnable: the dispatch thread in `submit`, or a worker whose job has ended,
in `complete`. The pool gives it to a worker that lingers with nothing to do, starts a worker for
it, or queues it.

Threads are cut at the locks of the scheduler and of the pool, and at the start of a thread, which
the operating system may refuse. The worker slot is then given back after the refused job was
dropped, and dropping a job completes its task, so that what a thread has left to do is a list of
actions. A job is named by the id of its task.
-/

namespace Ncrs

namespace FuseSched

variable {K : Type}

/-- What a thread does next while it hands tasks to the pool. -/
inductive Action where
  /-- `Scheduler::start` of a task. -/
  | start (id : Nat)
  /-- A worker slot is taken for the job; the thread is to be started. -/
  | spawn (id : Nat)
  /-- The thread could not be started. -/
  | giveBack
  deriving DecidableEq, Repr

inductive Worker where
  | running (job : Nat)
  /-- The job has returned and its task is completed; the tasks that made runnable are left. -/
  | ending (job : Nat) (todo : List Action)
  /-- Waits for the next job. -/
  | lingering
  deriving DecidableEq, Repr

def Worker.todo : Worker → List Action
  | .ending _ todo => todo
  | _ => []

/-- The pool's settings and state, the scheduler's, and the threads that use them. -/
structure FusePool (K : Type) where
  maxInflight : Nat
  maxWorkers : Nat
  queueCap : Nat
  /-- Whether idle workers wait for more work. -/
  linger : Bool := true
  sched : Scheduler K := {}
  active : Nat := 0
  idle : Nat := 0
  queue : List Nat := []
  workers : List Worker := []
  dispatch : List Action := []
  /-- The jobs the pool has taken on, in the queue or with a worker. -/
  accepted : List Nat := []
  /-- The jobs it has counted as completed. -/
  completed : List Nat := []
  /-- The jobs refused because the queue was full, and for want of a thread. -/
  refusedFull : List Nat := []
  refusedThread : List Nat := []

inductive PoolEvent (K : Type) where
  /-- The dispatch thread submits a request, when there is room. -/
  | submit (keys : List (K × Mode))
  /-- The dispatch thread (`none`) or worker `i` does its next action; `ok`: a thread starts. -/
  | act (thread : Option Nat) (ok : Bool)
  /-- The job of worker `i` returns or panics. -/
  | jobEnds (i : Nat)
  /-- Worker `i` takes its next job, lingers or exits. -/
  | next (i : Nat)
  /-- The lingering worker `i` is woken, or has waited long enough. -/
  | wake (i : Nat)
  deriving DecidableEq, Repr

namespace FusePool

variable [DecidableEq K]

def push (s : FusePool K) (id : Nat) : FusePool K :=
  { s with queue := s.queue ++ [id], accepted := s.accepted ++ [id] }

/-- One action of a thread, and the actions it brings. -/
def perform (s : FusePool K) (a : Action) (ok : Bool) : FusePool K × List Action :=
  match a with
  | .start id =>
    -- `Pool::submit`
    if s.queue.length < s.idle then (s.push id, [])
    else if s.active < s.maxWorkers then ({ s with active := s.active + 1 }, [.spawn id])
    else if s.queue.length < s.queueCap then (s.push id, [])
    else
      let r := s.sched.complete id
      ({ s with sched := r.1, refusedFull := s.refusedFull ++ [id] }, r.2.map .start)
  | .spawn id =>
    if ok then ({ s with workers := s.workers ++ [.running id], accepted := s.accepted ++ [id] }, [])
    else
      let r := s.sched.complete id
      ({ s with sched := r.1, refusedThread := s.refusedThread ++ [id] }, r.2.map .start ++ [.giveBack])
  | .giveBack => ({ s with active := s.active - 1 }, [])

/-- What a thread has left to do. -/
def todo (s : FusePool K) (thread : Option Nat) : List Action :=
  match thread with
  | none => s.dispatch
  | some i => (s.workers[i]?).elim [] Worker.todo

def setTodo (s : FusePool K) (thread : Option Nat) (todo : List Action) : FusePool K :=
  match thread with
  | none => { s with dispatch := todo }
  | some i => { s with workers := s.workers.modify i fun w =>
      match w with
      | .ending job _ => .ending job todo
      | w => w }

/-- A worker pops the queue, or exits. -/
def popOrExit (s : FusePool K) (i : Nat) : FusePool K :=
  match s.queue with
  | job :: queue => { s with queue, workers := s.workers.set i (.running job) }
  | [] => { s with active := s.active - 1, workers := s.workers.eraseIdx i }

def step (s : FusePool K) : PoolEvent K → Option (FusePool K)
  | .submit keys =>
    if s.dispatch = [] ∧ s.sched.tasks.length < s.maxInflight then
      let r := s.sched.submit keys
      some { s with sched := r.1, dispatch := r.2.map .start }
    else none
  | .act thread ok =>
    match s.todo thread with
    | a :: rest =>
      let r := s.perform a ok
      some (r.1.setTodo thread (r.2 ++ rest))
    | [] => none
  | .jobEnds i =>
    match s.workers[i]? with
    | some (.running job) =>
      let r := s.sched.complete job
      some { s with sched := r.1, workers := s.workers.set i (.ending job (r.2.map .start)) }
    | _ => none
  | .next i =>
    match s.workers[i]? with
    | some (.ending job []) =>
      let s := { s with completed := s.completed ++ [job] }
      if s.queue = [] ∧ s.linger then
        some { s with idle := s.idle + 1, workers := s.workers.set i .lingering }
      else some (s.popOrExit i)
    | _ => none
  | .wake i =>
    match s.workers[i]? with
    | some .lingering => some ({ s with idle := s.idle - 1 }.popOrExit i)
    | _ => none

def steps (s : FusePool K) : List (PoolEvent K) → Option (FusePool K)
  | [] => some s
  | e :: es => (s.step e).bind (·.steps es)

end FusePool

end FuseSched

end Ncrs
