import Ncrs.ForStd.KeyedQueues
import Mathlib.Logic.Function.Basic

/-!
# Per-key order of FUSE requests

Model of `fuse_sched.rs`. The dispatch thread names the keys (inodes, handles) a request touches,
and `submit` puts it at the end of the queue of each. A task runs once everything ahead of it on
its keys is compatible with it; `complete` takes a finished task off its queues and starts what
that has made runnable.

A run is cut at the state lock: the tasks a critical section takes the jobs of are handed to the
pool after it (`handOver`), in any order with the sections of other threads, and a task completes
after it was handed over.
-/

namespace Ncrs

namespace FuseSched

inductive Mode where
  /-- Runs alongside the other `shared` tasks at the head of the queue. -/
  | shared
  /-- Waits for every earlier task on the key and holds back every later one. -/
  | exclusive
  deriving DecidableEq, Repr

variable {K : Type}

structure Task (K : Type) where
  id : Nat
  keys : List (K × Mode)
  /-- Its job has not been taken. -/
  waiting : Bool
  deriving DecidableEq, Repr

/-- What a task puts in the queue of `k`. -/
def Task.places [DecidableEq K] (t : Task K) (k : K) : List (Nat × Mode) :=
  KeyedQueues.places Task.id Task.keys t k

/-- The state behind the lock; a key without a queue has an empty one here. -/
structure Scheduler (K : Type) where
  nextId : Nat := 0
  queues : K → List (Nat × Mode) := fun _ => []
  tasks : List (Task K) := []

variable [DecidableEq K]

/-- A key listed twice keeps its strongest mode. -/
def mergeMode (merged : List (K × Mode)) (x : K × Mode) : List (K × Mode) :=
  if merged.any (fun y => y.1 = x.1) then
    merged.map fun y => if y.1 = x.1 ∧ x.2 = .exclusive then x else y
  else merged ++ [x]

def mergeKeys (keys : List (K × Mode)) : List (K × Mode) := keys.foldl mergeMode []

namespace Scheduler

def task? (s : Scheduler K) (id : Nat) : Option (Task K) := s.tasks.find? fun t => t.id = id

/-- Whether every task ahead of `id` on each of its keys is compatible with it. -/
def ready (s : Scheduler K) (id : Nat) : Bool :=
  match s.task? id with
  | none => false
  | some t =>
    t.keys.all fun x =>
      ((s.queues x.1).takeWhile fun e => e.1 ≠ id).all fun earlier =>
        x.2 = .shared ∧ earlier.2 = .shared

/-- `busy_keys`: the keys with a queue, which are those of the live tasks. -/
def busyKeys (s : Scheduler K) : List K := s.tasks.flatMap fun t => t.keys.map (·.1)

def takeJob (s : Scheduler K) (id : Nat) : Scheduler K :=
  { s with tasks := s.tasks.map fun (t : Task K) =>
      if t.id = id then { t with waiting := false } else t }

/-- `submit` once there is room, with the task it starts. -/
def submit (s : Scheduler K) (keys : List (K × Mode)) : Scheduler K × List Nat :=
  let t : Task K := { id := s.nextId + 1, keys := mergeKeys keys, waiting := true }
  let s : Scheduler K :=
    { nextId := t.id
      queues := fun k => s.queues k ++ t.places k
      tasks := s.tasks ++ [t] }
  if s.ready t.id then (s.takeJob t.id, [t.id]) else (s, [])

/-- One candidate of `complete`. -/
def startIfReady (r : Scheduler K × List Nat) (c : Nat) : Scheduler K × List Nat :=
  if (r.1.task? c).any (·.waiting) && r.1.ready c then (r.1.takeJob c, r.2 ++ [c]) else r

/-- From a waiting head, the candidates are it and, if it is shared, the shared run behind it. -/
def candidates (s : Scheduler K) (q : List (Nat × Mode)) : List Nat :=
  match q with
  | [] => []
  | head :: _ =>
    if (s.task? head.1).any (fun t => !t.waiting) then []
    else if head.2 = .exclusive then [head.1]
    else (q.takeWhile fun e => e.2 = .shared).map (·.1)

/-- One key of the task `complete` takes off. -/
def completeKey (id : Nat) (r : Scheduler K × List Nat) (k : K) : Scheduler K × List Nat :=
  let q := (r.1.queues k).eraseP fun e => e.1 = id
  let s := { r.1 with queues := Function.update r.1.queues k q }
  (s.candidates q).foldl startIfReady (s, r.2)

/-- `complete`, with the tasks it starts. -/
def complete (s : Scheduler K) (id : Nat) : Scheduler K × List Nat :=
  match s.task? id with
  | none => (s, [])
  | some t =>
    (t.keys.map (·.1)).foldl (completeKey id) ({ s with tasks := s.tasks.filter fun u => u.id ≠ id }, [])

end Scheduler

/-! ## Runs -/

inductive Happening where
  | started (id : Nat)
  | completed (id : Nat)
  deriving DecidableEq, Repr

/-- The scheduler, the tasks whose job was taken and not handed to the pool yet, the keys every
    task so far was submitted with, and what has happened to them. -/
structure Run (K : Type) where
  sched : Scheduler K := {}
  taken : List Nat := []
  submitted : List (Nat × List (K × Mode)) := []
  log : List Happening := []

inductive Event (K : Type) where
  | submit (keys : List (K × Mode))
  /-- `Scheduler::start` of task `id`. -/
  | handOver (id : Nat)
  /-- `Done` of task `id` is dropped. -/
  | complete (id : Nat)
  deriving DecidableEq, Repr

namespace Run

def step (s : Run K) : Event K → Option (Run K)
  | .submit keys =>
    let r := s.sched.submit keys
    some { s with
      sched := r.1
      taken := s.taken ++ r.2
      submitted := s.submitted ++ [(s.sched.nextId + 1, keys)] }
  | .handOver id =>
    if id ∈ s.taken then
      some { s with taken := s.taken.erase id, log := s.log ++ [.started id] }
    else none
  | .complete id =>
    if .started id ∈ s.log ∧ .completed id ∉ s.log then
      let r := s.sched.complete id
      some { s with sched := r.1, taken := s.taken ++ r.2, log := s.log ++ [.completed id] }
    else none

def steps (s : Run K) : List (Event K) → Option (Run K)
  | [] => some s
  | e :: es => (s.step e).bind (·.steps es)

end Run

end FuseSched

end Ncrs
