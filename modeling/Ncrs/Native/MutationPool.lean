import Ncrs.Native.PathSeq
import Mathlib.Logic.Function.Basic

/-!
# Tickets in the mutation pool

Model of `path_seq.rs` with the entries of its queue map, and of the `mutate` pool of `bg.rs` its
tickets are queued on. A change to the server takes its ticket and hands its job to the pool under
`MUTATION_ORDER`; the job waits for its ticket first and drops it when it returns. The pool's queue
is FIFO and unbounded, and its workers do not linger, so that `idle` is always 0.

Threads are cut at the locks of the map and of the pool and at the start of a thread, which the
operating system may refuse: the job is then dropped with its ticket before the slot is given back.
-/

namespace Ncrs

/-- The `State` behind the lock of a `PathSeq`. -/
structure SeqState where
  nextId : Nat := 0
  queues : PathBuf → Option (List (Nat × Access)) := fun _ => none

namespace SeqState

/-- `entry(p).or_default().push_back(..)`. -/
def pushBack (id : Nat) (queues : PathBuf → Option (List (Nat × Access))) (x : PathBuf × Access) :
    PathBuf → Option (List (Nat × Access)) :=
  Function.update queues x.1 (some ((queues x.1).getD [] ++ [(id, x.2)]))

/-- `PathSeq::ticket`: the next number, behind whatever is queued at its paths. -/
def ticket (s : SeqState) (paths : List (PathBuf × Access)) : Ticket × SeqState :=
  let t : Ticket := { id := s.nextId + 1, paths := paths.foldl PathSeq.mergeAccess [] }
  (t, { nextId := t.id, queues := t.paths.foldl (pushBack t.id) s.queues })

/-- `ready`: everything in front of the ticket can go with it. -/
def ready (s : SeqState) (t : Ticket) : Bool :=
  t.paths.all fun x =>
    match s.queues x.1 with
    | none => true
    | some q => (q.takeWhile fun e => e.1 ≠ t.id).all fun earlier => x.2 = .shared ∧ earlier.2 = .shared

/-- One path of `Drop for Ticket`: a queue that is left empty is removed. -/
def dropPath (id : Nat) (queues : PathBuf → Option (List (Nat × Access))) (p : PathBuf) :
    PathBuf → Option (List (Nat × Access)) :=
  match queues p with
  | none => queues
  | some q =>
    let q := q.filter fun e => e.1 ≠ id
    Function.update queues p (if q.isEmpty then none else some q)

/-- `Drop for Ticket`: the number leaves its queues. -/
def drop (s : SeqState) (t : Ticket) : SeqState :=
  { s with queues := (t.paths.map (·.1)).foldl (dropPath t.id) s.queues }

end SeqState

/-! ## Tickets -/

/-- A ticket that has not been dropped, and the paths it was taken for. -/
structure Taken where
  ticket : Ticket
  asked : List (PathBuf × Access)
  deriving DecidableEq, Repr

/-- The queues with the tickets that are out. -/
structure Tickets where
  seq : SeqState := {}
  live : List Taken := []

/-- A ticket is taken or dropped. -/
inductive TicketEvent where
  | take (paths : List (PathBuf × Access))
  /-- The ticket `id` is dropped. -/
  | drop (id : Nat)
  deriving DecidableEq, Repr

namespace Tickets

/-- A ticket is taken. -/
def take (s : Tickets) (paths : List (PathBuf × Access)) : Tickets :=
  let r := s.seq.ticket paths
  { seq := r.2, live := s.live ++ [{ ticket := r.1, asked := paths }] }

/-- A ticket is dropped. -/
def drop (s : Tickets) (t : Ticket) : Tickets :=
  { seq := s.seq.drop t, live := s.live.filter fun u => u.ticket.id ≠ t.id }

/-- One step; only a ticket that is out can be dropped. -/
def step (s : Tickets) : TicketEvent → Option Tickets
  | .take paths => some (s.take paths)
  | .drop id => (s.live.find? fun u => u.ticket.id = id).map fun u => s.drop u.ticket

/-- A run of steps. -/
def steps (s : Tickets) : List TicketEvent → Option Tickets
  | [] => some s
  | e :: es => (s.step e).bind (·.steps es)

end Tickets

/-! ## The pool -/

/-- Where a worker of the pool is. -/
inductive MutationWorker where
  /-- The job waits for its ticket, or has it. -/
  | running (t : Ticket)
  /-- The job has returned. -/
  | ending
  deriving DecidableEq, Repr

/-- Where the thread that holds `MUTATION_ORDER` is. -/
inductive Submission where
  | ticketed (t : Ticket)
  /-- A worker slot is taken for the job; the thread is to be started. -/
  | spawning (t : Ticket)
  /-- The thread could not be started. -/
  | refused
  deriving DecidableEq, Repr

/-- The pool of the mutations, and the thread that submits to it. -/
structure MutationPool where
  maxWorkers : Nat
  tickets : Tickets := {}
  active : Nat := 0
  queue : List Ticket := []
  workers : List MutationWorker := []
  order : Option Submission := none

/-- What may happen next. -/
inductive MutationEvent where
  /-- A FUSE worker locks `MUTATION_ORDER` and takes a ticket. -/
  | take (paths : List (PathBuf × Access))
  /-- `Pool::submit` of the job. -/
  | submit
  | spawn (ok : Bool)
  | giveBack
  /-- The job of worker `i` returns, past the wait for its ticket. -/
  | finish (i : Nat)
  /-- Worker `i` takes its next job or exits. -/
  | next (i : Nat)
  deriving DecidableEq, Repr

namespace MutationPool

/-- One step; none where the event does not fit. -/
def step (s : MutationPool) : MutationEvent → Option MutationPool
  | .take paths =>
    match s.order with
    | none => some { s with
        tickets := s.tickets.take paths
        order := some (.ticketed (s.tickets.seq.ticket paths).1) }
    | some _ => none
  | .submit =>
    match s.order with
    | some (.ticketed t) =>
      if s.active < s.maxWorkers then
        some { s with active := s.active + 1, order := some (.spawning t) }
      else some { s with queue := s.queue ++ [t], order := none }
    | _ => none
  | .spawn ok =>
    match s.order with
    | some (.spawning t) =>
      if ok then some { s with workers := s.workers ++ [.running t], order := none }
      else some { s with tickets := s.tickets.drop t, order := some .refused }
    | _ => none
  | .giveBack =>
    match s.order with
    | some .refused => some { s with active := s.active - 1, order := none }
    | _ => none
  | .finish i =>
    match s.workers[i]? with
    | some (.running t) =>
      if s.tickets.seq.ready t then
        some { s with tickets := s.tickets.drop t, workers := s.workers.set i .ending }
      else none
    | _ => none
  | .next i =>
    match s.workers[i]?, s.queue with
    | some .ending, t :: queue => some { s with queue, workers := s.workers.set i (.running t) }
    | some .ending, [] => some { s with active := s.active - 1, workers := s.workers.eraseIdx i }
    | _, _ => none

/-- A run of steps. -/
def steps (s : MutationPool) : List MutationEvent → Option MutationPool
  | [] => some s
  | e :: es => (s.step e).bind (·.steps es)

end MutationPool

end Ncrs
