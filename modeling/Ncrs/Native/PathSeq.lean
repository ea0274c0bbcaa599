import Ncrs.Native.Path

/-!
# Per-path order of server changes

Model of `path_seq.rs`: a ticket stands in the queue of each path it names, with exclusive or
shared access, and is ready once everything that conflicts with it has left those queues.
-/

namespace Ncrs

inductive Access where
  /-- The path itself is created, replaced, moved or removed. -/
  | exclusive
  /-- Something inside the path changes; runs alongside other `shared`. -/
  | shared
  deriving DecidableEq, Repr

structure Ticket where
  id : Nat
  paths : List (PathBuf × Access)
  deriving DecidableEq, Repr

/-- What a ticket puts in the queue of `p`. -/
def Ticket.places (t : Ticket) (p : PathBuf) : List (Nat × Access) :=
  t.paths.filterMap fun x => if x.1 = p then some (t.id, x.2) else none

structure PathSeq where
  nextId : Nat := 0
  queues : PathBuf → List (Nat × Access) := fun _ => []

namespace PathSeq

/-- A path listed twice keeps its strongest access. -/
def mergeAccess (merged : List (PathBuf × Access)) (x : PathBuf × Access) :
    List (PathBuf × Access) :=
  if merged.any (fun y => y.1 = x.1) then
    merged.map fun y => if y.1 = x.1 ∧ x.2 = .exclusive then x else y
  else merged ++ [x]

/-- Queues a ticket on every path. -/
def ticket (s : PathSeq) (paths : List (PathBuf × Access)) : Ticket × PathSeq :=
  let t : Ticket := { id := s.nextId + 1, paths := paths.foldl mergeAccess [] }
  (t, { nextId := t.id, queues := fun p => s.queues p ++ t.places p })

def ready (s : PathSeq) (t : Ticket) : Bool :=
  t.paths.all fun x =>
    ((s.queues x.1).takeWhile fun e => e.1 ≠ t.id).all fun earlier =>
      x.2 = .shared ∧ earlier.2 = .shared

/-- `Drop for Ticket`. -/
def drop (s : PathSeq) (t : Ticket) : PathSeq :=
  { s with queues := fun p =>
      if t.paths.any (fun x => x.1 = p) then (s.queues p).filter fun e => e.1 ≠ t.id
      else s.queues p }

end PathSeq

end Ncrs
