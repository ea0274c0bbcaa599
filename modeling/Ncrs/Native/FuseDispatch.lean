import Ncrs.Native.DirOps
import Ncrs.Native.FuseSched

/-!
# Which inodes a FUSE request is ordered on

Model of `fuse_dispatch.rs`. On the one dispatch thread each request names the inodes it touches,
from the path table, and is queued on them in the scheduler. A rename names every busy inode under
the moved folder as well, and registers the paths it moves; until its job has ended, a later
request on an inode inside either path is queued behind it on the folder's inode too.

The thread takes the locks one after another: what `busy_keys` and the listing say, the path table
(with the registration of a rename), the registered moves, the scheduler. Between any two of these
the workers go on: a rename's body re-points the table, its job ends, tasks start and complete.
-/

namespace Ncrs

namespace FuseDispatch

open FuseSched (Mode Happening)

/-- What a request is ordered on. -/
inductive Key where
  | ino (n : Nat)
  | fh (n : Nat)
  deriving DecidableEq, Repr

/-- The requests, with what their keys are computed from. -/
inductive Request where
  | lookup (parent : Nat) (name : String)
  | getattr (ino : Nat)
  | getxattr (ino : Nat)
  | listxattr (ino : Nat)
  /-- `writes`: the flags hold one of `O_WRONLY`, `O_RDWR`, `O_APPEND`, `O_TRUNC`. -/
  | «open» (ino : Nat) (writes : Bool)
  | read (ino fh : Nat)
  | release (ino : Nat)
  | opendir (ino : Nat)
  | releasedir (ino : Nat)
  | readdir (ino : Nat)
  | readdirplus (ino : Nat)
  | setattr (ino : Nat)
  | write (ino : Nat)
  | flush (ino : Nat)
  | fsync (ino : Nat)
  | create (parent : Nat) (name : String)
  | mkdir (parent : Nat) (name : String)
  | unlink (parent : Nat) (name : String)
  | rmdir (parent : Nat) (name : String)
  | rename (parent : Nat) (name : String) (newparent : Nat) (newname : String)
  deriving DecidableEq, Repr

/-- The path of `name` in the directory `parent`, as the table has it. -/
def entryPath (c : FsCache) (parent : Nat) (name : String) : Option PathBuf :=
  (c.inodes parent).map (· ++ [name])

/-- The inode of `name` in `parent`, if one was ever handed out. -/
def child (c : FsCache) (parent : Nat) (name : String) : Option Nat :=
  (entryPath c parent name).bind c.paths

/-- Whether inode `i` has a path inside `base`. -/
def under (c : FsCache) (base : PathBuf) (i : Nat) : Bool :=
  (c.inodes i).any (·.startsWith base)

/-- Parent exclusive, plus the existing child: create, mkdir, unlink, rmdir. -/
def entryKeys (c : FsCache) (parent : Nat) (name : String) : List (Key × Mode) :=
  (.ino parent, .exclusive) :: (child c parent name).toList.map fun i => (.ino i, .exclusive)

/-- Requests already queued inside a moved folder finish first. -/
def busyUnder (c : FsCache) (src : Nat) (base : PathBuf) (busy : List Key) : List (Key × Mode) :=
  busy.filterMap fun k =>
    match k with
    | .ino i => if i ≠ src ∧ under c base i then some (k, .exclusive) else none
    | .fh _ => none

/-- The keys of a rename: the names, the folders, what moves, and what is busy below it. -/
def renameKeys (c : FsCache) (busy : List Key) (parent : Nat) (name : String) (newparent : Nat)
    (newname : String) : List (Key × Mode) :=
  let src := child c parent name
  [(.ino parent, .exclusive), (.ino newparent, .exclusive)]
    ++ src.toList.map (fun i => (.ino i, .exclusive))
    ++ (child c newparent newname).toList.map (fun i => (.ino i, .exclusive))
    ++ match src, entryPath c parent name with
      | some src, some base => busyUnder c src base busy
      | _, _ => []

namespace Request

/-- The keys a request brings to `queue`. `listed` is about the parent of a lookup: in a folder
    with no usable listing it takes the folder exclusively. -/
def keys (c : FsCache) (busy : List Key) (listed : Bool) : Request → List (Key × Mode)
  | lookup parent name =>
    (.ino parent, if listed then .shared else .exclusive) ::
      (child c parent name).toList.map fun i => (.ino i, .shared)
  | getattr ino | getxattr ino | listxattr ino | opendir ino | releasedir ino | readdir ino
  | readdirplus ino => [(.ino ino, .shared)]
  | «open» ino writes => [(.ino ino, if writes then .exclusive else .shared)]
  | read ino fh => [(.ino ino, .shared), (.fh fh, .exclusive)]
  | release ino | setattr ino | write ino | flush ino | fsync ino => [(.ino ino, .exclusive)]
  | create parent name | mkdir parent name | unlink parent name | rmdir parent name =>
    entryKeys c parent name
  | rename parent name newparent newname => renameKeys c busy parent name newparent newname

/-- Whether the folder a lookup is made in has a listing. -/
def listed (c : FsCache) : Request → Bool
  | lookup parent _ => (c.inodes parent).all fun p => (c.dir p).isSome
  | _ => true

/-- The folder (or file) a rename moves. -/
def source (c : FsCache) : Request → Option PathBuf
  | rename parent name _ _ => entryPath c parent name
  | _ => none

/-- What a rename registers: the inode it moves and the two paths. -/
def tree (c : FsCache) : Request → Option (Nat × PathBuf × PathBuf)
  | rename parent name newparent newname =>
    match child c parent name, entryPath c parent name, entryPath c newparent newname with
    | some ino, some src, some dst => some (ino, src, dst)
    | _, _, _ => none
  | _ => none

/-- The inodes a request names itself. -/
def named (c : FsCache) (req : Request) : List Nat :=
  (req.keys c [] true).filterMap fun x =>
    match x.1 with
    | .ino i => some i
    | .fh _ => none

end Request

/-- A rename in flight, for ordering requests under a moved folder: `src` is `from`, `dst` is
    `to`. -/
structure Move where
  id : Nat
  ino : Nat
  src : PathBuf
  dst : PathBuf
  deriving DecidableEq, Repr

/-- The renames that move a tree and have not ended. -/
structure Moves where
  nextId : Nat := 0
  live : List Move := []
  deriving DecidableEq, Repr

namespace Moves

/-- Registers a rename, with the `Move` its `MoveDone` will take off. -/
def register (m : Moves) : Option (Nat × PathBuf × PathBuf) → Moves × Option Move
  | some (ino, src, dst) =>
    let move : Move := { id := m.nextId + 1, ino, src, dst }
    ({ nextId := move.id, live := m.live ++ [move] }, some move)
  | none => (m, none)

/-- `MoveDone` is dropped. -/
def finish (m : Moves) : Option Move → Moves
  | some done => { m with live := m.live.filter fun v => v.id ≠ done.id }
  | none => m

end Moves

/-- `order_under_moves`: a request inside a move is queued on what moves. -/
def orderUnderMoves (c : FsCache) (moves : Moves) (keys : List (Key × Mode)) : List (Key × Mode) :=
  keys ++ keys.flatMap fun x =>
    match x.1 with
    | .ino i =>
      (moves.live.filter fun m => under c m.src i || under c m.dst i).map fun m =>
        (.ino m.ino, .shared)
    | .fh _ => []

/-! ## The dispatch thread and the workers -/

/-- A request on its way through the dispatch thread, with what was in flight when it came:
    `ahead` are the tasks on an inode under the folder it moves, `behind` the renames one of its
    inodes lay inside of. -/
structure Placed where
  req : Request
  named : List Nat
  keys : List (Key × Mode)
  /-- What the `MoveDone` of its job takes off. -/
  done : Option Move
  ahead : List Nat
  behind : List Nat := []
  deriving DecidableEq, Repr

/-- Where the dispatch thread stands. -/
inductive Thread where
  | idle
  | arrived (req : Request) (busy : List Key) (listed : Bool)
  /-- It has read the path table, and registered a rename. -/
  | keyed (p : Placed)
  /-- It has read the registered moves, and waits for room in the scheduler. -/
  | ordered (p : Placed)
  deriving DecidableEq, Repr

/-- The job of a rename. -/
structure RenameJob where
  task : Nat
  parent : Nat
  name : String
  newparent : Nat
  newname : String
  done : Option Move
  /-- The body has re-pointed the path table. -/
  moved : Bool := false
  /-- The body has returned and `MoveDone` is dropped. -/
  ended : Bool := false
  deriving DecidableEq, Repr

namespace RenameJob

/-- The folder it moves now: until the body has re-pointed the table the source, then the
    destination. -/
def folder (r : RenameJob) (c : FsCache) : Option PathBuf :=
  if r.moved then entryPath c r.newparent r.newname else entryPath c r.parent r.name

/-- Whether inode `i` lies inside the folder it moves. -/
def holds (r : RenameJob) (c : FsCache) (i : Nat) : Bool :=
  (r.folder c).any fun base => under c base i

end RenameJob

/-- The dispatch thread, the scheduler and the renames that run. -/
structure SchedFs where
  cache : FsCache
  run : FuseSched.Run Key := {}
  moves : Moves := {}
  thread : Thread := .idle
  renames : List RenameJob := []
  /-- The requests so far, each with its task. -/
  served : List (Nat × Placed) := []

/-- What may happen next. -/
inductive Event where
  /-- The dispatch thread takes a request. -/
  | arrive (req : Request)
  /-- It names the inodes, and registers a rename. -/
  | name
  /-- `order_under_moves`. -/
  | order
  /-- `submit`, once there is room. -/
  | submit
  /-- The task is handed to the pool. -/
  | handOver (task : Nat)
  /-- The body of a rename re-points the path table. -/
  | repoint (task : Nat) (movedDir : Bool)
  /-- The job of a rename has ended, run or not. -/
  | moveDone (task : Nat)
  | complete (task : Nat)
  /-- A body hands out an inode. -/
  | allocate (path : PathBuf)
  /-- A listing is stored, or dropped. -/
  | listing (path : PathBuf) (d : Option DirCacheEntry)

namespace SchedFs

/-- The requests in flight on an inode under the folder `req` moves. -/
def ahead (s : SchedFs) (req : Request) : List Nat :=
  match req.source s.cache with
  | none => []
  | some base =>
    (s.served.filter fun x =>
      Happening.completed x.1 ∉ s.run.log && x.2.named.any (under s.cache base)).map (·.1)

/-- The renames in flight that move a folder one of the inodes lies inside of. -/
def behind (s : SchedFs) (named : List Nat) : List Nat :=
  (s.renames.filter fun r => !r.ended && named.any (r.holds s.cache)).map (·.task)

/-- The table is read and a rename registered, before it can end. -/
def nameInodes (s : SchedFs) (req : Request) (busy : List Key) (listed : Bool) : SchedFs :=
  let r := s.moves.register (req.tree s.cache)
  { s with
    moves := r.1
    thread := .keyed
      { req
        named := req.named s.cache
        keys := req.keys s.cache busy listed
        done := r.2
        ahead := s.ahead req } }

/-- The job the request has queued, if it is a rename. -/
def jobOf (task : Nat) (p : Placed) : List RenameJob :=
  match p.req with
  | .rename parent name newparent newname =>
    [{ task, parent, name, newparent, newname, done := p.done }]
  | _ => []

/-- The job of a task after a section. -/
def updateJob (s : SchedFs) (task : Nat) (f : RenameJob → RenameJob) : SchedFs :=
  { s with renames := s.renames.map fun r => if r.task = task then f r else r }

/-- The rename of a task, while it runs. -/
def job? (s : SchedFs) (task : Nat) : Option RenameJob := s.renames.find? fun r => r.task = task

/-- The body of a rename, up to where the table is re-pointed: the paths are resolved anew. -/
def repoint (s : SchedFs) (r : RenameJob) (movedDir : Bool) : Option SchedFs :=
  match entryPath s.cache r.parent r.name, entryPath s.cache r.newparent r.newname with
  | some src, some dst =>
    some { s.updateJob r.task fun r => { r with moved := true } with
      cache := s.cache.movePaths src dst movedDir }
  | _, _ => none

/-- One step; none where the event does not fit. -/
def step (s : SchedFs) : Event → Option SchedFs
  | .arrive req =>
    match s.thread with
    | .idle => some { s with thread := .arrived req s.run.sched.busyKeys (req.listed s.cache) }
    | _ => none
  | .name =>
    match s.thread with
    | .arrived req busy listed => some (s.nameInodes req busy listed)
    | _ => none
  | .order =>
    match s.thread with
    | .keyed p =>
      some { s with thread := .ordered { p with
        keys := orderUnderMoves s.cache s.moves p.keys
        behind := s.behind p.named } }
    | _ => none
  | .submit =>
    match s.thread with
    | .ordered p =>
      let task := s.run.sched.nextId + 1
      (s.run.step (.submit p.keys)).map fun run =>
        { s with
          run
          thread := .idle
          renames := s.renames ++ jobOf task p
          served := s.served ++ [(task, p)] }
    | _ => none
  | .handOver task => (s.run.step (.handOver task)).map fun run => { s with run }
  | .repoint task movedDir =>
    match s.job? task with
    | some r =>
      if .started task ∈ s.run.log ∧ r.moved = false ∧ r.ended = false then s.repoint r movedDir
      else none
    | none => none
  | .moveDone task =>
    match s.job? task with
    | some r =>
      if .started task ∈ s.run.log ∧ r.ended = false then
        some { s.updateJob task fun r => { r with ended := true } with
          moves := s.moves.finish r.done }
      else none
    | none => none
  | .complete task =>
    -- a job the pool drops unrun may give its keys back before its `MoveDone` is dropped
    if (s.job? task).all (fun r => r.ended || !r.moved) then
      (s.run.step (.complete task)).map fun run => { s with run }
    else none
  | .allocate path => some { s with cache := (s.cache.allocateInode path).2 }
  | .listing path (some d) => some { s with cache := s.cache.setDir path d }
  | .listing path none => some { s with cache := s.cache.removeDir path }

/-- A run of steps. -/
def steps (s : SchedFs) : List Event → Option SchedFs
  | [] => some s
  | e :: es => (s.step e).bind (·.steps es)

end SchedFs

end FuseDispatch

end Ncrs
