import Ncrs.Native.HandoffLog
import Mathlib.Data.List.Sort

/-!
# The handoff log in a running daemon

Model of the log writer of `state_snapshot.rs` and of the node-id table of `FsCache` that it
follows: the hooks, the ticker, a compaction in its two halves, and the restore. The log is a list
of records here (`HandoffLog` has its bytes), without the `Base` record it starts with. What the
outside decides is a parameter: whether a write succeeds, the order of a hash map, how a compaction
ends.
-/

namespace Ncrs

namespace Handoff

/-- A numbered record. -/
abbrev Entries := List (Nat × Entry)

/-- The log of connection `dev`, whole. -/
def records (dev : ConnDev) (mountPoint : PathBuf) (es : Entries) : List Record :=
  .base dev mountPoint :: es.map fun e => .entry e.1 e.2

/-- How an append goes: whether the queue has reached `BUF_MAX`, and whether a write succeeds. -/
structure Io where
  full : Bool := false
  ok : Bool := true
  deriving DecidableEq, Repr

/-- A compaction that writes the new file: its image, and `tail`, every record written to the old
file meanwhile. -/
structure Compaction where
  image : Entries
  tail : Entries := []

/-- `LOG` and the file at its path. -/
structure Log where
  /-- `LOG` holds a writer. -/
  on : Bool := true
  disk : Option Entries
  buf : Entries := []
  seq : Nat
  reservedUpto : Nat
  opens : AList (fun _ : Nat => Nat × OpenRecord) := ∅
  streams : AList (fun _ : PathBuf => Nat × String) := ∅
  lastFhMark : Nat := 0
  compaction : Option Compaction := none
  failed : Bool := false
  /-- The writer's file is the one at its path. -/
  attached : Bool := true

/-! ## The node-id table -/

/-- The part of `FsCache` that names the nodes. -/
structure InodeTable where
  inodes : AList (fun _ : Nat => PathBuf)
  paths : AList (fun _ : PathBuf => Nat)
  nextInode : Nat

namespace InodeTable

/-- A filesystem that has handed out nothing: the root is node 1. -/
def fresh : InodeTable where
  inodes := (∅ : AList fun _ : Nat => PathBuf).insert 1 []
  paths := (∅ : AList fun _ : PathBuf => Nat).insert [] 1
  nextInode := 2

/-- The new number of `allocate_inode`. -/
def add (t : InodeTable) (path : PathBuf) : InodeTable where
  inodes := t.inodes.insert t.nextInode path
  paths := t.paths.insert path t.nextInode
  nextInode := t.nextInode + 1

/-- The table of a filesystem that has allocated nodes for `paths` before the log starts. -/
def ofPaths (paths : List PathBuf) : InodeTable :=
  paths.foldl (fun t path => if (t.paths.lookup path).isNone then t.add path else t) fresh

/-- What `move_path` moves: `from` first, then, for a folder, what is below it. -/
def moves (t : InodeTable) (source : PathBuf) (subtree : Bool) : List (PathBuf × Nat) :=
  ((t.paths.lookup source).toList.map fun ino => (source, ino)) ++
    if subtree then
      (t.paths.entries.filter fun x => x.1.startsWith source && x.1 ≠ source).map fun x => (x.1, x.2)
    else []

/-- Where a path goes when `source` is renamed to `target`. -/
def movedTo (source target old : PathBuf) : PathBuf :=
  match old.stripPrefix source with
  | some rel => if rel ≠ [] then target.join rel else target
  | none => target

/-- The node that `ino` displaces at its new path. -/
def displaced (t : InodeTable) (old new : PathBuf) (ino : Nat) : Option Nat :=
  ((t.paths.erase old).lookup new).filter (· ≠ ino)

/-- One turn of the loop of `move_path`. -/
def move (t : InodeTable) (old new : PathBuf) (ino : Nat) : InodeTable :=
  { t with
    inodes := match t.displaced old new ino with
      | some d => (t.inodes.insert ino new).erase d
      | none => t.inodes.insert ino new
    paths := (t.paths.erase old).insert new ino }

end InodeTable

/-! ## The writer -/

namespace Log

/-- `Writer::flush`: a write that fails takes the log away. -/
def flush (l : Log) (ok : Bool) : Log :=
  if l.failed || l.buf.isEmpty then l
  else if ok then
    { l with
      disk := if l.attached then l.disk.map (· ++ l.buf) else l.disk
      compaction := l.compaction.map fun c => { c with tail := c.tail ++ l.buf }
      buf := [] }
  else { l with failed := true, disk := none }

/-- `Writer::append`. -/
def append (l : Log) (e : Nat × Entry) (sync : Bool) (io : Io) : Log :=
  if l.failed then l
  else
    let l := { l with buf := l.buf ++ [e] }
    if sync || io.full then l.flush io.ok else l

/-- `next_seq` and `append`. -/
def put (l : Log) (e : Entry) (sync : Bool) (io : Io) : Log :=
  ({ l with seq := l.seq + 1 }).append (l.seq + 1, e) sync io

/-- `RESERVE_BLOCK`. -/
def reserveBlock : Nat := 4096

/-- `reservation_after`: the end of the block of `ino`. -/
def reservationAfter (ino : Nat) : Nat := (ino / reserveBlock + 1) * reserveBlock

/-- The first half of `log_inode`: a number outside the reserved ones writes a new reservation. -/
def reserve (l : Log) (ino : Nat) (io : Io) : Log :=
  if l.reservedUpto ≤ ino then
    ({ l with reservedUpto := reservationAfter ino }).put (.reserve (reservationAfter ino)) true io
  else l

/-- `inode_allocated`. -/
def inodeAllocated (l : Log) (ino : Nat) (path : PathBuf) (io io' : Io) : Log :=
  if l.on then (l.reserve ino io).put (.ino ino path) false io' else l

/-- `inode_moved`. -/
def inodeMoved (l : Log) (ino : Nat) (target : PathBuf) (dropped : Option Nat) (io : Io) : Log :=
  if l.on then l.put (.mv ino target dropped) true io else l

/-- `handle_opened`. -/
def handleOpened (l : Log) (rec : OpenRecord) (io : Io) : Log :=
  if l.on then
    { l.put (.opened rec) true io with opens := l.opens.insert rec.fh (l.seq + 1, rec) }
  else l

/-- `handle_released`. -/
def handleReleased (l : Log) (fh : Nat) (io : Io) : Log :=
  match if l.on then l.opens.lookup fh else none with
  | some h =>
    ({ l with
      opens := l.opens.erase fh
      streams := match h.2.writePath with
        | some wp => l.streams.erase wp
        | none => l.streams }).put (.close fh) true io
  | none => l

/-- `handle_unlinked` and `handle_retargeted`: the change of the record and what it logs. -/
def handleChanged (l : Log) (fh : Nat) (f : OpenRecord → OpenRecord) (e : Entry) (io : Io) : Log :=
  match if l.on then l.opens.lookup fh else none with
  | some h => ({ l with opens := l.opens.insert fh (h.1, f h.2) }).put e true io
  | none => l

/-- `handle_unlinked`: the file of the handle is deleted. -/
def handleUnlinked (l : Log) (fh : Nat) (io : Io) : Log :=
  l.handleChanged fh (fun rec => { rec with unlinked := true }) (.unlinked fh) io

/-- `handle_retargeted`: the handle has another path. -/
def handleRetargeted (l : Log) (fh : Nat) (path : PathBuf) (io : Io) : Log :=
  l.handleChanged fh (fun rec => { rec with path := path }) (.retarget fh path) io

/-- `stream_started`. -/
def streamStarted (l : Log) (writePath : PathBuf) (uploadsBase : String) (io : Io) : Log :=
  if l.on then
    { l.put (.stream writePath uploadsBase) true io with
      streams := l.streams.insert writePath (l.seq + 1, uploadsBase) }
  else l

/-- The ticker: the handle counter, and what is queued. -/
def tick (l : Log) (next : Nat) (io : Io) (ok : Bool) : Log :=
  if l.on then
    (if next ≠ l.lastFhMark then { l.put (.fh next) false io with lastFhMark := next } else l).flush ok
  else l

/-- How the second half of a compaction ends. -/
inductive Swap where
  /-- The new file could not be written or renamed. -/
  | unwritten
  /-- It was renamed over the old one and could not be opened. -/
  | unopened
  | swapped
  deriving DecidableEq, Repr

/-- `LogImage::write`: every node id, the live handles and their streams. -/
def image (s fhMark reservedUpto : Nat) (t : InodeTable) (opens : List (Nat × OpenRecord))
    (streams : List (PathBuf × Nat × String)) : Entries :=
  (s, .fh fhMark) :: (s, .reserve reservedUpto) ::
    ((((t.inodes.entries.filter fun x => x.1 ≠ 1).insertionSort fun x y => x.1 ≤ y.1).map
        fun x => (s, .ino x.1 x.2)) ++
      opens.map (fun h => (h.1, .opened h.2)) ++
      streams.map fun x => (x.2.1, .stream x.1 x.2.2))

/-- The orders in which the maps of handles and streams are walked. -/
def Walks (l : Log) (opens : List (Nat × OpenRecord)) (streams : List (PathBuf × Nat × String)) :
    Prop :=
  opens.Perm (l.opens.entries.map fun x => x.2) ∧
    streams.Perm (l.streams.entries.map fun x => (x.1, x.2))

instance (l : Log) (opens : List (Nat × OpenRecord)) (streams : List (PathBuf × Nat × String)) :
    Decidable (l.Walks opens streams) :=
  inferInstanceAs (Decidable (_ ∧ _))

/-- `compact` up to the end of its first locked part. -/
def compactBegin (l : Log) (t : InodeTable) (opens : List (Nat × OpenRecord))
    (streams : List (PathBuf × Nat × String)) (ok : Bool) : Log :=
  if l.on then
    let l := l.flush ok
    if l.failed then l
    else
      let upto := max l.reservedUpto t.nextInode
      { l with
        reservedUpto := upto
        seq := l.seq + 1
        compaction := some { image := image (l.seq + 1) l.lastFhMark upto t opens streams } }
  else l

/-- `compact` from its second locked part on. -/
def compactEnd (l : Log) (ok : Bool) (swap : Swap) : Log :=
  let l := l.flush ok
  match l.compaction with
  | none => l
  | some c =>
    let l := { l with compaction := none }
    if l.failed then l
    else match swap with
      | .unwritten => l
      | .unopened => { l with disk := some (c.image ++ c.tail), attached := false }
      | .swapped => { l with disk := some (c.image ++ c.tail), attached := true }

/-- `start_fresh`, when the log could be written. -/
def startFresh (t : InodeTable) : Log where
  disk := some (image 1 0 t.nextInode t [] [])
  seq := 1
  reservedUpto := t.nextInode

/-- `start_fresh`, when it could not: nothing is logged and no file is left. -/
def startFailed : Log where
  on := false
  disk := none
  seq := 0
  reservedUpto := 0

/-- `start_resumed`. When the log cannot be reopened nothing is logged, and the file stays. -/
def startResumed (r : Restored) (nextInode : Nat) (es : Entries) (reopened : Bool) : Log where
  on := reopened
  disk := some es
  seq := r.maxSeq
  reservedUpto := nextInode
  opens := r.handles
  streams := r.streams
  lastFhMark := r.fhMark

end Log

/-! ## The daemon -/

/-- The daemon, as far as it is logged. -/
structure Daemon where
  table : InodeTable
  /-- What the log follows of `open_files`. -/
  handles : AList (fun _ : Nat => OpenRecord) := ∅
  nextFh : Nat := 1
  /-- The streamed uploads that were started, by staging file. -/
  streams : AList (fun _ : PathBuf => String) := ∅
  log : Log

/-- What may happen next. -/
inductive Event where
  | allocate (path : PathBuf) (io io' : Io)
  /-- `moves` are the turns of `move_path`, each with how its record is logged. -/
  | rename (source target : PathBuf) (subtree : Bool) (moves : List ((PathBuf × Nat) × Io))
  | open (rec : OpenRecord) (io : Io)
  /-- A folder's handle takes a number too, which is not logged. -/
  | opendir
  | release (fh : Nat) (io : Io)
  | unlink (fh : Nat) (io : Io)
  | retarget (fh : Nat) (path : PathBuf) (io : Io)
  | startStream (fh : Nat) (uploadsBase : String) (io : Io)
  | tick (io : Io) (ok : Bool)
  | flush (ok : Bool)
  | compactBegin (opens : List (Nat × OpenRecord)) (streams : List (PathBuf × Nat × String))
      (ok : Bool)
  | compactEnd (ok : Bool) (swap : Log.Swap)

namespace Daemon

variable (cacheDir : PathBuf)

/-- `FsCache::allocate_inode`. -/
def allocateInode (d : Daemon) (path : PathBuf) (io io' : Io) : Nat × Daemon :=
  match d.table.paths.lookup path with
  | some ino => (ino, d)
  | none =>
    (d.table.nextInode,
      { d with
        table := d.table.add path
        log := d.log.inodeAllocated d.table.nextInode path io io' })

/-- One turn of the loop of `FsCache::move_path`. -/
def moveOne (source target : PathBuf) (d : Daemon) (x : (PathBuf × Nat) × Io) : Daemon :=
  let new := InodeTable.movedTo source target x.1.1
  { d with
    table := d.table.move x.1.1 new x.1.2
    log := d.log.inodeMoved x.1.2 new (d.table.displaced x.1.1 new x.1.2) x.2 }

/-- A rename the kernel lets through: not of or onto the root, and neither path inside the other. -/
def CanRename (source target : PathBuf) : Prop :=
  source ≠ [] ∧ target ≠ [] ∧ (source = target ∨ ¬ source <+: target ∧ ¬ target <+: source)

instance (source target : PathBuf) : Decidable (CanRename source target) :=
  inferInstanceAs (Decidable (_ ∧ _))

/-- A handle gets its own number, and its staging file, if it has one, is named after it. -/
def CanOpen (d : Daemon) (rec : OpenRecord) : Prop :=
  rec.fh = d.nextFh ∧
    (rec.writePath = none ∨ rec.writePath = some (PathBuf.writePath cacheDir rec.fh))

instance (d : Daemon) (rec : OpenRecord) : Decidable (d.CanOpen cacheDir rec) :=
  inferInstanceAs (Decidable (_ ∧ _))

/-- A change of an open handle, and its hook. -/
def changeHandle (d : Daemon) (fh : Nat) (f : OpenRecord → OpenRecord) (log : Log) :
    Option Daemon :=
  (d.handles.lookup fh).map fun rec =>
    { d with handles := d.handles.insert fh (f rec), log := log }

/-- One step; none where the event does not fit. -/
def step (d : Daemon) : Event → Option Daemon
  | .allocate path io io' => some (d.allocateInode path io io').2
  | .rename source target subtree moves =>
    let turns := moves.map Prod.fst
    let head := (d.table.moves source false).length
    if CanRename source target ∧ d.table.moves source false <+: turns ∧
        (turns.drop head).Perm ((d.table.moves source subtree).drop head) then
      some (moves.foldl (moveOne source target) d)
    else none
  | .open rec io =>
    if d.CanOpen cacheDir rec then
      some { d with
        handles := d.handles.insert rec.fh rec
        nextFh := d.nextFh + 1
        log := d.log.handleOpened rec io }
    else none
  | .opendir => some { d with nextFh := d.nextFh + 1 }
  | .release fh io =>
    some { d with handles := d.handles.erase fh, log := d.log.handleReleased fh io }
  | .unlink fh io =>
    d.changeHandle fh (fun rec => { rec with unlinked := true }) (d.log.handleUnlinked fh io)
  | .retarget fh path io =>
    d.changeHandle fh (fun rec => { rec with path := path }) (d.log.handleRetargeted fh path io)
  | .startStream fh uploadsBase io =>
    -- the upload of a released handle may still be the one that starts
    if fh < d.nextFh then
      let wp := PathBuf.writePath cacheDir fh
      some { d with
        streams := d.streams.insert wp uploadsBase
        log := d.log.streamStarted wp uploadsBase io }
    else none
  | .tick io ok => some { d with log := d.log.tick d.nextFh io ok }
  | .flush ok => some { d with log := if d.log.on then d.log.flush ok else d.log }
  | .compactBegin opens streams ok =>
    if d.log.compaction.isNone ∧ d.log.Walks opens streams then
      some { d with log := d.log.compactBegin d.table opens streams ok }
    else none
  | .compactEnd ok swap =>
    if d.log.compaction.isSome then some { d with log := d.log.compactEnd ok swap } else none

/-- A run of steps. -/
def steps (d : Daemon) : List Event → Option Daemon
  | [] => some d
  | e :: es => (step cacheDir d e).bind fun d => steps d es

end Daemon

/-! ## Generations -/

/-- The table `apply` installs, when the new filesystem's own counter stands at `fresh`. -/
def InodeTable.restored (r : Restored) (fresh : Nat) : InodeTable :=
  { (r.inodes.entries.insertionSort fun x y => x.1 ≤ y.1).foldl
      (fun t x =>
        if x.1 = 1 then t
        else { t with inodes := t.inodes.insert x.1 x.2, paths := t.paths.insert x.2 x.1 })
      InodeTable.fresh with
    nextInode := max fresh r.nextInode }

/-- `FH_GAP`: handle numbers skipped after a restore. -/
def fhGap : Nat := 2 ^ 20

/-- `apply` and `start_resumed`. `lost` are the handles whose staging file is gone. -/
def Daemon.restored (r : Restored) (es : Entries) (fresh freshFh : Nat) (lost : List Nat)
    (reopened : Bool) : Daemon :=
  let table := InodeTable.restored r fresh
  { table
    handles := ⟨(r.handles.retain fun fh => fh ∉ lost).entries.map fun x => ⟨x.1, x.2.2⟩, by
      rw [List.NodupKeys, List.keys, List.map_map]
      exact (r.handles.retain fun fh => fh ∉ lost).nodupKeys⟩
    nextFh := max (max freshFh (r.maxFh + 1)) (r.fhMark + fhGap)
    streams := ⟨r.streams.entries.map fun x => ⟨x.1, x.2.2⟩, by
      rw [List.NodupKeys, List.keys, List.map_map]
      exact r.streams.nodupKeys⟩
    log := .startResumed r table.nextInode es reopened }

/-- One FUSE connection: the daemon that serves it, or none and the log the last one left. -/
structure Host where
  daemon : Option Daemon
  disk : Option Entries := none
  gen : Nat := 0
  /-- Every number `allocate_inode` took from the counter, with the generation that did. -/
  handed : List (Nat × Nat)
  /-- The log this generation was restored from. -/
  source : Entries := []

/-- What may happen to the daemons of a mount, one after the other. -/
inductive HostEvent where
  | run (e : Event)
  | die
  | restore (fresh freshFh : Nat) (lost : List Nat) (reopened : Bool)

namespace Host

variable (cacheDir : PathBuf) (dev : ConnDev) (mountPoint : PathBuf)

/-- A fresh mount, whose filesystem has handed out the nodes of `t` before the log starts. -/
def start (t : InodeTable) (logged : Bool) : Host where
  daemon := some { table := t, log := if logged then .startFresh t else .startFailed }
  handed := (t.inodes.keys.filter (· ≠ 1)).map fun ino => (0, ino)

/-- The number an event takes from the counter. -/
def taken (d : Daemon) : Event → Option Nat
  | .allocate path _ _ =>
    if (d.table.paths.lookup path).isNone then some d.table.nextInode else none
  | _ => none

/-- One step; none where the event does not fit. -/
def step (h : Host) : HostEvent → Option Host
  | .run e =>
    h.daemon.bind fun d => (d.step cacheDir e).map fun d' =>
      { h with daemon := some d', handed := (taken d e).toList.map (h.gen, ·) ++ h.handed }
  | .die => h.daemon.map fun d => { h with daemon := none, disk := d.log.disk }
  | .restore fresh freshFh lost reopened =>
    match h.daemon, h.disk with
    | none, some es =>
      match loadRecords dev mountPoint (records dev mountPoint es) with
      | .ok r =>
        some { h with
          daemon := some (.restored r es fresh freshFh lost reopened)
          gen := h.gen + 1
          source := es }
      | .error _ => none
    | _, _ => none

/-- A run of steps. -/
def steps (h : Host) : List HostEvent → Option Host
  | [] => some h
  | e :: es => (h.step cacheDir dev mountPoint e).bind fun h => steps h es

end Host

end Handoff

end Ncrs
