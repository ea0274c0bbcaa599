import Ncrs.Native.Echo

/-!
# The status feed of a file manager

A file manager's client (`ncrsclient.cpp`) answers from the `DETAILDIR` replies it holds, one
directory at a time, and keeps them current through the change feed: the daemon writes a record of
each change to a bounded log (`change_log.rs`), and a `WATCH` connection streams the log from a
sequence number on. Requests and replies travel on one connection, the feed on another.

The connections are modelled as what is on its way on each of them. Paths are below the mount point;
a name with a control character never gets into the mount, so that the lines of both protocols are cut
where they were joined, and a `DETAILDIR` is never refused. The client may still take a reply for a
refusal.
-/

namespace Ncrs

/-! ## The daemon's answer -/

/-- Where a file's content is. -/
inductive FileStatus where
  | kept
  | cached
  | synced
  | remote
  | downloading
  | uploading
  | pendingSync
  | unknown
  deriving DecidableEq, Repr

/-- The name of a status in the records. -/
def FileStatus.asStr : FileStatus → String
  | .kept => "kept"
  | .cached => "cached"
  | .synced => "synced"
  | .remote => "remote"
  | .downloading => "downloading"
  | .uploading => "uploading"
  | .pendingSync => "pending"
  | .unknown => "unknown"

/-- What the daemon knows of a file apart from its status. -/
structure FileDetail where
  permissions : Option String := none
  ownerId : Option String := none
  ownerDisplayName : Option String := none
  size : Nat := 0
  isDir : Bool := false
  deriving DecidableEq, Repr

/-- One child of a `DETAILDIR` reply. -/
structure DetailRecord where
  name : String
  status : String
  sharing : String
  perms : String
  owner : String
  size : Nat
  deriving DecidableEq, Repr

/-- The text of a record. -/
def DetailRecord.text (r : DetailRecord) : List Char :=
  ['\t'].intercalate ([r.name, r.status, r.sharing, r.perms, r.owner].map String.toList ++ [r.size.repr.toList])

/-- The line that answers a `DETAILDIR`. -/
def replyLine (records : List DetailRecord) : List Char := ['\x1e'].intercalate (records.map DetailRecord.text)

/-- The maps a `DETAILDIR` is answered from. The index of children files a path under its parent. -/
structure Daemon where
  details : AList fun _ : PathBuf => FileDetail
  children : PathBuf → Option (List PathBuf)
  username : String
  status : PathBuf → Option FileStatus
  shared : PathBuf → Bool
  children_parent : ∀ dir cs, children dir = some cs → ∀ c ∈ cs, c ≠ [] ∧ c.parent = dir

namespace Daemon

/-- A status, `remote` where none is stored. -/
def statusOr (d : Daemon) (p : PathBuf) : FileStatus := (d.status p).getD .remote

/-- The children a listing shows: the index, or a scan of the details when it has no entry. -/
def dirChildren (d : Daemon) (dir : PathBuf) : List PathBuf :=
  match d.children dir with
  | some cs => cs
  | none => d.details.keys.filter fun p => decide (p ≠ []) && decide (p.parent = dir)

/-- `dir_status`: a directory's status rolled up from its children. -/
def dirStatus (d : Daemon) (dir : PathBuf) : String :=
  let inside := ((d.children dir).getD []).map d.statusOr
  let isLocal := inside.countP fun st => decide (st = .kept ∨ st = .synced ∨ st = .cached)
  let allKept := inside.all fun st => decide (st = .kept ∨ st = .synced ∨ st = .uploading)
  if d.status dir = some .downloading then "downloading"
  else if d.status dir = some .uploading then "uploading"
  else if inside.any fun st => decide (st = .uploading) then "uploading"
  else if 0 < inside.length ∧ isLocal = inside.length then if allKept then "kept" else "cached"
  else if 0 < isLocal then "partial"
  else (d.statusOr dir).asStr

/-- The sharing a record tells. -/
def sharing (d : Daemon) (p : PathBuf) (detail : FileDetail) : String :=
  if d.shared p then
    match detail.ownerId with
    | some owner => if owner = d.username then "Shared by you" else "Shared with you"
    | none => "Shared"
  else ""

/-- `detaildir_records`. -/
def detaildirRecords (d : Daemon) (dir : PathBuf) : List DetailRecord :=
  (d.dirChildren dir).filterMap fun child =>
    match d.details.lookup child, child.fileName with
    | some detail, some name => some
      { name := name
        status := if detail.isDir then d.dirStatus child else (d.statusOr child).asStr
        sharing := d.sharing child detail
        perms := detail.permissions.getD ""
        owner := detail.ownerDisplayName.getD ""
        size := detail.size }
    | _, _ => none

/-- The status and sharing of `p` change. -/
def change (d : Daemon) (p : PathBuf) (st : Option FileStatus) (shared : Bool) : Daemon :=
  { d with
    status := fun q => if q = p then st else d.status q
    shared := fun q => if q = p then shared else d.shared q }

end Daemon

/-! ## The change log -/

/-- `change_log::ChangeRecord`. -/
inductive FeedRecord where
  | status (path : PathBuf)
  | file (change : FileChange)
  deriving DecidableEq, Repr

/-- The paths a record names on the wire. -/
def FeedRecord.paths : FeedRecord → List PathBuf
  | .status p => [p]
  | .file c =>
    match c.kind with
    | .renamed src => [src, c.path]
    | _ => [c.path]

/-- The log of changes, with the number of its first entry. -/
structure ChangeLog where
  /-- The sequence number of the first entry. -/
  base : Nat := 0
  entries : List FeedRecord := []
  cap : Nat
  deriving DecidableEq, Repr

/-- What a reader of the log is given. -/
structure ReadResult where
  next : Nat
  records : List FeedRecord
  resync : Bool
  deriving DecidableEq, Repr

/-- The most entries one reply holds. -/
def eventsPage : Nat := 1000

namespace ChangeLog

/-- The number of the next entry. -/
def head (l : ChangeLog) : Nat := l.base + l.entries.length

/-- `append`. Records nobody could read are counted and dropped. -/
def append (l : ChangeLog) (records : List FeedRecord) (reader : Bool) : ChangeLog :=
  if records.isEmpty then l
  else
    let entries := l.entries ++ records
    let overflow := entries.length - l.cap
    let l := { l with entries := entries.drop overflow, base := l.base + overflow }
    if reader then l else { l with entries := [], base := l.base + l.entries.length }

/-- `read_since`. -/
def readSince (l : ChangeLog) (since max : Nat) : ReadResult :=
  let start := Nat.min (Nat.max since l.base) l.head
  let records := (l.entries.drop (start - l.base)).take max
  { next := start + records.length, records := records, resync := decide (since < l.base) }

end ChangeLog

/-! ## The client -/

/-- The file manager's view of a file. -/
structure NcrsEntry where
  status : String
  sharing : String
  deriving DecidableEq, Repr

/-- `parseDetailRecord`; the daemon's status words hold no comma. -/
def parseDetailRecord (r : DetailRecord) : Option (String × NcrsEntry) :=
  if r.name = "" then none else some (r.name, { status := r.status, sharing := r.sharing })

/-- The children a reply stands for. -/
def childrenOf (records : List DetailRecord) : String → Option NcrsEntry := fun name =>
  ((records.filterMap parseDetailRecord).reverse.find? fun x => decide (x.1 = name)).map (·.2)

/-- What the client takes for an error. -/
def isErrorLine (line : List Char) : Bool := "error:".toList.isPrefixOf line || line = "unknown".toList

/-- The file manager's view of a directory. -/
structure DirCache where
  children : String → Option NcrsEntry := fun _ => none
  fetchedAtMs : Option Nat := none
  inFlight : Bool := false
  refetchQueued : Bool := false
  lastUsedMs : Nat := 0

/-- Where the client's connection is. -/
inductive ClientState where
  | idle
  /-- Connected, or about to be, and waiting for the reply to `HELLO`. -/
  | handshaking
  | ready
  deriving DecidableEq, Repr

/-- What the daemon writes on the connection. -/
inductive WatchLine where
  | watching (seq : Nat)
  | ev (next : Nat) (records : List FeedRecord)
  | resync (next : Nat)
  deriving DecidableEq, Repr

/-- The feed's connection. -/
inductive WatchConn where
  | closed
  | opening
  /-- `WATCH` is written and not read yet. -/
  | asked (since : Option Nat)
  /-- The daemon keeps the log for this reader and has emptied the producers' buffers. -/
  | marked (since : Option Nat)
  /-- The daemon's cursor, and the lines the client has not read yet. -/
  | streaming (since : Nat) (lines : List WatchLine)
  deriving DecidableEq, Repr

/-- Whether the daemon keeps the log for the feed. -/
def WatchConn.reader : WatchConn → Bool
  | .marked _ | .streaming _ _ => true
  | _ => false

/-- The daemon, one client, and the lines between them. -/
structure StatusFeed where
  daemon : Daemon
  dirty : Finset PathBuf := ∅
  fileChanges : List FileChange := []
  log : ChangeLog
  /-- Somebody else reads the log, or the daemon has not noticed the end of an earlier feed. -/
  others : Bool := false
  /-- Every record ever appended; the place of a record is its sequence number. -/
  history : List FeedRecord := []
  cacheTtlMs : Nat := 30000
  maxCachedDirs : Nat := 256
  state : ClientState := .idle
  now : Nat := 0
  dirs : AList fun _ : PathBuf => DirCache := ∅
  wantedBeforeHello : Finset PathBuf := ∅
  /-- Requests the daemon has not answered, and replies the client has not read. -/
  wire : List PathBuf := []
  replies : List (PathBuf × List DetailRecord) := []
  refetch : Finset PathBuf := ∅
  watch : WatchConn := .closed
  watchRetry : Bool := false
  watchSeq : Nat := 0
  haveWatchSeq : Bool := false

/-- What may happen next. -/
inductive FeedEvent where
  | tick (ms : Nat)
  | change (path : PathBuf) (status : Option FileStatus) (shared : Bool)
  | fileChange (c : FileChange)
  /-- The buffers are emptied into the log; a set comes out in any order. -/
  | pump (order : List PathBuf)
  | others (reading : Bool)
  | lookup (path : PathBuf)
  | connect
  | hello (order : List PathBuf)
  | queryLost
  /-- The daemon answers the next request. -/
  | answer
  /-- The client reads the next reply. -/
  | reply
  | flush (order : List PathBuf)
  | evict (dir : PathBuf)
  | watchConnected
  | register (order : List PathBuf)
  /-- The daemon fixes where the feed starts. -/
  | startFeed
  /-- The daemon writes the next page of the log. -/
  | push
  /-- The client reads the next line of the feed. -/
  | deliver
  | watchLost
  | watchRetry

namespace StatusFeed

/-- `DETAILDIR dir`. -/
def detaildir (s : StatusFeed) (dir : PathBuf) : List DetailRecord := s.daemon.detaildirRecords dir

/-- `pump`. -/
def pump (s : StatusFeed) (order : List PathBuf) : Option StatusFeed :=
  if order.Nodup ∧ order.toFinset = s.dirty then
    let records := s.fileChanges.map .file ++ order.map .status
    some { s with
      dirty := ∅, fileChanges := []
      log := s.log.append records (s.others || s.watch.reader)
      history := s.history ++ records }
  else none

/-- `requestDir`. The queue is written out at once; evictions are a step of their own. -/
def requestDir (s : StatusFeed) (dir : PathBuf) : StatusFeed :=
  let d := { (s.dirs.lookup dir).getD {} with lastUsedMs := s.now }
  if d.inFlight then { s with dirs := s.dirs.insert dir d }
  else
    { s with
      dirs := s.dirs.insert dir { d with inFlight := true }
      wire := s.wire ++ [dir]
      watch := if s.watch = .closed ∧ s.watchRetry = false then .opening else s.watch }

/-- The file manager asks for a file's status. -/
def lookup (s : StatusFeed) (path : PathBuf) : StatusFeed :=
  if s.state = .ready then
    if path = [] then s
    else
      match s.dirs.lookup path.parent with
      | none => s.requestDir path.parent
      | some d =>
        let s' := { s with dirs := s.dirs.insert path.parent { d with lastUsedMs := s.now } }
        let fresh := d.fetchedAtMs.any fun t => decide (s.now - t < s.cacheTtlMs)
        if !fresh && !d.inFlight then s'.requestDir path.parent else s'
  else if s.wantedBeforeHello.card < s.maxCachedDirs then
    { s with wantedBeforeHello := insert path.parent s.wantedBeforeHello }
  else s

/-- `handleHello`. -/
def hello (s : StatusFeed) (order : List PathBuf) : Option StatusFeed :=
  if s.state = .handshaking ∧ order.Nodup ∧ order.toFinset = s.wantedBeforeHello then
    some (order.foldl requestDir { s with state := .ready, wantedBeforeHello := ∅ })
  else none

/-- `dropConnection`. -/
def dropConnection (s : StatusFeed) : StatusFeed :=
  { s with
    state := .idle, wire := [], replies := [], refetch := ∅, dirs := ∅
    watch := .closed, watchRetry := false, haveWatchSeq := false }

/-- The daemon answers the request it received. -/
def answer (s : StatusFeed) : Option StatusFeed :=
  match s.wire with
  | [] => none
  | dir :: rest =>
    some { s with wire := rest, replies := s.replies ++ [(dir, s.detaildir dir)] }

/-- `applyDetailDir`. An error keeps what there was. -/
def applyDetailDir (s : StatusFeed) (dir : PathBuf) (records : List DetailRecord) : StatusFeed :=
  match s.dirs.lookup dir with
  | none => s
  | some d =>
    let children := if isErrorLine (replyLine records) then d.children else childrenOf records
    let d' := { d with
      children := children, inFlight := false, fetchedAtMs := some s.now, refetchQueued := false }
    { s with
      dirs := s.dirs.insert dir d'
      refetch := if d.refetchQueued then insert dir s.refetch else s.refetch }

/-- The client takes in the reply. -/
def reply (s : StatusFeed) : Option StatusFeed :=
  match s.replies with
  | [] => none
  | (dir, r) :: rest => some ({ s with replies := rest }.applyDetailDir dir r)

/-- One directory of `flushRefetches`. -/
def refetchDir (s : StatusFeed) (dir : PathBuf) : StatusFeed :=
  match s.dirs.lookup dir with
  | none => s
  | some d =>
    -- The reply in flight may predate the change.
    if d.inFlight then { s with dirs := s.dirs.insert dir { d with refetchQueued := true } }
    else s.requestDir dir

/-- `flushRefetches`. -/
def flush (s : StatusFeed) (order : List PathBuf) : Option StatusFeed :=
  if s.refetch ≠ ∅ ∧ order.Nodup ∧ order.toFinset = s.refetch then
    some (order.foldl refetchDir { s with refetch := ∅ })
  else none

/-- `evictIfNeeded`: one victim, the least recently used that is not in flight. -/
def evict (s : StatusFeed) (dir : PathBuf) : Option StatusFeed :=
  match s.dirs.lookup dir with
  | none => none
  | some d =>
    if s.maxCachedDirs < s.dirs.entries.length ∧ d.inFlight = false
        ∧ s.dirs.entries.all fun x => x.2.inFlight || decide (d.lastUsedMs ≤ x.2.lastUsedMs) then
      some { s with dirs := s.dirs.erase dir }
    else none

/-- A cached listing is out of date. -/
def invalidateDir (s : StatusFeed) (dir : PathBuf) : StatusFeed :=
  match s.dirs.lookup dir with
  | none => s
  | some d =>
    { s with
      dirs := s.dirs.insert dir { d with fetchedAtMs := none }
      refetch := insert dir s.refetch }

/-- The directories above a path, its parent first. -/
def ancestors (path : PathBuf) : List PathBuf := (List.range path.length).reverse.map path.take

/-- `invalidatePath`. -/
def invalidatePath (s : StatusFeed) (path : PathBuf) : StatusFeed :=
  (ancestors path).foldl invalidateDir s

/-- `invalidateAll`. -/
def invalidateAll (s : StatusFeed) : StatusFeed := s.dirs.keys.foldl invalidateDir s

/-- `handleWatchLine`. -/
def handleWatchLine (s : StatusFeed) : WatchLine → StatusFeed
  | .watching seq => { s with watchSeq := seq, haveWatchSeq := true }
  | .resync next => { s with watchSeq := next, haveWatchSeq := true }.invalidateAll
  | .ev next records =>
    (records.flatMap FeedRecord.paths).foldl invalidatePath
      { s with watchSeq := next, haveWatchSeq := true }

/-- The client takes in the next line of the watch. -/
def deliver (s : StatusFeed) : Option StatusFeed :=
  match s.watch with
  | .streaming since (line :: lines) =>
    some ({ s with watch := .streaming since lines }.handleWatchLine line)
  | _ => none

/-- One turn of the daemon's loop that finds something to write. -/
def push (s : StatusFeed) : Option StatusFeed :=
  match s.watch with
  | .streaming since lines =>
    let res := s.log.readSince since eventsPage
    if res.resync then
      some { s with watch := .streaming res.next (lines ++ [.resync res.next]) }
    else if res.records.isEmpty then none
    else some { s with watch := .streaming res.next (lines ++ [.ev res.next res.records]) }
  | _ => none

/-- One step; none where the event does not fit. -/
def step (s : StatusFeed) : FeedEvent → Option StatusFeed
  | .tick ms => some { s with now := s.now + ms }
  | .change path status shared =>
    some { s with daemon := s.daemon.change path status shared, dirty := insert path s.dirty }
  | .fileChange c => some { s with fileChanges := s.fileChanges ++ [c] }
  | .pump order => s.pump order
  | .others reading => some { s with others := reading }
  | .lookup path => some (s.lookup path)
  | .connect => if s.state = .idle then some { s with state := .handshaking } else none
  | .hello order => s.hello order
  | .queryLost => if s.state = .idle then none else some s.dropConnection
  | .answer => s.answer
  | .reply => s.reply
  | .flush order => s.flush order
  | .evict dir => s.evict dir
  | .watchConnected =>
    if s.watch = .opening then
      some { s with watch := .asked (if s.haveWatchSeq then some s.watchSeq else none) }
    else none
  | .register order =>
    match s.watch with
    | .asked since => { s with watch := .marked since }.pump order
    | _ => none
  | .startFeed =>
    match s.watch with
    | .marked since =>
      let since := since.getD s.log.head
      some { s with watch := .streaming since [.watching since] }
    | _ => none
  | .push => s.push
  | .deliver => s.deliver
  | .watchLost =>
    if s.watch = .closed then none
    else some { s with watch := .closed, watchRetry := true }
  | .watchRetry =>
    if s.watchRetry ∧ s.state = .ready then
      some { s with watchRetry := false, watch := if s.watch = .closed then .opening else s.watch }
    else none

/-- A run; it ends early at a step that cannot be taken. -/
def steps (s : StatusFeed) : List FeedEvent → Option StatusFeed
  | [] => some s
  | e :: es => (s.step e).bind fun s' => s'.steps es

/-- A daemon with an empty log, and a client that was never asked anything. -/
def start (d : Daemon) (cap cacheTtlMs maxCachedDirs : Nat) : StatusFeed :=
  { daemon := d, log := { cap := cap }, cacheTtlMs := cacheTtlMs, maxCachedDirs := maxCachedDirs }

/-- The client is connected, its feed is established and delivered to the head of the log, every
    change is in the log, and no refetch is scheduled, queued or in flight. -/
structure Quiet (s : StatusFeed) : Prop where
  ready : s.state = .ready
  established : ∃ since, s.watch = .streaming since []
  delivered : s.haveWatchSeq = true ∧ s.watchSeq = s.log.head
  appended : s.dirty = ∅ ∧ s.fileChanges = []
  unscheduled : s.refetch = ∅
  unqueued : ∀ x ∈ s.dirs.entries, x.2.refetchQueued = false
  landed : s.wire = [] ∧ s.replies = []

end StatusFeed

end Ncrs
