import Ncrs.Native.ReplayLoop

/-!
# Daemon sessions over one cache directory

Model of the life of write staging files: `open`, `create`, `write`, `setattr` and `release`
as far as they name, fill and discard `write_<fh>`, the handle counter, the journal load and
the `write_*` sweep of `NextCloudFs::new`, and the handoff log of `state_snapshot.rs` that a
restarted daemon restores its handles and its counter from.

A running daemon ends in a crash or a clean exit at any point; the next one mounts afresh or
takes the connection over. What stays is the cache directory (staging files, saved journal)
and the handoff log. The log fails in three ways: a write of it fails and the file is removed;
a restored daemon cannot reopen it, logs nothing and leaves the file where it is; the file a
compaction put in place cannot be opened, and the records go on into the unlinked old one. A write
or a resize is given by the content it leaves in the staging file, so every offset, length and seed
is covered. Records of the log that do not concern handles (node ids, renames, streams) are left
out, as are the fields of a handle that neither the staging file nor the counter depends on.
-/

namespace Ncrs

/-- Handle numbers skipped after a restore (`FH_GAP`). -/
def FH_GAP : Nat := 1048576

/-- The handoff log's records about handles. -/
inductive LogRecord where
  | fh (next : Nat)
  | opened (fh : Nat) (writePath : Option PathBuf)
  | closed (fh : Nat)
  deriving DecidableEq, Repr

/-- What replaying a log gives (`Restored`). -/
structure Restored where
  handles : List (Nat × Option PathBuf) := []
  maxFh : Nat := 0
  fhMark : Nat := 0
  deriving DecidableEq, Repr

/-- `Replayer::apply`. -/
def Restored.apply (r : Restored) : LogRecord → Restored
  | .fh next => { r with fhMark := max r.fhMark next }
  | .opened fh wp =>
    { r with
      maxFh := max r.maxFh fh
      handles := (r.handles.filter fun h => h.1 ≠ fh) ++ [(fh, wp)] }
  | .closed fh => { r with handles := r.handles.filter fun h => h.1 ≠ fh }

/-- `state_snapshot::load`. -/
def Restored.load (records : List LogRecord) : Restored := records.foldl Restored.apply {}

/-- The log writer: what is in the file it appends to, and what a compaction would write. -/
structure LogWriter where
  records : List LogRecord
  opens : List (Nat × Option PathBuf) := []
  lastFhMark : Nat := 0
  deriving DecidableEq, Repr

namespace LogWriter

def handleOpened (w : LogWriter) (fh : Nat) (wp : Option PathBuf) : LogWriter :=
  { w with
    records := w.records ++ [.opened fh wp]
    opens := (w.opens.filter fun h => h.1 ≠ fh) ++ [(fh, wp)] }

def handleReleased (w : LogWriter) (fh : Nat) : LogWriter :=
  if w.opens.any (fun h => h.1 = fh) then
    { w with records := w.records ++ [.closed fh], opens := w.opens.filter fun h => h.1 ≠ fh }
  else w

/-- The ticker logs the counter when it moved. -/
def tick (w : LogWriter) (next : Nat) : LogWriter :=
  if next ≠ w.lastFhMark then
    { w with records := w.records ++ [.fh next], lastFhMark := next }
  else w

/-- `compact`: the watermark and the live handles. -/
def compact (w : LogWriter) : LogWriter :=
  { w with records := .fh w.lastFhMark :: w.opens.map fun h => .opened h.1 h.2 }

end LogWriter

/-- What an open handle keeps about its staging file. -/
structure OpenHandle where
  fh : Nat
  remotePath : PathBuf
  writePath : Option PathBuf
  dirty : Bool := false
  unlinked : Bool := false
  uploadFailed : Bool := false
  originalEtag : Option String := none
  deriving DecidableEq, Repr

/-- A running daemon. -/
structure Session where
  journal : MutationJournal
  nextFh : Nat := 1
  openFiles : List OpenHandle := []
  /-- `none` once the log could not be written or reopened: nothing is logged any more. -/
  log : Option LogWriter := some { records := [.fh 0] }
  /-- The log file in the cache directory, when it is not the one the writer appends to. -/
  leftLog : Option (List LogRecord) := none
  cacheDir : PathBuf

/-- How `release` commits a dirty handle. -/
inductive Commit where
  | whole
  | streamed (uploadsBase : String) (nextIndex bytesConfirmed totalLen : Nat)
      (sparse : Bool) (head : Nat) (whole : Bool)
  deriving DecidableEq, Repr

namespace Session

def writeStaging (s : Session) (p : PathBuf) (f : LocalFile) : Session :=
  { s with journal := { s.journal with disk := s.journal.disk.writeFile p f } }

def removeStaging (s : Session) (p : PathBuf) : Session :=
  { s with journal := s.journal.removeStaging [p] }

/-- `*n += 1` under the counter's lock. -/
def takeFh (s : Session) : Session := { s with nextFh := s.nextFh + 1 }

/-- `open_files.insert` and the log record, before the reply. -/
def insertHandle (s : Session) (h : OpenHandle) : Session :=
  { s with
    openFiles := s.openFiles ++ [h]
    log := s.log.map fun w => w.handleOpened h.fh h.writePath }

/-- `open`: a writable handle stages the current content (`none`: nothing staged yet). -/
def openFile (s : Session) (path : PathBuf) (writable truncating : Bool)
    (etag : Option String) (staged : Option LocalFile) : Session :=
  let wp := PathBuf.writePath s.cacheDir s.nextFh
  let h : OpenHandle :=
    { fh := s.nextFh, remotePath := path, writePath := if writable then some wp else none
      dirty := truncating, originalEtag := etag }
  match writable, staged with
  | true, some f => (s.takeFh.writeStaging wp f).insertHandle h
  | _, _ => s.takeFh.insertHandle h

/-- An `open` for writing that cannot stage the content discards the staging file. -/
def openFailed (s : Session) : Session :=
  s.takeFh.removeStaging (PathBuf.writePath s.cacheDir s.nextFh)

/-- `create`: the staging file is made empty. -/
def create (s : Session) (path : PathBuf) : Session :=
  let wp := PathBuf.writePath s.cacheDir s.nextFh
  (s.takeFh.writeStaging wp { data := [] }).insertHandle
    { fh := s.nextFh, remotePath := path, writePath := some wp }

def handle (s : Session) (fh : Nat) : Option OpenHandle := s.openFiles.find? fun h => h.fh = fh

/-- A write or a resize through a handle, which leaves `f` in its staging file; a handle
    opened without one gets `write_<fh>`. -/
def writeHandle (s : Session) (fh : Nat) (f : LocalFile) : Session :=
  match s.handle fh with
  | none => s
  | some h =>
    let wp := h.writePath.getD (PathBuf.writePath s.cacheDir fh)
    { s.writeStaging wp f with
      openFiles := s.openFiles.map fun x =>
        if x.fh = fh then { x with writePath := some wp, dirty := true } else x }

/-- What a commit queues. -/
def commitOp (h : OpenHandle) (wp : PathBuf) : Commit → MutationOp
  | .whole => .put h.remotePath wp h.originalEtag
  | .streamed u n b l sp hd w => .finishChunked h.remotePath u n b l wp h.originalEtag sp hd w

/-- `release`: the handle goes, its closing is logged, and its staging file is queued or
    discarded. -/
def release (s : Session) (fh : Nat) (commit : Commit) : Session :=
  match s.handle fh with
  | none => s
  | some h =>
    let s := { s with
      openFiles := s.openFiles.filter fun x => x.fh ≠ fh
      log := s.log.map fun w => w.handleReleased fh }
    match h.writePath with
    | none => s
    | some wp =>
      if h.uploadFailed || h.unlinked then
        if h.unlinked then s.removeStaging wp else s
      else if !h.dirty then s.removeStaging wp
      -- A staging file that is gone fails the commit.
      else if (s.journal.disk.files wp).isNone then s
      else
        let queued := s.journal.enqueue (commitOp h wp commit)
        { s with journal := queued.2.supersedeUploads h.remotePath queued.1 }

/-- `unlink` of an open file marks its handles. -/
def markUnlinked (s : Session) (path : PathBuf) : Session :=
  { s with openFiles := s.openFiles.map fun h =>
      if h.remotePath = path then { h with unlinked := true } else h }

/-- A live upload that landed: its file goes to a queued MOVE or leaves the staging area. -/
def uploadDone (s : Session) (seq : SeqId) : Session :=
  match s.journal.entries.find? (fun e => e.seq = seq) with
  | none => s
  | some e =>
    match e.op.stagingPath with
    | none => { s with journal := s.journal.remove seq }
    | some wp =>
      let handed := s.journal.handStagingToRename e.op.path wp
      let j := handed.2.remove seq
      { s with journal := if handed.1 then j else j.removeStaging [wp] }

/-- Whether a live operation brings a local file into the journal; `release` and
    `uploadDone` are what does that. -/
def bringsStaging : LiveOp → Bool
  | .enqueue op => op.stagingPath.isSome
  | .handStagingToRename _ _ => true
  | _ => false

/-- The startup sweep: `write_*` files that no queued entry refers to and no restored handle
    still writes to. -/
def sweep (j : MutationJournal) (cacheDir : PathBuf) (protect : List PathBuf) : MutationJournal :=
  let referenced := j.entries.filterMap fun e => e.op.stagingPath
  let orphaned (p : PathBuf) : Bool :=
    p.parent = cacheDir && (p.fileName.any fun n => "write_".toList.isPrefixOf n.toList)
      && decide (p ∉ referenced) && decide (p ∉ protect)
  { j with disk := { j.disk with
      files := fun p => if orphaned p then none else j.disk.files p } }

/-- A fresh mount. -/
def mountFresh (disk : CacheDir) (cacheDir : PathBuf) : Session :=
  { journal := sweep (MutationJournal.loadOrCreate disk) cacheDir [], cacheDir := cacheDir }

/-- A handle restored from the log; one whose staging file is gone is lost. `state` is what
    the log, the snapshot and the staging file say about it otherwise (`write_state`). -/
def rebuild (disk : CacheDir) (state : Nat → OpenHandle) (h : Nat × Option PathBuf) :
    Option OpenHandle :=
  match h.2 with
  | some wp =>
    if (disk.files wp).isSome then some { state h.1 with fh := h.1, writePath := some wp }
    else none
  | none => some { state h.1 with fh := h.1, writePath := none }

/-- A daemon that takes the connection of its predecessor over (`stage`, `new`, `apply`).
    `reopened` is whether `start_resumed` could open the log again. -/
def restore (disk : CacheDir) (records : List LogRecord) (cacheDir : PathBuf)
    (reopened : Bool) (state : Nat → OpenHandle) : Session :=
  let r := Restored.load records
  let j := sweep (MutationJournal.loadOrCreate disk) cacheDir (r.handles.filterMap (·.2))
  { journal := j
    nextFh := max 1 (max (r.maxFh + 1) (r.fhMark + FH_GAP))
    openFiles := r.handles.filterMap (rebuild j.disk state)
    log :=
      if reopened then some { records := records, opens := r.handles, lastFhMark := r.fhMark }
      else none
    leftLog := if reopened then none else some records
    cacheDir := cacheDir }

/-- The log file a crash would leave. -/
def logFile (s : Session) : Option (List LogRecord) :=
  match s.leftLog with
  | some records => some records
  | none => s.log.map (·.records)

end Session

/-- The machine: a daemon is running, or none is and only the disk is left. `behind`: the last
    daemon was not writing the log file it left. -/
inductive Host where
  | up (s : Session)
  | down (disk : CacheDir) (log : Option (List LogRecord)) (behind : Bool) (cacheDir : PathBuf)

variable {σ : Type}

inductive HostEvent (σ : Type) where
  | openFile (path : PathBuf) (writable truncating : Bool) (etag : Option String)
      (staged : Option LocalFile)
  | openFailed
  | openDir
  | create (path : PathBuf)
  | writeHandle (fh : Nat) (f : LocalFile)
  | release (fh : Nat) (commit : Commit)
  | markUnlinked (path : PathBuf)
  | uploadDone (seq : SeqId)
  | journal (op : LiveOp)
  | replay (backend : CloudBackend σ) (server : σ) (stamp : String) (now : Nat)
  | tick
  | compact
  /-- The end of a compaction whose new file cannot be opened. -/
  | compactedUnopened
  | logFailed
  | crash
  | cleanExit
  | mountFresh
  | restore (reopened : Bool) (state : Nat → OpenHandle)

namespace Session

/-- What a running daemon does. -/
def step (s : Session) : HostEvent σ → Session
  | .openFile path writable truncating etag staged => s.openFile path writable truncating etag staged
  | .openFailed => s.openFailed
  | .openDir => s.takeFh
  | .create path => s.create path
  | .writeHandle fh f => s.writeHandle fh f
  | .release fh commit => s.release fh commit
  | .markUnlinked path => s.markUnlinked path
  | .uploadDone seq => s.uploadDone seq
  | .journal op => if bringsStaging op then s else { s with journal := op.apply s.journal }
  | .replay b server stamp now =>
    let ctx : ReplayContext σ :=
      { backend := b, cacheDir := s.cacheDir, stamp := fun _ _ => stamp, now := fun _ _ => now }
    { s with journal := (replayRound ctx { journal := s.journal, server := server }).2.journal }
  | .tick => { s with log := s.log.map fun w => w.tick s.nextFh }
  | .compact =>
    match s.log with
    | none => s
    | some w => { s with log := some w.compact, leftLog := none }
  | .compactedUnopened =>
    match s.log with
    | none => s
    | some w => { s with leftLog := some (s.leftLog.getD w.records) }
  | .logFailed =>
    match s.log with
    | none => s
    | some _ => { s with log := none, leftLog := none }
  | .crash | .cleanExit | .mountFresh | .restore _ _ => s

end Session

def Host.step : Host → HostEvent σ → Host
  | .up s, .crash => .down s.journal.disk s.logFile s.leftLog.isSome s.cacheDir
  | .up s, .cleanExit => .down s.journal.disk none false s.cacheDir
  | .up s, ev => .up (s.step ev)
  | .down disk _ _ cacheDir, .mountFresh => .up (Session.mountFresh disk cacheDir)
  | .down disk (some records) _ cacheDir, .restore reopened state =>
    .up (Session.restore disk records cacheDir reopened state)
  | h, _ => h

def Host.steps (h : Host) (events : List (HostEvent σ)) : Host := events.foldl Host.step h

end Ncrs
