import Ncrs.Native.Backend
import Ncrs.Native.OpenWrite

/-!
# Uploading a file while it is written

Model of one writable handle with its streamed upload: `write`, `setattr`, `read`, `flush` and
`release` on the handle, the uploader jobs of its session (`run_chunk_pump`), `start_stream`,
`feed_stream`, `start_punching`, and the freeze and thaw of a hand-over.

Every step is one section under a lock, one access to the staging file or one answer of the
server or of the job pool, so the uploader runs between any two steps of a request. The
requests themselves come one at a time (`fuse_dispatch`). What a step reads from outside (the
offline flag, the threshold, the free disk space, room in the pool, results of local I/O) is
part of its event.
-/

namespace Ncrs

/-- `CHUNK_SIZE`; only its being positive matters. -/
structure ChunkSize where
  bytes : Nat
  pos : 0 < bytes

/-- The source's chunk size. -/
def webdavChunkSize : ChunkSize := ⟨CHUNK_SIZE, by decide⟩

/-- `STREAM_HEAD`: how much of a streamed file's start stays local until it is closed. -/
def ChunkSize.streamHead (c : ChunkSize) : Nat := c.bytes

/-- `STREAM_MAX_UNSENT`. -/
def ChunkSize.streamMaxUnsent (c : ChunkSize) : Nat := 2 * c.bytes

namespace Bytes

/-- The `n` bytes at `off`. -/
def slice (b : Bytes) (off n : Nat) : Bytes := (b.drop off).take n

/-- `read_exact_at`. -/
def readExactAt (b : Bytes) (off n : Nat) : Option Bytes :=
  if off + n ≤ b.length then some (b.slice off n) else none

/-- `fallocate` with `FALLOC_FL_PUNCH_HOLE | FALLOC_FL_KEEP_SIZE`. -/
def punchHole (b : Bytes) (off n : Nat) : Bytes :=
  b.take off ++ List.replicate (min n (b.length - off)) 0 ++ b.drop (off + n)

end Bytes

/-- What the uploader and the writer share under one lock. -/
structure PumpState where
  nextIndex : Nat
  bytesConfirmed : Nat
  claimed : Nat
  punching : Bool
  busy : Bool := false
  failed : Option String := none
  closed : Bool := false
  frozen : Bool := false
  deriving DecidableEq, Repr

namespace PumpState

/-- No further chunk is handed to the uploader. -/
def close (p : PumpState) : PumpState := { p with closed := true }

/-- A hand-over stops the session, and remembers whether it was open. -/
def freeze (p : PumpState) : PumpState :=
  { p with frozen := p.frozen || !p.closed, closed := true }

/-- A hand-over that fails opens again what it stopped. -/
def thaw (p : PumpState) : PumpState :=
  if p.frozen then { p with frozen := false, closed := false } else p

/-- No chunk is left to send, or none may be sent any more. -/
def nothingToSend (p : PumpState) : Bool :=
  p.closed || p.failed.isSome || decide (p.claimed ≤ p.bytesConfirmed)

end PumpState

/-- What becomes of the session when a write arrives. -/
inductive StreamWrite where
  | keep
  | abandon
  | fail
  deriving DecidableEq, Repr

/-- `stream_write_verdict`: a session takes writes to its head and at its end. -/
def streamWriteVerdict (off len totalWritten head : Nat) (p : PumpState) (offline : Bool) :
    StreamWrite :=
  let inHead := decide (off + len ≤ head)
  let inTail := decide (p.claimed ≤ off) && decide (off ≤ totalWritten)
  let healthy := (inHead || inTail) && p.failed.isNone && !p.closed && !(offline && !p.punching)
  match healthy, p.punching with
  | true, _ => .keep
  | false, false => .abandon
  | false, true => .fail

/-! ## The uploader -/

/-- Where a run of `run_chunk_pump` is. -/
inductive JobPhase where
  | queued
  | reading (index start : Nat)
  | sending (index start : Nat) (chunk : Bytes) (stored : Bool)
  | answered (start : Nat) (error : Option String)
  | reported
  /-- The closing `kick_chunk_pump`: about to submit the next run. -/
  | submitting
  /-- The pool had no room. -/
  | refused
  deriving DecidableEq, Repr

/-- A run of the uploader, `run_chunk_pump`. -/
structure Job where
  /-- Run by the writer itself (`feed_stream`), not by the pool. -/
  inline : Bool
  phase : JobPhase
  deriving DecidableEq, Repr

/-- A `ChunkUploadState` with the runs of its uploader and the chunks the server has. -/
structure StreamSession where
  uploadsBase : String
  head : Nat
  pump : PumpState
  jobs : List Job := []
  chunks : Nat → Option Bytes := fun _ => none

/-- The next thing a run of the uploader does. -/
inductive JobEvent where
  | look
  | readChunk (ok : Bool)
  /-- A (re)tried PUT of the chunk reaches the server. -/
  | store
  | answer (error : Option String)
  /-- The locked section after the PUT; `freed`: punching the chunk out works. -/
  | report (freed : Bool)
  | kick
  | submit (room : Bool)
  | giveBack
  deriving DecidableEq, Repr

namespace StreamSession

/-- Run `i` gets to the phase. -/
def setJob (s : StreamSession) (i : Nat) (phase : JobPhase) : StreamSession :=
  { s with jobs := s.jobs.modify i fun j => { j with phase := phase } }

/-- The run ends without a successor: the session is idle. -/
def endJob (s : StreamSession) (i : Nat) : StreamSession :=
  { s with jobs := s.jobs.eraseIdx i, pump := { s.pump with busy := false } }

/-- No further chunk of the session is handed to the uploader. -/
def close (s : StreamSession) : StreamSession := { s with pump := s.pump.close }

/-- Where run `i` is. -/
def phaseOf (s : StreamSession) (i : Nat) : Option JobPhase := (s.jobs[i]?).map Job.phase

/-- One step of run `i` of the uploader: the session and the staging file afterwards. -/
def jobStep (c : ChunkSize) (s : StreamSession) (staging : Bytes) (i : Nat) (e : JobEvent) :
    Option (StreamSession × Bytes) :=
  match s.phaseOf i, e with
  | some .queued, .look =>
    if s.pump.nothingToSend then some (s.endJob i, staging)
    else some (s.setJob i (.reading s.pump.nextIndex s.pump.bytesConfirmed), staging)
  | some (.reading index start), .readChunk ok =>
    match (staging.readExactAt start c.bytes).filter fun _ => ok with
    | some chunk => some (s.setJob i (.sending index start chunk false), staging)
    | none => some (s.setJob i (.answered start (some "staging read")), staging)
  | some (.sending index start chunk _), .store =>
    some ({ s.setJob i (.sending index start chunk true) with
      chunks := Function.update s.chunks index (some chunk) }, staging)
  | some (.sending _ start _ stored), .answer error =>
    if error.isNone && !stored then none else some (s.setJob i (.answered start error), staging)
  | some (.answered start error), .report freed =>
    match error with
    | some e => some ({ s.setJob i .reported with pump := { s.pump with failed := some e } }, staging)
    | none =>
      if s.pump.closed then some (s.setJob i .reported, staging)
      else
        some ({ s.setJob i .reported with pump := { s.pump with
            nextIndex := s.pump.nextIndex + 1
            bytesConfirmed := s.pump.bytesConfirmed + c.bytes } },
          if s.pump.punching && freed then staging.punchHole start c.bytes else staging)
  | some .reported, .kick =>
    if s.pump.nothingToSend then some (s.endJob i, staging)
    else some ({ s.setJob i .submitting with pump := { s.pump with busy := true } }, staging)
  | some .submitting, .submit room =>
    if room then
      some ({ s with jobs := s.jobs.eraseIdx i ++ [{ inline := false, phase := .queued }] }, staging)
    else some (s.setJob i .refused, staging)
  | some .refused, .giveBack => some (s.endJob i, staging)
  | _, _ => none

end StreamSession

/-! ## The handle -/

/-- A change of the file a request asks for. -/
inductive Edit where
  | write (off : Nat) (data : Bytes)
  | resize (size : Nat)
  deriving DecidableEq, Repr

/-- The file after the change. -/
def Edit.apply (b : Bytes) : Edit → Bytes
  | .write off data => b.writeAt off data
  | .resize size => b.setLen size

/-- What a request is told. -/
inductive Reply where
  | accepted (edit : Edit)
  | writeFailed
  | resizeFailed
  | data (off : Nat) (bytes : Bytes)
  | readFailed
  | flushed
  | flushFailed
  | commitFailed
  deriving DecidableEq, Repr

/-- The file the accepted writes and resizes describe, from an empty one. -/
def acceptedBytes (replies : List Reply) : Bytes :=
  replies.foldl (fun b r => match r with
    | .accepted edit => edit.apply b
    | _ => b) []

/-- Where the request being served is. -/
inductive RequestPhase where
  | idle
  /-- The session was taken off the handle and is to be closed. -/
  | dropping (edit : Edit)
  /-- `append` is `none` off the streaming path, else whether the write is an append. -/
  | placing (off : Nat) (data : Bytes) (append : Option Bool)
  | accounting (off : Nat) (data : Bytes)
  | opening (edit : Edit)
  | pressing (edit : Edit) (due : Bool)
  | feeding (edit : Edit) (due : Bool)
  | kicking (edit : Edit) (again : Bool)
  | submitting (edit : Edit) (again : Bool)
  | refused (edit : Edit) (again : Bool)
  | kicked (edit : Edit) (again queued : Bool)
  | marking (edit : Edit)
  | inline (edit : Edit)
  | waiting (edit : Edit)
  | pausing (edit : Edit)
  | resizing (size : Nat)
  | reading (off sz : Nat)
  | readBack (off sz : Nat) (bytes : Bytes)
  | released
  deriving DecidableEq, Repr

/-- The writable handle, its staging file and its sessions. `file` is the content as written,
    without the holes punched into the staging file; nothing reads it. -/
structure StreamFile where
  remotePath : PathBuf
  writePath : PathBuf
  originalEtag : Option String
  staging : Bytes := []
  file : Bytes := []
  dirty : Bool
  stagedWhole : Bool
  totalWritten : Nat := 0
  streamEligible : Bool := true
  uploadFailed : Bool := false
  session : Option StreamSession := none
  /-- Sessions taken off the handle; their uploader may still be running. -/
  dropped : List StreamSession := []
  phase : RequestPhase := .idle
  replies : List Reply := []
  commit : Option MutationOp := none

/-- The staging file of a write after an append to it, or a write at its offset. -/
def placeBytes (append : Bool) (b : Bytes) (off : Nat) (data : Bytes) : Bytes :=
  if append then b ++ data else b.writeAt off data

/-- How far a write to the staging file gets. -/
inductive StagingIo where
  | complete
  | short (n : Nat)
  | failed (n : Nat)
  deriving DecidableEq, Repr

/-- The session a run of the uploader belongs to. -/
inductive SessionSlot where
  | current
  | dropped (k : Nat)
  deriving DecidableEq, Repr

/-- What happens next, to the handle or to one of its sessions. -/
inductive StreamEvent where
  | write (off : Nat) (data : Bytes) (offline : Bool)
  | resize (size : Nat)
  | read (off sz : Nat)
  | flush
  | release (offline : Bool)
  | closeDropped
  | place (io : StagingIo)
  | account (threshold : Nat)
  /-- `open_chunked_upload`'s session, or none; `low`: the disk is low and can punch holes. -/
  | opened (uploadsBase : Option String) (low : Bool)
  | press (low freed : Bool)
  | claim
  | kick
  | submit (room : Bool)
  | giveBack
  | kicked
  | mark
  | resume
  | check
  | pause (belowReserve : Bool)
  | setLen (ok : Bool)
  | readBytes (ok : Bool)
  | recheck
  | freeze
  | thaw
  | job (slot : SessionSlot) (i : Nat) (e : JobEvent)
  deriving DecidableEq, Repr

/-- `Held::of` and `Held::covers`: the staging file still holds `sz` bytes at `off`. -/
def heldCovers (session : Option StreamSession) (off sz : Nat) : Bool :=
  match session with
  | some c => if c.pump.punching then decide (c.pump.bytesConfirmed ≤ off) || decide (off + sz ≤ c.head)
    else true
  | none => true

/-- A disk-low upload that lost a chunk. -/
def StreamSession.lost (s : StreamSession) : Bool :=
  s.pump.punching && (s.pump.failed.isSome || s.pump.closed)

/-- `stream_should_graduate`. -/
def streamShouldGraduate (c : ChunkSize) (totalWritten : Nat) (session : Option StreamSession)
    (threshold : Nat) : Bool :=
  decide (max threshold c.bytes ≤
    totalWritten - (session.map fun s => s.pump.claimed).getD c.streamHead)

namespace StreamFile

/-- The request ends with an answer. -/
def reply (f : StreamFile) (r : Reply) : StreamFile :=
  { f with phase := .idle, replies := f.replies ++ [r] }

/-- `feed_stream` failed: the handle is given up. -/
def failWrite (f : StreamFile) : StreamFile :=
  { f with uploadFailed := true }.reply .writeFailed

/-- The locked section at the start of `write`. -/
def decideWrite (f : StreamFile) (off : Nat) (data : Bytes) (offline : Bool) : StreamFile :=
  if f.uploadFailed then f.reply .writeFailed
  else
    let append := off = f.totalWritten
    match f.session with
    | some s =>
      match streamWriteVerdict off data.length f.totalWritten s.head s.pump offline with
      | .keep => { f with phase := .placing off data (some append) }
      | .abandon =>
        { f with session := none, dropped := s :: f.dropped, streamEligible := false
                 phase := .dropping (.write off data) }
      | .fail => f.failWrite
    | none =>
      if f.streamEligible && decide (off ≤ f.totalWritten) && !offline then
        { f with phase := .placing off data (some append) }
      else { f with streamEligible := false, phase := .placing off data none }

/-- The write to the staging file. -/
def place (f : StreamFile) (off : Nat) (data : Bytes) (append : Option Bool) (io : StagingIo) :
    StreamFile :=
  let put (append : Bool) (data : Bytes) := { f with
    staging := placeBytes append f.staging off data, file := placeBytes append f.file off data }
  match append, io with
  | some append, .complete => { put append data with phase := .accounting off data }
  | some append, .short n => (put append (data.take n)).reply .writeFailed
  | some append, .failed n => (put append (data.take n)).reply .writeFailed
  | none, .complete => { put false data with dirty := true }.reply (.accepted (.write off data))
  | none, .short n =>
    { put false (data.take n) with dirty := true }.reply (.accepted (.write off (data.take n)))
  | none, .failed _ => f.reply .writeFailed

/-- The locked section of `write` after the bytes are placed: whether a session is due. -/
def account (c : ChunkSize) (f : StreamFile) (off : Nat) (data : Bytes) (threshold : Nat) :
    StreamFile :=
  let total := max f.totalWritten (off + data.length)
  let due := streamShouldGraduate c total f.session threshold
  let f := { f with dirty := true, totalWritten := total }
  match f.session with
  | some _ => { f with phase := .pressing (.write off data) due }
  | none =>
    if due then { f with phase := .opening (.write off data) }
    else f.reply (.accepted (.write off data))

/-- `start_stream` after `open_chunked_upload` was answered. -/
def startStream (c : ChunkSize) (f : StreamFile) (edit : Edit) (uploadsBase : Option String)
    (low : Bool) : StreamFile :=
  match uploadsBase with
  | none => { f with streamEligible := false }.reply (.accepted edit)
  | some base =>
    let s : StreamSession := { uploadsBase := base, head := c.streamHead, pump := {
      nextIndex := 1, bytesConfirmed := c.streamHead, claimed := c.streamHead, punching := low } }
    if f.streamEligible && f.session.isNone then
      { f with session := some s, phase := .pressing edit true }
    else { f with dropped := s.close :: f.dropped }.reply (.accepted edit)

/-- `start_punching`. -/
def startPunching (f : StreamFile) (s : StreamSession) (freed : Bool) : StreamFile :=
  if s.pump.punching || s.pump.closed || s.pump.failed.isSome then f
  else
    { f with
      session := some { s with pump := { s.pump with punching := true } }
      staging := if freed then f.staging.punchHole s.head (s.pump.bytesConfirmed - s.head)
        else f.staging }

/-- `kick_chunk_pump` of the writer, up to the submission. -/
def kick (f : StreamFile) (s : StreamSession) (edit : Edit) (again : Bool) : StreamFile :=
  if s.pump.busy then { f with phase := .kicked edit again true }
  else if s.pump.nothingToSend then
    { f with session := some { s with pump := { s.pump with busy := false } }
             phase := .kicked edit again true }
  else
    { f with session := some { s with pump := { s.pump with busy := true } }
             phase := .submitting edit again }

/-- `setattr` with a size, under the open-files lock. -/
def decideResize (f : StreamFile) (size : Nat) : StreamFile :=
  match f.session with
  | some s =>
    if size = f.totalWritten then { f with dirty := true }.reply (.accepted (.resize size))
    else if s.pump.punching then { f with uploadFailed := true }.reply .resizeFailed
    else
      { f with session := none, dropped := s :: f.dropped, streamEligible := false
               phase := .dropping (.resize size) }
  | none => { f with streamEligible := false, phase := .resizing size }

/-- The end of `feed_stream`'s wait: enough was sent, or it never will be. -/
def check (c : ChunkSize) (f : StreamFile) (p : PumpState) (edit : Edit) : StreamFile :=
  if p.failed.isSome || p.closed then f.failWrite
  else if p.claimed - p.bytesConfirmed ≤ c.streamMaxUnsent then f.reply (.accepted edit)
  else { f with phase := .pausing edit }

/-- A writer that waited out its pause: done, to wait on, or to kick an idle uploader. -/
def pause (c : ChunkSize) (f : StreamFile) (p : PumpState) (edit : Edit) (belowReserve : Bool) :
    StreamFile :=
  if !belowReserve then f.reply (.accepted edit)
  else if p.failed.isSome || p.closed || decide (p.claimed - p.bytesConfirmed ≤ c.streamMaxUnsent)
      || p.busy then { f with phase := .waiting edit }
  else { f with phase := .kicking edit true }

/-- The queued end of a session. -/
def finishOp (f : StreamFile) (s : StreamSession) (p : PumpState) : MutationOp :=
  .finishChunked f.remotePath s.uploadsBase p.nextIndex p.bytesConfirmed f.totalWritten f.writePath
    f.originalEtag true s.head (!p.punching)

/-- The queued upload of the whole file. -/
def putOp (f : StreamFile) : MutationOp := .put f.remotePath f.writePath f.originalEtag

/-- `release` and `commit_released`. The session of the released handle stays with it, closed. -/
def release (f : StreamFile) (offline : Bool) : StreamFile :=
  let released := { f with phase := .released }
  if f.uploadFailed then { released with session := f.session.map StreamSession.close }
  else if !f.dirty then released
  else
    match f.session with
    | none => { released with commit := some f.putOp }
    | some s =>
      let p := s.pump.close
      let closed := { released with session := some s.close }
      match p.failed, p.punching, offline with
      | none, true, _ | none, false, false => { closed with commit := some (f.finishOp s p) }
      | _, false, _ =>
        -- The staging file is the whole file: it goes up as any other save.
        { closed with commit := some f.putOp }
      | some _, true, _ => { closed with replies := f.replies ++ [.commitFailed] }

/-- The bytes a finish assembles: the head and the tail from the staging file, and between them
    the chunks on the server. -/
def finishedBytes (f : StreamFile) (s : StreamSession) (nextIndex bytesConfirmed totalLen : Nat) :
    Bytes :=
  f.staging.take s.head ++
    (List.range (nextIndex - 1)).flatMap (fun i => (s.chunks (i + 1)).getD []) ++
    f.staging.slice bytesConfirmed (totalLen - bytesConfirmed)

/-- The check of the disk before a chunk is handed over. -/
def press (f : StreamFile) (s : StreamSession) (edit : Edit) (due low freed : Bool) : StreamFile :=
  let f := if due && !s.pump.punching && low then f.startPunching s freed else f
  { f with phase := .feeding edit due }

/-- `feed_stream`: the next chunk is handed to the uploader. -/
def claim (c : ChunkSize) (f : StreamFile) (s : StreamSession) (edit : Edit) (due : Bool) :
    StreamFile :=
  let claimed := if due then s.pump.claimed + c.bytes else s.pump.claimed
  { f with session := some { s with pump := { s.pump with claimed := claimed } }
           phase := .kicking edit false }

/-- `kick_chunk_pump` submits a run to the pool, which may have no room. -/
def submit (f : StreamFile) (s : StreamSession) (edit : Edit) (again room : Bool) : StreamFile :=
  if room then
    { f with session := some { s with jobs := s.jobs ++ [{ inline := false, phase := .queued }] }
             phase := .kicked edit again true }
  else { f with phase := .refused edit again }

/-- The end of `kick_chunk_pump` when the pool had no room. -/
def giveBack (f : StreamFile) (s : StreamSession) (edit : Edit) (again : Bool) : StreamFile :=
  { f with session := some { s with pump := { s.pump with busy := false } }
           phase := .kicked edit again false }

/-- `feed_stream` after a kick: an early upload does not hold the writer. -/
def kicked (f : StreamFile) (s : StreamSession) (edit : Edit) (again queued : Bool) : StreamFile :=
  if !again && !s.pump.punching then f.reply (.accepted edit)
  else { f with phase := if queued then .waiting edit else .marking edit }

/-- The writer sends the chunk itself. -/
def runInline (f : StreamFile) (s : StreamSession) (edit : Edit) : StreamFile :=
  { f with session := some { s with pump := { s.pump with busy := true }
                                    jobs := s.jobs ++ [{ inline := true, phase := .queued }] }
           phase := .inline edit }

/-- `abandon_stream`'s close of the session just dropped; the request goes on. -/
def closeDropped (f : StreamFile) (edit : Edit) : StreamFile :=
  { f with dropped := f.dropped.modifyHead StreamSession.close
           phase := match edit with
             | .write off data => .placing off data none
             | .resize size => .resizing size }

/-- `setattr` truncates the staging file. -/
def setLen (f : StreamFile) (size : Nat) (ok : Bool) : StreamFile :=
  if ok then
    { f with staging := f.staging.setLen size, file := f.file.setLen size
             dirty := true, totalWritten := size }.reply (.accepted (.resize size))
  else f.reply .resizeFailed

/-- `read`, up to its first check of what the staging file holds. -/
def read (f : StreamFile) (off sz : Nat) : StreamFile :=
  if f.dirty && f.uploadFailed then f.reply .readFailed
  -- Not from the staging file: the answer comes from elsewhere.
  else if f.uploadFailed || !f.dirty && !f.stagedWhole then f
  else if !heldCovers f.session off sz then f.reply .readFailed
  else { f with phase := .reading off sz }

/-- The staging file is read. -/
def readBytes (f : StreamFile) (off sz : Nat) (ok : Bool) : StreamFile :=
  if ok then { f with phase := .readBack off sz (f.staging.slice off sz) }
  else f.reply .readFailed

/-- Only bytes still held after they were read are the file's. -/
def recheck (f : StreamFile) (off sz : Nat) (bytes : Bytes) : StreamFile :=
  if heldCovers f.session off sz then f.reply (.data off bytes) else f.reply .readFailed

/-- `flush` tells of an upload that failed. -/
def flush (f : StreamFile) : StreamFile :=
  if f.uploadFailed || f.session.any StreamSession.lost then f.reply .flushFailed
  else f.reply .flushed

/-- A hand-over freezes only a session whose sent chunks are punched out. -/
def freeze (f : StreamFile) : StreamFile :=
  { f with session := f.session.map fun s =>
      { s with pump := if s.pump.punching then s.pump.freeze else s.pump } }

/-- The session is open again after a hand-over that failed. -/
def thaw (f : StreamFile) : StreamFile :=
  { f with session := f.session.map fun s => { s with pump := s.pump.thaw } }

/-- A step of an uploader run, of the session still on the handle or of one dropped. -/
def jobStep (c : ChunkSize) (f : StreamFile) (slot : SessionSlot) (i : Nat) (e : JobEvent) :
    Option StreamFile :=
  match slot with
  | .current =>
    match f.session with
    | some s => (s.jobStep c f.staging i e).map fun r => { f with session := some r.1, staging := r.2 }
    | none => none
  | .dropped k =>
    match f.dropped[k]? with
    | some s => (s.jobStep c f.staging i e).map fun r =>
        { f with dropped := f.dropped.set k r.1, staging := r.2 }
    | none => none

/-- One step; none where the event does not fit what the handle is doing. -/
def step (c : ChunkSize) (f : StreamFile) (e : StreamEvent) : Option StreamFile :=
  match e with
  | .job slot i e => f.jobStep c slot i e
  | .freeze => if f.phase = .released then none else some f.freeze
  | .thaw => if f.phase = .released then none else some f.thaw
  | .write off data offline =>
    if f.phase = .idle then some (f.decideWrite off data offline) else none
  | .resize size => if f.phase = .idle then some (f.decideResize size) else none
  | .read off sz => if f.phase = .idle then some (f.read off sz) else none
  | .flush => if f.phase = .idle then some f.flush else none
  | .release offline => if f.phase = .idle then some (f.release offline) else none
  | .closeDropped => match f.phase with
    | .dropping edit => some (f.closeDropped edit)
    | _ => none
  | .place io => match f.phase with
    | .placing off data append => some (f.place off data append io)
    | _ => none
  | .account threshold => match f.phase with
    | .accounting off data => some (f.account c off data threshold)
    | _ => none
  | .opened uploadsBase low => match f.phase with
    | .opening edit => some (f.startStream c edit uploadsBase low)
    | _ => none
  | .press low freed => match f.phase, f.session with
    | .pressing edit due, some s => some (f.press s edit due low freed)
    | _, _ => none
  | .claim => match f.phase, f.session with
    | .feeding edit due, some s => some (f.claim c s edit due)
    | _, _ => none
  | .kick => match f.phase, f.session with
    | .kicking edit again, some s => some (f.kick s edit again)
    | _, _ => none
  | .submit room => match f.phase, f.session with
    | .submitting edit again, some s => some (f.submit s edit again room)
    | _, _ => none
  | .giveBack => match f.phase, f.session with
    | .refused edit again, some s => some (f.giveBack s edit again)
    | _, _ => none
  | .kicked => match f.phase, f.session with
    | .kicked edit again queued, some s => some (f.kicked s edit again queued)
    | _, _ => none
  | .mark => match f.phase, f.session with
    | .marking edit, some s => some (f.runInline s edit)
    | _, _ => none
  | .resume => match f.phase, f.session with
    | .inline edit, some s =>
      if s.jobs.any Job.inline then none else some { f with phase := .waiting edit }
    | _, _ => none
  | .check => match f.phase, f.session with
    | .waiting edit, some s => some (f.check c s.pump edit)
    | _, _ => none
  | .pause belowReserve => match f.phase, f.session with
    | .pausing edit, some s => some (f.pause c s.pump edit belowReserve)
    | _, _ => none
  | .setLen ok => match f.phase with
    | .resizing size => some (f.setLen size ok)
    | _ => none
  | .readBytes ok => match f.phase with
    | .reading off sz => some (f.readBytes off sz ok)
    | _ => none
  | .recheck => match f.phase with
    | .readBack off sz bytes => some (f.recheck off sz bytes)
    | _ => none

/-- A run of steps. -/
def steps (c : ChunkSize) (f : StreamFile) : List StreamEvent → Option StreamFile
  | [] => some f
  | e :: es => (f.step c e).bind fun f => f.steps c es

end StreamFile

end Ncrs
