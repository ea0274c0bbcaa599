import Ncrs.Native.Backend

/-!
# Replaying the journal

Model of the replay half of `mutation_journal.rs`: `execute_op`, the requests it is made of
(`send_move`, `finish_chunked`, `assemble_conflicted_copy`), and the loop that claims the
front entry, executes it with the journal unlocked, and settles the outcome.

The loop body is split where the source drops the journal's lock, so that the interleaved
system and the uninterrupted run use the same definitions. Log lines, the error log and the
status and dirty maps of the desktop integration are left out.
-/

namespace Ncrs

variable {σ : Type}

/-- How a queued MOVE ended. -/
inductive MoveOutcome where
  | moved
  | conflictCopy (copy : PathBuf)
  | sourceGone
  | failed (e : BackendWriteError)
  deriving DecidableEq, Repr

inductive ReplayResult where
  | ok
  | uploaded (newEtag : Option String)
  | conflict (kind : ConflictKind)
  | idempotent
  | retryable (msg : String)
  | serverError (msg : String)
  deriving DecidableEq, Repr

/-- The first request of a MOVE: a source gone from the server is replaced by an upload of
    the local copy. Says whether the copy was sent. -/
def sendMoveFirst (b : CloudBackend σ) (src dst : PathBuf) (copy : Option LocalFile)
    (ifMatch : Option String) (s : σ) : (Except BackendWriteError Unit × Bool) × σ :=
  let moved := b.rename src dst ifMatch s
  match moved.1, copy with
  | .error (.server 404 _), some f =>
    let put := b.putFile dst f ifMatch moved.2
    ((put.1.map fun _ => (), true), put.2)
  | r, _ => ((r, false), moved.2)

/-- The moved file under a conflicted-copy name. -/
def saveConflictCopy (b : CloudBackend σ) (src copyName : PathBuf) (copy : Option LocalFile)
    (fromCopy : Bool) (s : σ) : Answer σ Unit :=
  match fromCopy, copy with
  | true, some f =>
    let put := b.putFile copyName f none s
    (put.1.map fun _ => (), put.2)
  | _, _ =>
    let moved := b.rename src copyName none s
    match moved.1, copy with
    | .error (.server 404 _), some f =>
      let put := b.putFile copyName f none moved.2
      (put.1.map fun _ => (), put.2)
    | r, _ => (r, moved.2)

/-- Sends a queued MOVE of `src` onto `dst`, overwriting only the version `ifMatch` names. -/
def sendMove (b : CloudBackend σ) (d : CacheDir) (src dst : PathBuf) (staging : Option PathBuf)
    (ifMatch : Option String) (copyName : PathBuf) (s : σ) : MoveOutcome × σ :=
  let copy := staging.bind d.files
  let sent := sendMoveFirst b src dst copy ifMatch s
  match sent.1.1 with
  | .ok () => (.moved, sent.2)
  | .error .conflict =>
    let saved := saveConflictCopy b src copyName copy sent.1.2 sent.2
    match saved.1 with
    | .ok () => (.conflictCopy copyName, saved.2)
    | .error (.server 404 _) => (.sourceGone, saved.2)
    | .error e => (.failed e, saved.2)
  | .error (.server 404 _) => (.sourceGone, sent.2)
  | .error e => (.failed e, sent.2)

/-- Sends the pieces of a tail as consecutive chunks. -/
def putPieces (b : CloudBackend σ) (uploadsBase : String) : Nat → List Bytes → σ → Answer σ Unit
  | _, [], s => (.ok (), s)
  | index, body :: rest, s =>
    CloudBackend.andThen
      (CloudBackend.retryChunkWrite (b.putChunk uploadsBase index body) MAX_RETRIES s)
      fun _ s => putPieces b uploadsBase (index + 1) rest s

/-- `each_tail_chunk`: the staging file must be exactly `start + tailLen` long. -/
def eachTailChunk (b : CloudBackend σ) (d : CacheDir) (uploadsBase : String) (tailPath : PathBuf)
    (nextIndex start tailLen : Nat) (s : σ) : Answer σ Unit :=
  match d.files tailPath with
  | none => (.error (.server 0 s!"staging tail {tailPath.display}: No such file or directory"), s)
  | some f =>
    if f.data.length ≠ start + tailLen then
      (.error (.server 0 (s!"staging file is {f.data.length} bytes, expected {start + tailLen} "
        ++ "— refusing to assemble a truncated file")), s)
    else putPieces b uploadsBase nextIndex (pieces CHUNK_SIZE tailLen (f.data.drop start)) s

/-- The kept head goes up as chunk 0. -/
def putHead (b : CloudBackend σ) (d : CacheDir) (uploadsBase : String) (tailPath : PathBuf)
    (head totalLen : Nat) (s : σ) : Answer σ Unit :=
  let failed := BackendWriteError.server 0 s!"staging head {tailPath.display}: failed to fill whole buffer"
  match d.files tailPath with
  | none => (.error failed, s)
  | some f =>
    if f.data.length < min head totalLen then (.error failed, s)
    else CloudBackend.retryChunkWrite
      (b.putChunk uploadsBase 0 (f.data.take (min head totalLen))) MAX_RETRIES s

def sendChunkedFinish (b : CloudBackend σ) (d : CacheDir) (uploadsBase : String)
    (nextIndex bytesConfirmed totalLen : Nat) (tailPath : PathBuf) (sparse : Bool) (head : Nat)
    (remotePath : PathBuf) (ifMatch : Option String) (mtime : Option Nat) (s : σ) :
    Answer σ PutResult :=
  let tailLen := totalLen - bytesConfirmed
  let tail : Answer σ Unit :=
    if 0 < tailLen then
      eachTailChunk b d uploadsBase tailPath nextIndex (if sparse then bytesConfirmed else 0)
        tailLen s
    else (.ok (), s)
  CloudBackend.andThen tail fun _ s =>
    let headSent : Answer σ Unit :=
      if 0 < head then putHead b d uploadsBase tailPath head totalLen s else (.ok (), s)
    CloudBackend.andThen headSent fun _ s =>
      CloudBackend.retryChunkWrite
        (b.finishChunkedUpload uploadsBase remotePath ifMatch mtime totalLen) MAX_RETRIES s

/-- Uploads the tail of a streamed upload as its last chunks and assembles the session. -/
def finishChunked (b : CloudBackend σ) (d : CacheDir) (uploadsBase : String)
    (nextIndex bytesConfirmed totalLen : Nat) (tailPath : PathBuf) (sparse : Bool) (head : Nat)
    (whole : Bool) (remotePath : PathBuf) (ifMatch : Option String) (s : σ) :
    Answer σ PutResult :=
  let mtime := (d.files tailPath).bind (·.mtime)
  let result := sendChunkedFinish b d uploadsBase nextIndex bytesConfirmed totalLen tailPath
    sparse head remotePath ifMatch mtime s
  match result.1 with
  | .ok v => (.ok v, result.2)
  | .error e =>
    let (listed, s) :=
      match e with
      | .conflict | .server 404 _ => b.listSelf remotePath result.2
      | _ => (none, result.2)
    match listed.filter fun l => isOurAssembly l totalLen mtime ifMatch with
    | some l => (.ok { newChangeToken := l.changeToken }, s)
    | none =>
      if whole && e.sessionGone then b.putFileFromPath d remotePath tailPath ifMatch s
      else (.error e, s)

/-- Assembles a streamed upload's chunks as `conflictName`. -/
def assembleConflictedCopy (b : CloudBackend σ) (d : CacheDir) (uploadsBase : String)
    (conflictName : PathBuf) (totalLen : Nat) (tailPath : PathBuf) (whole : Bool) (s : σ) :
    Answer σ Unit :=
  let done := b.finishChunkedUpload uploadsBase conflictName none none totalLen s
  match done.1 with
  | .ok _ => (.ok (), done.2)
  | .error e =>
    if whole && e.sessionGone then
      let put := b.putFileFromPath d conflictName tailPath none done.2
      (put.1.map fun _ => (), put.2)
    else (.error e, done.2)

/-- What an upload that landed leaves in its parent's cached listing. -/
def noteUploaded (c : FsCache) (remotePath : PathBuf) (token : Option String) (size : Nat)
    (savedMtime : Nat) : FsCache :=
  c.modifyFiles remotePath.parent (FsCache.modifyEntry remotePath fun e =>
    { e with changeToken := token, size := size, modified := some savedMtime })

/-- A failure of a request that has no other meaning to its caller. -/
def failedResult (e : BackendWriteError) : ReplayResult :=
  if e.isTransient then .retryable e.toText else .serverError e.toText

/-- How a conflicted copy that could not be made ends the entry. -/
def failedCopy (verb : String) (name : PathBuf) (e : BackendWriteError) : ReplayResult :=
  let msg := s!"conflicted copy {name.display} not {verb}: {e.toText}"
  if e.isTransient then .retryable msg else .serverError msg

/-- `execute_op`'s upload of a whole staging file. `now` is the clock, for a staging file
    without a usable mtime. -/
def executePut (b : CloudBackend σ) (d : CacheDir) (c : FsCache) (conflictName : PathBuf)
    (now : Nat) (remotePath stagingPath : PathBuf) (ifMatch : Option String) (s : σ) :
    ReplayResult × FsCache × σ :=
  match d.files stagingPath with
  | none =>
    (.conflict (.permanentFailure
      s!"staging file unreadable for {remotePath.display}: No such file or directory"), c, s)
  | some f =>
    let put := b.putFile remotePath f ifMatch s
    match put.1 with
    | .ok r =>
      (.uploaded r.newChangeToken,
        noteUploaded c remotePath r.newChangeToken f.data.length (f.mtime.getD now), put.2)
    | .error .conflict =>
      let copied := b.putFile conflictName f none put.2
      match copied.1 with
      | .ok _ => (.conflict (.editConflict remotePath conflictName), c, copied.2)
      | .error e => (failedCopy "uploaded" conflictName e, c, copied.2)
    | .error (.server 404 _) =>
      (.conflict (.permanentFailure
        s!"PUT {remotePath.display} failed: parent directory not found"), c, put.2)
    | .error e => (failedResult e, c, put.2)

/-- `execute_op`'s DELETE of a file or a folder. -/
def executeDelete (b : CloudBackend σ) (c : FsCache) (path : PathBuf) (s : σ) :
    ReplayResult × FsCache × σ :=
  let gone := b.delete path s
  match gone.1 with
  | .ok () => (.ok, c, gone.2)
  | .error (.server 404 _) => (.idempotent, c, gone.2)
  | .error e => (failedResult e, c, gone.2)

def executeOp (b : CloudBackend σ) (d : CacheDir) (c : FsCache) (stamp : String) (now : Nat)
    (op : MutationOp) (s : σ) : ReplayResult × FsCache × σ :=
  match op with
  | .put remotePath stagingPath ifMatch =>
    executePut b d c (makeConflictName stamp remotePath) now remotePath stagingPath ifMatch s
  | .mkDir path =>
    let made := b.mkdir path s
    match made.1 with
    | .ok () => (.ok, c, made.2)
    | .error e => (failedResult e, c, made.2)
  | .unlink path | .rmDir path => executeDelete b c path s
  | .rename src dst staging ifMatch =>
    let moved := sendMove b d src dst staging ifMatch (makeConflictName stamp dst) s
    match moved.1 with
    | .moved => (.ok, c, moved.2)
    | .conflictCopy copy => (.conflict (.editConflict dst copy), c, moved.2)
    | .sourceGone => (.conflict (.moveSourceGone src dst), c, moved.2)
    | .failed e => (failedResult e, c, moved.2)
  | .finishChunked remotePath uploadsBase nextIndex bytesConfirmed totalLen tailPath ifMatch
      sparse head whole =>
    let done := finishChunked b d uploadsBase nextIndex bytesConfirmed totalLen tailPath sparse
      head whole remotePath ifMatch s
    match done.1 with
    | .ok r =>
      (.uploaded r.newChangeToken,
        noteUploaded c remotePath r.newChangeToken totalLen
          (((d.files tailPath).bind (·.mtime)).getD now), done.2)
    | .error .conflict =>
      let name := makeConflictName stamp remotePath
      let copied := assembleConflictedCopy b d uploadsBase name totalLen tailPath whole done.2
      match copied.1 with
      | .ok () => (.conflict (.editConflict remotePath name), c, copied.2)
      | .error e => (failedCopy "assembled" name e, c, copied.2)
    | .error (.server 404 _) =>
      (.conflict (.permanentFailure
        s!"streamed upload of {remotePath.display} expired on the server — copy the file again"),
        c, done.2)
    | .error e => (failedResult e, c, done.2)

/-! ## The loop -/

/-- What the replay loop reads under its first lock. -/
inductive Claimed where
  | paused
  | complete
  | entry (e : JournalEntry)
  deriving DecidableEq, Repr

/-- Takes a copy of the front entry and marks the entry in flight. -/
def claimFront (j : MutationJournal) : Claimed × MutationJournal :=
  match j.peekFront with
  | none => (.complete, j)
  | some e => if e.inFlight then (.paused, j) else (.entry e, (j.claim e.seq).2)

/-- What was queued behind a change that landed, on the version it replaced, is on its
    version now. -/
def noteLanded (j : MutationJournal) (op : MutationOp) (result : ReplayResult) :
    MutationJournal :=
  match result, op with
  | .uploaded new, .put remotePath _ sent => j.rebase remotePath sent new
  | .uploaded new, .finishChunked remotePath _ _ _ _ _ sent _ _ _ => j.rebase remotePath sent new
  | .ok, .rename _ dst _ sent => j.rebase dst sent none
  | _, _ => j

/-- The listing guard a replayed upload or MOVE leaves behind. -/
def releaseUploadGuard (j : MutationJournal) (c : FsCache) (op : MutationOp) : FsCache :=
  match op with
  | .put path _ _ | .finishChunked path _ _ _ _ _ _ _ _ _ | .rename _ path _ _ =>
    if (j.pendingUpload path).isNone then { c with uploading := c.uploading.erase path } else c
  | _ => c

/-- A delete that is over no longer hides its path from listings. -/
def clearDeleting (c : FsCache) (op : MutationOp) : FsCache :=
  match op with
  | .unlink path | .rmDir path => { c with deleting := c.deleting.erase path }
  | _ => c

/-- What becomes of the local bytes of an entry that ended in a conflict. -/
def settleConflictStaging (j : MutationJournal) (cacheDir : PathBuf) (op : MutationOp)
    (kind : ConflictKind) : MutationJournal :=
  match op, kind with
  | .put _ staging _, .editConflict _ _ => j.removeStaging [staging]
  | .put remotePath staging _, _ => (j.recoverStaging cacheDir staging remotePath).2
  | .finishChunked _ _ _ _ _ tail _ _ _ true, .editConflict _ _ => j.removeStaging [tail]
  | .finishChunked remotePath _ _ _ _ tail _ _ _ true, _ =>
    (j.recoverStaging cacheDir tail remotePath).2
  | .finishChunked _ _ _ _ _ tail _ _ _ false, _ => j.removeStaging [tail]
  | .rename _ _ (some copy) _, _ => j.removeStaging [copy]
  | _, _ => j

/-- What becomes of the local bytes before the entry is removed. -/
def settleBytes (j : MutationJournal) (cacheDir : PathBuf) (entry : JournalEntry)
    (result : ReplayResult) : MutationJournal :=
  match result with
  | .conflict kind => settleConflictStaging j cacheDir entry.op kind
  | _ => j

/-- The last locked section of the loop body: removes or marks the executed entry. The flag
    says whether the run goes on. -/
def settleEntry (j : MutationJournal) (c : FsCache) (entry : JournalEntry)
    (result : ReplayResult) : Bool × MutationJournal × FsCache :=
  match result with
  | .ok | .uploaded _ =>
    let j := j.dequeueFront.2
    let c := clearDeleting (releaseUploadGuard j c entry.op) entry.op
    (true, j.removeStaging entry.op.stagingPath.toList, c)
  | .conflict kind =>
    let j := (j.addConflict kind).dequeueFront.2
    (true, j, releaseUploadGuard j c entry.op)
  | .idempotent =>
    (true, j.dequeueFront.2.removeStaging entry.op.stagingPath.toList, clearDeleting c entry.op)
  | .retryable msg => (false, j.markDeferred entry.seq msg, c)
  | .serverError msg => (true, j.markFailed entry.seq msg, clearDeleting c entry.op)

def finishEntry (j : MutationJournal) (c : FsCache) (cacheDir : PathBuf) (entry : JournalEntry)
    (result : ReplayResult) : Bool × MutationJournal × FsCache :=
  settleEntry (settleBytes j cacheDir entry result) c entry result

/-- An entry past its attempts: its whole bytes are kept in `unsynced/`. -/
def recoverEntry (j : MutationJournal) (cacheDir : PathBuf) (entry : JournalEntry) :
    Option PathBuf × MutationJournal :=
  match entry.op with
  | .put remotePath staging _ => j.recoverStaging cacheDir staging remotePath
  | .finishChunked remotePath _ _ _ _ tail _ _ _ whole =>
    if whole then j.recoverStaging cacheDir tail remotePath
    else (none, j.removeStaging [tail])
  | _ => (none, j)

/-- The locked section that gives an entry up. -/
def dropEntry (j : MutationJournal) (c : FsCache) (entry : JournalEntry)
    (recovered : Option PathBuf) : MutationJournal × FsCache :=
  let lastErr := entry.lastError.getD "unknown"
  let desc := match recovered with
    | some p => s!"{reprStr entry.op}: {lastErr} — local copy preserved at {p.display}"
    | none => s!"{reprStr entry.op}: {lastErr}"
  ((j.addConflict (.permanentFailure desc)).dequeueFront.2, clearDeleting c entry.op)

/-- The upload session of an entry that is given up is closed. -/
def abortEntry (b : CloudBackend σ) (entry : JournalEntry) (s : σ) : σ :=
  match entry.op with
  | .finishChunked _ uploadsBase _ _ _ _ _ _ _ _ => b.abortChunkedUpload uploadsBase s
  | _ => s

def giveUp (b : CloudBackend σ) (j : MutationJournal) (c : FsCache) (cacheDir : PathBuf)
    (entry : JournalEntry) (s : σ) : MutationJournal × FsCache × σ :=
  let recovered := recoverEntry j cacheDir entry
  let dropped := dropEntry recovered.2 c entry recovered.1
  (dropped.1, dropped.2, abortEntry b entry s)

/-- The state one uninterrupted replay run works on. -/
structure ReplayState (σ : Type) where
  journal : MutationJournal
  cache : FsCache := {}
  server : σ

/-- What a run is given: the server, the cache directory's path and the clock, as read when
    an attempt of an entry names a conflicted copy or stamps a file. -/
structure ReplayContext (σ : Type) where
  backend : CloudBackend σ
  cacheDir : PathBuf
  stamp : SeqId → Nat → String
  now : SeqId → Nat → Nat

/-- One round of the loop. The flag says whether the run goes on. -/
def replayRound (ctx : ReplayContext σ) (w : ReplayState σ) : Bool × ReplayState σ :=
  let claimed := claimFront w.journal
  match claimed.1 with
  | .paused | .complete => (false, w)
  | .entry e =>
    if MAX_ATTEMPTS ≤ e.attempts then
      let r := giveUp ctx.backend claimed.2 w.cache ctx.cacheDir e w.server
      (true, { journal := r.1, cache := r.2.1, server := r.2.2 })
    else
      let r := executeOp ctx.backend claimed.2.disk w.cache (ctx.stamp e.seq e.attempts)
        (ctx.now e.seq e.attempts) e.op w.server
      let f := finishEntry (noteLanded claimed.2 e.op r.1) r.2.1 ctx.cacheDir e r.1
      (f.1, { journal := f.2.1, cache := f.2.2, server := r.2.2 })

/-- `replay_journal`, for at most `fuel` rounds. The flag says that the run ended by itself. -/
def replayJournal (ctx : ReplayContext σ) : Nat → ReplayState σ → Bool × ReplayState σ
  | 0, w => (false, w)
  | fuel + 1, w =>
    let r := replayRound ctx w
    if r.1 then replayJournal ctx fuel r.2 else (true, r.2)

end Ncrs
