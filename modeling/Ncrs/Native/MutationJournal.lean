import Ncrs.Native.Path

/-!
# The mutation journal

Model of `mutation_journal.rs`: the operations a mount queues for the server, the queue
itself and every operation the filesystem's threads perform on it under the journal's lock.

The journal writes its own files and deletes the staging files of the entries it drops, so
the content of the cache directory it lives in (`journal_path.parent()`) is part of its
state (`disk`). Clock readings that nothing reads back (`created_at_ms`, a conflict's
`timestamp_ms`) are left out.
-/

namespace Ncrs

/-- The number of a queued entry. -/
abbrev SeqId := Nat
/-- The content of a file. -/
abbrev Bytes := List UInt8

/-- Attempts after which a queued entry is given up (`MAX_ATTEMPTS`). -/
def MAX_ATTEMPTS : Nat := 3

/-- A queued change of the server's tree. -/
inductive MutationOp where
  | put (remotePath stagingPath : PathBuf) (ifMatchEtag : Option String)
  | mkDir (path : PathBuf)
  | unlink (path : PathBuf)
  | rmDir (path : PathBuf)
  | rename (src dst : PathBuf) (staging : Option PathBuf) (ifMatch : Option String)
  | finishChunked (remotePath : PathBuf) (uploadsBase : String)
      (nextIndex bytesConfirmed totalLen : Nat) (tailPath : PathBuf)
      (ifMatchEtag : Option String) (sparse : Bool) (head : Nat) (whole : Bool)
  deriving DecidableEq, Repr

/-- A queued upload's local bytes, for reads before it reaches the server. -/
inductive PendingUpload where
  | staged (path : PathBuf)
  | streamTail (tail : PathBuf) (heldFrom head : Nat) (sparse : Bool)
  deriving DecidableEq, Repr

/-- A queued change, with what its replay has done so far. -/
structure JournalEntry where
  seq : SeqId
  op : MutationOp
  attempts : Nat := 0
  lastError : Option String := none
  inFlight : Bool := false
  retargeted : Bool := false
  destFixed : Bool := false
  deriving DecidableEq, Repr

/-- What a live upload does when it is about to name its destination. -/
inductive Settled where
  | go (path : PathBuf) (ifMatch : Option String)
  | wait
  | deferred
  | withdrawn
  deriving DecidableEq, Repr

/-- Why a change could not be made as it was meant. -/
inductive ConflictKind where
  | editConflict (localPath conflictedCopyPath : PathBuf)
  | moveSourceGone (src dst : PathBuf)
  | moveDestExists (src dst : PathBuf)
  | permanentFailure (description : String)
  deriving DecidableEq, Repr

/-- A conflict the user is told about. -/
structure ConflictRecord where
  id : Nat
  kind : ConflictKind
  resolved : Bool
  deriving DecidableEq, Repr

/-- A file under the cache directory: its bytes and its mtime in whole seconds since the
    epoch (`none` when it lies before it, see `staged_mtime`). -/
structure LocalFile where
  data : Bytes
  mtime : Option Nat := none
  deriving DecidableEq, Repr

/-- The daemon's cache directory: the staging (and recovered) files, and the two files the
    journal saves itself to. -/
structure CacheDir where
  files : PathBuf → Option LocalFile
  journalFile : Option (List JournalEntry) := none
  conflictsFile : Option (List ConflictRecord) := none

namespace CacheDir

/-- `std::fs::remove_file`, its result ignored. -/
def removeFile (d : CacheDir) (p : PathBuf) : CacheDir :=
  { d with files := fun q => if q = p then none else d.files q }

/-- `std::fs::write`, `std::fs::File::create` and the like. -/
def writeFile (d : CacheDir) (p : PathBuf) (f : LocalFile) : CacheDir :=
  { d with files := fun q => if q = p then some f else d.files q }

/-- `std::fs::rename` of a file that exists. -/
def moveFile (d : CacheDir) (p q : PathBuf) : CacheDir :=
  match d.files p with
  | some f => (d.removeFile p).writeFile q f
  | none => d

/-- Several files are removed. -/
def removeFiles (d : CacheDir) (ps : List PathBuf) : CacheDir := ps.foldl removeFile d

end CacheDir

/-- The queue, its conflicts, and the files it owns. -/
structure MutationJournal where
  entries : List JournalEntry
  nextSeq : SeqId
  conflicts : List ConflictRecord := []
  nextConflictId : Nat := 1
  dirtyVersion : Nat := 0
  disk : CacheDir

namespace MutationOp

/-- The path a change is about (`rename`: its source). -/
def path : MutationOp → PathBuf
  | put remotePath _ _ => remotePath
  | mkDir path => path
  | unlink path => path
  | rmDir path => path
  | rename src _ _ _ => src
  | finishChunked remotePath _ _ _ _ _ _ _ _ _ => remotePath

/-- Local bytes this op still needs; the startup sweep and purge must keep them. -/
def stagingPath : MutationOp → Option PathBuf
  | put _ stagingPath _ => some stagingPath
  | finishChunked _ _ _ _ _ tailPath _ _ _ _ => some tailPath
  | rename _ _ staging _ => staging
  | _ => none

/-- Whether this op changes `path` or a folder above it. -/
def touches (op : MutationOp) (path : PathBuf) : Bool :=
  match op with
  | put p _ _ | finishChunked p _ _ _ _ _ _ _ _ _ | unlink p => p = path
  | mkDir p | rmDir p => path.startsWith p
  | rename src dst _ _ => path.startsWith src || path.startsWith dst

/-- Whether this op, queued after an upload of `path`, makes that upload pointless. -/
def replaces (op : MutationOp) (path : PathBuf) : Bool :=
  match op with
  | put p _ _ | finishChunked p _ _ _ _ _ _ _ _ _ | unlink p => p = path
  | rmDir p => path.startsWith p
  | rename _ dst _ _ => path.startsWith dst
  | mkDir _ => false

/-- An upload of `path` (whole-file or the end of a streamed one). -/
def isUploadOf (op : MutationOp) (path : PathBuf) : Bool :=
  match op with
  | put p _ _ | finishChunked p _ _ _ _ _ _ _ _ _ => p = path
  | _ => false

/-- `rewrite` of `update_path_prefix`: re-roots a path below `old` at `new`. -/
def rewritePath (old new p : PathBuf) : PathBuf :=
  match p.stripPrefix old with
  | some suffix => new.join suffix
  | none => p

/-- `update_path_prefix`: the change follows a rename of a folder above it. -/
def updatePathPrefix (op : MutationOp) (old new : PathBuf) : MutationOp :=
  match op with
  | put p s e => put (rewritePath old new p) s e
  | mkDir p => mkDir (rewritePath old new p)
  | unlink p => unlink (rewritePath old new p)
  | rmDir p => rmDir (rewritePath old new p)
  | rename src dst s m => rename (rewritePath old new src) (rewritePath old new dst) s m
  | finishChunked p u n b l t e sp h w => finishChunked (rewritePath old new p) u n b l t e sp h w

/-- An upload moved onto `dst` itself takes the rename's condition when it has none. -/
def condition (op : MutationOp) (dst : PathBuf) (ifMatch : Option String) : MutationOp :=
  match op with
  | put p s none => if p = dst then put p s ifMatch else op
  | finishChunked p u n b l t none sp h w =>
    if p = dst then finishChunked p u n b l t ifMatch sp h w else op
  | _ => op

/-- An upload of `path` that is conditional on a version the server had. -/
def hasPriorEtag (op : MutationOp) (path : PathBuf) : Bool :=
  match op with
  | put p _ (some _) | finishChunked p _ _ _ _ _ (some _) _ _ _ => p = path
  | _ => false

/-- The change makes the folder `path`. -/
def isMkDirOf (op : MutationOp) (path : PathBuf) : Bool :=
  match op with
  | mkDir p => p = path
  | _ => false

end MutationOp

namespace MutationJournal

open MutationOp

/-- `serde(skip)`: the in-memory marks of an entry are not persisted. -/
def persisted (e : JournalEntry) : JournalEntry :=
  { e with inFlight := false, retargeted := false, destFixed := false }

/-- The queue is written to its file. -/
def saveJournal (j : MutationJournal) : MutationJournal :=
  { j with
    dirtyVersion := j.dirtyVersion + 1
    disk := { j.disk with journalFile := some (j.entries.map persisted) } }

/-- The conflicts are written to their file. -/
def saveConflicts (j : MutationJournal) : MutationJournal :=
  { j with
    dirtyVersion := j.dirtyVersion + 1
    disk := { j.disk with conflictsFile := some j.conflicts } }

/-- Deletes staging files (`std::fs::remove_file`) under the journal's lock. -/
def removeStaging (j : MutationJournal) (ps : List PathBuf) : MutationJournal :=
  { j with disk := j.disk.removeFiles ps }

/-- `entries.iter_mut().find(|e| e.seq == seq)` and what is done with the entry found. -/
def modify (j : MutationJournal) (seq : SeqId) (f : JournalEntry → JournalEntry) :
    MutationJournal :=
  match j.entries.findIdx? (fun e => e.seq = seq) with
  | some i => { j with entries := j.entries.modify i f }
  | none => j

/-- `coalesce_before_enqueue`: what the new change makes pointless is dropped. -/
def coalesceBeforeEnqueue (j : MutationJournal) (newOp : MutationOp) : MutationJournal :=
  match newOp with
  | unlink path =>
    if j.entries.any (fun e => e.op.hasPriorEtag path) then j
    else
      let stagingToDelete := (j.entries.filter (fun e => e.op.isUploadOf path)).filterMap
        (fun e => e.op.stagingPath)
      let kept := j.entries.filter (fun e => !e.op.isUploadOf path && !e.op.isMkDirOf path)
      if kept.length < j.entries.length then
        removeStaging { j with entries := kept } stagingToDelete
      else { j with entries := kept }
  | rmDir path => { j with entries := j.entries.filter (fun e => !e.op.isMkDirOf path) }
  | _ => j

/-- What queueing a rename does to the entries already queued. -/
def followRename (newOp : MutationOp) (e : JournalEntry) : JournalEntry :=
  match newOp with
  | rename src dst _ ifMatch =>
    if !e.inFlight && !e.retargeted then
      { e with op := (e.op.updatePathPrefix src dst).condition dst ifMatch }
    else e
  | _ => e

/-- `enqueue`: the change goes behind the others, which follow it when it is a rename. -/
def enqueue (j : MutationJournal) (op : MutationOp) : SeqId × MutationJournal :=
  let j := j.coalesceBeforeEnqueue op
  let seq := j.nextSeq
  (seq, saveJournal { j with
    entries := j.entries.map (followRename op) ++ [{ seq := seq, op := op }]
    nextSeq := j.nextSeq + 1 })

/-- The oldest entry leaves the queue. -/
def dequeueFront (j : MutationJournal) : Option JournalEntry × MutationJournal :=
  match j.entries with
  | e :: rest => (some e, saveJournal { j with entries := rest })
  | [] => (none, j)

/-- The oldest entry. -/
def peekFront (j : MutationJournal) : Option JournalEntry := j.entries.head?

/-- True while an upload of `path` is still queued. -/
def hasPendingPut (j : MutationJournal) (path : PathBuf) : Bool :=
  j.entries.any (fun e => e.op.isUploadOf path)

/-- The entry is still queued. -/
def contains (j : MutationJournal) (seq : SeqId) : Bool := j.entries.any (fun e => e.seq = seq)

/-- The newest-first search of `pending_upload`: `names` are the names the file had, and
    `renamedOnto` whether a rename onto the path was passed. -/
def pendingUploadIn (path : PathBuf) :
    List JournalEntry → List PathBuf → Bool → Option PendingUpload
  | [], _, _ => none
  | e :: rest, names, renamedOnto =>
    match e.op with
    | put p s _ =>
      if p ∈ names then some (.staged s) else pendingUploadIn path rest names renamedOnto
    | finishChunked p _ _ b _ t _ sp h whole =>
      if p ∈ names then
        if whole then some (.staged t) else some (.streamTail t b h sp)
      else pendingUploadIn path rest names renamedOnto
    | rename src dst staging _ =>
      match path.stripPrefix dst with
      | some suffix =>
        match staging with
        | some s =>
          if path = dst then some (.staged s)
          else pendingUploadIn path rest (names ++ [src.join suffix]) true
        | none => pendingUploadIn path rest (names ++ [src.join suffix]) true
      | none => pendingUploadIn path rest names renamedOnto
    | unlink gone =>
      if gone = path && !renamedOnto then none else pendingUploadIn path rest names renamedOnto
    | rmDir gone =>
      if path.startsWith gone && !renamedOnto then none
      else pendingUploadIn path rest names renamedOnto
    | mkDir _ => pendingUploadIn path rest names renamedOnto

/-- Where a reader finds the newest not-yet-uploaded content of `path`. -/
def pendingUpload (j : MutationJournal) (path : PathBuf) : Option PendingUpload :=
  pendingUploadIn path j.entries.reverse [path] false

/-- Re-points the queued upload of a file the server has never seen (`src`) at `dst`, behind
    everything queued so far. -/
def retargetUpload (j : MutationJournal) (src dst : PathBuf) (base : Option String) :
    Bool × MutationJournal :=
  match j.entries.filter (fun e => e.op.isUploadOf src) with
  | [e] =>
    match e.op with
    | put _ staging none =>
      if e.destFixed then (false, j)
      -- Anything else queued for the old name would need it on the server.
      else if (j.entries.filter (fun e => !e.op.isUploadOf src)).any (fun e => e.op.touches src)
      then (false, j)
      else
        (true, saveJournal { j with
          entries := j.entries.filter (fun e => !e.op.isUploadOf src)
            ++ [{ e with op := put dst staging base, retargeted := true }] })
    | _ => (false, j)
  | _ => (false, j)

/-- The attempt counts, and the entry is tried again. -/
def markFailed (j : MutationJournal) (seq : SeqId) (error : String) : MutationJournal :=
  saveJournal (j.modify seq fun e =>
    { e with attempts := e.attempts + 1, lastError := some error,
             inFlight := false, destFixed := false })

/-- The entry is tried again, and the attempt does not count. -/
def markDeferred (j : MutationJournal) (seq : SeqId) (error : String) : MutationJournal :=
  saveJournal (j.modify seq fun e =>
    { e with lastError := some error, inFlight := false, destFixed := false })

/-- Called by a live upload right before the request that names its destination. -/
def settleUpload (j : MutationJournal) (seq : SeqId) (startedAs : PathBuf)
    (ifMatch : Option String) : Settled × MutationJournal :=
  match j.entries.findIdx? (fun e => e.seq = seq) with
  | none => (.withdrawn, j)
  | some i =>
    match j.entries[i]? with
    | none => (.withdrawn, j)
    | some e =>
      if !e.retargeted then
        (.go startedAs ifMatch,
          { j with entries := j.entries.modify i (fun e => { e with destFixed := true }) })
      else
        let dest := e.op.path
        if (j.entries.drop (i + 1)).any (fun e => e.op.replaces dest) then
          (.withdrawn, saveJournal
            (removeStaging { j with entries := j.entries.eraseIdx i } e.op.stagingPath.toList))
        else
          match (j.entries.take i).find? (fun e => e.op.touches dest) with
          | some before =>
            if before.inFlight || before.lastError.isNone then (.wait, j)
            else
              (.deferred, j.markDeferred seq
                s!"waiting for an earlier change to {dest.display} to reach the server")
          | none =>
            let etag := match e.op with
              | put _ _ ifMatchEtag => ifMatchEtag
              | _ => none
            (.go dest etag,
              { j with entries := j.entries.modify i (fun e => { e with destFixed := true }) })

/-- Whether `e` is a MOVE of `uploadedAs` that holds no copy of its file yet. -/
def wantsStaging (uploadedAs : PathBuf) (e : JournalEntry) : Bool :=
  match e.op with
  | rename src _ none _ => src = uploadedAs
  | _ => false

/-- Gives a finished upload's staging file to the MOVE queued after it, if any. -/
def handStagingToRename (j : MutationJournal) (uploadedAs staging : PathBuf) :
    Bool × MutationJournal :=
  match j.entries.findIdx? (wantsStaging uploadedAs) with
  | none => (false, j)
  | some i =>
    (true, saveJournal { j with entries := j.entries.modify i fun e =>
      match e.op with
      | rename src dst _ m => { e with op := rename src dst (some staging) m }
      | _ => e })

/-- The version of `path` the newest queued change to it was based on. -/
def pendingBase (j : MutationJournal) (path : PathBuf) : Option (Option String) :=
  j.entries.reverse.findSome? fun e =>
    match e.op with
    | put p _ etag | finishChunked p _ _ _ _ _ etag _ _ _ =>
      if p = path then some etag else none
    | op => if op.replaces path then some none else none

/-- Whether `e` changes `path` on the condition that it is still version `sent`. -/
def basedOn (path : PathBuf) (sent : String) (e : JournalEntry) : Bool :=
  match e.op with
  | put p _ cond | finishChunked p _ _ _ _ _ cond _ _ _ | rename _ p _ cond =>
    p = path ∧ cond = some sent
  | _ => false

/-- The entry with its condition replaced by `new`. -/
def rebaseEntry (new : Option String) (e : JournalEntry) : JournalEntry :=
  match e.op with
  | put p s _ => { e with op := put p s new }
  | finishChunked p u n b l t _ sp h w => { e with op := finishChunked p u n b l t new sp h w }
  | rename src dst s _ => { e with op := rename src dst s new }
  | _ => e

/-- `path` went from version `sent` to `new` on the server through one of our changes: the
    changes queued after it that were based on `sent` are based on `new` now. -/
def rebase (j : MutationJournal) (path : PathBuf) (sent new : Option String) :
    MutationJournal :=
  match sent with
  | none => j
  | some sent =>
    if j.entries.any (basedOn path sent) then
      saveJournal { j with
        entries := j.entries.map (fun e => if basedOn path sent e then rebaseEntry new e else e) }
    else j

/-- The copy a queued MOVE holds of its file. -/
def renameStaging (j : MutationJournal) (seq : SeqId) : Option PathBuf :=
  (j.entries.find? (fun e => e.seq = seq)).bind fun e =>
    match e.op with
    | rename _ _ staging _ => staging
    | _ => none

/-- Marks `seq` as being executed; false when it is gone or another worker has it. -/
def claim (j : MutationJournal) (seq : SeqId) : Bool × MutationJournal :=
  match j.entries.find? (fun e => e.seq = seq) with
  | some e =>
    if e.inFlight then (false, j)
    else (true, j.modify seq fun e => { e with inFlight := true })
  | none => (false, j)

/-- Whether `supersede_uploads` drops `e`. -/
def stale (path : PathBuf) (newest : SeqId) (e : JournalEntry) : Bool :=
  decide (e.seq < newest) && !e.inFlight && e.op.isUploadOf path

/-- Drops every not-yet-claimed upload of `path` older than `newest`. -/
def supersedeUploads (j : MutationJournal) (path : PathBuf) (newest : SeqId) : MutationJournal :=
  let dropped := j.entries.filter (stale path newest)
  if dropped.isEmpty then j
  else
    saveJournal (removeStaging
      { j with entries := j.entries.filter (fun e => !stale path newest e) }
      (dropped.filterMap fun e => e.op.stagingPath))

/-- The entry leaves the queue, wherever it stands. -/
def remove (j : MutationJournal) (seq : SeqId) : MutationJournal :=
  saveJournal { j with entries := j.entries.filter (fun e => e.seq ≠ seq) }

/-- A conflict is recorded under the next number. -/
def addConflict (j : MutationJournal) (kind : ConflictKind) : MutationJournal :=
  saveConflicts { j with
    conflicts := j.conflicts ++ [{ id := j.nextConflictId, kind := kind, resolved := false }]
    nextConflictId := j.nextConflictId + 1 }

/-- A conflict is settled by the user. -/
def resolveConflict (j : MutationJournal) (id : Nat) : MutationJournal :=
  saveConflicts
    (match j.conflicts.findIdx? (fun c => c.id = id) with
    | some i => { j with conflicts := j.conflicts.modify i fun c => { c with resolved := true } }
    | none => j)

/-- All conflicts are settled. -/
def resolveAllConflicts (j : MutationJournal) : MutationJournal :=
  saveConflicts { j with conflicts := j.conflicts.map fun c => { c with resolved := true } }

/-- Where `recover_staging` keeps the bytes of an upload that is given up. -/
def recoveryPath (d : CacheDir) (cacheDir stagingPath remotePath : PathBuf) : PathBuf :=
  let recoveryDir := cacheDir ++ ["unsynced"]
  let base := remotePath.fileName.getD "recovered"
  let dest := recoveryDir ++ [base]
  if (d.files dest).isSome then
    match stagingPath.fileName with
    | some uniq => recoveryDir ++ [s!"{base}.{uniq}"]
    | none => dest
  else dest

/-- Moves a failed upload's staged bytes into the `unsynced/` recovery folder. -/
def recoverStaging (j : MutationJournal) (cacheDir stagingPath remotePath : PathBuf) :
    Option PathBuf × MutationJournal :=
  match j.disk.files stagingPath with
  | none => (none, j)
  | some _ =>
    let dest := recoveryPath j.disk cacheDir stagingPath remotePath
    (some dest, { j with disk := j.disk.moveFile stagingPath dest })

/-- What loading keeps of a persisted entry: an upload without its staging file is dropped,
    a MOVE without its copy still has to run. -/
def loadEntry (files : PathBuf → Option LocalFile) (e : JournalEntry) : Option JournalEntry :=
  match e.op with
  | rename src dst (some s) m =>
    if (files s).isSome then some e else some { e with op := rename src dst none m }
  | rename _ _ none _ => some e
  | op =>
    match op.stagingPath with
    | some s => if (files s).isSome then some e else none
    | none => some e

/-- The largest element of a list of numbers, 0 when it is empty. -/
def maxOf (ns : List Nat) : Nat := ns.foldl max 0

/-- `load_or_create`: the journal a daemon starts with in the cache directory `d`. -/
def loadOrCreate (d : CacheDir) : MutationJournal :=
  let list := (d.journalFile.getD [])
  let conflicts := d.conflictsFile.getD []
  let orphaned := list.filter fun e => (loadEntry d.files e).isNone
  let j : MutationJournal :=
    { entries := (list.filterMap (loadEntry d.files)).filter fun e => decide (e.seq ∉ orphaned.map (·.seq))
      nextSeq := maxOf (list.map (·.seq)) + 1
      conflicts := conflicts
      nextConflictId := maxOf (conflicts.map (·.id)) + 1
      disk := d }
  let j := orphaned.foldl (fun j e => j.addConflict
    (.permanentFailure s!"staging file missing for journal entry seq={e.seq}")) j
  if j.conflicts.isEmpty then j else j.saveConflicts

end MutationJournal

/-! ## Histories -/

/-- One operation on the journal, under its lock. -/
inductive JournalOp where
  | enqueue (op : MutationOp)
  | dequeueFront
  | retargetUpload (src dst : PathBuf) (base : Option String)
  | settleUpload (seq : SeqId) (startedAs : PathBuf) (ifMatch : Option String)
  | handStagingToRename (uploadedAs staging : PathBuf)
  | rebase (path : PathBuf) (sent new : Option String)
  | supersedeUploads (path : PathBuf) (newest : SeqId)
  | claim (seq : SeqId)
  | markFailed (seq : SeqId) (error : String)
  | markDeferred (seq : SeqId) (error : String)
  | remove (seq : SeqId)
  | addConflict (kind : ConflictKind)
  | resolveConflict (id : Nat)
  | resolveAllConflicts
  deriving DecidableEq, Repr

namespace MutationJournal

/-- What an operation makes of the journal. -/
def apply (j : MutationJournal) : JournalOp → MutationJournal
  | .enqueue op => (j.enqueue op).2
  | .dequeueFront => j.dequeueFront.2
  | .retargetUpload src dst base => (j.retargetUpload src dst base).2
  | .settleUpload seq startedAs ifMatch => (j.settleUpload seq startedAs ifMatch).2
  | .handStagingToRename uploadedAs staging => (j.handStagingToRename uploadedAs staging).2
  | .rebase path sent new => j.rebase path sent new
  | .supersedeUploads path newest => j.supersedeUploads path newest
  | .claim seq => (j.claim seq).2
  | .markFailed seq error => j.markFailed seq error
  | .markDeferred seq error => j.markDeferred seq error
  | .remove seq => j.remove seq
  | .addConflict kind => j.addConflict kind
  | .resolveConflict id => j.resolveConflict id
  | .resolveAllConflicts => j.resolveAllConflicts

/-- Operations one after the other. -/
def applyAll (j : MutationJournal) (ops : List JournalOp) : MutationJournal := ops.foldl apply j

end MutationJournal

end Ncrs
