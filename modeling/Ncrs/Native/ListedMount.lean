import Ncrs.Native.DeleteGuard
import Ncrs.Native.Echo

/-!
# Cached listings and the server's directories

`create`, `mkdir`, `unlink`, `rmdir` and `rename` edit the cached listing of a directory in place
and leave it the etag it was fetched with; `release` queues the upload of a file. The workers and
the replay carry the changes out and settle their entries, and listings are fetched and stored
(`put_dir_cache`) in between. This file is that system: the mount, the replay's position, the live
workers, the listings on their way, and the server, which other clients change too.

A request of the user is one event, as the scheduler orders requests on one directory; so is a
worker's or the replay's handling of an answer. The server answers a PROPFIND with what it has at
that moment. Whether an upload's staging file can be read, how long it is and what time it bears are
part of the events.
-/

namespace Ncrs

namespace MutationOp

/-- The paths an operation puts something at. -/
def adds : MutationOp → List PathBuf
  | put p _ _ | finishChunked p _ _ _ _ _ _ _ _ _ | mkDir p => [p]
  | rename _ dst _ _ => [dst]
  | unlink _ | rmDir _ => []

/-- The paths an operation takes away. -/
def removes : MutationOp → List PathBuf
  | unlink p | rmDir p => [p]
  | rename src _ _ _ => [src]
  | put .. | finishChunked .. | mkDir _ => []

end MutationOp

/-! ## Requests of the user -/

namespace DirMount

/-- `create`, with the number and the streaming flag of the handle it opens on a new file. -/
def createFile (m : DirMount) (parent : Nat) (name : String) (fh : Nat) (streams : Bool) :
    DirMount :=
  let made := m.create parent name
  match made.1, m.cache.inodes parent with
  | true, some parentPath =>
    let path := parentPath ++ [name]
    { made.2 with openFiles := made.2.openFiles ++
      [{ fh, ino := (made.2.cache.paths path).getD 0, remotePath := path, created := true,
         streamEligible := streams, stagedLen := some 0 }] }
  | _, _ => made.2

/-- The size and time of a saved file, in its parent's listing. -/
def noteSaved (c : FsCache) (path : PathBuf) (size mtime : Nat) : FsCache :=
  c.modifyFiles path.parent (FsCache.modifyEntry path fun e =>
    { e with size := size, modified := some mtime })

/-- `commit_released` and `commit_streamed`, once there is something to upload. -/
def commit (m : DirMount) (op : MutationOp) (size mtime : Nat) : DirMount :=
  let c := noteSaved m.cache op.path size mtime
  let queued := m.journal.enqueue op
  { m with
    cache := if m.offline then c else { c with uploading := insert op.path c.uploading }
    journal := queued.2.supersedeUploads op.path queued.1 }

/-- What a commit of a handle comes to: an upload of the staged file, or nothing. -/
structure Commit where
  op : MutationOp
  size : Nat
  mtime : Nat
  deriving DecidableEq, Repr

/-- Only create()'s guard is the handle's; any other belongs to an upload. -/
def dropGuard (m : DirMount) (h : DirHandle) : DirMount :=
  if h.created then
    { m with cache := { m.cache with uploading := m.cache.uploading.erase h.remotePath } }
  else m

/-- `release`, as far as it touches the listings. -/
def release (m : DirMount) (fh : Nat) (upload : Option Commit) : DirMount :=
  match m.openFiles.find? fun h => h.fh = fh with
  | none => m
  | some h =>
    let m := { m with openFiles := m.openFiles.filter fun h => h.fh ≠ fh }
    if h.uploadFailed || h.unlinked then m.dropGuard h
    else if !h.dirty then if h.stagedLen.isSome then m.dropGuard h else m
    else
      match upload with
      | some u => if u.op.isUploadOf h.remotePath then m.commit u.op u.size u.mtime else m
      | none => m

end DirMount

/-! ## Answers -/

/-- What a worker does to the cache when its request has been answered; `dest` is the name an upload
    was sent to, `sourceGone` whether a MOVE found no source. -/
def LiveAnswer.settleCache (c : FsCache) (j : MutationJournal) (op : MutationOp) (dest : PathBuf)
    (size mtime : Nat) (sourceGone : Bool) (a : LiveAnswer) : FsCache :=
  match op, a with
  | .put .., .landed etag | .finishChunked .., .landed etag =>
    noteUploaded { c with uploading := c.uploading.erase dest } dest etag size mtime
  | .put .., _ | .finishChunked .., _ => { c with uploading := c.uploading.erase dest }
  | .mkDir path, .landed _ =>
    -- The placeholder goes, unless something was made in the folder meanwhile.
    if (c.dir path).any fun d => d.etag.isNone && d.files.isEmpty then c.removeDir path else c
  | .mkDir _, _ => c
  | .unlink _, .deferred _ | .rmDir _, .deferred _ => c
  | .unlink path, _ | .rmDir path, _ => { c with deleting := c.deleting.erase path }
  | .rename _ dst _ _, .landed etag =>
    let c := match etag with
      | some tag => c.modifyFiles dst.parent (FsCache.modifyEntry dst fun e =>
          { e with changeToken := some tag })
      | none => c
    if (j.pendingUpload dst).isNone then { c with uploading := c.uploading.erase dst } else c
  | .rename _ dst _ _, .settled =>
    if sourceGone || (j.pendingUpload dst).isNone then { c with uploading := c.uploading.erase dst }
      else c
  | .rename _ dst _ _, _ => { c with uploading := c.uploading.erase dst }

/-- Whether the answer says that the server has carried the change out, or saved the file as a
    conflicted copy beside the one it has. -/
def LiveAnswer.saysDone (op : MutationOp) : LiveAnswer → Bool
  | landed _ => true
  | settled =>
    match op with
    | .put .. | .unlink _ | .rmDir _ => true
    | _ => false
  | deferred _ | failed _ => false

/-- The result means the change is on the server. -/
def ReplayResult.saysDone : ReplayResult → Bool
  | ok | uploaded _ | idempotent | conflict (.editConflict ..) => true
  | conflict _ | retryable _ | serverError _ => false

/-! ## The server -/

/-- The server's files and folders. The `change_token` of a folder is its etag; `used` are the etags
    the folder at a path has had. -/
structure DavServer where
  tree : AList (fun _ : PathBuf => RemoteEntry)
  used : List (PathBuf × String)

namespace DavServer

/-- Whether `path` is there, and a folder. -/
def kind (s : DavServer) (path : PathBuf) : Option Bool := (s.tree.lookup path).map (·.isDir)

/-- The etag of a folder. -/
def etag (s : DavServer) (dir : PathBuf) : Option String :=
  (s.tree.lookup dir).bind fun e => if e.isDir then e.changeToken else none

/-- The path is right below the folder. -/
def isChild (dir path : PathBuf) : Bool := path ≠ [] && path.parent = dir

/-- The children of a folder, as a PROPFIND lists them. -/
def listing (s : DavServer) (dir : PathBuf) : List RemoteEntry :=
  (s.tree.entries.filter fun x => isChild dir x.1).map fun x => { x.2 with path := x.1 }

/-- The same children in both. -/
def sameChildren (s s' : DavServer) (dir : PathBuf) : Bool :=
  (s.tree.keys ++ s'.tree.keys).all fun p => !isChild dir p || s.kind p = s'.kind p

/-- A folder whose children change, or that is new at its path, gets an etag none has had there. -/
def follows (s s' : DavServer) : Bool :=
  s'.tree.keys.all fun d =>
    match s'.etag d with
    | none => true
    | some tag => (d, tag) ∉ s.used || s.etag d = some tag && s.sameChildren s' d

/-- The server after a change: `tree` is what it has then. -/
def become (s : DavServer) (tree : AList (fun _ : PathBuf => RemoteEntry)) : DavServer where
  tree := tree
  used := s.used ++ tree.keys.filterMap fun d => ((tree.lookup d).bind fun e =>
    if e.isDir then e.changeToken else none).map (d, ·)

/-- The folder has an etag that is new, or none. -/
def renewed (s s' : DavServer) (dir : PathBuf) : Bool :=
  (s'.etag dir).all fun tag => (dir, tag) ∉ s.used

/-- The server has carried `op` out: where it put something the folder is a new version, and what it
    was to take away is gone. -/
def carriedOut (s s' : DavServer) (op : MutationOp) : Bool :=
  op.adds.all (fun p => s.renewed s' p.parent)
    && op.removes.all fun p => s.renewed s' p.parent || s'.kind p = none

end DavServer

/-! ## The system -/

/-- An answered PROPFIND that is not stored yet. -/
structure DirAnswer where
  path : PathBuf
  etag : Option String
  selfEntry : Option RemoteEntry
  files : List RemoteEntry
  deriving DecidableEq, Repr

/-- A queued change the server has carried out. -/
structure Landing where
  seq : SeqId
  adds : List PathBuf
  removes : List PathBuf
  deriving DecidableEq, Repr

/-- The mount, its live jobs and answers on their way, and the server. -/
structure ListedMount where
  mount : DirMount
  cacheDir : PathBuf
  server : DavServer
  phase : ReplayPhase := .idle
  /-- The live jobs. -/
  workers : List (SeqId × MutationOp) := []
  answers : List DirAnswer := []
  landed : List Landing := []

/-- What may happen next. -/
inductive ListedEvent where
  | create (parent : Nat) (name : String) (fh : Nat) (streams : Bool)
  | mkdir (parent : Nat) (name : String)
  | unlink (parent : Nat) (name : String)
  | rmdir (parent : Nat) (name : String)
  | rename (parent : Nat) (name : String) (newparent : Nat) (newname : String) (flags : RenameFlags)
  | release (fh : Nat) (upload : Option DirMount.Commit)
  /-- A file is opened that is there already. -/
  | open (h : DirHandle)
  /-- A handle is written to. -/
  | write (fh : Nat) (dirty uploadFailed : Bool) (stagedLen : Option Nat)
  | setOffline (b : Bool)
  /-- An inode is handed out. -/
  | allocate (path : PathBuf)
  | ghost (path : PathBuf) (g : Option GhostEntry)
  /-- The size, time or version of a listed entry is corrected. -/
  | stat (path : PathBuf) (size : Nat) (modified : Option Nat) (changeToken : Option String)
  /-- A listing is confirmed, invalidated, or marked as being refreshed. -/
  | relabel (path : PathBuf) (d : DirCacheEntry)
  | evict (path : PathBuf)
  /-- The server's answer to a PROPFIND leaves it. -/
  | fetch (path : PathBuf)
  /-- An answer arrives and is stored. -/
  | store (i : Nat)
  /-- Other clients, or requests of this mount, change what the server has. -/
  | change (tree : AList (fun _ : PathBuf => RemoteEntry))
  /-- The server carries out the change of entry `seq`. -/
  | land (seq : SeqId) (tree : AList (fun _ : PathBuf => RemoteEntry))
  | claim (seq : SeqId)
  | settleUpload (seq : SeqId) (startedAs : PathBuf) (ifMatch : Option String)
  /-- An upload's worker finds its entry gone or taken. -/
  | skip (seq : SeqId) (op : MutationOp)
  /-- An upload was withdrawn before it was sent. -/
  | withdrawn (seq : SeqId) (startedAs : PathBuf)
  | answer (seq : SeqId) (op : MutationOp) (dest : PathBuf) (sent : Option String) (a : LiveAnswer)
      (size mtime : Nat) (sourceGone : Bool)
  | replay (step : ReplayStep) (size mtime : Nat)

namespace ListedMount

/-- The cache of the mount. -/
def cache (s : ListedMount) : FsCache := s.mount.cache

/-- The journal of the mount. -/
def journal (s : ListedMount) : MutationJournal := s.mount.journal

/-- The cache after a section. -/
def setCache (s : ListedMount) (c : FsCache) : ListedMount :=
  { s with mount := { s.mount with cache := c } }

/-- The mount after a request: while online, what it has queued is handed to a worker. -/
def run (s : ListedMount) (m : DirMount) : ListedMount :=
  { s with
    mount := m
    workers := if m.offline then s.workers else s.workers ++
      (m.journal.entries.filter fun e => decide (s.journal.nextSeq ≤ e.seq)).map fun e =>
        (e.seq, e.op) }

/-- The server may have carried out what `seq` stands for. -/
def done (s : ListedMount) (seq : SeqId) : Bool := s.landed.any fun l => l.seq = seq

/-- `seq` stays queued, to be sent again. -/
def reopen (s : ListedMount) (seq : SeqId) : List Landing := s.landed.filter fun l => l.seq ≠ seq

/-- What a section of the replay does to the cache. -/
def replayCache (s : ListedMount) (st : ReplayStep) (size mtime : Nat) : FsCache :=
  match s.phase, st with
  | .executing e, .execute (.uploaded etag) => noteUploaded s.cache e.op.path etag size mtime
  | .settled e result, .finish => (settleEntry s.journal s.cache e result).2.2
  | .recovered e kept, .giveUp => (dropEntry s.journal s.cache e kept).2
  | _, _ => s.cache

/-- Whether the replay's next section can be `st`: what an answer says done has been. -/
def possible (s : ListedMount) (st : ReplayStep) : Bool :=
  match s.phase, st with
  | .executing e, .execute result => !result.saysDone || s.done e.seq
  | _, _ => true

/-- The change an unfinished entry stands for is due again. -/
def replayLanded (s : ListedMount) (st : ReplayStep) : List Landing :=
  match s.phase, st with
  | .settled e (.retryable _), .finish | .settled e (.serverError _), .finish => s.reopen e.seq
  | _, _ => s.landed

/-- The guards an upload that was withdrawn leaves: its entry is put back for the replay, or gone. -/
def withdrawGuards (s : ListedMount) (seq : SeqId) (startedAs : PathBuf) : FsCache :=
  let current := (s.journal.entries.find? fun e => e.seq = seq).map (·.op.path)
  let gone := [startedAs, current.getD startedAs].filter fun p => current.isSome || !s.journal.hasPendingPut p
  { s.cache with uploading := gone.foldl Finset.erase s.cache.uploading }

/-- One step; none where the event does not fit. -/
def step (s : ListedMount) : ListedEvent → Option ListedMount
  | .create parent name fh streams =>
    if s.mount.openFiles.any fun h => h.fh = fh then none
    else some (s.run (s.mount.createFile parent name fh streams))
  | .mkdir parent name => some (s.run (s.mount.mkdir parent name))
  | .unlink parent name => some (s.run (s.mount.unlink parent name))
  | .rmdir parent name => some (s.run (s.mount.rmdir parent name).2)
  | .rename parent name newparent newname flags =>
    some (s.run (s.mount.rename parent name newparent newname flags).2)
  | .release fh upload => some (s.run (s.mount.release fh upload))
  | .open h =>
    if h.created || s.mount.openFiles.any fun x => x.fh = h.fh then none
    else some { s with mount := { s.mount with openFiles := s.mount.openFiles ++ [h] } }
  | .write fh dirty uploadFailed stagedLen =>
    some { s with mount := { s.mount with openFiles := s.mount.openFiles.map fun h =>
      if h.fh = fh then { h with dirty, uploadFailed, stagedLen } else h } }
  | .setOffline b => some { s with mount := { s.mount with offline := b } }
  | .allocate path => some (s.setCache (s.cache.allocateInode path).2)
  | .ghost path g =>
    some { s with mount := { s.mount with ghosts := fun p => if p = path then g else s.mount.ghosts p } }
  | .stat path size modified changeToken =>
    some (s.setCache (s.cache.modifyFiles path.parent (FsCache.modifyEntry path fun e =>
      { e with size, modified, changeToken })))
  | .relabel path d =>
    some (s.setCache (s.cache.modifyDir path fun old =>
      { d with files := old.files, selfEntry := old.selfEntry, etag := old.etag }))
  | .evict path => some (s.setCache (s.cache.removeDir path))
  | .fetch path =>
    match s.server.tree.lookup path with
    | none => none
    | some e =>
      some { s with answers := s.answers ++
        [{ path, etag := s.server.etag path, selfEntry := some e, files := s.server.listing path }] }
  | .store i =>
    match s.answers[i]? with
    | none => none
    | some a =>
      some { s.setCache (s.cache.putDirCache a.path a.etag a.selfEntry a.files s.mount.now) with
        answers := s.answers.eraseIdx i }
  | .change tree =>
    if s.server.follows (s.server.become tree) then some { s with server := s.server.become tree }
    else none
  | .land seq tree =>
    match s.journal.entries.find? fun e => e.seq = seq with
    | none => none
    | some e =>
      if s.server.follows (s.server.become tree) &&
        s.server.carriedOut (s.server.become tree) e.op then
        some { s with
          server := s.server.become tree
          landed := { seq, adds := e.op.adds, removes := e.op.removes } :: s.landed }
      else none
  | .claim seq => some { s with mount := { s.mount with journal := (s.journal.claim seq).2 } }
  | .settleUpload seq startedAs ifMatch =>
    some { s with mount := { s.mount with journal := (s.journal.settleUpload seq startedAs ifMatch).2 } }
  | .skip seq op =>
    if (seq, op) ∈ s.workers then
      some { s.setCache (if s.journal.hasPendingPut op.path then s.cache
          else { s.cache with uploading := s.cache.uploading.erase op.path }) with
        workers := s.workers.erase (seq, op) }
    else none
  | .withdrawn seq startedAs =>
    if s.workers.any fun w => w.1 = seq then
      some { s.setCache (s.withdrawGuards seq startedAs) with
        workers := s.workers.filter fun w => w.1 ≠ seq }
    else none
  | .answer seq op dest sent a size mtime sourceGone =>
    if (seq, op) ∈ s.workers && (!a.saysDone op || s.done seq) then
      let j := (a.liveOps seq op dest sent).foldl LiveOp.apply s.journal
      some { s with
        mount := { s.mount with
          cache := a.settleCache s.cache j op dest size mtime sourceGone
          journal := j }
        workers := s.workers.erase (seq, op)
        landed := if a.saysDone op then s.landed else s.reopen seq }
    else none
  | .replay st size mtime =>
    if s.possible st then
      let l : ReplayLoop := { journal := s.journal, phase := s.phase, cacheDir := s.cacheDir }
      some { s with
        mount := { s.mount with cache := s.replayCache st size mtime, journal := (l.replayStep st).journal }
        phase := (l.replayStep st).phase
        landed := s.replayLanded st }
    else none

/-- A run of steps. -/
def steps (s : ListedMount) : List ListedEvent → Option ListedMount
  | [] => some s
  | e :: es => (s.step e).bind (·.steps es)

end ListedMount

end Ncrs
