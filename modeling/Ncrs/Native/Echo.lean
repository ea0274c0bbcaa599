import Ncrs.Native.DirOps
import Ncrs.Native.DeleteGuard
import Ncrs.Native.OpenWrite

/-!
# Echoing server changes through the mount

A refresh that finds a directory changed (`apply_listing`) stores the new listing, queues a change
record for each difference and puts a ghost entry at each path concerned. A file manager that polls
the records performs them as system calls on the mount, so that the kernel tells its other watchers;
the handler that finds a fresh ghost entry of the right kind takes the call for such an echo and does
nothing else. Any number of processes read the records, each at its own pace.

This file is that system: the handlers with their ghost branches, the refresh, and the calls of the
file manager as the kernel passes them on (a lookup of the name first, unless it still holds it).
A call's way to the parent directory has been resolved before.
-/

namespace Ncrs

/-- What happened to a file. -/
inductive FileChangeKind where
  | added
  | removed
  | modified
  | dirAdded
  | dirRemoved
  | renamed (src : PathBuf)
  deriving DecidableEq, Repr

/-- A change a file manager is told of. -/
structure FileChange where
  kind : FileChangeKind
  path : PathBuf
  deriving DecidableEq, Repr

/-- The path a call starts at: the old name of a renamed file. -/
def FileChange.source (c : FileChange) : PathBuf :=
  match c.kind with
  | .renamed src => src
  | _ => c.path

/-- A change record and the time of the refresh that queued it. -/
structure ChangeRecord where
  change : FileChange
  queuedAt : Nat
  deriving DecidableEq, Repr

/-! ## The difference of two listings -/

/-- A listing before the refresh. -/
structure OldDirSnapshot where
  names : List PathBuf
  etags : PathBuf → Option (Option String) := fun _ => none
  fileids : PathBuf → Option Nat := fun _ => none
  isDir : PathBuf → Option Bool := fun _ => none

/-- What a refresh found. -/
structure DirDiff where
  removed : List PathBuf
  added : List PathBuf
  modified : List PathBuf
  /-- Old name, new name, and whether it is a directory. -/
  renames : List (PathBuf × PathBuf × Bool)
  deriving DecidableEq, Repr

namespace OldDirSnapshot

variable (old : OldDirSnapshot) (fresh : List RemoteEntry) (fileid : PathBuf → Option Nat)

/-- The names that are gone. -/
def rawRemoved : List PathBuf := old.names.dedup.filter fun p => decide (p ∉ fresh.map (·.path))

/-- The names that are new. -/
def rawAdded : List PathBuf := (fresh.map (·.path)).dedup.filter fun p => decide (p ∉ old.names)

/-- The new name of a file that has another one in the fresh listing, by its file id. -/
def renamedTo (p : PathBuf) : Option PathBuf :=
  match old.fileids p with
  | none => none
  | some fid =>
    ((fresh.map (·.path)).reverse.find? fun q => fileid q = some fid).filter fun q =>
      decide (q ∈ old.rawAdded fresh)

/-- `compute_dir_diff`. -/
def computeDirDiff : DirDiff :=
  let renames := (old.rawRemoved fresh).filterMap fun p =>
    (old.renamedTo fresh fileid p).map fun q => (p, q, (old.isDir p).getD false)
  { removed := (old.rawRemoved fresh).filter fun p => (old.renamedTo fresh fileid p).isNone
    added := (old.rawAdded fresh).filter fun p => decide (p ∉ renames.map (·.2.1))
    modified := (fresh.filter fun f =>
      !f.isDir && (old.etags f.path).any fun e => decide (e ≠ f.changeToken)).map (·.path)
    renames := renames }

end OldDirSnapshot

namespace DirDiff

/-- The ghost entries `apply_listing` inserts, in its order. An old name gets one only when it is
    still listed; pairs are numbered from `pair`. -/
def ghosts (d : DirDiff) (listed : Option (List RemoteEntry)) (now pair : Nat) :
    List (PathBuf × GhostEntry) :=
  let known := fun p => (listed.getD []).any fun e => decide (e.path = p)
  ((d.removed.filter known).map fun p => (p, { kind := .visibleDelete, createdAt := now })) ++
  ((d.renames.zipIdx pair).filter fun r => known r.1.1).flatMap (fun r =>
    [(r.1.1, { kind := .visibleDelete, createdAt := now, renamePairId := some r.2 }),
      (r.1.2.1, { kind := .hiddenAdd, createdAt := now, renamePairId := some r.2 })]) ++
  d.added.map fun p => (p, { kind := .hiddenAdd, createdAt := now })

/-- The records a refresh queues. -/
def changes (d : DirDiff) (old : OldDirSnapshot) (fresh : List RemoteEntry) : List FileChange :=
  (d.added.map fun p =>
    let isDir := (fresh.reverse.find? fun f => decide (f.path = p)).any (·.isDir)
    { kind := if isDir then .dirAdded else .added, path := p }) ++
  (d.removed.map fun p =>
    { kind := if (old.isDir p).getD false then .dirRemoved else .removed, path := p }) ++
  (d.modified.map fun p => { kind := .modified, path := p }) ++
  d.renames.map fun r => { kind := .renamed r.1, path := r.2.1 }

end DirDiff

/-! ## The handlers -/

/-- A request that reads from the server. -/
inductive EchoRequest where
  | list (dir : PathBuf)
  | get (path : PathBuf)
  deriving DecidableEq, Repr

/-- `is_trash_dir`. -/
def isTrashDir (name : String) : Bool := ".Trash".toList.isPrefixOf name.toList

namespace DirMount

/-- `lookup`: whether the name is found, and what was asked of the server. `fetched` is the answer
    to a listing that is not cached. -/
def lookup (m : DirMount) (path : PathBuf) (excluded : List PathBuf)
    (fetched : Option (List RemoteEntry)) : Bool × List EchoRequest × DirMount :=
  if path ∈ excluded then (false, [], m)
  else
    match (m.ghosts path).filter fun g => g.fresh m.now with
    | some g => (g.kind = .visibleDelete, [], m)
    | none =>
      let m := m.dropGhost path
      let asked := if (m.cache.listed path.parent).isSome then [] else [.list path.parent]
      let found := ((m.cache.listed path.parent).or fetched).any fun files =>
        files.any fun e => decide (e.path.fileName = path.fileName)
      (found, asked, if found then { m with cache := (m.cache.allocateInode path).2 } else m)

/-- `create`. The flag says that a new file was made. -/
def create (m : DirMount) (parent : Nat) (name : String) : Bool × DirMount :=
  match m.cache.inodes parent with
  | none => (false, m)
  | some parentPath =>
    let path := parentPath ++ [name]
    if path = trackerignorePath then (false, m)
    else
      let ghost := m.freshGhost path .hiddenAdd
        && ((m.cache.listed parentPath).getD []).any fun e => decide (e.path = path)
      let m := m.dropGhost path
      if ghost then (false, { m with cache := (m.cache.allocateInode path).2 })
      else
        match validate name with
        | .error _ => (false, m)
        | .ok () =>
          let entry : RemoteEntry :=
            { path := path, isDir := false, size := 0, modified := some m.now,
              permissions := some "RGDNVW" }
          let c := (m.cache.allocateInode path).2.modifyFiles parentPath fun files => files ++ [entry]
          (true, { m with cache := { c with uploading := insert path c.uploading } })

/-- `create`, and the release of a handle that was never written: only the guard of a new file
    goes. An echo's handle names no file. -/
def createClose (m : DirMount) (parent : Nat) (name : String) (path : PathBuf) : DirMount :=
  let made := m.create parent name
  if made.1 then
    { made.2 with
      cache := { made.2.cache with uploading := made.2.cache.uploading.erase path } }
  else made.2

/-- The first request of an open for writing without `O_TRUNC`: a locked file is asked about, and
    the content to stage is downloaded unless there is a fresh copy or an upload of it. The close
    of a handle that was not written commits nothing. -/
def openWriteClose (m : DirMount) (path : PathBuf) : List EchoRequest :=
  let entry := ((m.cache.listed path.parent).getD []).find? fun e => decide (e.path = path)
  let permissions := entry.bind (·.permissions)
  if path = trackerignorePath then []
  else if permissions.isSome && permsToMode permissions false &&& 0o200 = 0 then []
  else if (entry.bind (·.lockedBy)).isSome then
    if m.offline then [] else [.list path]
  else if (m.journal.pendingUpload path).isSome || m.cache.fileCacheMatchesRemote path then []
  else if 0 < (entry.map (·.size)).getD 0 then [.get path]
  else []

/-- `mkdir`. -/
def mkdir (m : DirMount) (parent : Nat) (name : String) : DirMount :=
  if isTrashDir name then m
  else
    match validate name with
    | .error _ => m
    | .ok () =>
      match m.cache.inodes parent with
      | none => m
      | some parentPath =>
        let path := parentPath ++ [name]
        let ghost := m.freshGhost path .hiddenAdd
        let m := m.dropGhost path
        if ghost then { m with cache := (m.cache.allocateInode path).2 }
        else
          let entry : RemoteEntry :=
            { path := path, isDir := true, size := 0, modified := some m.now,
              permissions := some "RGDNVCK" }
          let c := (m.cache.allocateInode path).2.modifyFiles parentPath fun files => files ++ [entry]
          { m with
            cache := c.putDirCache path none none [] m.now
            journal := (m.journal.enqueue (.mkDir path)).2 }

/-- `unlink`. -/
def unlink (m : DirMount) (parent : Nat) (name : String) : DirMount :=
  if m.cache.lacks parent 'D' then m
  else
    match m.cache.inodes parent with
    | none => m
    | some parentPath =>
      let path := parentPath ++ [name]
      if path = trackerignorePath then
        let c := m.cache.modifyFiles parentPath fun files => files.filter fun e => e.path ≠ path
        { m with cache := { c with trackerignoreHidden := true } }
      else
        let ghost := m.freshGhost path .visibleDelete
        let m := m.dropGhost path
        if ghost then m
        else
          let c := m.cache.startDelete (.unlink path)
          let deleting := if m.offline then c.deleting.erase path else c.deleting
          { m with
            cache := { c with deleting := deleting }
            openFiles := m.openFiles.map fun h =>
              if h.remotePath = path then { h with unlinked := true } else h
            journal := (m.journal.enqueue (.unlink path)).2 }

/-- Inserts ghost entries one after the other. -/
def insertGhosts (m : DirMount) (gs : List (PathBuf × GhostEntry)) : DirMount :=
  { m with ghosts := gs.foldl (fun f x p => if p = x.1 then some x.2 else f p) m.ghosts }

/-- What `apply_listing` does to the local copies: a renamed file's copy follows it, a modified
    one's is dropped. -/
def followCopies (c : FsCache) (d : DirDiff) : FsCache :=
  let moved := (d.renames.filter fun r => !r.2.2).foldl (fun (c : FsCache) r =>
    match c.fileCache r.1 with
    | some e =>
      { c with fileCache := fun p =>
          if p = r.2.1 then some e else if p = r.1 then none else c.fileCache p }
    | none => c) c
  { moved with fileCache := fun p => if p ∈ d.modified then none else moved.fileCache p }

end DirMount

/-! ## The system -/

/-- The mount, with the records it queued and the requests made for them. -/
structure EchoMount where
  mount : DirMount
  excludeFolders : List PathBuf := []
  nextPair : Nat := 1
  /-- Every record queued so far, and the numbers of those performed by some process. -/
  log : List ChangeRecord := []
  performed : List Nat := []
  /-- Requests that calls made for a record led to. -/
  sent : List EchoRequest := []

/-- A call of a user's program that takes ghost entries out. -/
inductive UserCall where
  | create (parent : Nat) (name : String)
  | mkdir (parent : Nat) (name : String)
  | unlink (parent : Nat) (name : String)
  | rmdir (parent : Nat) (name : String)
  | rename (parent : Nat) (name : String) (newparent : Nat) (newname : String)
  deriving DecidableEq, Repr

/-- What may happen next. -/
inductive EchoEvent where
  | tick (seconds : Nat)
  /-- A listing of `dir` that came back from the server is applied. -/
  | refresh (dir : PathBuf) (old : OldDirSnapshot) (etag : Option String)
      (selfEntry : Option RemoteEntry) (fresh : List RemoteEntry) (fileid : PathBuf → Option Nat)
  | lookup (path : PathBuf) (fetched : Option (List RemoteEntry))
  | user (call : UserCall)
  /-- Anything else the mount does: it touches no ghost entry. -/
  | other (m : DirMount)
  /-- A process performs record `i`. The directories the call works in have been resolved;
      `cached` says that the kernel still holds the (old) name, so that it does not look it up. -/
  | echo (i : Nat) (parent newparent : Nat) (cached : Bool) (fetched : Option (List RemoteEntry))

namespace EchoMount

/-- The refresh: `apply_listing` and the records it leads to. -/
def refresh (s : EchoMount) (dir : PathBuf) (old : OldDirSnapshot) (etag : Option String)
    (selfEntry : Option RemoteEntry) (fresh : List RemoteEntry) (fileid : PathBuf → Option Nat) :
    EchoMount :=
  let diff := old.computeDirDiff fresh fileid
  let m := s.mount
  let gs := diff.ghosts (m.cache.listed dir) m.now s.nextPair
  let c := DirMount.followCopies m.cache diff
  { s with
    mount := { m.insertGhosts gs with cache := c.putDirCache dir etag selfEntry fresh m.now }
    nextPair := s.nextPair + diff.renames.length
    log := s.log ++ (diff.changes old fresh).map fun c => { change := c, queuedAt := m.now } }

/-- What a user's call does to the mount. -/
def userCall (m : DirMount) : UserCall → DirMount
  | .create parent name => (m.create parent name).2
  | .mkdir parent name => m.mkdir parent name
  | .unlink parent name => m.unlink parent name
  | .rmdir parent name => (m.rmdir parent name).2
  | .rename parent name newparent newname => (m.rename parent name newparent newname .none).2

/-- The kernel's lookup of a name before a call. -/
def walk (s : EchoMount) (path : PathBuf) (cached : Bool) (fetched : Option (List RemoteEntry)) :
    Bool × EchoMount :=
  if cached then (true, s)
  else
    let r := s.mount.lookup path s.excludeFolders fetched
    (r.1, { s with mount := r.2.2, sent := s.sent ++ r.2.1 })

/-- Something the mount does by itself. -/
def onMount (s : EchoMount) (f : DirMount → DirMount) : EchoMount := { s with mount := f s.mount }

/-- The call a record is performed by, in the directory with inode `parent`. -/
def call (s : EchoMount) (change : FileChange) (name newname : String) (parent newparent : Nat)
    (cached : Bool) (fetched : Option (List RemoteEntry)) : EchoMount :=
  match change.kind with
  | .added =>
    let w := s.walk change.path cached fetched
    if w.1 then { w.2 with sent := w.2.sent ++ w.2.mount.openWriteClose change.path }
    else w.2.onMount fun m => m.createClose parent name change.path
  | .dirAdded =>
    let w := s.walk change.path cached fetched
    if w.1 then w.2 else w.2.onMount fun m => m.mkdir parent name
  | .removed =>
    let w := s.walk change.path cached fetched
    if w.1 then w.2.onMount fun m => m.unlink parent name else w.2
  | .dirRemoved =>
    let w := s.walk change.path cached fetched
    if w.1 then w.2.onMount fun m => (m.rmdir parent name).2 else w.2
  | .renamed src =>
    let w := s.walk src cached fetched
    if w.1 then
      let w' := w.2.walk change.path false fetched
      w'.2.onMount fun m => (m.rename parent name newparent newname .none).2
    else w.2
  -- A change of content is not performed.
  | .modified => s

/-- A process performs record `i`. -/
def echo (s : EchoMount) (i parent newparent : Nat) (cached : Bool)
    (fetched : Option (List RemoteEntry)) : Option EchoMount :=
  match s.log[i]? with
  | none => none
  | some r =>
    match r.change.source.fileName, r.change.path.fileName with
    | some name, some newname =>
      if s.mount.cache.inodes parent = some r.change.source.parent
          ∧ s.mount.cache.inodes newparent = some r.change.path.parent then
        some { s.call r.change name newname parent newparent cached fetched with
          performed := i :: s.performed }
      else none
    | _, _ => none

/-- One step; none where the event does not fit. -/
def step (s : EchoMount) : EchoEvent → Option EchoMount
  | .tick n => some (s.onMount fun m => { m with now := m.now + n })
  | .refresh dir old etag selfEntry fresh fileid =>
    some (s.refresh dir old etag selfEntry fresh fileid)
  | .lookup path fetched =>
    some (s.onMount fun m => (m.lookup path s.excludeFolders fetched).2.2)
  | .user c => some (s.onMount fun m => userCall m c)
  | .other m => some (s.onMount fun m₀ => { m with ghosts := m₀.ghosts, now := m₀.now })
  | .echo i parent newparent cached fetched => s.echo i parent newparent cached fetched

/-- A run; it ends early at an event that cannot happen. -/
def steps (s : EchoMount) : List EchoEvent → Option EchoMount
  | [] => some s
  | ev :: evs => (s.step ev).bind fun s' => s'.steps evs

/-- A mount before the first refresh. -/
def start (m : DirMount) (excludeFolders : List PathBuf) : EchoMount :=
  { mount := { m with ghosts := fun _ => none }, excludeFolders := excludeFolders }

end EchoMount

end Ncrs
