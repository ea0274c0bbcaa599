import Ncrs.Native.FsCache
import Ncrs.Native.MutationJournal

/-!
# Opening a file for writing

Model of `open` for a writable handle, and of the part of `write` and `setattr` that works on
the handle's staging file before any of it has been uploaded: which content is staged, and what
a staging file that does not exist yet is seeded with.

What the file operations of `write` and `setattr` do to the bytes of a staging file stands first.
The server is its content of the path and whether it answers. `later` is the journal at the end
of the wait for a streamed upload of the path that was still finishing.
-/

namespace Ncrs

/-- `write_at` (and `write_all_at`): overwrites from `off` on, a gap before it reads as zeros. -/
def Bytes.writeAt (b : Bytes) (off : Nat) (data : Bytes) : Bytes :=
  if data.isEmpty then b
  else b.take off ++ List.replicate (off - b.length) 0 ++ data ++ b.drop (off + data.length)

/-- `set_len`. -/
def Bytes.setLen (b : Bytes) (n : Nat) : Bytes := b.take n ++ List.replicate (n - b.length) 0

inductive Errno where
  | enoent
  | eacces
  | ebusy
  | eio
  deriving DecidableEq, Repr

/-- `perms_to_mode`. -/
def permsToMode (permissions : Option String) (isDir : Bool) : Nat :=
  match permissions with
  | some p =>
    if p.isEmpty then if isDir then 0o755 else 0o644
    else
      let r := p.contains 'G'
      let w := if isDir then p.contains 'C' || p.contains 'D' || p.contains 'N' || p.contains 'V'
        else p.contains 'W'
      match isDir, r, w with
      | true, true, true => 0o755
      | true, true, false => 0o555
      | false, true, true => 0o644
      | false, true, false => 0o444
      | _, _, _ => 0
  | none => if isDir then 0o755 else 0o644

/-- A writable open, with everything it reads. -/
structure OpenRequest where
  cache : FsCache
  journal : MutationJournal
  later : MutationJournal
  cacheDir : PathBuf
  ino : Nat
  fh : Nat
  truncating : Bool := false
  offline : Bool := false
  /-- `honor_server_locks()` and no lock of our own on the file. -/
  honorLocks : Bool := true
  /-- What the server says about the file's lock when asked (`none`: no answer). -/
  lockNow : Option (Option String) := none
  server : Option Bytes
  serverEtag : Option String := none
  reachable : Bool := true
  streamUploads : Bool := true

/-- The handle, as far as its staging file is concerned. -/
structure WriteHandle where
  remotePath : PathBuf
  localCopy : Option PathBuf
  writePath : PathBuf
  dirty : Bool
  originalEtag : Option String
  totalWritten : Nat := 0
  streamEligible : Bool
  deriving DecidableEq, Repr

namespace OpenRequest

/-- The file's entry in its parent's listing. -/
def listed (r : OpenRequest) (path : PathBuf) : Option RemoteEntry :=
  (r.cache.dir path.parent).bind fun d => d.files.find? fun e => e.path = path

/-- The file's local copy, unless it is empty. -/
def localCopy (r : OpenRequest) (path : PathBuf) : Option PathBuf :=
  ((r.cache.fileCache path).filter fun e =>
    (r.journal.disk.files e.localPath).any fun f => 0 < f.data.length).map (·.localPath)

/-- A streamed upload of the path is still finishing. -/
def streaming (j : MutationJournal) (path : PathBuf) : Bool :=
  match j.pendingUpload path with
  | some (.streamTail ..) => true
  | _ => false

/-- The staging file of the newest queued upload of the path. -/
def queuedStaging (j : MutationJournal) (path : PathBuf) : Option PathBuf :=
  match j.pendingUpload path with
  | some (.staged sp) => some sp
  | _ => none

/-- The journal the staged content is taken from: the open waits for a streamed upload. -/
def settledJournal (r : OpenRequest) (path : PathBuf) : MutationJournal :=
  if !r.truncating && streaming r.journal path then r.later else r.journal

def cacheFresh (r : OpenRequest) (path : PathBuf) : Bool :=
  r.cache.fileCacheMatchesRemote path && (r.journal.pendingUpload path).isNone

/-- Locked on the server by someone else. -/
def lockRefuses (r : OpenRequest) (entry : Option RemoteEntry) : Bool :=
  r.honorLocks && (entry.bind (·.lockedBy)).isSome && (r.offline || r.lockNow ≠ some none)

/-- Where the staged content comes from. -/
inductive Source where
  | truncated
  | upload (staging : PathBuf)
  | copy (localPath : PathBuf)
  | download
  | nothing
  deriving DecidableEq, Repr

/-- The content when no upload of the path is queued: a fresh copy, else the server's unless the
    listing has none. -/
def settledSource (r : OpenRequest) (path : PathBuf) : Source :=
  let size := ((r.listed path).map (·.size)).getD 0
  match (r.localCopy path).filter fun _ => r.cacheFresh path with
  | some l => .copy l
  | none => if 0 < size || streaming r.journal path then .download else .nothing

def source (r : OpenRequest) (path : PathBuf) : Source :=
  if r.truncating then .truncated
  else
    match queuedStaging (r.settledJournal path) path with
    | some sp => .upload sp
    | none => r.settledSource path

/-- Stages the content: the cache directory afterwards and the etag the handle starts from. -/
def stage (r : OpenRequest) (path wp : PathBuf) (etag : Option String) :
    Except Errno (CacheDir × Option String) :=
  let disk := (r.settledJournal path).disk
  match r.source path with
  | .truncated => .ok (disk.writeFile wp { data := [] }, etag)
  | .upload p | .copy p =>
    match disk.files p with
    | some f => .ok (disk.writeFile wp { data := f.data }, etag)
    | none => .error .eio
  | .download =>
    match r.reachable, r.server with
    | true, some content =>
      .ok (disk.writeFile wp { data := content }, r.serverEtag.orElse fun _ => etag)
    | _, _ => .error .eio
  | .nothing => .ok (disk, etag)

/-- `open` with a write flag. -/
def openForWriting (r : OpenRequest) : Except Errno (WriteHandle × CacheDir) :=
  match r.cache.inodes r.ino with
  | none => .error .enoent
  | some path =>
    let entry := r.listed path
    let perms := entry.bind (·.permissions)
    if path = trackerignorePath then .error .eacces
    else if permsToMode perms false &&& 0o200 = 0 && perms.isSome then .error .eacces
    else if r.lockRefuses entry then .error .eacces
    else if !r.truncating && streaming r.journal path && streaming r.later path then
      .error .ebusy
    else
      let wp := PathBuf.writePath r.cacheDir r.fh
      match r.stage path wp (entry.bind (·.changeToken)) with
      | .error e => .error e
      | .ok (disk, etag) =>
        .ok ({ remotePath := path, localCopy := r.localCopy path, writePath := wp
               dirty := r.truncating, originalEtag := etag
               streamEligible := r.streamUploads &&
                 (r.source path = .nothing || r.source path = .truncated) }, disk)

end OpenRequest

namespace WriteHandle

/-- A staging file that does not exist yet is seeded with the handle's local copy, or made
    empty. -/
def seed (h : WriteHandle) (disk : CacheDir) : Except Errno CacheDir :=
  match disk.files h.writePath with
  | some _ => .ok disk
  | none =>
    match h.localCopy with
    | some l =>
      match disk.files l with
      | some f => .ok (disk.writeFile h.writePath { data := f.data })
      | none => .error .eio
    | none => .ok (disk.writeFile h.writePath { data := [] })

/-- The content of the handle's staging file. -/
def content (h : WriteHandle) (disk : CacheDir) : Bytes :=
  ((disk.files h.writePath).map (·.data)).getD []

/-- `write` on a handle that has no upload session: on the streaming path a write at the
    expected offset is an append. -/
def write (h : WriteHandle) (disk : CacheDir) (off : Nat) (data : Bytes) (offline : Bool) :
    Except Errno (WriteHandle × CacheDir) :=
  let fast := h.streamEligible && decide (off ≤ h.totalWritten) && !offline
  match h.seed disk with
  | .error e => .error e
  | .ok disk =>
    let old := h.content disk
    let new := if fast && off = h.totalWritten then old ++ data else old.writeAt off data
    let total := if fast then max h.totalWritten (off + data.length) else h.totalWritten
    .ok ({ h with dirty := true, streamEligible := h.streamEligible && fast, totalWritten := total },
      disk.writeFile h.writePath { data := new })

/-- `setattr` with a size. -/
def resize (h : WriteHandle) (disk : CacheDir) (size : Nat) :
    Except Errno (WriteHandle × CacheDir) :=
  match h.seed disk with
  | .error e => .error e
  | .ok disk =>
    .ok ({ h with dirty := true, streamEligible := false, totalWritten := size },
      disk.writeFile h.writePath { data := (h.content disk).setLen size })

/-- The commit of a released handle: its upload is queued and replaces the queued ones. -/
def commitReleased (h : WriteHandle) (j : MutationJournal) : MutationJournal :=
  let queued := j.enqueue (.put h.remotePath h.writePath h.originalEtag)
  queued.2.supersedeUploads h.remotePath queued.1

end WriteHandle

end Ncrs
