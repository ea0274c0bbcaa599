import Ncrs.Native.OpenWrite

/-!
# How local copies get their labels

Model of the code that makes, moves and drops entries of `file_cache`: `ensure_file_cached`,
the end of a streamed whole-file read, the local copy a commit leaves, the entries `readdir`
makes for files it finds on disk, `apply_listing`, `unlink`, `rename`, evictions, and the
listing refreshes these read their labels from.

The server is the current version of each path. Two fields keep history that the program does
not: `versions`, the bytes of every version a path has had, and `origin`, the version that each
local file was written from. A step is one section under the cache lock, one change of a local file or one
answer of the server.
-/

namespace Ncrs

/-- A version of a file on the server. -/
structure ServerVersion where
  etag : String
  bytes : Bytes
  deriving DecidableEq, Repr

inductive CopyKind where
  /-- `ensure_file_cached`; `answersTag`: the GET's answer names its version. -/
  | download (answersTag : Bool)
  /-- A streamed read of the whole file. -/
  | streamed
  /-- The saved bytes of an upload; `answersTag`: the PUT's answer names the new version. -/
  | upload (answersTag : Bool)
  deriving DecidableEq, Repr

inductive CopyPhase where
  | requested
  | fetched (v : ServerVersion)
  /-- Renamed over the local path, not in `file_cache` yet. -/
  | installed (v : ServerVersion)
  deriving DecidableEq, Repr

/-- A local copy on its way into the cache. -/
structure CopyJob where
  path : PathBuf
  kept : Bool
  kind : CopyKind
  phase : CopyPhase
  deriving DecidableEq, Repr

structure LabelWorld where
  server : PathBuf → Option ServerVersion := fun _ => none
  versions : PathBuf → String → Option Bytes := fun _ _ => none
  cache : FsCache
  cacheDir : PathBuf
  disk : PathBuf → Option Bytes := fun _ => none
  origin : PathBuf → Option (PathBuf × String) := fun _ => none
  copies : List CopyJob := []
  /-- The entries a `readdir` is about to add. -/
  found : List (PathBuf × FileCacheEntry) := []

inductive LabelEvent where
  | serverPut (path : PathBuf) (v : ServerVersion)
  | serverDelete (path : PathBuf)
  /-- `put_dir_cache`. -/
  | refresh (dir : PathBuf) (etag : Option String) (selfEntry : Option RemoteEntry)
      (files : List RemoteEntry) (now : Nat)
  | dropListing (dir : PathBuf)
  /-- The optimistic listing changes of `unlink`, `rename` and a commit. -/
  | unlink (path : PathBuf)
  | rename (src dst : PathBuf)
  | relist (path : PathBuf) (token : Option String) (size : Nat) (modified : Option Nat)
  | request (path : PathBuf) (kept : Bool) (kind : CopyKind)
  /-- A PUT of ours is accepted as version `v`, and its bytes become the local copy. -/
  | uploaded (path : PathBuf) (kept answersTag : Bool) (v : ServerVersion)
  | fetch (i : Nat)
  | install (i : Nat)
  | label (i : Nat)
  /-- A copy that could not be made: the stale one goes, then its entry. -/
  | giveUp (i : Nat)
  /-- `readdir` finds a local file for a listed one. -/
  | find (path : PathBuf)
  | adopt (i : Nat)
  | removeFile (localPath : PathBuf)
  | dropEntry (path : PathBuf)
  /-- A cached copy that is to be kept: its file moves, then its entry. -/
  | keepFile (path : PathBuf)
  | keepEntry (path : PathBuf)
  /-- `apply_listing` takes a listed rename over to the local copy. -/
  | moveEntry (src dst : PathBuf)
  deriving DecidableEq, Repr

namespace LabelWorld

/-- `kept_dir.join(rel)` or `auto_cache_dir.join(rel)`. -/
def localPath (w : LabelWorld) (kept : Bool) (path : PathBuf) : PathBuf :=
  w.cacheDir ++ [if kept then "kept" else "cache"] ++ path

def setFileCache (w : LabelWorld) (path : PathBuf) (e : Option FileCacheEntry) : LabelWorld :=
  { w with cache := { w.cache with fileCache := Function.update w.cache.fileCache path e } }

/-- The label a copy gets: the listing's etag, which freshness checks compare against; the GET's
    own only where the listing has none, the PUT's for an upload. -/
def labelOf (w : LabelWorld) (j : CopyJob) (v : ServerVersion) : Option String :=
  match j.kind with
  | .download answersTag =>
    (w.cache.remoteEtagFor j.path).orElse fun _ => if answersTag then some v.etag else none
  | .streamed => w.cache.remoteEtagFor j.path
  | .upload answersTag => if answersTag then some v.etag else none

/-- The section that puts a copy into `file_cache`. -/
def labelCopy (w : LabelWorld) (i : Nat) (j : CopyJob) (v : ServerVersion) : LabelWorld :=
  let lp := w.localPath j.kept j.path
  { w.setFileCache j.path (some {
      localPath := lp, remoteModified := w.cache.remoteModifiedFor j.path, etag := w.labelOf j v
      kept := j.kept, size := ((w.disk lp).map List.length).getD 0 }) with
    copies := w.copies.eraseIdx i }

/-- What `readdir` makes of a listed file with a local file that is not empty. -/
def findCopy (w : LabelWorld) (path : PathBuf) : Option FileCacheEntry :=
  let entry := w.cache.findEntry path
  let usable (kept : Bool) := ((w.disk (w.localPath kept path)).filter fun b => !b.isEmpty).map
    fun b => ({ localPath := w.localPath kept path, remoteModified := entry.bind (·.modified)
                etag := entry.bind (·.changeToken), kept := kept, size := b.length } : FileCacheEntry)
  if entry.isSome then (usable true).orElse fun _ => usable false else none

/-- `rename`'s change of the listings. -/
def moveListed (c : FsCache) (src dst : PathBuf) : FsCache :=
  let moved := (c.dir src.parent).bind fun d => d.files.find? fun e => e.path = src
  let c := c.modifyFiles src.parent fun files => files.filter fun e => e.path ≠ src
  match moved with
  | some e => c.modifyFiles dst.parent fun files =>
      (files.filter fun f => f.path ≠ dst) ++ [{ e with path := dst }]
  | none => c

/-- The server takes a new version of a file. -/
def accept (w : LabelWorld) (path : PathBuf) (v : ServerVersion) : LabelWorld :=
  { w with
    server := Function.update w.server path (some v)
    versions := Function.update w.versions path
      (Function.update (w.versions path) v.etag (some v.bytes)) }

def step (w : LabelWorld) : LabelEvent → Option LabelWorld
  -- Every version has its own etag.
  | .serverPut path v => if (w.versions path v.etag).isSome then none else some (w.accept path v)
  | .serverDelete path => some { w with server := Function.update w.server path none }
  | .refresh dir etag selfEntry files now =>
    some { w with cache := w.cache.putDirCache dir etag selfEntry files now }
  | .dropListing dir => some { w with cache := w.cache.removeDir dir }
  | .unlink path =>
    let c := w.cache.modifyFiles path.parent fun files => files.filter fun e => e.path ≠ path
    some ({ w with cache := { c with deleting := insert path c.deleting
                                     uploading := c.uploading.erase path } }.setFileCache path none)
  | .rename src dst => some { w with cache := moveListed w.cache src dst }
  | .relist path token size modified =>
    some { w with cache := w.cache.modifyFiles path.parent (FsCache.modifyEntry path fun e =>
      { e with changeToken := token, size := size, modified := modified }) }
  | .request path kept kind =>
    match kind with
    | .upload _ => none
    | _ => some { w with copies := w.copies ++
        [{ path := path, kept := kept, kind := kind, phase := .requested }] }
  | .uploaded path kept answersTag v =>
    if (w.versions path v.etag).isSome then none
    else some { w.accept path v with copies := w.copies ++
      [{ path := path, kept := kept, kind := .upload answersTag, phase := .fetched v }] }
  | .fetch i =>
    match w.copies[i]? with
    | some j =>
      match j.phase, w.server j.path with
      | .requested, some v => some { w with copies := w.copies.set i { j with phase := .fetched v } }
      | _, _ => none
    | none => none
  | .install i =>
    match w.copies[i]? with
    | some j =>
      match j.phase with
      | .fetched v => some { w with
          disk := Function.update w.disk (w.localPath j.kept j.path) (some v.bytes)
          origin := Function.update w.origin (w.localPath j.kept j.path) (some (j.path, v.etag))
          copies := w.copies.set i { j with phase := .installed v } }
      | _ => none
    | none => none
  | .label i =>
    match w.copies[i]? with
    | some j =>
      match j.phase with
      | .installed v => some (w.labelCopy i j v)
      | _ => none
    | none => none
  | .giveUp i =>
    match w.copies[i]? with
    | some j =>
      match j.phase with
      | .installed _ => none
      | _ => some ({ w with
          disk := Function.update w.disk (w.localPath j.kept j.path) none
          copies := w.copies.eraseIdx i }.setFileCache j.path none)
    | none => none
  | .find path =>
    (w.findCopy path).map fun e => { w with found := w.found ++ [(path, e)] }
  | .adopt i =>
    match w.found[i]? with
    | some (path, e) =>
      let w' := { w with found := w.found.eraseIdx i }
      some (if (w.cache.fileCache path).isSome then w' else w'.setFileCache path (some e))
    | none => none
  | .removeFile lp => some { w with disk := Function.update w.disk lp none }
  | .dropEntry path => some (w.setFileCache path none)
  | .keepFile path =>
    match w.cache.fileCache path with
    | some e =>
      if e.kept || decide (e.localPath = w.localPath true path) then none
      else
        let moved := Function.update w.disk (w.localPath true path) (w.disk e.localPath)
        some { w with
          disk := Function.update moved e.localPath none
          origin := Function.update w.origin (w.localPath true path) (w.origin e.localPath) }
    | none => none
  | .keepEntry path =>
    some (w.setFileCache path ((w.cache.fileCache path).map fun e =>
      { e with localPath := w.localPath true path, kept := true }))
  | .moveEntry src dst =>
    match w.cache.fileCache src with
    | some e => some ((w.setFileCache src none).setFileCache dst (some e))
    | none => some w

def steps (w : LabelWorld) : List LabelEvent → Option LabelWorld
  | [] => some w
  | e :: es => (w.step e).bind fun w => w.steps es

end LabelWorld

end Ncrs
