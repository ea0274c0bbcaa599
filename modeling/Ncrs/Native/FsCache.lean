import Mathlib.Data.List.AList
import Mathlib.Data.Finset.Image
import Ncrs.Native.Path

/-!
# The in-memory cache layer

Model of `FsCache` in `lib.rs`: inodes, directory listings, local copies of files, and the
two guard sets that keep a racing listing refresh from dropping a file being uploaded
(`uploading`) or bringing back one being deleted (`deleting`).

Instants and clock readings are natural numbers handed to the operations that read the
clock (`now`); the global access counter that orders evictions is the field `accessTick`.
The pending (streaming) listings are not part of this model.
-/

namespace Ncrs

structure RemoteEntry where
  path : PathBuf
  isDir : Bool
  size : Nat
  modified : Option Nat := none
  changeToken : Option String := none
  permissions : Option String := none
  lockedBy : Option String := none
  deriving DecidableEq, Repr

structure DirCacheEntry where
  files : List RemoteEntry
  selfEntry : Option RemoteEntry := none
  etag : Option String := none
  «at» : Nat := 0
  fetchedAt : Nat := 0
  refreshing : Bool := false
  invalidated : Bool := false
  hardExpired : Bool := false
  expiryRetryAfter : Option Nat := none
  lastAccess : Nat := 0
  deriving DecidableEq, Repr

structure FileCacheEntry where
  localPath : PathBuf
  remoteModified : Option Nat
  etag : Option String
  kept : Bool
  size : Nat
  deriving DecidableEq, Repr

structure FsCache where
  inodes : Nat → Option PathBuf := fun _ => none
  paths : PathBuf → Option Nat := fun _ => none
  nextInode : Nat := 2
  dirCache : AList (fun _ : PathBuf => DirCacheEntry) := ∅
  dirCacheMaxDirs : Nat := 0
  fileCache : PathBuf → Option FileCacheEntry := fun _ => none
  uploading : Finset PathBuf := ∅
  deleting : Finset PathBuf := ∅
  notDirs : Finset PathBuf := ∅
  trackerignoreHidden : Bool := false
  /-- `desktop::policy().tracker_ignore`. -/
  trackerIgnore : Bool := false
  accessTick : Nat := 0

/-- The synthetic `.trackerignore` entry of the root listing. -/
def trackerignorePath : PathBuf := [".trackerignore"]

def trackerignoreEntry : RemoteEntry :=
  { path := trackerignorePath, isDir := false, size := 1 }

namespace FsCache

/-- `dir_cache.get(path)`. -/
def dir (c : FsCache) (path : PathBuf) : Option DirCacheEntry := c.dirCache.lookup path

/-- `dir_cache.insert(path, entry)`. -/
def setDir (c : FsCache) (path : PathBuf) (d : DirCacheEntry) : FsCache :=
  { c with dirCache := c.dirCache.insert path d }

/-- `dir_cache.remove(path)`. -/
def removeDir (c : FsCache) (path : PathBuf) : FsCache :=
  { c with dirCache := c.dirCache.erase path }

/-- `if let Some(dir) = dir_cache.get_mut(path)` and what is done with the listing. -/
def modifyDir (c : FsCache) (path : PathBuf) (f : DirCacheEntry → DirCacheEntry) : FsCache :=
  match c.dir path with
  | some d => c.setDir path (f d)
  | none => c

/-- Replaces the files of a cached listing (`dir.files = Arc::new(files)`). -/
def modifyFiles (c : FsCache) (path : PathBuf) (f : List RemoteEntry → List RemoteEntry) :
    FsCache :=
  c.modifyDir path fun d => { d with files := f d.files }

/-- `files.iter_mut().find(|e| e.path == path)` and what is done with the entry found. -/
def modifyEntry (path : PathBuf) (f : RemoteEntry → RemoteEntry) : List RemoteEntry →
    List RemoteEntry
  | [] => []
  | e :: rest => if e.path = path then f e :: rest else e :: modifyEntry path f rest

/-- The first listed entry of `path`, with `path`'s own file name, in its parent's listing. -/
def findEntry (c : FsCache) (path : PathBuf) : Option RemoteEntry :=
  match path.fileName with
  | none => none
  | some name =>
    (c.dir path.parent).bind fun d => d.files.find? fun e => e.path.fileName = some name

def remoteModifiedFor (c : FsCache) (path : PathBuf) : Option Nat :=
  (c.findEntry path).bind (·.modified)

def remoteEtagFor (c : FsCache) (path : PathBuf) : Option String :=
  (c.findEntry path).bind (·.changeToken)

/-- Whether the local copy of `path` still matches the version its listing records. -/
def fileCacheMatchesRemote (c : FsCache) (path : PathBuf) : Bool :=
  if path ∈ c.uploading then false
  else
    match c.fileCache path with
    | none => false
    | some fc =>
      match fc.etag, c.remoteEtagFor path with
      | some cached, some current => cached = current
      | _, _ =>
        match fc.remoteModified, c.remoteModifiedFor path with
        | some cached, some current => cached = current
        | _, _ => true

/-- Re-merges one entry of the old listing whose upload is in flight into a fresh one. -/
def mergeUploading (files : List RemoteEntry) (old : RemoteEntry) : List RemoteEntry :=
  if files.any (fun f => f.path = old.path) then
    modifyEntry old.path (fun f => { f with
      size := old.size, modified := old.modified, changeToken := old.changeToken }) files
  else files ++ [old]

/-- The listings `evict_dir_cache` may drop, least recently used first. -/
def evictCandidates (c : FsCache) : List (Nat × PathBuf) :=
  let uploadParents := c.uploading.image PathBuf.parent
  ((c.dirCache.entries.filter fun x => !x.2.refreshing && decide (x.1 ∉ uploadParents)).map
    fun x => (x.2.lastAccess, x.1)).mergeSort fun a b => a.1 ≤ b.1

/-- Drops least-recently-used listings once the cache exceeds `dir_cache_max_dirs`. -/
def evictDirCache (c : FsCache) : FsCache :=
  let max := c.dirCacheMaxDirs
  if max = 0 || decide (c.dirCache.entries.length ≤ max) then c
  else
    let target := max - max / 10
    let toDrop := c.dirCache.entries.length - target
    (c.evictCandidates.take toDrop).foldl (fun c x => c.removeDir x.2) c

/-- The fresh listing as `put_dir_cache` stores it: uploads in flight re-merged, deletes in
    flight filtered out, the `.trackerignore` overlay added to the root. -/
def mergedFiles (c : FsCache) (path : PathBuf) (files : List RemoteEntry) : List RemoteEntry :=
  let merged := match c.dir path with
    | some old => (old.files.filter fun (e : RemoteEntry) => decide (e.path ∈ c.uploading)).foldl
        mergeUploading files
    | none => files
  let kept := merged.filter fun f => decide (f.path ∉ c.deleting)
  if path = [] && !c.trackerignoreHidden && c.trackerIgnore
      && !kept.any (fun f => f.path = trackerignorePath) then
    kept ++ [trackerignoreEntry]
  else kept

/-- Stores a fresh listing of `path`. -/
def putDirCache (c : FsCache) (path : PathBuf) (etag : Option String)
    (selfEntry : Option RemoteEntry) (files : List RemoteEntry) (now : Nat) : FsCache :=
  -- A PROPFIND of a file reads as an empty listing: it must not become a directory.
  if selfEntry.any (fun se => !se.isDir) then
    { c.removeDir path with notDirs := insert path c.notDirs }
  else
    evictDirCache
      { c with
        notDirs := c.notDirs.erase path
        accessTick := c.accessTick + 1
        dirCache := c.dirCache.insert path
          { files := c.mergedFiles path files, selfEntry := selfEntry, etag := etag,
            «at» := now, fetchedAt := now, lastAccess := c.accessTick } }

/-- A path that already has an inode keeps it. -/
def allocateInode (c : FsCache) (path : PathBuf) : Nat × FsCache :=
  match c.paths path with
  | some ino => (ino, c)
  | none =>
    (c.nextInode, { c with
      nextInode := c.nextInode + 1
      paths := fun p => if p = path then some c.nextInode else c.paths p
      inodes := fun i => if i = c.nextInode then some path else c.inodes i })

end FsCache

end Ncrs
