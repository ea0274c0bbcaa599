import Ncrs.ForStd.UnstableSort
import Ncrs.Native.ChangeWatch

/-!
# Listings kept over a restart

Model of `save_dir_cache_now` and `load_dir_cache` in `lib.rs`. The file is a JSON object from
directories to listings, and serde reads back the members it wrote: `DirCacheFile` is the map they
form. A listing keeps its fetch time in whole seconds, and none of its flags.

Fetch times are milliseconds since the epoch, so the one that cannot be written (before the epoch)
does not occur. The order of a hash map's entries and of equal ones in an unstable sort is open: it
comes as a `Shuffle`.
-/

namespace Ncrs

structure PersistedDirEntry where
  etag : Option String
  selfEntry : Option RemoteEntry
  files : List RemoteEntry
  /-- Unix seconds; absent from files of older versions. -/
  fetchedAt : Option Nat
  deriving DecidableEq, Repr

/-- `dir_cache.json`. -/
abbrev DirCacheFile := AList fun _ : PathBuf => PersistedDirEntry

/-- A member of the file. -/
abbrev PersistedDir := Sigma fun _ : PathBuf => PersistedDirEntry

def DirCacheEntry.persisted (d : DirCacheEntry) : PersistedDirEntry where
  etag := d.etag
  selfEntry := d.selfEntry
  files := d.files
  fetchedAt := some (d.fetchedAt / 1000)

/-- The order of `Option<u64>`. -/
def fetchRank : Option Nat → Nat
  | none => 0
  | some secs => secs + 1

/-- How far writing the sibling `.json.tmp` got. -/
inductive DirCacheWrite where
  | createFailed
  /-- Serialising, flushing or syncing failed. -/
  | writeFailed
  | renameFailed
  | renamed
  deriving DecidableEq, Repr

namespace FsCache

def persistedDir (x : Sigma fun _ : PathBuf => DirCacheEntry) : PersistedDir :=
  ⟨x.1, x.2.persisted⟩

def snapshot (c : FsCache) : DirCacheFile where
  entries := c.dirCache.entries.map persistedDir
  nodupKeys := by
    have hkeys : (c.dirCache.entries.map persistedDir).keys = c.dirCache.entries.keys := by
      simp [List.keys, persistedDir, Function.comp_def]
    rw [List.NodupKeys, hkeys]
    exact c.dirCache.nodupKeys

/-- `save_dir_cache_now`: what `dir_cache.json` is afterwards. -/
def saveDirCacheNow (c : FsCache) (outcome : DirCacheWrite) (file : Option DirCacheFile) :
    Option DirCacheFile :=
  match outcome with
  | .renamed => some c.snapshot
  -- the temporary file is gone again, and the previous one was not touched
  | .createFailed | .writeFailed | .renameFailed => file

/-- One turn of `load_dir_cache`'s insert loop. -/
def restoreDir (now : Nat) (c : FsCache) (x : PersistedDir) : FsCache :=
  if (c.dir x.1).isSome then c
  else
    { c with
      accessTick := c.accessTick + 1
      dirCache := c.dirCache.insert x.1
        { lastAccess := c.accessTick
          files := x.2.files
          selfEntry := x.2.selfEntry
          etag := x.2.etag
          «at» := now
          -- no fetch time counts as the epoch
          fetchedAt := (x.2.fetchedAt.map (· * 1000)).getD 0
          refreshing := false
          invalidated := false
          hardExpired := false
          expiryRetryAfter := none } }

def newestFirst (a b : PersistedDir) : Bool := fetchRank b.2.fetchedAt ≤ fetchRank a.2.fetchedAt

def oldestFirst (a b : PersistedDir) : Bool := fetchRank a.2.fetchedAt ≤ fetchRank b.2.fetchedAt

/-- The listings `load_dir_cache` takes from the file. -/
def restorable (max : Nat) (s : Shuffle PersistedDir) (file : DirCacheFile) : List PersistedDir :=
  if 0 < max && decide (max < file.entries.length) then
    (s.sortUnstableBy newestFirst file.entries).take max
  else file.entries

/-- `load_dir_cache`; `none`: there is no file, or it does not parse. -/
def loadDirCache (c : FsCache) (s₁ s₂ : Shuffle PersistedDir) (now : Nat)
    (file : Option DirCacheFile) : FsCache :=
  match file with
  | none => c
  | some file =>
    (s₂.sortUnstableBy oldestFirst (restorable c.dirCacheMaxDirs s₁ file)).foldl (restoreDir now) c

/-- The cache `NextCloudFs::new` starts with. -/
def startup (dirCacheMaxDirs : Nat) : FsCache where
  inodes ino := if ino = 1 then some [] else none
  paths p := if p = [] then some 1 else none
  dirCacheMaxDirs := dirCacheMaxDirs

end FsCache

end Ncrs
