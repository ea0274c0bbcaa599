import Mathlib.Data.List.Sort
import Ncrs.Native.CacheLabels
import Ncrs.Native.StatusFeed

/-!
# Files kept for offline use

Model of what makes, moves and drops the local copies of files: `ensure_file_cached`, the ends of
a streamed read and of an upload, `readdir`, `apply_listing`, the cleanup of the cache folder,
evictions and purges, and a restart with `load_file_cache` and the job `boot-files`. Which files
are kept stands in three places: the flag of the entry in `file_cache`, the folder the copy lies
in, and the file's status.

Each operation is one step; `CacheLabels` cuts them at their sections and compares what the
copies hold. The part files that copies are written to before they are renamed are left out, and
so are failed writes of `file_cache.json`.
-/

namespace Ncrs

/-- An entry of `file_cache.json`. One without an etag is neither written nor loaded. -/
structure LoadedCacheEntry where
  etag : String
  kept : Bool
  size : Nat
  deriving DecidableEq, Repr

/-- A file the cleanup finds in the cache folder. -/
structure CachedFile where
  path : PathBuf
  remotePath : PathBuf
  size : Nat
  accessed : Nat
  deriving DecidableEq, Repr

/-- One turn of the download loop. -/
inductive DownloadAttempt where
  | noPart
  /-- `again`: the error is transient and the deadline leaves time; `removed`: the stale copy could
      be removed. -/
  | failed (again removed : Bool)
  | done (content : Bytes) (etag : Option String)
  deriving DecidableEq, Repr

/-- Why a file could not be had. -/
inductive EnsureError where
  | noFolder
  | noPart
  | download
  deriving DecidableEq, Repr

/-- The mount's copies of files, with what is saved of them. -/
structure KeptMount where
  cache : FsCache
  cacheDir : PathBuf
  disk : PathBuf → Option Bytes := fun _ => none
  /-- `file_cache.json`. -/
  saved : PathBuf → Option LoadedCacheEntry := fun _ => none
  status : PathBuf → Option FileStatus := fun _ => none
  /-- The loaded entries that `boot-files` has to check. -/
  toCheck : List (PathBuf × LoadedCacheEntry) := []
  autoKeepCached : Bool := false
  autoKeepLocallyModified : Bool := true

namespace KeptMount

/-- `kept_dir.join(rel)` or `auto_cache_dir.join(rel)`. -/
def localPath (w : KeptMount) (kept : Bool) (path : PathBuf) : PathBuf :=
  w.cacheDir ++ (if kept then "kept" else "cache") :: path

/-- The local file, if it is not empty. -/
def fileAt (w : KeptMount) (localPath : PathBuf) : Option Bytes :=
  (w.disk localPath).filter fun content => !content.isEmpty

/-- A file of the disk after a section. -/
def setFile (w : KeptMount) (localPath : PathBuf) (content : Option Bytes) : KeptMount :=
  { w with disk := Function.update w.disk localPath content }

/-- A cache entry after a section. -/
def setEntry (w : KeptMount) (path : PathBuf) (e : Option FileCacheEntry) : KeptMount :=
  { w with cache := { w.cache with fileCache := Function.update w.cache.fileCache path e } }

/-- A status after a section. -/
def setStatus (w : KeptMount) (path : PathBuf) (status : Option FileStatus) : KeptMount :=
  { w with status := Function.update w.status path status }

/-- `save_file_cache`: entries with an etag are saved. -/
def saveFileCache (w : KeptMount) : KeptMount :=
  { w with saved := fun path => (w.cache.fileCache path).bind fun e => e.etag.map fun etag =>
      { etag := etag, kept := e.kept, size := e.size } }

/-! ## Downloads -/

/-- The entry of a copy that is not empty and still has the listed modification time. -/
def freshCopy (w : KeptMount) (path : PathBuf) : Option FileCacheEntry :=
  (w.cache.fileCache path).filter fun e =>
    (w.fileAt e.localPath).isSome && decide (e.remoteModified = w.cache.remoteModifiedFor path)

/-- A downloaded copy and its entry. -/
def addCopy (w : KeptMount) (path : PathBuf) (kept : Bool) (content : Bytes)
    (etag : Option String) : KeptMount :=
  let w := w.setFile (w.localPath kept path) (some content)
  let e : FileCacheEntry :=
    { localPath := w.localPath kept path, remoteModified := w.cache.remoteModifiedFor path
      etag := (w.cache.remoteEtagFor path).or etag, kept := kept, size := content.length }
  (w.setEntry path (some e)).saveFileCache.setStatus path (some (if kept then .kept else .cached))

/-- The download loop, with `retries` more attempts. A failed one removes the previous copy, and
    the last one its entry. -/
def fetchCopy (path : PathBuf) (kept : Bool) :
    Nat → KeptMount → List DownloadAttempt → Option (KeptMount × Except EnsureError PathBuf)
  | _, w, .noPart :: _ => some (w, .error .noPart)
  | _, w, .done content etag :: _ =>
    some (w.addCopy path kept content etag, .ok (w.localPath kept path))
  | retries, w, .failed again removed :: rest =>
    let w := if removed then w.setFile (w.localPath kept path) none else w
    if again && decide (0 < retries) then fetchCopy path kept (retries - 1) w rest
    else if rest = [] then
      some ((w.setEntry path none).setStatus path (some .remote), .error .download)
    else none
  | _, _, [] => none

/-- A cached copy that is to be kept: it moves to the kept folder. -/
def keepCopy (w : KeptMount) (path : PathBuf) (e : FileCacheEntry) : KeptMount :=
  let new := w.localPath true path
  let w := (w.setFile new (w.disk e.localPath)).setFile e.localPath none
  (w.setEntry path (some { e with localPath := new, kept := true })).saveFileCache.setStatus path
    (some .kept)

/-- `folder`: the copy's folder can be made; `renamed`: a cached copy can be moved. -/
def ensureFileCached (w : KeptMount) (path : PathBuf) (kept folder renamed : Bool)
    (attempts : List DownloadAttempt) : Option (KeptMount × Except EnsureError PathBuf) :=
  match w.freshCopy path with
  | some e =>
    let new := w.localPath true path
    if kept && !e.kept && decide (e.localPath ≠ new) && renamed then
      some (w.keepCopy path e, .ok new)
    else some (w, .ok e.localPath)
  | none =>
    let w := w.setStatus path (some .downloading)
    if folder then fetchCopy path kept 2 w attempts else some (w, .error .noFolder)

/-! ## Other copies -/

/-- The end of a streamed read of the whole file. -/
def streamed (w : KeptMount) (path : PathBuf) (content : Bytes) : KeptMount :=
  let kept := w.autoKeepCached
  if (w.cache.fileCache path).isNone && !content.isEmpty then w.addCopy path kept content none
  else w

/-- What a commit or a streamed finish does with the bytes it uploaded. `placed`: they can be moved or
    copied to the copy's place. -/
def uploaded (w : KeptMount) (path : PathBuf) (content : Bytes) (modified : Nat)
    (token : Option String) (placed : Bool) : KeptMount :=
  let pinned := (w.cache.fileCache path).any (·.kept)
  if (w.autoKeepLocallyModified || pinned) && placed then
    let w := w.setFile (w.localPath pinned path) (some content)
    let e : FileCacheEntry :=
      { localPath := w.localPath pinned path, remoteModified := some modified, etag := token
        kept := pinned, size := content.length }
    (w.setEntry path (some e)).setStatus path (some (if pinned then .kept else .cached))
  else w.setStatus path (some .synced)

/-- The status and the entry that `readdir` makes of a listed file. -/
def findCopy (w : KeptMount) (f : RemoteEntry) : FileStatus × Option FileCacheEntry :=
  let entry (kept : Bool) (content : Bytes) : FileCacheEntry :=
    { localPath := w.localPath kept f.path, remoteModified := f.modified, etag := f.changeToken
      kept := kept, size := content.length }
  match w.fileAt (w.localPath true f.path), w.fileAt (w.localPath false f.path) with
  | some content, _ => (.kept, some (entry true content))
  | none, some content => (.cached, some (entry false content))
  | none, none => (.remote, none)

/-- `uploads`: the files of an upload under way or just ended, whose status is not set. -/
def readdirFile (uploads : List PathBuf) (w : KeptMount) (f : RemoteEntry) : KeptMount :=
  if f.isDir then w
  else
    let found := w.findCopy f
    let w := if f.path ∈ uploads then w else w.setStatus f.path (some found.1)
    if (w.cache.fileCache f.path).isNone then w.setEntry f.path found.2 else w

/-- `oldChildren`: the files of the previous directory read. -/
def readdir (w : KeptMount) (dir : PathBuf) (oldChildren : List PathBuf) : KeptMount :=
  let files := ((w.cache.dir dir).map (·.files)).getD []
  let uploads := (files.map (·.path)).filter fun p =>
    decide (w.status p = some .uploading || w.status p = some .synced)
  files.foldl (readdirFile uploads) ((dir :: oldChildren).foldl (fun w p => w.setStatus p none) w)

/-- `apply_listing`: the copy of a file renamed on the server goes along. -/
def moveEntry (w : KeptMount) (r : PathBuf × PathBuf × Bool) : KeptMount :=
  match r.2.2, w.cache.fileCache r.1 with
  | false, some e => ((w.setEntry r.1 none).setEntry r.2.1 (some e)).saveFileCache
  | _, _ => w

/-- `apply_listing`: a modified one's is removed. -/
def evictStale (failing : List PathBuf) (w : KeptMount) (path : PathBuf) : KeptMount :=
  match w.cache.fileCache path with
  | some e =>
    let w := w.setEntry path none
    (if e.localPath ∈ failing then w else w.setFile e.localPath none).saveFileCache
  | none => w

/-- `apply_listing`: entries go or move with their files. -/
def applyListing (w : KeptMount) (dir : PathBuf) (diff : DirDiff) (etag : Option String)
    (selfEntry : Option RemoteEntry) (fresh : List RemoteEntry) (now : Nat)
    (failing : List PathBuf) : KeptMount :=
  let w := diff.modified.foldl (evictStale failing) (diff.renames.foldl moveEntry w)
  { w with cache := w.cache.putDirCache dir etag selfEntry fresh now }

/-! ## The cleanup -/

/-- A run of the cleanup: the files not looked at yet, their size, and whether one was evicted. -/
structure Cleanup where
  mount : KeptMount
  files : List CachedFile
  totalSize : Nat
  evicted : Bool := false

/-- `Vec::swap_remove`. -/
def swapRemove (files : List CachedFile) (i : Nat) : List CachedFile :=
  match files.getLast? with
  | some f => (files.set i f).dropLast
  | none => files

/-- One whose file cannot be removed is passed over. -/
def Cleanup.evict (failing : List PathBuf) (c : Cleanup) (f : CachedFile) : Cleanup :=
  if f.path ∈ failing then c
  else
    { c with
      mount := ((c.mount.setFile f.path none).setEntry f.remotePath none).setStatus f.remotePath
        (some .remote)
      totalSize := c.totalSize - f.size
      evicted := true }

/-- The loop over the files not used since `cutoff`, from the `i`th on. Each turn passes over a
    file or takes one out. -/
def Cleanup.purgeOld (failing : List PathBuf) (cutoff : Nat) : Nat → Nat → Cleanup → Cleanup
  | 0, _, c => c
  | fuel + 1, i, c =>
    match c.files[i]? with
    | none => c
    | some f =>
      if f.accessed < cutoff then
        purgeOld failing cutoff fuel i ({ c with files := swapRemove c.files i }.evict failing f)
      else purgeOld failing cutoff fuel (i + 1) c

/-- The loop that makes room, least recently used files first. -/
def Cleanup.makeRoom (failing : List PathBuf) (maxBytes : Nat) (c : Cleanup) : Cleanup :=
  (c.files.insertionSort fun f g => f.accessed ≤ g.accessed).foldl
    (fun c f => if c.totalSize ≤ maxBytes then c else c.evict failing f) c

/-- `run_cache_cleanup`: `walked` are the files found, `cutoff` is the age limit if there is one. -/
def runCacheCleanup (w : KeptMount) (walked : List CachedFile) (maxBytes : Nat)
    (cutoff : Option Nat) (failing : List PathBuf) : KeptMount :=
  let c : Cleanup := { mount := w, files := walked, totalSize := (walked.map (·.size)).sum }
  let c := match cutoff with
    | some cutoff => c.purgeOld failing cutoff walked.length 0
    | none => c
  let c := if 0 < maxBytes && maxBytes < c.totalSize then c.makeRoom failing maxBytes else c
  if c.evicted then c.mount.saveFileCache else c.mount

/-- Such files can be found. -/
def walks (w : KeptMount) (walked : List CachedFile) : Bool :=
  walked.all fun f => decide (f.path = w.localPath false f.remotePath) &&
    decide ((w.disk f.path).map List.length = some f.size)

/-! ## Evictions and restarts -/

/-- An eviction or a purge of the entry of one path. -/
def evictEntry (failing : List PathBuf) (keepFailed : Bool) (w : KeptMount) (path : PathBuf) :
    KeptMount :=
  match w.cache.fileCache path with
  | some e =>
    if e.localPath ∈ failing then
      if keepFailed then w else (w.setEntry path none).setStatus path (some .remote)
    else ((w.setFile e.localPath none).setEntry path none).setStatus path (some .remote)
  | none => w

/-- `load_file_cache`, for one entry. A copy from before there were two folders moves to the kept
    one, if it can. -/
def loadEntry (stuck : List PathBuf) (w : KeptMount) (path : PathBuf) : KeptMount :=
  match w.saved path with
  | none => w
  | some v =>
    let size (content : Bytes) := if 0 < v.size then v.size else content.length
    let load (w : KeptMount) (kept : Bool) (content : Bytes) : KeptMount :=
      { w with toCheck := w.toCheck ++ [(path, { v with kept := kept, size := size content })] }
    let legacy := w.cacheDir ++ path
    match w.fileAt (w.localPath true path), w.fileAt (w.localPath false path), w.fileAt legacy with
    | some content, _, _ => load w true content
    | none, some content, _ => load w v.kept content
    | none, none, some content =>
      if path ∈ stuck then w
      else load ((w.setFile (w.localPath true path) (some content)).setFile legacy none) true content
    | none, none, none => w

/-- A restart: `order` is the order in which the entries of `file_cache.json` are read. Offline
    they are not. -/
def restart (w : KeptMount) (cache : FsCache) (offline : Bool) (order stuck : List PathBuf) :
    KeptMount :=
  let w := { w with cache := { cache with fileCache := fun _ => none }, status := fun _ => none,
                    toCheck := [] }
  if offline then w else order.foldl (loadEntry stuck) w

/-- `boot-files` checks an entry: `answer` is the etag the server gives, unless it fails. -/
def bootCheck (w : KeptMount) (path : PathBuf) (e : LoadedCacheEntry)
    (answer : Option (Option String)) (folder renamed : Bool) (attempts : List DownloadAttempt) :
    Option KeptMount :=
  match answer with
  | none => some w
  | some etag =>
    if etag = some e.etag then some w
    else
      ((w.setEntry path none).ensureFileCached path e.kept folder renamed attempts).map (·.1)

/-! ## Runs -/

/-- What may happen next. -/
inductive KeptEvent where
  /-- `put_dir_cache`. -/
  | refresh (dir : PathBuf) (etag : Option String) (selfEntry : Option RemoteEntry)
      (files : List RemoteEntry) (now : Nat)
  | dropListing (dir : PathBuf)
  /-- The optimistic listing changes of a commit, `rename` and `unlink`. -/
  | relist (path : PathBuf) (token : Option String) (size : Nat) (modified : Option Nat)
  | rename (src dst : PathBuf)
  | unlink (path : PathBuf)
  | keep (path : PathBuf) (folder renamed : Bool) (attempts : List DownloadAttempt)
  /-- A read that falls back to downloading the file. -/
  | read (path : PathBuf) (folder renamed : Bool) (attempts : List DownloadAttempt)
  | streamed (path : PathBuf) (content : Bytes)
  | uploaded (path : PathBuf) (content : Bytes) (modified : Nat) (token : Option String)
      (placed : Bool)
  | readdir (dir : PathBuf) (oldChildren : List PathBuf)
  | applyListing (dir : PathBuf) (old : OldDirSnapshot) (etag : Option String)
      (selfEntry : Option RemoteEntry) (fresh : List RemoteEntry) (fileid : PathBuf → Option Nat)
      (now : Nat) (failing : List PathBuf)
  | cleanup (walked : List CachedFile) (maxBytes : Nat) (cutoff : Option Nat)
      (failing : List PathBuf)
  /-- `keys`: the paths of `file_cache` that it finds. -/
  | evict (path : PathBuf) (keys pending failing : List PathBuf)
  | purge (keys pending failing : List PathBuf)
  | restart (cache : FsCache) (offline : Bool) (order stuck : List PathBuf)
  | bootCheck (i : Nat) (answer : Option (Option String)) (folder renamed : Bool)
      (attempts : List DownloadAttempt)

/-- One step; none where the event does not fit. -/
def step (w : KeptMount) : KeptEvent → Option KeptMount
  | .refresh dir etag selfEntry files now =>
    some { w with cache := w.cache.putDirCache dir etag selfEntry files now }
  | .dropListing dir => some { w with cache := w.cache.removeDir dir }
  | .relist path token size modified =>
    some { w with cache := w.cache.modifyFiles path.parent (FsCache.modifyEntry path fun e =>
      { e with changeToken := token, size := size, modified := modified }) }
  | .rename src dst => some { w with cache := LabelWorld.moveListed w.cache src dst }
  | .unlink path =>
    let c := w.cache.modifyFiles path.parent fun files => files.filter fun e => e.path ≠ path
    let c := { c with deleting := insert path c.deleting, uploading := c.uploading.erase path }
    some (({ w with cache := c }.setEntry path none).setStatus path none)
  | .keep path folder renamed attempts =>
    (w.ensureFileCached path true folder renamed attempts).map (·.1)
  | .read path folder renamed attempts =>
    (w.ensureFileCached path w.autoKeepCached folder renamed attempts).map (·.1)
  | .streamed path content => some (w.streamed path content)
  | .uploaded path content modified token placed =>
    some (w.uploaded path content modified token placed)
  | .readdir dir oldChildren => some (w.readdir dir oldChildren)
  | .applyListing dir old etag selfEntry fresh fileid now failing =>
    some (w.applyListing dir (old.computeDirDiff fresh fileid) etag selfEntry fresh now failing)
  | .cleanup walked maxBytes cutoff failing =>
    if w.walks walked then some (w.runCacheCleanup walked maxBytes cutoff failing) else none
  | .evict path keys pending failing =>
    let under := keys.filter fun p => decide (path <+: p) && decide (p ∉ pending)
    let w := (under.foldl (evictEntry failing false) w).saveFileCache
    some (if path ∈ pending then w else w.setStatus path (some .remote))
  | .purge keys pending failing =>
    let removed := keys.filter fun p => decide (p ∉ pending)
    some (removed.foldl (evictEntry failing true) w).saveFileCache
  | .restart cache offline order stuck => some (w.restart cache offline order stuck)
  | .bootCheck i answer folder renamed attempts =>
    match w.toCheck[i]? with
    | some (path, e) =>
      { w with toCheck := w.toCheck.eraseIdx i }.bootCheck path e answer folder renamed attempts
    | none => none

/-- A run of steps. -/
def steps (w : KeptMount) : List KeptEvent → Option KeptMount
  | [] => some w
  | e :: es => (w.step e).bind fun w => w.steps es

end KeptMount

end Ncrs
