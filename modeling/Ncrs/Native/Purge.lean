import Ncrs.Native.Session
import Ncrs.Native.FsCache

/-!
# Purging the local cache

Model of `purge_callback` beside the operations that own staging files. A staging file
`write_<fh>` belongs to an open handle first and to a queued upload after: `open` and `create`
make the file before they insert the handle, `release` takes the handle out of the table before
it queues the upload. The purge looks at the journal, then at the handles, then at the directory,
each under a lock of its own.

A step is one section under a lock or one change of a local file, so everything else can come
between any two of them. The replay works through its sections (`ReplayLoop`), a live upload
through the journal's operations (`LiveOp`).
-/

namespace Ncrs

/-- `str::parse::<u64>`: digits, with an optional plus sign. -/
def parseU64 (s : List Char) : Option Nat :=
  let digits := match s with
    | '+' :: rest => rest
    | _ => s
  if digits ≠ [] ∧ digits.all Char.isDigit then some (Nat.ofDigitChars 10 digits 0) else none

/-- `strip_prefix("write_")` of a file name, and the handle number in the rest. -/
def stagingFh (name : String) : Option Nat :=
  if "write_".toList.isPrefixOf name.toList then parseU64 (name.toList.drop 6) else none

/-- A `write_<fh>` file of the cache directory. -/
def isStagingFile (cacheDir p : PathBuf) : Bool :=
  p.parent = cacheDir && p.fileName.any fun name => (stagingFh name).isSome

/-- Where one purge stands. -/
structure Purge where
  /-- Paths with local bytes in the journal, and the files that hold them. -/
  «protected» : List PathBuf
  staged : List PathBuf
  /-- The cached copies still to remove, once collected. -/
  toRemove : Option (List (PathBuf × PathBuf)) := none
  /-- The handles open when it looked. -/
  openFhs : Option (List Nat) := none
  deriving DecidableEq, Repr

namespace Purge

/-- The purge's first section, under the journal's lock. -/
def collectJournal (j : MutationJournal) : Purge :=
  let held := j.entries.filter fun e => e.op.stagingPath.isSome
  { «protected» := held.map fun e => e.op.path
    staged := held.filterMap fun e => e.op.stagingPath }

/-- Whether the scan deletes the file `p` it finds in the cache directory. -/
def deletes (pg : Purge) (cacheDir p : PathBuf) : Bool :=
  match pg.openFhs, p.fileName with
  | some openFhs, some name =>
    match stagingFh name with
    | some fh => p.parent = cacheDir && decide (p ∉ pg.staged) && decide (fh ∉ openFhs)
    | none => false
  | _, _ => false

end Purge

/-- Whether `release` queues an upload of the handle. -/
def OpenHandle.queues (h : OpenHandle) : Bool :=
  h.dirty && !h.unlinked && !h.uploadFailed && h.writePath.isSome

/-- The mount with its handles, cached copies and purges. -/
structure PurgeMount where
  loop : ReplayLoop
  nextFh : Nat
  /-- Handles whose staging file is made and that are not in the table yet. -/
  opening : List OpenHandle := []
  openFiles : List OpenHandle
  /-- Handles that `release` has taken out of the table and not dealt with yet. -/
  releasing : List OpenHandle := []
  fileCache : PathBuf → Option FileCacheEntry := fun _ => none
  /-- The remote paths with a cached copy. -/
  cached : List PathBuf := []
  purges : Nat → Option Purge := fun _ => none
  /-- The `write_<fh>` files the purges deleted, until a new handle is given the name. -/
  purged : List PathBuf := []

/-- What may happen next. -/
inductive PurgeEvent where
  /-- `open` or `create` up to the insertion of the handle. -/
  | stage (path : PathBuf) (writable truncating : Bool) (etag : Option String)
      (staged : Option LocalFile)
  /-- An `open` that cannot stage the content. -/
  | stageFails (fh : Nat)
  | insert (fh : Nat)
  /-- A write or a resize, which leaves `f` in the staging file. -/
  | write (fh : Nat) (f : LocalFile)
  | markUnlinked (path : PathBuf)
  /-- `release` takes the handle out of the table. -/
  | take (fh : Nat)
  /-- The rest of `release`; `none`: a streamed upload that cannot be finished. -/
  | commit (fh : Nat) (c : Option Commit)
  | live (op : LiveOp)
  | uploadDone (seq : SeqId)
  | replay (s : ReplayStep)
  /-- A copy of a file is kept in the cache. -/
  | keepCopy (remote : PathBuf) (kept : Bool) (etag : Option String) (f : LocalFile)
  | dropCopy (remote : PathBuf)
  | purgeStart (i : Nat)
  | purgeCollectCopies (i : Nat)
  /-- The next cached copy; `removed`: whether `remove_file` succeeds. -/
  | purgeRemoveCopy (i : Nat) (removed : Bool)
  | purgeCollectHandles (i : Nat)
  | purgeDelete (i : Nat) (p : PathBuf)
  | purgeEnd (i : Nat)
  deriving DecidableEq, Repr

namespace PurgeMount

/-- The journal, with the disk. -/
def journal (m : PurgeMount) : MutationJournal := m.loop.journal

/-- The folder of the staging files. -/
def cacheDir (m : PurgeMount) : PathBuf := m.loop.cacheDir

/-- The journal after a section. -/
def setJournal (m : PurgeMount) (j : MutationJournal) : PurgeMount :=
  { m with loop := { m.loop with journal := j } }

/-- The disk after a section. -/
def setDisk (m : PurgeMount) (d : CacheDir) : PurgeMount :=
  m.setJournal { m.journal with disk := d }

/-- Purge `i` after a section. -/
def setPurge (m : PurgeMount) (i : Nat) (pg : Option Purge) : PurgeMount :=
  { m with purges := fun k => if k = i then pg else m.purges k }

/-- `auto_cache_dir` and `kept_dir`, joined with the remote path. -/
def copyPath (m : PurgeMount) (remote : PathBuf) (kept : Bool) : PathBuf :=
  m.cacheDir ++ (if kept then "kept" else "cache") :: remote

/-- The open handle of a number. -/
def handle (m : PurgeMount) (fh : Nat) : Option OpenHandle := m.openFiles.find? fun h => h.fh = fh

/-- `open` and `create`: the handle's number is taken and its staging file made. A name a purge
deleted is a new file from here on. -/
def stage (m : PurgeMount) (path : PathBuf) (writable truncating : Bool) (etag : Option String)
    (staged : Option LocalFile) : PurgeMount :=
  let wp := PathBuf.writePath m.cacheDir m.nextFh
  let h : OpenHandle :=
    { fh := m.nextFh, remotePath := path, writePath := if writable then some wp else none
      dirty := truncating, originalEtag := etag }
  let m := { m with
    nextFh := m.nextFh + 1, opening := m.opening ++ [h]
    purged := m.purged.filter fun p => p ≠ wp }
  match writable, staged with
  | true, some f => m.setDisk (m.journal.disk.writeFile wp f)
  | _, _ => m

/-- An open that failed leaves no staging file. -/
def stageFails (m : PurgeMount) (h : OpenHandle) : PurgeMount :=
  let m := { m with opening := m.opening.filter fun x => x.fh ≠ h.fh }
  match h.writePath with
  | some wp => m.setDisk (m.journal.disk.removeFile wp)
  | none => m

/-- The new handle is in the table. -/
def insert (m : PurgeMount) (h : OpenHandle) : PurgeMount :=
  { m with
    opening := m.opening.filter fun x => x.fh ≠ h.fh
    openFiles := m.openFiles ++ [h] }

/-- A handle without a staging file gets `write_<fh>` with its first write. -/
def write (m : PurgeMount) (h : OpenHandle) (f : LocalFile) : PurgeMount :=
  let wp := h.writePath.getD (PathBuf.writePath m.cacheDir h.fh)
  let m := { m with
    purged := if h.writePath.isNone then m.purged.filter fun p => p ≠ wp else m.purged
    openFiles := m.openFiles.map fun (x : OpenHandle) =>
      if x.fh = h.fh then { x with writePath := some wp, dirty := true } else x }
  m.setDisk (m.journal.disk.writeFile wp f)

/-- A released handle leaves the table. -/
def take (m : PurgeMount) (h : OpenHandle) : PurgeMount :=
  { m with
    openFiles := m.openFiles.filter fun x => x.fh ≠ h.fh
    releasing := m.releasing ++ [h] }

/-- `release` after the handle left the table: the staging file is queued or discarded. -/
def commit (m : PurgeMount) (h : OpenHandle) (c : Option Commit) : PurgeMount :=
  let m := { m with releasing := m.releasing.filter fun x => x.fh ≠ h.fh }
  match h.writePath with
  | none => m
  | some wp =>
    if h.uploadFailed || h.unlinked then
      if h.unlinked then m.setDisk (m.journal.disk.removeFile wp) else m
    else if !h.dirty then m.setDisk (m.journal.disk.removeFile wp)
    else
      match c with
      | none => m.setDisk (m.journal.disk.removeFile wp)
      | some c =>
        -- A staging file that is gone fails the commit.
        if (m.journal.disk.files wp).isNone then m
        else
          let queued := m.journal.enqueue (Session.commitOp h wp c)
          m.setJournal (queued.2.supersedeUploads h.remotePath queued.1)

/-- A live upload that landed: its file goes to a queued MOVE or leaves the staging area. -/
def uploadDone (m : PurgeMount) (seq : SeqId) : PurgeMount :=
  match m.journal.entries.find? (fun e => e.seq = seq) with
  | none => m
  | some e =>
    match e.op.stagingPath with
    | none => m.setJournal (m.journal.remove seq)
    | some wp =>
      let handed := m.journal.handStagingToRename e.op.path wp
      let j := handed.2.remove seq
      m.setJournal (if handed.1 then j else j.removeStaging [wp])

/-- A copy of a file is kept, with its entry. -/
def keepCopy (m : PurgeMount) (remote : PathBuf) (kept : Bool) (etag : Option String)
    (f : LocalFile) : PurgeMount :=
  let p := m.copyPath remote kept
  let e : FileCacheEntry :=
    { localPath := p, remoteModified := f.mtime, etag := etag, kept := kept, size := f.data.length }
  { m.setDisk (m.journal.disk.writeFile p f) with
    cached := m.cached.filter (fun q => q ≠ remote) ++ [remote]
    fileCache := fun q => if q = remote then some e else m.fileCache q }

/-- The entry of a copy is removed. -/
def dropCopy (m : PurgeMount) (remote : PathBuf) : PurgeMount :=
  { m with
    cached := m.cached.filter fun q => q ≠ remote
    fileCache := fun q => if q = remote then none else m.fileCache q }

/-- The copies a purge removes: those of paths without local bytes in the journal. -/
def copies (m : PurgeMount) (pg : Purge) : List (PathBuf × PathBuf) :=
  (m.cached.filter fun p => decide (p ∉ pg.«protected»)).filterMap fun p =>
    (m.fileCache p).map fun e => (p, e.localPath)

/-- The purge removes a copy's file, and its entry when that worked. -/
def purgeRemoveCopy (m : PurgeMount) (i : Nat) (pg : Purge) (remote copy : PathBuf)
    (rest : List (PathBuf × PathBuf)) (removed : Bool) : PurgeMount :=
  let m := m.setPurge i (some { pg with toRemove := some rest })
  if removed then
    { (m.setDisk (m.journal.disk.removeFile copy)).dropCopy remote with
      purged := m.purged ++ if isStagingFile m.cacheDir copy then [copy] else [] }
  else m

/-- One step, when it can happen. -/
def step (m : PurgeMount) : PurgeEvent → Option PurgeMount
  | .stage path writable truncating etag staged => some (m.stage path writable truncating etag staged)
  | .stageFails fh => (m.opening.find? fun h => h.fh = fh).map m.stageFails
  | .insert fh => (m.opening.find? fun h => h.fh = fh).map m.insert
  | .write fh f => (m.handle fh).map (m.write · f)
  | .markUnlinked path =>
    some { m with openFiles := m.openFiles.map fun h =>
      if h.remotePath = path then { h with unlinked := true } else h }
  | .take fh => (m.handle fh).map m.take
  | .commit fh c => (m.releasing.find? fun h => h.fh = fh).map (m.commit · c)
  | .live op => if Session.bringsStaging op then none else some (m.setJournal (op.apply m.journal))
  | .uploadDone seq => some (m.uploadDone seq)
  | .replay s => some { m with loop := m.loop.replayStep s }
  | .keepCopy remote kept etag f => some (m.keepCopy remote kept etag f)
  | .dropCopy remote => some (m.dropCopy remote)
  | .purgeStart i =>
    match m.purges i with
    | none => some (m.setPurge i (some (Purge.collectJournal m.journal)))
    | some _ => none
  | .purgeCollectCopies i =>
    match m.purges i with
    | some pg =>
      if pg.toRemove.isNone then some (m.setPurge i (some { pg with toRemove := some (m.copies pg) }))
      else none
    | none => none
  | .purgeRemoveCopy i removed =>
    match m.purges i with
    | some pg =>
      match pg.toRemove with
      | some ((remote, copy) :: rest) => some (m.purgeRemoveCopy i pg remote copy rest removed)
      | _ => none
    | none => none
  | .purgeCollectHandles i =>
    match m.purges i with
    | some pg =>
      if pg.toRemove = some [] ∧ pg.openFhs = none then
        some (m.setPurge i (some { pg with openFhs := some (m.openFiles.map (·.fh)) }))
      else none
    | none => none
  | .purgeDelete i p =>
    match m.purges i with
    | some pg =>
      if (m.journal.disk.files p).isSome && pg.deletes m.cacheDir p then
        some { m.setDisk (m.journal.disk.removeFile p) with purged := m.purged ++ [p] }
      else none
    | none => none
  | .purgeEnd i =>
    match m.purges i with
    | some pg => if pg.openFhs.isSome then some (m.setPurge i none) else none
    | none => none

/-- A run. -/
def steps (m : PurgeMount) : List PurgeEvent → Option PurgeMount
  | [] => some m
  | e :: es => (m.step e).bind (·.steps es)

/-- A daemon that has loaded journal `j` and restored the handles `restored`, each with the staging
file of its number. -/
def start (j : MutationJournal) (cacheDir : PathBuf) (nextFh : Nat) (restored : List OpenHandle) :
    PurgeMount :=
  { loop := { journal := j, cacheDir := cacheDir }
    nextFh := nextFh
    openFiles := restored.map fun h =>
      { h with writePath := h.writePath.map fun _ => PathBuf.writePath cacheDir h.fh } }

end PurgeMount

end Ncrs
