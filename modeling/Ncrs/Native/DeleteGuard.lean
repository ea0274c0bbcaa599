import Ncrs.Native.LiveWorkers
import Ncrs.Native.FsCache

/-!
# The delete guard

`unlink` and `rmdir` put their path into `FsCache::deleting`, which `put_dir_cache` filters out
of every fresh listing, until the DELETE is over. A live worker takes its path out after it has
settled its entry, the replay when it takes out or fails the entry it executed. This file is the
mount of `LiveWorkers.lean` together with the cache, while it stays online.

A worker's last two sections (the journal's, then the cache's) are two events, since another
thread can come between them. The filesystem's other operations change listings and upload
guards but never `deleting`, so they are one event that may do anything else to the cache.
-/

namespace Ncrs

/-- The path an operation deletes. -/
def MutationOp.deletes : MutationOp → Option PathBuf
  | unlink path | rmDir path => some path
  | _ => none

/-- The ways a DELETE can end in a replay. -/
def ReplayResult.answersDelete : ReplayResult → Bool
  | ok | idempotent | retryable _ | serverError _ => true
  | uploaded _ | conflict _ => false

namespace FsCache

/-- What `unlink` and `rmdir` do to the cache before they queue their entry. -/
def startDelete (c : FsCache) : MutationOp → FsCache
  | .unlink path =>
    let c := c.modifyFiles path.parent fun fs => fs.filter fun e => e.path ≠ path
    { c with
      deleting := insert path c.deleting
      fileCache := fun p => if p = path then none else c.fileCache p
      uploading := c.uploading.erase path }
  | .rmDir path =>
    let c := (c.modifyFiles path.parent fun fs => fs.filter fun e => e.path ≠ path).removeDir path
    { c with deleting := insert path c.deleting }
  | _ => c

end FsCache

structure GuardMount where
  live : LiveMount
  cache : FsCache
  /-- The paths of the workers whose DELETE is settled and whose guard is not taken out yet. -/
  clearing : List PathBuf := []

inductive GuardEvent where
  | live (event : LiveEvent)
  /-- The worker that deleted `path` takes its guard out. -/
  | clear (path : PathBuf)
  /-- A fresh listing of `path` is stored. -/
  | refresh (path : PathBuf) (etag : Option String) (selfEntry : Option RemoteEntry)
      (files : List RemoteEntry) (now : Nat)
  /-- Any other operation on the cache. -/
  | other (cache : FsCache)

namespace GuardMount

def journal (s : GuardMount) : MutationJournal := s.live.journal

/-- Whether the replay's next section can be `st`: `execute_op` answers a DELETE in four ways. -/
def possible (s : GuardMount) (st : ReplayStep) : Bool :=
  match s.live.loop.phase, st with
  | .executing e, .execute result => e.op.deletes.isNone || result.answersDelete
  | _, _ => true

/-- What a section of the replay does to the cache. -/
def replayCache (s : GuardMount) (st : ReplayStep) : FsCache :=
  match s.live.loop.phase, st with
  | .settled e result, .finish => (settleEntry s.live.loop.journal s.cache e result).2.2
  | .recovered e kept, .giveUp => (dropEntry s.live.loop.journal s.cache e kept).2
  | _, _ => s.cache

/-- The guard a worker has to take out after its request was answered: its own, unless the
    DELETE stays queued for a retry. -/
def freedBy (s : GuardMount) (seq : SeqId) (a : LiveAnswer) : List PathBuf :=
  match s.live.worker seq with
  | none => []
  | some w =>
    match w.phase, a with
    | .sent .., .deferred _ => []
    | .sent .., _ => w.op.deletes.toList
    | _, _ => []

def step (s : GuardMount) : GuardEvent → Option GuardMount
  -- The synthetic `.trackerignore` is only hidden, and the mount stays online.
  | .live (.user op sourceOnServer) =>
    if op = .unlink trackerignorePath then none
    else some { s with
      live := s.live.user op sourceOnServer
      cache := s.cache.startDelete op }
  | .live (.setOffline _) => none
  | .live (.answer seq a) =>
    some { s with
      live := s.live.step (.answer seq a)
      clearing := s.clearing ++ s.freedBy seq a }
  | .live (.replay st) =>
    if s.possible st then
      some { s with live := s.live.replay st, cache := s.replayCache st }
    else none
  | .live ev => some { s with live := s.live.step ev }
  | .clear path =>
    if path ∈ s.clearing then
      some { s with
        cache := { s.cache with deleting := s.cache.deleting.erase path }
        clearing := s.clearing.erase path }
    else none
  | .refresh path etag selfEntry files now =>
    some { s with cache := s.cache.putDirCache path etag selfEntry files now }
  | .other c => some { s with cache := { c with deleting := s.cache.deleting } }

/-- A run; it ends early at an event that cannot happen. -/
def steps (s : GuardMount) : List GuardEvent → Option GuardMount
  | [] => some s
  | ev :: evs => (s.step ev).bind fun s' => s'.steps evs

/-- A mount that has loaded journal `j`, with listings and local copies from the last session. -/
def start (j : MutationJournal) (cacheDir : PathBuf) (c : FsCache) : GuardMount :=
  { live := LiveMount.start j cacheDir, cache := { c with deleting := ∅ } }

/-- A DELETE of `path` is queued. -/
def Queued (s : GuardMount) (path : PathBuf) : Prop :=
  ∃ e ∈ s.journal.entries, e.op.deletes = some path

/-- A live worker is deleting `path`. -/
def Running (s : GuardMount) (path : PathBuf) : Prop :=
  (∃ w ∈ s.live.workers, w.op.deletes = some path) ∨ path ∈ s.clearing

end GuardMount

end Ncrs
