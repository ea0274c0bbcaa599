import Ncrs.Native.ChangeWatch

/-!
# Readers and refreshes of one listing

Model of `list_dir_cached_or_fresh` and `soft_refresh_dir` in `lib.rs` for one directory, cut at the
sections that hold the cache lock and at the requests in between. Any number of readers and refresh
jobs run at once. The streaming fetch readers share enters with what `get_pending_snapshot` or the
last drain finds of it: nothing yet, a part, a failure, or the finished listing, which is stored by
the reader that finds it. Other threads store, confirm, mark and edit the listing too.

A request carries the number of invalidations there had been when it was sent; `answered` is the
largest such number among the requests the server has answered. A request that failed, or that got no
slot, has no answer.
-/

namespace Ncrs

namespace FsCache

/-- `invalidate_dir`: the listing must be fetched again. -/
def invalidateDir (c : FsCache) (path : PathBuf) : FsCache :=
  c.modifyDir path fun e => { e with invalidated := true }

/-- `confirm_dir_fresh`: false when the listing was invalidated meanwhile. -/
def confirmDirFresh (c : FsCache) (path : PathBuf) (now : Nat) : Bool × FsCache :=
  match c.dir path with
  | some e =>
    if e.invalidated then (false, c)
    else (true, c.setDir path
      { e with «at» := now, fetchedAt := now, expiryRetryAfter := none, hardExpired := false })
  | none => (false, c)

/-- `EXPIRY_RETRY_COOLDOWN`, in milliseconds. -/
def expiryRetryCooldown : Nat := 60000

/-- `take_hard_expired_fallback`. -/
def takeHardExpiredFallback (c : FsCache) (path : PathBuf) (now : Nat) : FsCache :=
  c.modifyDir path fun e =>
    if !e.hardExpired || e.invalidated then e
    else { e with hardExpired := false, expiryRetryAfter := some (now + expiryRetryCooldown) }

/-- `may_serve_pending_snapshot`: nothing was said against the old listing. -/
def mayServePendingSnapshot (c : FsCache) (path : PathBuf) : Bool :=
  (c.dir path).all fun e => !e.invalidated && !e.hardExpired

end FsCache

/-- A listing as the server answered it. -/
structure Listed where
  etag : Option String := none
  selfEntry : Option RemoteEntry := none
  files : List RemoteEntry := []
  deriving DecidableEq, Repr

/-- How far a `soft_refresh_dir` is. -/
inductive SoftPhase where
  | queued
  | read (oldEtag : Option String)
  | probing (old : String) (sent : Nat)
  /-- The probe found the etag unchanged. -/
  | touching (sent : Nat)
  | wantsListing
  | listing (sent : Nat)
  | storing (sent : Nat) (l : Listed)
  /-- Nothing to store. -/
  | failing
  deriving DecidableEq, Repr

/-- How far a `list_dir_cached_or_fresh` is. -/
inductive ReadPhase where
  | entered
  /-- The cached listing may not be served. -/
  | missed
  /-- It took the prober's guard. -/
  | expired (old : String)
  | probing (old : String) (sent : Nat)
  | confirming (unchanged : Bool)
  | pendingCheck
  | starting
  | polling (wasInvalidated : Bool)
  /-- The wait is over. -/
  | draining (wasInvalidated : Bool)
  /-- It returned an error. -/
  | failed
  deriving DecidableEq, Repr

/-- In one of these phases a reader is the directory's prober. -/
def ReadPhase.probes : ReadPhase → Bool
  | .expired _ | .probing _ _ | .confirming _ => true
  | _ => false

/-- `effective_dir_ttl`, in milliseconds. -/
def effectiveDirTtl (optimisticListing notifyPushConnected : Bool) : Nat :=
  if !optimisticListing then 10000 else if notifyPushConnected then 86400000 else 300000

/-- The time a listing stays fresh is never zero. -/
theorem effectiveDirTtl_pos (optimisticListing notifyPushConnected : Bool) :
    0 < effectiveDirTtl optimisticListing notifyPushConnected := by
  cases optimisticListing <;> cases notifyPushConnected <;> decide

/-- `effective_max_stale`. -/
def effectiveMaxStale (configured : Option Nat) (notifyPushConnected : Bool) : Option Nat :=
  configured.map fun base => if notifyPushConnected then max base 86400000 else base

/-- A READDIR on its way, with the times that hold for it. -/
structure DirReader where
  ttl : Nat
  maxStale : Option Nat
  ttl_pos : 0 < ttl
  phase : ReadPhase := .entered
  deriving DecidableEq

/-- A reader as it enters, with the times that hold for it. -/
def DirReader.enter (optimisticListing notifyPushConnected : Bool) (configured : Option Nat) : DirReader where
  ttl := effectiveDirTtl optimisticListing notifyPushConnected
  maxStale := effectiveMaxStale configured notifyPushConnected
  ttl_pos := effectiveDirTtl_pos optimisticListing notifyPushConnected

/-- The streaming fetch behind the pending listing. -/
inductive FetchPhase where
  | queued
  | sent (n : Nat)
  deriving DecidableEq, Repr

/-- What a reader finds of the pending listing. -/
inductive PendingFound where
  | nothing
  | partly (entries : Nat)
  | finished (l : Listed)
  | broken
  deriving DecidableEq, Repr

/-- One directory of the daemon, with everything at work on it. -/
structure DirRefresh where
  path : PathBuf
  cache : FsCache
  now : Nat := 0
  softs : List SoftPhase := []
  readers : List DirReader := []
  pending : Option FetchPhase := none
  invalidations : Nat := 0
  answered : Nat := 0

/-- A section of a reader, with what it meets. -/
inductive ReadAction where
  /-- The first section; `held`: the server is backed off, `accepted`: the pool takes the job. -/
  | lookUp (held accepted : Bool)
  | checkExpiry (blocked : Bool)
  | sendProbe
  /-- The etag the server answered, or a failure. -/
  | probeAnswer (token : Option (Option String))
  | applyProbe
  | checkPending (found : PendingFound)
  | startFetch (accepted : Bool)
  /-- One turn of the wait; `late`: its deadline has passed. -/
  | poll (found : PendingFound) (late : Bool)
  | drain (found : PendingFound)
  /-- `get_or_list_dir` after an error; `unreachable`: of a server that was not reached. -/
  | giveUp (unreachable : Bool)
  deriving DecidableEq, Repr

/-- A section of a refresh job. -/
inductive SoftAction where
  | read
  /-- It sends its probe or its listing. -/
  | send
  /-- It gets no request slot. -/
  | noSlot
  /-- The probe's answer: the etag, or a failure, with whether the server answered it. -/
  | token (answer : Except Bool (Option String))
  | listed (l : Option Listed)
  | apply

/-- What may happen to the directory. -/
inductive DirRefreshEvent where
  | tick (ms : Nat)
  /-- `invalidate_dir`, and the mark of the change watcher. -/
  | invalidate
  | mark
  /-- Another thread's answer, to a request sent after `sent` invalidations. -/
  | put (sent : Nat) (l : Listed)
  | touch (sent : Nat)
  /-- `confirm_dir_fresh` of a validation. -/
  | confirm
  /-- A finished upload makes the listing due (`dir.at`). -/
  | backdate (t : Nat)
  | edit (files : List RemoteEntry)
  | remove
  | enter (optimisticListing notifyPushConnected : Bool) (configured : Option Nat)
  | reader (i : Nat) (a : ReadAction)
  /-- The streaming fetch sends its request. -/
  | fetch
  | soft (i : Nat) (a : SoftAction)

namespace DirRefresh

/-- The stored listing. -/
def dir (s : DirRefresh) : Option DirCacheEntry := s.cache.dir s.path

/-- The server answers a request. -/
def answer (s : DirRefresh) (sent : Nat) : DirRefresh := { s with answered := max s.answered sent }

/-- An answer with a listing is stored. -/
def putDir (s : DirRefresh) (sent : Nat) (l : Listed) : DirRefresh :=
  { s.answer sent with cache := s.cache.putDirCache s.path l.etag l.selfEntry l.files s.now }

/-- An answer that nothing changed is stored. -/
def touchDir (s : DirRefresh) (sent : Nat) : DirRefresh :=
  { s.answer sent with cache := s.cache.touchDirCache s.path s.now }

/-- The mark of a running refresh is taken off. -/
def clearRefreshing (s : DirRefresh) : DirRefresh :=
  { s with cache := s.cache.clearRefreshing s.path }

/-- The reader returns, or goes on. -/
def leave (s : DirRefresh) (i : Nat) : DirRefresh := { s with readers := s.readers.eraseIdx i }

/-- The reader gets to the phase. -/
def go (s : DirRefresh) (i : Nat) (r : DirReader) (phase : ReadPhase) : DirRefresh :=
  { s with readers := s.readers.set i { r with phase := phase } }

/-- `get_cached_dir` where the caller does not look at whether a refresh is due. -/
def getIgnoring (s : DirRefresh) (r : DirReader) : Bool × DirRefresh :=
  let g := s.cache.getCachedDir s.path s.now r.ttl r.maxStale
  (g.1.isSome, { s with cache := g.2 })

/-- The first look at the cache: serve, serve and refresh behind, or go on. -/
def lookUp (s : DirRefresh) (i : Nat) (r : DirReader) (held accepted : Bool) : DirRefresh :=
  let g := s.cache.getCachedDir s.path s.now r.ttl r.maxStale
  let s := { s with cache := g.2 }
  match g.1 with
  | none => s.go i r .missed
  | some (_, false) => s.leave i
  | some (_, true) =>
    if held || !accepted then s.clearRefreshing.leave i
    else { s with softs := s.softs ++ [SoftPhase.queued] }.leave i

/-- A listing past its last date is asked about, unless another reader does so. -/
def checkExpiry (s : DirRefresh) (i : Nat) (r : DirReader) (blocked : Bool) : DirRefresh :=
  -- a listing at hand is served while the directory is backed off
  if blocked then if s.dir.isSome then s.leave i else s.go i r .failed
  else
    match s.dir with
    | some e =>
      if e.hardExpired && !e.invalidated && !e.refreshing then
        match e.etag with
        | some old =>
          { s with cache := s.cache.modifyDir s.path fun e => { e with refreshing := true } }.go i r
            (.expired old)
        | none => s.go i r .pendingCheck
      else s.go i r .pendingCheck
    | none => s.go i r .pendingCheck

/-- The probe's answer: an unchanged listing is served, any other one fetched. -/
def applyProbe (s : DirRefresh) (i : Nat) (r : DirReader) (unchanged : Bool) : DirRefresh :=
  if unchanged then
    let (confirmed, cache) := s.cache.confirmDirFresh s.path s.now
    let s := { s with cache := cache }.clearRefreshing
    if confirmed then s.leave i else s.go i r .pendingCheck
  else s.clearRefreshing.go i r .pendingCheck

/-- What a find does to the pending listing and the cache; the finished listing is stored. -/
def take (s : DirRefresh) : PendingFound → Option DirRefresh
  | .nothing => some s
  | .partly _ =>
    match s.pending with
    | some (.sent _) => some s
    | _ => none
  | .finished l =>
    match s.pending with
    | some (.sent n) => some { s.putDir n l with pending := none }
    | _ => none
  | .broken => if s.pending.isSome then some { s with pending := none } else none

/-- `get_pending_snapshot` returns a listing; it may be empty once it is the stored one. -/
def hasSnapshot (s : DirRefresh) : PendingFound → Bool
  | .partly n => decide (0 < n)
  | .finished _ => s.dir.isSome
  | _ => false

/-- The listing found is empty. -/
def snapshotIsEmpty (s : DirRefresh) : PendingFound → Bool
  | .finished _ => s.dir.all fun e => e.files.isEmpty
  | _ => false

/-- A streaming fetch on its way may be served from. -/
def checkPending (s : DirRefresh) (i : Nat) (r : DirReader) (found : PendingFound) : Option DirRefresh :=
  (s.take found).map fun s =>
    if found = .broken then s.go i r .failed
    else if s.hasSnapshot found && s.cache.mayServePendingSnapshot s.path then s.leave i
    else s.go i r .starting

/-- The fetch is started, unless the cache or another reader has one by now. -/
def startFetch (s : DirRefresh) (i : Nat) (r : DirReader) (accepted : Bool) : DirRefresh :=
  let wasInvalidated := s.dir.any fun e => e.invalidated || e.hardExpired
  let (served, s) := if s.dir.isSome then s.getIgnoring r else (false, s)
  if served then s.leave i
  else if s.pending.isSome then s.go i r (.polling wasInvalidated)
  else if accepted then { s with pending := some .queued }.go i r (.polling wasInvalidated)
  else s.go i r .failed

/-- `not_dirs.remove`. -/
def takeNotDir (s : DirRefresh) : Bool × DirRefresh :=
  (decide (s.path ∈ s.cache.notDirs),
    { s with cache := { s.cache with notDirs := s.cache.notDirs.erase s.path } })

/-- One turn of the wait for the fetch. -/
def poll (s : DirRefresh) (i : Nat) (r : DirReader) (wasInvalidated : Bool) (found : PendingFound)
    (late : Bool) : Option DirRefresh :=
  (s.take found).map fun s =>
    if found = .broken then s.go i r .failed
    else if s.hasSnapshot found && !s.snapshotIsEmpty found && !wasInvalidated then s.leave i
    else
      let (notDir, s) := s.takeNotDir
      if notDir then s.go i r .failed
      else if s.dir.any fun e => !e.invalidated && !e.hardExpired then
        let (served, s) := s.getIgnoring r
        if served then s.leave i else s.go i r .failed
      else if late then s.go i r (.draining wasInvalidated)
      else s.go i r (.polling wasInvalidated)

/-- The last look after the wait. -/
def drain (s : DirRefresh) (i : Nat) (r : DirReader) (wasInvalidated : Bool) (found : PendingFound) :
    Option DirRefresh :=
  (s.take found).map fun s =>
    match found with
    | .finished _ =>
      let (notDir, s) := s.takeNotDir
      if notDir then s.go i r .failed
      else
        let (served, s) := s.getIgnoring r
        if served then s.leave i else s.go i r .failed
    | .partly n => if 0 < n ∧ wasInvalidated = false then s.leave i else s.go i r .failed
    | _ => s.go i r .failed

/-- The next section of reader `i`. -/
def stepReader (s : DirRefresh) (i : Nat) (r : DirReader) (a : ReadAction) : Option DirRefresh :=
  match r.phase, a with
  | .entered, .lookUp held accepted => some (s.lookUp i r held accepted)
  | .missed, .checkExpiry blocked => some (s.checkExpiry i r blocked)
  | .expired old, .sendProbe => some (s.go i r (.probing old s.invalidations))
  -- no request slot
  | .expired _, .probeAnswer none => some (s.go i r (.confirming false))
  | .probing _ _, .probeAnswer none => some (s.go i r (.confirming false))
  | .probing old sent, .probeAnswer (some etag) =>
    some ((s.answer sent).go i r (.confirming (decide (etag = some old))))
  | .confirming unchanged, .applyProbe => some (s.applyProbe i r unchanged)
  | .pendingCheck, .checkPending found => s.checkPending i r found
  | .starting, .startFetch accepted => some (s.startFetch i r accepted)
  | .polling wasInvalidated, .poll found late => s.poll i r wasInvalidated found late
  | .draining wasInvalidated, .drain found => s.drain i r wasInvalidated found
  | .failed, .giveUp unreachable =>
    some (if unreachable then { s with cache := s.cache.takeHardExpiredFallback s.path s.now }.leave i
      else s.leave i)
  | _, _ => none

/-- The job ends, or goes on. -/
def endSoft (s : DirRefresh) (i : Nat) : DirRefresh := { s with softs := s.softs.eraseIdx i }

/-- The refresh job gets to the phase. -/
def goSoft (s : DirRefresh) (i : Nat) (phase : SoftPhase) : DirRefresh :=
  { s with softs := s.softs.set i phase }

/-- The next section of refresh job `i`. -/
def stepSoft (s : DirRefresh) (i : Nat) (phase : SoftPhase) (a : SoftAction) : Option DirRefresh :=
  match phase, a with
  | .queued, .read => some (s.goSoft i (.read (s.cache.cachedDirEtag s.path)))
  | .read (some old), .send => some (s.goSoft i (.probing old s.invalidations))
  | .read (some _), .noSlot => some (s.goSoft i .wantsListing)
  | .read none, .send => some (s.goSoft i (.listing s.invalidations))
  | .read none, .noSlot => some (s.goSoft i .failing)
  | .probing old sent, .token (.ok etag) =>
    some ((s.answer sent).goSoft i (if etag = some old then .touching sent else .wantsListing))
  -- a server that fails the probe would fail the listing too
  | .probing _ _, .token (.error serverError) =>
    some (s.goSoft i (if serverError then .failing else .wantsListing))
  | .wantsListing, .send => some (s.goSoft i (.listing s.invalidations))
  | .wantsListing, .noSlot => some (s.goSoft i .failing)
  | .listing sent, .listed (some l) => some ((s.answer sent).goSoft i (.storing sent l))
  | .listing _, .listed none => some (s.goSoft i .failing)
  | .touching sent, .apply => some ((s.touchDir sent).endSoft i)
  | .storing sent l, .apply => some ((s.putDir sent l).endSoft i)
  | .failing, .apply => some (s.clearRefreshing.endSoft i)
  | _, _ => none

/-- One step; none where the event does not fit. -/
def step (s : DirRefresh) : DirRefreshEvent → Option DirRefresh
  | .tick ms => some { s with now := s.now + ms }
  | .invalidate =>
    some { s with cache := s.cache.invalidateDir s.path, invalidations := s.invalidations + 1 }
  | .mark =>
    some { s with cache := s.cache.markInvalidated s.path, invalidations := s.invalidations + 1 }
  | .put sent l => if sent ≤ s.invalidations then some (s.putDir sent l) else none
  | .touch sent => if sent ≤ s.invalidations then some (s.touchDir sent) else none
  | .confirm => some { s with cache := (s.cache.confirmDirFresh s.path s.now).2 }
  | .backdate t =>
    if t ≤ s.now then some { s with cache := s.cache.modifyDir s.path fun e => { e with «at» := t } }
    else none
  | .edit files => some { s with cache := s.cache.modifyFiles s.path fun _ => files }
  | .remove => some { s with cache := s.cache.removeDir s.path }
  | .enter optimistic connected configured =>
    some { s with readers := s.readers ++ [.enter optimistic connected configured] }
  | .reader i a => s.readers[i]?.bind fun r => s.stepReader i r a
  | .fetch =>
    match s.pending with
    | some .queued => some { s with pending := some (.sent s.invalidations) }
    | _ => none
  | .soft i a => s.softs[i]?.bind fun phase => s.stepSoft i phase a

/-- A run of steps. -/
def steps (s : DirRefresh) : List DirRefreshEvent → Option DirRefresh
  | [] => some s
  | e :: es => (s.step e).bind (·.steps es)

/-- The directory's listings at mount time: no call has set `refreshing`. -/
def start (path : PathBuf) (cache : FsCache) (now : Nat) : DirRefresh :=
  { path := path, cache := cache.clearRefreshing path, now := now }

/-- An expiry probe of the directory is queued or running. -/
def Probing (s : DirRefresh) : Prop := ∃ r ∈ s.readers, r.phase.probes = true

end DirRefresh

end Ncrs
