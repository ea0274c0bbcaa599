import Ncrs.Native.Echo

/-!
# Change notifications and the listings they concern

The change watcher hands each notification of the server to `handle_change_event`, which marks the
cached listings it names as invalidated and refreshes them. While a file is being streamed it only
raises a flag, and the stream that ends last invalidates everything if the flag is up. Besides the
watcher's own refreshes (`refresh_one_dir`) there are those a reader starts: the revalidation of a
listing it was served, the refresh of one past its time to live (`soft_refresh_dir`), and the fetch
of one that is not cached or may not be served.

Each thread is cut at its locks and its atomic operations, so that any two may interleave there.
The watcher handles one notification at a time: it waits for the refreshes it started. Times are in
milliseconds. A notification that comes while the mount is paused or offline never gets here.
-/

namespace Ncrs

/-- `REFRESH_DEBOUNCE`, in milliseconds. -/
def refreshDebounce : Nat := 3000

/-- `REFRESH_DEBOUNCE_NO_CHANGE`, in milliseconds. -/
def refreshDebounceNoChange : Nat := 30000

/-- `debounce_cooldown`: longer after a refresh that found nothing. -/
def debounceCooldown (hadChanges : Bool) : Nat :=
  if hadChanges then refreshDebounce else refreshDebounceNoChange

/-- When a directory was last refreshed, and whether that found a change. -/
structure DebounceState where
  lastRefresh : Nat
  hadChanges : Bool
  deriving DecidableEq, Repr

/-- `PROACTIVE_REFRESH_WIDTH`. -/
def proactiveRefreshWidth : Nat := 4

/-- `backoff::is_struggling`. -/
def isStruggling (code : Nat) : Bool := code = 429 || (decide (500 ≤ code) && decide (code ≤ 599))

/-- What a notification names. -/
structure ChangeEvent where
  invalidatedDirs : List PathBuf := []
  invalidateAll : Bool := false
  deriving DecidableEq, Repr

/-- Whether a notification is about `d`. -/
def ChangeEvent.names (ev : ChangeEvent) (d : PathBuf) : Bool :=
  ev.invalidateAll || decide (d ∈ ev.invalidatedDirs)

/-- `OldDirSnapshot::of`. -/
def OldDirSnapshot.of (files : List RemoteEntry) (fileid : PathBuf → Option Nat) : OldDirSnapshot where
  names := files.map (·.path)
  etags := fun p => (files.reverse.find? fun f => decide (f.path = p)).map (·.changeToken)
  fileids := fun p => if p ∈ files.map (·.path) then fileid p else none
  isDir := fun p => (files.reverse.find? fun f => decide (f.path = p)).map (·.isDir)

/-- `had_changes` of a refresh. -/
def DirDiff.hadChanges (d : DirDiff) : Bool :=
  !d.added.isEmpty || !d.removed.isEmpty || !d.renames.isEmpty || !d.modified.isEmpty

/-! ## The marks of a listing -/

namespace FsCache

/-- `cached_dir_etag`. -/
def cachedDirEtag (c : FsCache) (path : PathBuf) : Option String := (c.dir path).bind (·.etag)

/-- `touch_dir_cache`: the listing is as fresh as if it had come now. -/
def touchDirCache (c : FsCache) (path : PathBuf) (now : Nat) : FsCache :=
  c.modifyDir path fun e => { e with
    «at» := now, fetchedAt := now, refreshing := false, invalidated := false, hardExpired := false }

/-- `clear_refreshing`: the refresh that was marked has ended. -/
def clearRefreshing (c : FsCache) (path : PathBuf) : FsCache :=
  c.modifyDir path fun e => { e with refreshing := false }

/-- Marks a listing as one that must not be served before the server was asked. -/
def markInvalidated (c : FsCache) (path : PathBuf) : FsCache :=
  c.modifyDir path fun e => { e with invalidated := true, refreshing := false }

/-- `invalidate_all_dirs`. -/
def invalidateAllDirs (c : FsCache) : FsCache := c.dirCache.keys.foldl markInvalidated c

/-- What `invalidate_dirs_by_path` does under the lock: the listings it hands to the refresh. One
    that was refreshed recently is passed over; one fetched within the last second is refreshed
    without being marked. -/
def invalidateDirsByPath (recently : PathBuf → Bool) (now : Nat) (fileid : PathBuf → Option Nat) :
    List PathBuf → FsCache → FsCache × List (PathBuf × OldDirSnapshot)
  | [], c => (c, [])
  | d :: ds, c =>
    match c.dir d with
    | none => invalidateDirsByPath recently now fileid ds c
    | some e =>
      if recently d then invalidateDirsByPath recently now fileid ds c
      else
        let c' := if now - e.at < 1000 then c else c.markInvalidated d
        let rest := invalidateDirsByPath recently now fileid ds c'
        (rest.1, (d, OldDirSnapshot.of e.files fileid) :: rest.2)

/-- The listing a reader may be served, and whether it is due for a refresh. -/
def getCachedDir (c : FsCache) (path : PathBuf) (now ttl : Nat) (maxStale : Option Nat) :
    Option (List RemoteEntry × Bool) × FsCache :=
  let c' := { c with accessTick := c.accessTick + 1 }
  match c.dir path with
  | none => (none, c')
  | some e =>
    let e := { e with lastAccess := c.accessTick }
    if e.invalidated || e.hardExpired then (none, c'.setDir path e)
    else if e.expiryRetryAfter.any fun t => decide (now < t) then
      (some (e.files, false), c'.setDir path e)
    else
      let e := { e with expiryRetryAfter := none }
      -- A listing from the future has an unknown age and counts as too old.
      if maxStale.any fun max => decide (now < e.fetchedAt) || decide (max ≤ now - e.fetchedAt) then
        (none, c'.setDir path { e with hardExpired := true })
      else
        let needsRefresh := decide (ttl ≤ now - e.at) && !e.refreshing
        (some (e.files, needsRefresh),
          c'.setDir path { e with refreshing := e.refreshing || needsRefresh })

end FsCache

/-! ## Refreshes -/

/-- Who started a refresh. -/
inductive RefreshKind where
  /-- Started by the watcher. -/
  | event
  /-- Started after a reader was served the cached listing. -/
  | revalidation
  /-- Started because the listing is past its time to live. -/
  | soft
  /-- A reader's own fetch. -/
  | reader
  deriving DecidableEq, Repr

/-- How far a refresh is. A request that is on its way carries the number of notifications that had
    been handled when it was sent. -/
inductive RefreshPhase where
  /-- A revalidation that found no stream active. -/
  | admitted
  /-- A revalidation whose directory is not cooling down. -/
  | cooled
  | queued
  /-- Past the check of the cooldown. -/
  | started
  | wantsProbe (cachedEtag : String)
  | probing (cachedEtag : String) (sent : Nat)
  | wantsListing
  | listing (sent : Nat)
  /-- About to note the time in the debounce map. -/
  | noting (hadChanges : Bool)
  deriving DecidableEq, Repr

/-- What a section of a refresh meets. -/
inductive SectionOutcome where
  /-- A section that asks nothing of anyone. -/
  | run
  | noSlot
  | sent
  | token (etag : Option String)
  | listed (etag : Option String) (selfEntry : Option RemoteEntry) (files : List RemoteEntry)
      (fileid : PathBuf → Option Nat)
  /-- A request failed, with the server's code if it answered one. -/
  | failed (code : Option Nat)

/-- A refresh on its way. -/
structure RefreshJob where
  kind : RefreshKind
  dir : PathBuf
  oldSnap : OldDirSnapshot
  phase : RefreshPhase

/-- The sending mark of the request whose answer the section stores as the listing. -/
def RefreshJob.stores (j : RefreshJob) (o : SectionOutcome) : Option Nat :=
  match j.phase, o with
  | .probing cachedEtag sent, .token etag => if etag = some cachedEtag then some sent else none
  | .listing sent, .listed _ _ _ _ => some sent
  | _, _ => none

/-! ## The system -/

/-- Where the watcher's thread is. -/
inductive Watcher where
  | idle
  /-- A stream was active. -/
  | deferring (ev : ChangeEvent)
  | invalidatingAll
  /-- No stream was active; the debounce map is read next. -/
  | filtering (dirs : List PathBuf)
  | marking (dirs recently : List PathBuf)
  /-- Waits for the refreshes that run, with those still to come. -/
  | refreshing (waiting : List RefreshJob)

/-- The cache with its watcher, refreshes and streams. -/
structure WatchMount where
  cache : FsCache
  now : Nat
  /-- File ids of the cached listings. -/
  fileid : PathBuf → Option Nat := fun _ => none
  debounce : PathBuf → Option DebounceState := fun _ => none
  activeStreams : Nat := 0
  deferredInvalidation : Bool := false
  /-- Streams that counted themselves out as the last one and have not looked at the flag yet. -/
  ending : Nat := 0
  /-- Streams that took the flag down and have not invalidated the listings yet. -/
  applying : Nat := 0
  watcher : Watcher := .idle
  jobs : List RefreshJob := []
  revalidating : Finset PathBuf := ∅
  /-- The number of notifications handled. -/
  handled : Nat := 0
  /-- The last notification that named the directory. -/
  named : PathBuf → Nat := fun _ => 0
  /-- The last one that named it and was neither debounced nor spared a young listing. -/
  owed : PathBuf → Nat := fun _ => 0
  /-- The latest sending mark of a request for the directory that was answered. -/
  answered : PathBuf → Nat := fun _ => 0

/-- What may happen next. -/
inductive WatchEvent where
  | tick (ms : Nat)
  | change (ev : ChangeEvent)
  /-- The watcher's next section. -/
  | watch
  | streamStart
  | streamEnd
  /-- The last stream takes the flag down. -/
  | swap
  /-- And invalidates the listings if it was up. -/
  | apply
  | read (dir : PathBuf) (ttl : Nat) (maxStale : Option Nat) (backedOff : Bool)
  | revalidate (dir : PathBuf) (backedOff : Bool)
  /-- The next section of refresh `i`. -/
  | job (i : Nat) (o : SectionOutcome)

namespace WatchMount

/-- Whether a directory was refreshed recently. -/
def coolingDown (s : WatchMount) (d : PathBuf) : Bool :=
  (s.debounce d).any fun st => decide (s.now - st.lastRefresh < debounceCooldown st.hadChanges)

/-- A notification has been handled: it named `names`, and `counts` of these are owed an answer. -/
def record (s : WatchMount) (names counts : PathBuf → Bool) : WatchMount :=
  { s with
    handled := s.handled + 1
    named := fun d => if names d then s.handled + 1 else s.named d
    owed := fun d => if counts d then s.handled + 1 else s.owed d }

/-- A request for `d` was answered. -/
def answer (s : WatchMount) (d : PathBuf) (sent : Nat) : WatchMount :=
  { s with answered := fun p => if p = d then max (s.answered p) sent else s.answered p }

/-- `handle_change_event` up to its reading of the stream count. -/
def change (s : WatchMount) (ev : ChangeEvent) : Option WatchMount :=
  match s.watcher with
  | .idle =>
    if 0 < s.activeStreams then some { s with watcher := .deferring ev }
    else if ev.invalidateAll then some { s with watcher := .invalidatingAll }
    else if ev.invalidatedDirs.isEmpty then some s
    else some { s with watcher := .filtering ev.invalidatedDirs }
  | _ => none

/-- The named listings that are neither cooling down nor young are marked; of a directory that is
    not cached there is nothing to mark. -/
def reaches (s : WatchMount) (recently : List PathBuf) (d : PathBuf) : Bool :=
  match s.cache.dir d with
  | none => true
  | some e => decide (d ∉ recently) && decide (1000 ≤ s.now - e.at)

/-- The next section of the watcher. -/
def watch (s : WatchMount) : Option WatchMount :=
  match s.watcher with
  | .idle => none
  | .deferring ev =>
    some { s.record ev.names ev.names with deferredInvalidation := true, watcher := .idle }
  | .invalidatingAll =>
    some { s.record (fun _ => true) (fun _ => true) with
      cache := s.cache.invalidateAllDirs, watcher := .idle }
  | .filtering dirs => some { s with watcher := .marking dirs (dirs.filter s.coolingDown) }
  | .marking dirs recently =>
    let r := FsCache.invalidateDirsByPath (fun d => decide (d ∈ recently)) s.now s.fileid dirs s.cache
    some { s.record (fun d => decide (d ∈ dirs))
        (fun d => decide (d ∈ dirs) && s.reaches recently d) with
      cache := r.1
      watcher := .refreshing (r.2.map fun (x : PathBuf × OldDirSnapshot) =>
        { kind := .event, dir := x.1, oldSnap := x.2, phase := .queued }) }
  | .refreshing waiting =>
    if s.jobs.any (fun j => decide (j.kind = .event)) then none
    else if waiting.isEmpty then some { s with watcher := .idle }
    else some { s with
      jobs := s.jobs ++ waiting.take proactiveRefreshWidth
      watcher := .refreshing (waiting.drop proactiveRefreshWidth) }

/-- `StreamActiveGuard::drop` up to its count. -/
def streamEnd (s : WatchMount) : Option WatchMount :=
  if s.activeStreams = 0 then none
  else some { s with
    activeStreams := s.activeStreams - 1
    ending := if s.activeStreams = 1 then s.ending + 1 else s.ending }

/-- The last stream looks whether it has to invalidate. -/
def swap (s : WatchMount) : Option WatchMount :=
  if s.ending = 0 then none
  else some { s with
    ending := s.ending - 1
    deferredInvalidation := false
    applying := if s.deferredInvalidation then s.applying + 1 else s.applying }

/-- It invalidates every listing. -/
def apply (s : WatchMount) : Option WatchMount :=
  if s.applying = 0 then none
  else some { s with applying := s.applying - 1, cache := s.cache.invalidateAllDirs }

/-- `list_dir_cached_or_fresh` for one reader. With the server backed off, the listing at hand is
    served whatever its marks. -/
def read (s : WatchMount) (d : PathBuf) (ttl : Nat) (maxStale : Option Nat) (backedOff : Bool) :
    WatchMount :=
  let r := s.cache.getCachedDir d s.now ttl maxStale
  let s := { s with cache := r.2 }
  let job : RefreshJob :=
    { kind := .soft, dir := d, oldSnap := { names := [] }, phase := .started }
  match r.1 with
  | some (_, true) =>
    if backedOff then { s with cache := s.cache.clearRefreshing d }
    else { s with jobs := s.jobs ++ [job] }
  | some (_, false) => s
  | none =>
    if backedOff || s.jobs.any (fun j => decide (j.kind = .reader ∧ j.dir = d)) then s
    else { s with jobs := s.jobs ++ [{ job with kind := .reader, phase := .wantsListing }] }

/-- `revalidate_dir_on_read` up to its reading of the stream count and the server's health. -/
def revalidate (s : WatchMount) (d : PathBuf) (backedOff : Bool) : WatchMount :=
  if 0 < s.activeStreams || backedOff then s
  else { s with jobs := s.jobs ++
    [{ kind := .revalidation, dir := d, oldSnap := { names := [] }, phase := .admitted }] }

/-- A refresh ends; a revalidation gives its claim back. -/
def finish (s : WatchMount) (j : RefreshJob) : WatchMount × Option RefreshJob :=
  (if j.kind = .revalidation then { s with revalidating := s.revalidating.erase j.dir } else s, none)

/-- A refresh that could not get a listing. -/
def giveUp (s : WatchMount) (j : RefreshJob) : WatchMount × Option RefreshJob :=
  match j.kind with
  | .soft => ({ s with cache := s.cache.clearRefreshing j.dir }, none)
  | .reader => (s, none)
  | _ => (s, some { j with phase := .noting false })

/-- The next section of a refresh: `refresh_one_dir`, `soft_refresh_dir` or a reader's fetch. -/
def runJob (s : WatchMount) (j : RefreshJob) (o : SectionOutcome) :
    Option (WatchMount × Option RefreshJob) :=
  match j.phase, o with
  | .admitted, .run => some (s, if s.coolingDown j.dir then none else some { j with phase := .cooled })
  | .cooled, .run =>
    match s.cache.dir j.dir with
    | none => some (s, none)
    | some e =>
      if e.refreshing || decide (s.now - e.at < 2000) || decide (j.dir ∈ s.revalidating) then
        some (s, none)
      else
        some ({ s with revalidating := insert j.dir s.revalidating },
          some { j with phase := .queued, oldSnap := OldDirSnapshot.of e.files s.fileid })
  | .queued, .run =>
    if s.coolingDown j.dir then some (s.finish j) else some (s, some { j with phase := .started })
  | .started, .run =>
    match s.cache.cachedDirEtag j.dir with
    | some etag => some (s, some { j with phase := .wantsProbe etag })
    | none => some (s, some { j with phase := .wantsListing })
  | .wantsProbe etag, .sent => some (s, some { j with phase := .probing etag s.handled })
  | .wantsProbe _, .noSlot =>
    if j.kind = .soft then some (s, some { j with phase := .wantsListing }) else some (s.giveUp j)
  | .probing cachedEtag sent, .token etag =>
    let s := s.answer j.dir sent
    if etag = some cachedEtag then
      let s := { s with cache := s.cache.touchDirCache j.dir s.now }
      if j.kind = .soft then some (s, none) else some (s, some { j with phase := .noting false })
    else some (s, some { j with phase := .wantsListing })
  | .probing _ _, .failed code =>
    -- A server that fails the probe would fail the listing too.
    if (if j.kind = .soft then code.isSome else code.any isStruggling) then some (s.giveUp j)
    else some (s, some { j with phase := .wantsListing })
  | .wantsListing, .sent => some (s, some { j with phase := .listing s.handled })
  | .wantsListing, .noSlot => some (s.giveUp j)
  | .listing sent, .listed etag selfEntry files fileid =>
    let s := s.answer j.dir sent
    if j.kind = .soft ∨ j.kind = .reader then
      some ({ s with cache := s.cache.putDirCache j.dir etag selfEntry files s.now }, none)
    else
      let diff := j.oldSnap.computeDirDiff files fileid
      let c := DirMount.followCopies s.cache diff
      some ({ s with cache := c.putDirCache j.dir etag selfEntry files s.now },
        some { j with phase := .noting diff.hadChanges })
  | .listing _, .failed _ => some (s.giveUp j)
  | .noting hadChanges, .run =>
    some ({ s with debounce := fun p =>
        if p = j.dir then some { lastRefresh := s.now, hadChanges := hadChanges }
        else s.debounce p }.finish j)
  | _, _ => none

/-- The next section of refresh `i`. -/
def job (s : WatchMount) (i : Nat) (o : SectionOutcome) : Option WatchMount :=
  match s.jobs[i]? with
  | none => none
  | some j =>
    match s.runJob j o with
    | none => none
    | some (s', none) => some { s' with jobs := s.jobs.eraseIdx i }
    | some (s', some j') => some { s' with jobs := s.jobs.set i j' }

/-- One step; none where the event does not fit. -/
def step (s : WatchMount) : WatchEvent → Option WatchMount
  | .tick ms => some { s with now := s.now + ms }
  | .change ev => s.change ev
  | .watch => s.watch
  | .streamStart => some { s with activeStreams := s.activeStreams + 1 }
  | .streamEnd => s.streamEnd
  | .swap => s.swap
  | .apply => s.apply
  | .read d ttl maxStale backedOff => some (s.read d ttl maxStale backedOff)
  | .revalidate d backedOff => some (s.revalidate d backedOff)
  | .job i o => s.job i o

/-- A run; it ends early at a step that cannot be taken. -/
def steps (s : WatchMount) : List WatchEvent → Option WatchMount
  | [] => some s
  | e :: es => (s.step e).bind fun s' => s'.steps es

/-- A mount with the listings `c` before the first notification. -/
def start (c : FsCache) (now : Nat) (fileid : PathBuf → Option Nat) : WatchMount :=
  { cache := c, now := now, fileid := fileid }

/-- A stream is active, or the guard of one is being dropped. -/
def Streaming (s : WatchMount) : Prop := 0 < s.activeStreams ∨ 0 < s.ending ∨ 0 < s.applying

/-- A refresh of `d` is queued or running. -/
def Refreshing (s : WatchMount) (d : PathBuf) : Prop :=
  (∃ j ∈ s.jobs, j.dir = d) ∨ ∃ waiting, s.watcher = .refreshing waiting ∧ ∃ j ∈ waiting, j.dir = d

end WatchMount

end Ncrs
