import Ncrs.Native.DirRefresh
import Ncrs.Spec.ChangeWatchCorrect

/-!
# The marks of one listing under readers and refreshes

Two marks of a cached listing are followed through every interleaving. `refreshing` is set by
`get_cached_dir` for a caller that is to start a refresh; three callers do not look at the result,
and the flag they set stays. `invalidated` is cleared by `touch_dir_cache` and `put_dir_cache`, also
for an answer to a request sent before the invalidation; `confirm_dir_fresh` leaves it alone.

## Key results

- `DirRefresh.Guarded.step`: `refreshing` is set only while a job or a probe is under way
- `DirRefresh.refreshing_is_owned`: over every run in which no ignored call finds the listing due
- `DirRefresh.Trusted.step`: an unmarked listing was confirmed since its last invalidation
- `DirRefresh.invalidations_survive`: over every run in which no older answer is applied
- `DirRefresh.ignored_refresh_leaks`, `DirRefresh.probe_clears_invalidation`: the runs that fail
-/

namespace Ncrs

namespace FsCache

variable {c : FsCache} {path : PathBuf}

/-- Every entry there is now was there before, no less marked and no more refreshing. -/
def Follows (c c' : FsCache) (path : PathBuf) : Prop :=
  ∀ e', c'.dir path = some e' → ∃ e, c.dir path = some e ∧
    (e'.invalidated = false → e.invalidated = false) ∧ (e'.refreshing = true → e.refreshing = true)

theorem Follows.refl (c : FsCache) (path : PathBuf) : Follows c c path :=
  fun e he => ⟨e, he, fun h => h, fun h => h⟩

/-- Changing an entry without freshening it or marking it as being refreshed is followed. -/
theorem follows_modifyDir {f : DirCacheEntry → DirCacheEntry}
    (hf : ∀ e, ((f e).invalidated = false → e.invalidated = false) ∧
      ((f e).refreshing = true → e.refreshing = true)) : Follows c (c.modifyDir path f) path := by
  intro e' he'
  rw [dir_modifyDir, if_pos rfl] at he'
  obtain ⟨e, he, rfl⟩ := Option.map_eq_some_iff.mp he'
  exact ⟨e, he, hf e⟩

theorem follows_invalidateDir : Follows c (c.invalidateDir path) path :=
  follows_modifyDir fun _ => ⟨fun h => (by cases h), fun h => h⟩

theorem follows_markInvalidated : Follows c (c.markInvalidated path) path :=
  follows_modifyDir fun _ => ⟨fun h => (by cases h), fun h => (by cases h)⟩

theorem follows_removeDir : Follows c (c.removeDir path) path := by
  intro e' he'
  have hnone : (c.dirCache.erase path).lookup path = some e' := he'
  rw [AList.lookup_erase] at hnone
  cases hnone

/-- The fallback on an expired directory only reads the cache. -/
theorem follows_takeHardExpiredFallback {now : Nat} : Follows c (c.takeHardExpiredFallback path now) path := by
  refine follows_modifyDir fun e => ?_
  split <;> exact ⟨fun h => h, fun h => h⟩

/-- Confirming a directory marks nothing as being refreshed. -/
theorem follows_confirmDirFresh {now : Nat} : Follows c (c.confirmDirFresh path now).2 path := by
  intro e' he'
  unfold confirmDirFresh at he'
  cases hdir : c.dir path with
  | none =>
    rw [hdir] at he'
    exact absurd (hdir.symm.trans he') (by simp)
  | some e =>
    simp only [hdir] at he'
    split at he'
    · exact ⟨e, rfl, by rw [Option.some.inj (hdir.symm.trans he')]; exact ⟨fun h => h, fun h => h⟩⟩
    · rw [dir_setDir, if_pos rfl] at he'
      obtain rfl := Option.some.inj he'
      exact ⟨e, rfl, fun h => h, fun h => h⟩

/-- A fresh listing carries neither mark. -/
theorem putDirCache_marks {etag : Option String} {selfEntry : Option RemoteEntry} {files : List RemoteEntry}
    {now : Nat} {e : DirCacheEntry} (h : (c.putDirCache path etag selfEntry files now).dir path = some e) :
    e.refreshing = false ∧ e.at = now := by
  unfold putDirCache at h
  split at h
  · have hnone : (c.dirCache.erase path).lookup path = some e := h
    rw [AList.lookup_erase] at hnone
    cases hnone
  · unfold evictDirCache at h
    dsimp only at h
    split at h
    · have hd := (AList.lookup_insert c.dirCache).symm.trans h
      rw [← Option.some.inj hd]
      exact ⟨rfl, rfl⟩
    · have hd := (AList.lookup_insert c.dirCache).symm.trans (foldl_removeDir_dir h)
      rw [← Option.some.inj hd]
      exact ⟨rfl, rfl⟩

/-- A reader would be served the listing and asked to refresh it. -/
def Due (c : FsCache) (path : PathBuf) (now ttl : Nat) (maxStale : Option Nat) : Prop :=
  ∃ e, c.dir path = some e ∧ e.invalidated = false ∧ e.hardExpired = false ∧
    e.expiryRetryAfter.any (fun t => decide (now < t)) = false ∧
    maxStale.any (fun max => decide (now < e.fetchedAt) || decide (max ≤ now - e.fetchedAt)) = false ∧
    ttl ≤ now - e.at ∧ e.refreshing = false

/-- `get_cached_dir` sets `refreshing` exactly on a listing that is due; it takes no mark away. -/
theorem follows_getCachedDir {now ttl : Nat} {maxStale : Option Nat} (hdue : ¬c.Due path now ttl maxStale) :
    Follows c (c.getCachedDir path now ttl maxStale).2 path := by
  intro e' he'
  unfold getCachedDir at he'
  dsimp only at he'
  -- the entry the cache held before is the one it holds now, at most with the refreshing flag set
  split at he'
  · exact ⟨e', he', fun h => h, fun h => h⟩
  · rename_i e he
    split at he'
    · rw [dir_setDir, if_pos rfl] at he'
      obtain rfl := Option.some.inj he'
      exact ⟨e, he, fun h => h, fun h => h⟩
    · rename_i hserved
      split at he'
      · rw [dir_setDir, if_pos rfl] at he'
        obtain rfl := Option.some.inj he'
        exact ⟨e, he, fun h => h, fun h => h⟩
      · -- served while fresh, and while a retry is due, the flag stays as it was
        rename_i hretry
        split at he'
        · rw [dir_setDir, if_pos rfl] at he'
          obtain rfl := Option.some.inj he'
          exact ⟨e, he, fun h => h, fun h => h⟩
        · rename_i hyoung
          rw [dir_setDir, if_pos rfl] at he'
          obtain rfl := Option.some.inj he'
          -- what remains is the case in which the flag is set
          refine ⟨e, he, fun h => h, fun h => ?_⟩
          by_contra hidle
          rw [Bool.not_eq_true] at hidle
          have hold : ttl ≤ now - e.at := by simpa [hidle] using h
          simp only [Bool.or_eq_true, not_or, Bool.not_eq_true] at hserved hretry hyoung
          -- an entry that was idle and old enough is one that was due
          exact hdue ⟨e, he, hserved.1, hserved.2, hretry, hyoung, hold, hidle⟩

/-- Its caller is told. -/
theorem Due.told {now ttl : Nat} {maxStale : Option Nat} (h : c.Due path now ttl maxStale) :
    ∃ files, (c.getCachedDir path now ttl maxStale).1 = some (files, true) := by
  obtain ⟨e, he, hinv, hhard, hretry, hyoung, hold, hidle⟩ := h
  refine ⟨e.files, ?_⟩
  unfold getCachedDir
  simp [he, hinv, hhard, hretry, hyoung, hold, hidle]

end FsCache

namespace DirRefresh

variable {s s' : DirRefresh} {i : Nat} {r : DirReader}

/-! ## Who refreshes -/

/-- A refresh job or an expiry probe is queued or running. -/
def Busy (s : DirRefresh) : Prop := s.softs ≠ [] ∨ s.Probing

/-- The listing is marked as being refreshed. -/
def Refreshing (s : DirRefresh) : Prop := ∃ e, s.dir = some e ∧ e.refreshing = true

/-- Whoever marked it is at work. -/
def Guarded (s : DirRefresh) : Prop := s.Refreshing → s.Busy

/-- A reader that leaves without having probed takes no refresh with it. -/
theorem Busy.leave (h : s.Busy) (hi : s.readers[i]? = some r) (hr : r.phase.probes = false) :
    (s.leave i).Busy := by
  obtain h | ⟨r', hr', hprobes⟩ := h
  · exact .inl h
  · right
    obtain ⟨k, hk⟩ := List.mem_iff_getElem?.mp hr'
    have hne : k ≠ i := by
      rintro rfl
      rw [hi] at hk
      obtain rfl := Option.some.inj hk
      rw [hr] at hprobes
      cases hprobes
    exact ⟨r', List.mem_eraseIdx_iff_getElem?.mpr ⟨k, hne, hk⟩, hprobes⟩

/-- Nor does one that goes on to another phase. -/
theorem Busy.go (h : s.Busy) (hi : s.readers[i]? = some r) (hr : r.phase.probes = false) (phase : ReadPhase) :
    (s.go i r phase).Busy := by
  obtain h | ⟨r', hr', hprobes⟩ := h
  · exact .inl h
  · right
    obtain ⟨k, hk⟩ := List.mem_iff_getElem?.mp hr'
    have hne : i ≠ k := by
      rintro rfl
      rw [hi] at hk
      obtain rfl := Option.some.inj hk
      rw [hr] at hprobes
      cases hprobes
    refine ⟨r', List.mem_iff_getElem?.mpr ⟨k, ?_⟩, hprobes⟩
    show (s.readers.set i _)[k]? = some r'
    rw [List.getElem?_set_ne hne]
    exact hk

/-- A reader that goes on as the prober keeps the directory busy. -/
theorem busy_go_probes (hi : s.readers[i]? = some r) {phase : ReadPhase} (hphase : phase.probes = true) :
    (s.go i r phase).Busy := by
  have hlt := (List.getElem?_eq_some_iff.mp hi).1
  refine .inr ⟨{ r with phase := phase }, List.mem_iff_getElem?.mpr ⟨i, ?_⟩, hphase⟩
  exact List.getElem?_set_self hlt

/-- The cache followed from `s` to `s'`, and the directory is as busy as it was. -/
theorem Guarded.of_follows (h : s.Guarded) (hpath : s'.path = s.path)
    (hcache : FsCache.Follows s.cache s'.cache s.path) (hbusy : s.Busy → s'.Busy) : s'.Guarded := by
  rintro ⟨e', he', hr'⟩
  have he' : s'.cache.dir s'.path = some e' := he'
  rw [hpath] at he'
  obtain ⟨e, he, -, hr⟩ := hcache e' he'
  exact hbusy (h ⟨e, he, hr hr'⟩)

theorem guarded_of_not_refreshing (h : ¬s.Refreshing) : s.Guarded := fun hr => absurd hr h

/-- A listing that is put into the cache ends every refresh. -/
theorem not_refreshing_put (sent : Nat) (l : Listed) : ¬(s.putDir sent l).Refreshing := by
  rintro ⟨e, he, hr⟩
  have hnot := (FsCache.putDirCache_marks he).1
  rw [hnot] at hr
  cases hr

/-- So does one that was found unchanged. -/
theorem not_refreshing_touch (sent : Nat) : ¬(s.touchDir sent).Refreshing := by
  rintro ⟨e, he, hr⟩
  have he : (s.cache.touchDirCache s.path s.now).dir s.path = some e := he
  unfold FsCache.touchDirCache at he
  rw [FsCache.dir_modifyDir, if_pos rfl] at he
  obtain ⟨e', -, rfl⟩ := Option.map_eq_some_iff.mp he
  cases hr

theorem not_refreshing_clear : ¬s.clearRefreshing.Refreshing := by
  rintro ⟨e, he, hr⟩
  have he : (s.cache.clearRefreshing s.path).dir s.path = some e := he
  unfold FsCache.clearRefreshing at he
  rw [FsCache.dir_modifyDir, if_pos rfl] at he
  obtain ⟨e', -, rfl⟩ := Option.map_eq_some_iff.mp he
  cases hr

/-- What a find of the pending listing does: nothing to the cache, or it stores the listing. -/
theorem take_cases {found : PendingFound} (h : s.take found = some s') :
    s'.path = s.path ∧ s'.now = s.now ∧ s'.softs = s.softs ∧ s'.readers = s.readers ∧
      s'.invalidations = s.invalidations ∧
      ((s'.cache = s.cache ∧ s'.answered = s.answered ∧ ∀ l, found ≠ .finished l) ∨
        ∃ n l, found = .finished l ∧ s.pending = some (.sent n) ∧ s'.answered = max s.answered n ∧
          s'.cache = (s.putDir n l).cache) := by
  unfold take at h
  split at h
  · cases h
    exact ⟨rfl, rfl, rfl, rfl, rfl, .inl ⟨rfl, rfl, fun _ h => by cases h⟩⟩
  · split at h
    · cases h
      exact ⟨rfl, rfl, rfl, rfl, rfl, .inl ⟨rfl, rfl, fun _ h => by cases h⟩⟩
    · cases h
  · -- a listing that is finished is what the reader that was sent for it leaves
    split at h
    · rename_i n hp
      cases h
      exact ⟨rfl, rfl, rfl, rfl, rfl, .inr ⟨n, _, rfl, hp, rfl, rfl⟩⟩
    · cases h
  · split at h
    · cases h
      exact ⟨rfl, rfl, rfl, rfl, rfl, .inl ⟨rfl, rfl, fun _ h => by cases h⟩⟩
    · cases h

/-- Taking out of the pending slot leaves no refresh behind without its reader. -/
theorem Guarded.take (h : s.Guarded) {found : PendingFound} (ht : s.take found = some s') : s'.Guarded := by
  obtain ⟨hpath, -, hsofts, hreaders, -, ⟨hcache, -⟩ | ⟨n, l, -, -, -, hcache⟩⟩ := take_cases ht
  · refine h.of_follows hpath (hcache ▸ .refl _ _) fun hbusy => ?_
    unfold Busy Probing
    rw [hsofts, hreaders]
    exact hbusy
  · apply guarded_of_not_refreshing
    rintro ⟨e, he, hr⟩
    have he : s'.cache.dir s'.path = some e := he
    rw [hpath, hcache] at he
    exact not_refreshing_put n l ⟨e, he, hr⟩

/-! ## The condition -/

/-- The listing is one that `get_cached_dir` would ask this reader to refresh. -/
def DueFor (s : DirRefresh) (r : DirReader) : Prop := s.cache.Due s.path s.now r.ttl r.maxStale

/-- A turn of the wait that comes to `get_cached_dir`, on a listing it did not store itself. -/
def LooksUp (s : DirRefresh) (r : DirReader) (found : PendingFound) : Prop :=
  found ≠ .broken ∧ (∀ l, found ≠ .finished l) ∧ s.path ∉ s.cache.notDirs ∧
    ∀ n, found = .partly n → 0 < n → r.phase = .polling true

/-- A call of `get_cached_dir` whose result is ignored does not find the listing due: when a reader
starts its fetch, and when one that waits finds a listing it did not store itself. -/
def NotIgnored (s : DirRefresh) : DirRefreshEvent → Prop
  | .reader i (.startFetch _) => ∀ r, s.readers[i]? = some r → ¬s.DueFor r
  | .reader i (.poll found _) => ∀ r, s.readers[i]? = some r → s.LooksUp r found → ¬s.DueFor r
  | _ => True

/-- No reader in the run ignores a refresh that is due. -/
def NeverIgnored (s : DirRefresh) : List DirRefreshEvent → Prop
  | [] => True
  | e :: es => s.NotIgnored e ∧ (s.step e).elim True (·.NeverIgnored es)

/-- A listing just stored is not due. -/
theorem not_due_put (r : DirReader) (sent : Nat) (l : Listed) : ¬(s.putDir sent l).DueFor r := by
  rintro ⟨e, he, -, -, -, -, hold, -⟩
  have hat := (FsCache.putDirCache_marks he).2
  have hpos := r.ttl_pos
  have hold : r.ttl ≤ s.now - e.at := hold
  omega

/-- A reader that looks up the cache, and for which no refresh is due, follows it. -/
theorem getIgnoring_follows (hdue : ¬s.DueFor r) : FsCache.Follows s.cache (s.getIgnoring r).2.cache s.path :=
  FsCache.follows_getCachedDir hdue

/-! ## One step -/

/-- A reader that looks the directory up leaves no refresh without a reader. -/
theorem Guarded.lookUp (h : s.Guarded) (hi : s.readers[i]? = some r) (hr : r.phase = .entered)
    (held accepted : Bool) : (s.lookUp i r held accepted).Guarded := by
  have hprobes : r.phase.probes = false := by rw [hr]; rfl
  unfold DirRefresh.lookUp
  dsimp only
  split
  · rename_i hg
    refine h.of_follows rfl (FsCache.follows_getCachedDir fun hdue => ?_) fun hb => hb.go hi hprobes _
    obtain ⟨files, htold⟩ := hdue.told
    rw [hg] at htold
    cases htold
  · rename_i files hg
    refine h.of_follows rfl (FsCache.follows_getCachedDir fun hdue => ?_) fun hb => hb.leave hi hprobes
    obtain ⟨files, htold⟩ := hdue.told
    rw [hg] at htold
    cases htold
  · split
    · exact guarded_of_not_refreshing not_refreshing_clear
    · exact fun _ => .inl (List.append_ne_nil_of_right_ne_nil _ (List.cons_ne_nil _ _))

/-- The same when it checks what has expired. -/
theorem Guarded.checkExpiry (h : s.Guarded) (hi : s.readers[i]? = some r) (hr : r.phase = .missed)
    (blocked : Bool) : (s.checkExpiry i r blocked).Guarded := by
  have hprobes : r.phase.probes = false := by rw [hr]; rfl
  have hgo : ∀ phase, (s.go i r phase).Guarded := fun phase =>
    h.of_follows rfl (.refl _ _) fun hb => hb.go hi hprobes phase
  unfold DirRefresh.checkExpiry
  split
  · split
    · exact h.of_follows rfl (.refl _ _) fun hb => hb.leave hi hprobes
    · exact hgo _
  · split
    · split
      · split
        · exact fun _ => busy_go_probes hi rfl
        · exact hgo _
      · exact hgo _
    · exact hgo _

/-- And when its probe has been answered: the flag is cleared with it. -/
theorem Guarded.applyProbe (i : Nat) (r : DirReader) (unchanged : Bool) :
    (s.applyProbe i r unchanged).Guarded := by
  apply guarded_of_not_refreshing
  unfold DirRefresh.applyProbe
  split
  · dsimp only
    split
    · exact not_refreshing_clear
    · exact not_refreshing_clear
  · exact not_refreshing_clear

/-- And when it looks for a pending listing. -/
theorem Guarded.checkPending (h : s.Guarded) (hi : s.readers[i]? = some r) (hr : r.phase = .pendingCheck)
    {found : PendingFound} (hs : s.checkPending i r found = some s') : s'.Guarded := by
  have hprobes : r.phase.probes = false := by rw [hr]; rfl
  obtain ⟨s₁, ht, rfl⟩ := Option.map_eq_some_iff.mp hs
  have h₁ := h.take ht
  have hi₁ : s₁.readers[i]? = some r := (take_cases ht).2.2.2.1 ▸ hi
  split
  · exact h₁.of_follows rfl (.refl _ _) fun hb => hb.go hi₁ hprobes _
  · split
    · exact h₁.of_follows rfl (.refl _ _) fun hb => hb.leave hi₁ hprobes
    · exact h₁.of_follows rfl (.refl _ _) fun hb => hb.go hi₁ hprobes _

/-- An ignored call of `get_cached_dir`, and what its reader does next. -/
theorem Guarded.getIgnoring (h : s.Guarded) (hi : s.readers[i]? = some r) (hprobes : r.phase.probes = false)
    (hdue : ¬s.DueFor r) :
    ((s.getIgnoring r).2.leave i).Guarded ∧ ∀ phase, ((s.getIgnoring r).2.go i r phase).Guarded :=
  ⟨h.of_follows rfl (getIgnoring_follows hdue) fun hb => Busy.leave hb hi hprobes,
    fun phase => h.of_follows rfl (getIgnoring_follows hdue) fun hb => Busy.go hb hi hprobes phase⟩

/-- And when it starts a fetch of its own. -/
theorem Guarded.startFetch (h : s.Guarded) (hi : s.readers[i]? = some r) (hr : r.phase = .starting)
    (hdue : ¬s.DueFor r) (accepted : Bool) : (s.startFetch i r accepted).Guarded := by
  have hprobes : r.phase.probes = false := by rw [hr]; rfl
  obtain ⟨hleave, hgo⟩ := h.getIgnoring hi hprobes hdue
  have hgo' : ∀ phase, (s.go i r phase).Guarded := fun phase =>
    h.of_follows rfl (.refl _ _) fun hb => hb.go hi hprobes phase
  unfold DirRefresh.startFetch
  dsimp only
  -- with the path known to be a directory the cached listing is looked up once more
  cases hdir : s.dir.isSome with
  | true =>
    rw [if_pos rfl]
    split
    · exact hleave
    · split
      · exact hgo _
      · split
        · exact hgo (.polling _)
        · exact hgo _
  | false =>
    rw [if_neg Bool.false_ne_true]
    split
    · rename_i habsurd
      cases habsurd
    · split
      · exact hgo' _
      · split
        · exact hgo' (.polling _)
        · exact hgo' _

theorem Guarded.takeNotDir (h : s.Guarded) : s.takeNotDir.2.Guarded := h

/-- After a find the ignored call does not find the listing due: it was stored just now, or it was not
due before. -/
theorem not_due_take {found : PendingFound} (ht : s.take found = some s')
    (hdue : (∀ l, found ≠ .finished l) → ¬s.DueFor r) : ¬s'.DueFor r := by
  obtain ⟨hpath, hnow, -, -, -, ⟨hcache, -, hnot⟩ | ⟨n, l, -, -, -, hcache⟩⟩ := take_cases ht
  · have hsame : s'.DueFor r ↔ s.DueFor r := by
      unfold DueFor
      rw [hpath, hnow, hcache]
    rw [hsame]
    exact hdue hnot
  · have hsame : s'.DueFor r ↔ (s.putDir n l).DueFor r := by
      unfold DueFor
      rw [hpath, hnow, hcache]
      rfl
    rw [hsame]
    exact not_due_put r n l

/-- A turn that did not store a listing and got past the first checks. -/
theorem looksUp_of_take {found : PendingFound} (ht : s.take found = some s') {wasInvalidated : Bool}
    (hr : r.phase = .polling wasInvalidated) (hnot : ∀ l, found ≠ .finished l) (hbroken : found ≠ .broken)
    (hsnapshot : ¬(s'.hasSnapshot found && !s'.snapshotIsEmpty found && !wasInvalidated) = true)
    (hnotDir : ¬s'.takeNotDir.1 = true) : s.LooksUp r found := by
  obtain ⟨hpath, -, -, -, -, ⟨hcache, -⟩ | ⟨n, l, hfound, -⟩⟩ := take_cases ht
  · refine ⟨hbroken, hnot, fun hmem => hnotDir ?_, fun n hn hpos => ?_⟩
    · show decide (s'.path ∈ s'.cache.notDirs) = true
      rw [hpath, hcache]
      exact decide_eq_true hmem
    · subst hn
      cases wasInvalidated with
      | true => exact hr
      | false => exact absurd (by simp [hasSnapshot, snapshotIsEmpty, hpos]) hsnapshot
  · exact absurd hfound (hnot l)

/-- A reader that polls for a listing leaves no refresh without a reader. -/
theorem Guarded.poll (h : s.Guarded) (hi : s.readers[i]? = some r) {wasInvalidated : Bool}
    (hr : r.phase = .polling wasInvalidated) {found : PendingFound} {late : Bool}
    (hdue : s.LooksUp r found → ¬s.DueFor r)
    (hs : s.poll i r wasInvalidated found late = some s') : s'.Guarded := by
  have hprobes : r.phase.probes = false := by rw [hr]; rfl
  obtain ⟨s₁, ht, rfl⟩ := Option.map_eq_some_iff.mp hs
  have h₁ := h.take ht
  have hi₁ : s₁.readers[i]? = some r := (take_cases ht).2.2.2.1 ▸ hi
  have hgo : ∀ phase, (s₁.go i r phase).Guarded := fun phase =>
    h₁.of_follows rfl (.refl _ _) fun hb => hb.go hi₁ hprobes phase
  -- the read was broken off, the mount shows a snapshot, the path is no directory, or none of these
  split
  · exact hgo _
  · rename_i hbroken
    split
    · exact h₁.of_follows rfl (.refl _ _) fun hb => hb.leave hi₁ hprobes
    · rename_i hsnapshot
      dsimp only
      split
      · exact hgo _
      · rename_i hnotDir
        -- for the listing that was taken out no refresh is due, nor was one due before
        have hdue₁ : ¬s₁.DueFor r :=
          not_due_take ht fun hnot => hdue (looksUp_of_take ht hr hnot hbroken hsnapshot hnotDir)
        obtain ⟨hleave, hgoIgnoring⟩ := h₁.takeNotDir.getIgnoring hi₁ hprobes hdue₁
        split
        · split
          · exact hleave
          · exact hgoIgnoring _
        · split
          · exact hgo _
          · exact hgo _

/-- The last look into the slot, once nobody fills it any more. -/
theorem Guarded.drain (h : s.Guarded) (hi : s.readers[i]? = some r) {wasInvalidated : Bool}
    (hr : r.phase = .draining wasInvalidated) {found : PendingFound}
    (hs : s.drain i r wasInvalidated found = some s') : s'.Guarded := by
  have hprobes : r.phase.probes = false := by rw [hr]; rfl
  obtain ⟨s₁, ht, rfl⟩ := Option.map_eq_some_iff.mp hs
  have h₁ := h.take ht
  have hi₁ : s₁.readers[i]? = some r := (take_cases ht).2.2.2.1 ▸ hi
  have hgo : ∀ phase, (s₁.go i r phase).Guarded := fun phase =>
    h₁.of_follows rfl (.refl _ _) fun hb => hb.go hi₁ hprobes phase
  split
  · rename_i l
    have hdue₁ : ¬s₁.DueFor r := not_due_take ht fun hnot => absurd rfl (hnot l)
    obtain ⟨hleave, hgoIgnoring⟩ := h₁.takeNotDir.getIgnoring hi₁ hprobes hdue₁
    dsimp only
    split
    · exact hgo _
    · split
      · exact hleave
      · exact hgoIgnoring _
  · split
    · exact h₁.of_follows rfl (.refl _ _) fun hb => hb.leave hi₁ hprobes
    · exact hgo _
  · exact hgo _

/-- Every turn of a reader keeps a refresh with somebody who ends it. -/
theorem Guarded.stepReader (h : s.Guarded) (hi : s.readers[i]? = some r) {a : ReadAction}
    (hmeets : s.NotIgnored (.reader i a)) (hs : s.stepReader i r a = some s') : s'.Guarded := by
  unfold DirRefresh.stepReader at hs
  split at hs
  · cases hs
    exact h.lookUp hi ‹_› _ _
  · -- the probing phases: the reader itself holds the refresh
    cases hs
    exact h.checkExpiry hi ‹_› _
  · cases hs
    exact fun _ => busy_go_probes hi rfl
  · cases hs
    exact fun _ => busy_go_probes hi rfl
  · cases hs
    exact fun _ => busy_go_probes hi rfl
  · cases hs
    exact fun _ => busy_go_probes hi rfl
  · cases hs
    exact Guarded.applyProbe i r _
  · exact h.checkPending hi ‹_› hs
  · cases hs
    exact h.startFetch hi ‹_› (hmeets r hi) _
  · exact h.poll hi ‹_› (hmeets r hi) hs
  · exact h.drain hi ‹_› hs
  · rename_i hr
    have hprobes : r.phase.probes = false := by rw [hr]; rfl
    cases hs
    -- the last phase falls back on an expired listing or fails
    split
    · exact h.of_follows rfl FsCache.follows_takeHardExpiredFallback fun hb => Busy.leave hb hi hprobes
    · exact h.of_follows rfl (.refl _ _) fun hb => hb.leave hi hprobes
  · cases hs

/-- A soft refresh that goes on is still there. -/
theorem busy_goSoft {phase phase' : SoftPhase} (hi : s.softs[i]? = some phase) : (s.goSoft i phase').Busy := by
  have hlt := (List.getElem?_eq_some_iff.mp hi).1
  left
  show s.softs.set i phase' ≠ []
  rw [Ne, List.set_eq_nil_iff]
  rintro hnil
  rw [hnil] at hlt
  exact absurd hlt (Nat.not_lt_zero i)

/-- A refresh job ends with the flag down. -/
theorem guarded_endSoft (h : ¬s.Refreshing) : (s.endSoft i).Guarded := fun hr => absurd hr h

/-- Every step of a soft refresh keeps the flag with somebody. -/
theorem Guarded.stepSoft {phase : SoftPhase} (hi : s.softs[i]? = some phase) {a : SoftAction}
    (hs : s.stepSoft i phase a = some s') : s'.Guarded := by
  have hgo : ∀ phase', (s.goSoft i phase').Guarded := fun _ _ => busy_goSoft hi
  unfold DirRefresh.stepSoft at hs
  split at hs
  all_goals cases hs
  all_goals first
    | exact hgo _
    | exact guarded_endSoft (not_refreshing_touch _)
    | exact guarded_endSoft (not_refreshing_put _ _)
    | exact guarded_endSoft not_refreshing_clear

/-- Every event keeps a refresh with somebody who ends it. -/
theorem Guarded.step (h : s.Guarded) {e : DirRefreshEvent} (hmeets : s.NotIgnored e)
    (hs : s.step e = some s') : s'.Guarded := by
  cases e with
  | tick ms =>
    cases hs
    exact h
  | invalidate =>
    cases hs
    exact h.of_follows rfl FsCache.follows_invalidateDir fun hb => hb
  | mark =>
    cases hs
    exact h.of_follows rfl FsCache.follows_markInvalidated fun hb => hb
  | put sent l =>
    -- a listing that arrives ends the refresh whoever asked for it
    simp only [DirRefresh.step] at hs
    split at hs
    · cases hs
      exact guarded_of_not_refreshing (not_refreshing_put sent l)
    · cases hs
  | touch sent =>
    simp only [DirRefresh.step] at hs
    split at hs
    · cases hs
      exact guarded_of_not_refreshing (not_refreshing_touch sent)
    · cases hs
  | confirm =>
    cases hs
    exact h.of_follows rfl FsCache.follows_confirmDirFresh fun hb => hb
  | backdate t =>
    simp only [DirRefresh.step] at hs
    split at hs
    · cases hs
      exact h.of_follows rfl (FsCache.follows_modifyDir fun _ => ⟨fun hf => hf, fun hf => hf⟩) fun hb => hb
    · cases hs
  | edit files =>
    cases hs
    exact h.of_follows rfl (FsCache.follows_modifyDir fun _ => ⟨fun hf => hf, fun hf => hf⟩) fun hb => hb
  | remove =>
    cases hs
    exact h.of_follows rfl FsCache.follows_removeDir fun hb => hb
  | enter optimistic connected configured =>
    -- a reader that enters has no refresh yet, and those before it keep theirs
    cases hs
    refine h.of_follows rfl (.refl _ _) fun hb => ?_
    obtain hsofts | ⟨r, hr, hprobes⟩ := hb
    · exact .inl hsofts
    · exact .inr ⟨r, List.mem_append_left _ hr, hprobes⟩
  | reader i a =>
    obtain ⟨r, hi, hs⟩ := Option.bind_eq_some_iff.mp hs
    exact h.stepReader hi hmeets hs
  | fetch =>
    simp only [DirRefresh.step] at hs
    split at hs
    · cases hs
      exact h
    · cases hs
  | soft i a =>
    obtain ⟨phase, hi, hs⟩ := Option.bind_eq_some_iff.mp hs
    exact Guarded.stepSoft hi hs

/-- And so does a whole run. -/
theorem Guarded.steps {es : List DirRefreshEvent} : ∀ {s s' : DirRefresh}, s.Guarded → s.NeverIgnored es →
    s.steps es = some s' → s'.Guarded := by
  induction es with
  | nil =>
    intro s s' h _ hs
    cases hs
    exact h
  | cons e es ih =>
    intro s s' h hmeets hs
    obtain ⟨s₁, hs₁, hs⟩ := Option.bind_eq_some_iff.mp hs
    have hrest := hmeets.2
    rw [hs₁] at hrest
    exact ih (h.step hmeets.1 hs₁) hrest hs

/-- Over every run of readers, refreshes and other threads in which no ignored call of `get_cached_dir`
finds the listing due: with no refresh job and no expiry probe under way, the listing is not marked
as being refreshed. -/
theorem refreshing_is_owned (path : PathBuf) (cache : FsCache) (now : Nat) (es : List DirRefreshEvent)
    (s : DirRefresh) (hmeets : (start path cache now).NeverIgnored es)
    (hs : (start path cache now).steps es = some s) (hsofts : s.softs = []) (hprobing : ¬s.Probing) :
    ∀ e, s.dir = some e → e.refreshing = false := by
  have hstart : (start path cache now).Guarded := by
    apply guarded_of_not_refreshing
    exact not_refreshing_clear (s := { path := path, cache := cache, now := now })
  have h := hstart.steps hmeets hs
  intro e he
  by_contra hr
  rw [Bool.not_eq_false] at hr
  obtain hbusy | hbusy := h ⟨e, he, hr⟩
  · exact hbusy hsofts
  · exact hprobing hbusy

/-! ## Invalidations -/

/-- The sending mark of the streaming fetch whose listing a reader finds finished. -/
def finds (s : DirRefresh) : PendingFound → Option Nat
  | .finished _ =>
    match s.pending with
    | some (.sent n) => some n
    | _ => none
  | _ => none

/-- The sending mark of the request whose answer the step stores as the listing. -/
def applies (s : DirRefresh) : DirRefreshEvent → Option Nat
  | .put sent _ => some sent
  | .touch sent => some sent
  | .soft i .apply =>
    match s.softs[i]? with
    | some (.touching sent) => some sent
    | some (.storing sent _) => some sent
    | _ => none
  | .reader _ (.checkPending found) | .reader _ (.poll found _) | .reader _ (.drain found) => s.finds found
  | _ => none

/-- No invalidation came while the request whose answer is stored was on its way, unless one sent
since has been answered. -/
def NotOutdated (s : DirRefresh) (e : DirRefreshEvent) : Prop :=
  ∀ sent, s.applies e = some sent → s.invalidations ≤ max sent s.answered

/-- Nothing that is put into the cache in the run was asked for before the last invalidation. -/
def NeverOutdated (s : DirRefresh) : List DirRefreshEvent → Prop
  | [] => True
  | e :: es => s.NotOutdated e ∧ (s.step e).elim True (·.NeverOutdated es)

/-- A listing without a mark was answered for since it was last invalidated. -/
def Trusted (s : DirRefresh) : Prop := s.cache.Unmarked s.path → s.invalidations ≤ s.answered

/-- From `s` to `s'` the mark goes only for the answer `applied`. -/
structure Stores (s s' : DirRefresh) (applied : Option Nat) : Prop where
  path : s'.path = s.path
  invalidations : s'.invalidations = s.invalidations
  answered : s.answered ≤ s'.answered
  unmarked : s'.cache.Unmarked s.path → s.cache.Unmarked s.path ∨ ∃ n, applied = some n ∧ n ≤ s'.answered

/-- A step after which the listing counts as current only if it did before. -/
theorem Stores.of_unmarked {applied : Option Nat} (hpath : s'.path = s.path)
    (hinv : s'.invalidations = s.invalidations) (hans : s.answered ≤ s'.answered)
    (h : s'.cache.Unmarked s.path → s.cache.Unmarked s.path) : Stores s s' applied :=
  ⟨hpath, hinv, hans, fun hm => .inl (h hm)⟩

/-- A step that leaves the cache alone. -/
theorem Stores.of_cache {applied : Option Nat} (hpath : s'.path = s.path)
    (hinv : s'.invalidations = s.invalidations) (hans : s.answered ≤ s'.answered)
    (hcache : s'.cache = s.cache) : Stores s s' applied :=
  .of_unmarked hpath hinv hans fun hm => hcache ▸ hm

/-- The answer to a request is stored. -/
theorem stores_answer (s : DirRefresh) (cache : FsCache) (sent : Nat) :
    Stores s { s.answer sent with cache := cache } (some sent) :=
  ⟨rfl, rfl, Nat.le_max_left _ _, fun _ => .inr ⟨sent, rfl, Nat.le_max_right _ _⟩⟩

/-- A step that stores a listing, followed by one that does not change what counts as current. -/
theorem Stores.follows {applied : Option Nat} {s₁ s₂ : DirRefresh} (h : Stores s s₁ applied)
    (hpath : s₂.path = s₁.path) (hinv : s₂.invalidations = s₁.invalidations) (hans : s₂.answered = s₁.answered)
    (hmark : s₂.cache.Unmarked s₁.path → s₁.cache.Unmarked s₁.path) : Stores s s₂ applied := by
  refine ⟨hpath.trans h.path, hinv.trans h.invalidations, hans ▸ h.answered, fun hm => ?_⟩
  rw [hans]
  have hm₁ : s₂.cache.Unmarked s₁.path := h.path ▸ hm
  have hm : s₁.cache.Unmarked s.path := h.path ▸ hmark hm₁
  exact h.unmarked hm

/-- A listing that is stored, and asked for after the last invalidation, may be trusted. -/
theorem Trusted.stores (h : s.Trusted) {applied : Option Nat} (hs : Stores s s' applied)
    (hmeets : ∀ sent, applied = some sent → s.invalidations ≤ max sent s.answered) : s'.Trusted := by
  intro hm
  rw [hs.path] at hm
  rw [hs.invalidations]
  obtain hold | ⟨n, hn, hle⟩ := hs.unmarked hm
  · exact Nat.le_trans (h hold) hs.answered
  · have hinv := hmeets n hn
    have hans := hs.answered
    omega

theorem unmarked_of_follows {c c' : FsCache} {path : PathBuf} (h : FsCache.Follows c c' path)
    (hm : c'.Unmarked path) : c.Unmarked path := by
  obtain ⟨e', he', hinv⟩ := hm
  obtain ⟨e, he, hkeep, -⟩ := h e' he'
  exact ⟨e, he, hkeep hinv⟩

/-- What is taken out of the pending slot is stored. -/
theorem take_stores {found : PendingFound} (ht : s.take found = some s') :
    Stores s s' (s.finds found) := by
  obtain ⟨hpath, -, -, -, hinv, ⟨hcache, hans, -⟩ | ⟨n, l, rfl, hp, hans, hcache⟩⟩ := take_cases ht
  · exact .of_cache hpath hinv (Nat.le_of_eq hans.symm) hcache
  · refine ⟨hpath, hinv, hans ▸ Nat.le_max_left _ _, fun _ => .inr ⟨n, ?_, hans ▸ Nat.le_max_right _ _⟩⟩
    simp only [finds, hp]

/-- A section that stores no answer. -/
theorem stores_getIgnoring {applied : Option Nat} (h : Stores s s' applied) :
    Stores s (s'.getIgnoring r).2 applied :=
  h.follows rfl rfl rfl FsCache.getCachedDir_unmarked

/-- Looking a directory up stores nothing. -/
theorem lookUp_stores (held accepted : Bool) : Stores s (s.lookUp i r held accepted) none := by
  have hget : Stores s { s with cache := (s.cache.getCachedDir s.path s.now r.ttl r.maxStale).2 } none :=
    .of_unmarked rfl rfl (Nat.le_refl _) FsCache.getCachedDir_unmarked
  unfold lookUp
  dsimp only
  split
  · exact hget.follows rfl rfl rfl fun hm => hm
  · exact hget.follows rfl rfl rfl fun hm => hm
  · split
    · exact hget.follows rfl rfl rfl FsCache.unmarked_clearRefreshing
    · exact hget.follows rfl rfl rfl fun hm => hm

/-- Nor does checking what has expired. -/
theorem checkExpiry_stores (blocked : Bool) : Stores s (s.checkExpiry i r blocked) none := by
  have hkept : ∀ phase, Stores s (s.go i r phase) none := fun _ => .of_cache rfl rfl (Nat.le_refl _) rfl
  unfold checkExpiry
  split
  · split
    · exact .of_cache rfl rfl (Nat.le_refl _) rfl
    · exact hkept _
  · split
    · split
      · split
        · exact .of_unmarked rfl rfl (Nat.le_refl _) fun hm => FsCache.unmarked_modifyDir hm fun _ => rfl
        · exact hkept _
      · exact hkept _
    · exact hkept _

/-- The expiry probe leaves the mark of an invalidation that came meanwhile. -/
theorem applyProbe_stores (unchanged : Bool) : Stores s (s.applyProbe i r unchanged) none := by
  unfold applyProbe
  split
  · dsimp only
    split
    all_goals exact .of_unmarked rfl rfl (Nat.le_refl _) fun hm =>
      unmarked_of_follows FsCache.follows_confirmDirFresh (FsCache.unmarked_clearRefreshing hm)
  · exact .of_unmarked rfl rfl (Nat.le_refl _) FsCache.unmarked_clearRefreshing

/-- A look into the pending slot stores what it finds. -/
theorem checkPending_stores {found : PendingFound} (hs : s.checkPending i r found = some s') :
    Stores s s' (s.finds found) := by
  obtain ⟨s₁, ht, rfl⟩ := Option.map_eq_some_iff.mp hs
  have h₁ := take_stores ht
  split
  · exact h₁.follows rfl rfl rfl fun hm => hm
  · split
    · exact h₁.follows rfl rfl rfl fun hm => hm
    · exact h₁.follows rfl rfl rfl fun hm => hm

/-- Starting a fetch stores nothing. -/
theorem startFetch_stores (accepted : Bool) : Stores s (s.startFetch i r accepted) none := by
  have hrefl : Stores s s none := .of_cache rfl rfl (Nat.le_refl _) rfl
  unfold startFetch
  dsimp only
  have hget : Stores s (if s.dir.isSome then s.getIgnoring r else (false, s)).2 none := by
    split
    · exact stores_getIgnoring hrefl
    · exact hrefl
  generalize (if s.dir.isSome then s.getIgnoring r else (false, s)) = got at hget ⊢
  split
  · exact hget.follows rfl rfl rfl fun hm => hm
  · split
    · exact hget.follows rfl rfl rfl fun hm => hm
    · split
      · exact hget.follows rfl rfl rfl fun hm => hm
      · exact hget.follows rfl rfl rfl fun hm => hm

/-- Polling stores what was found in the slot. -/
theorem poll_stores {wasInvalidated late : Bool} {found : PendingFound}
    (hs : s.poll i r wasInvalidated found late = some s') : Stores s s' (s.finds found) := by
  obtain ⟨s₁, ht, rfl⟩ := Option.map_eq_some_iff.mp hs
  -- first the slot, then the note that the path is no directory, then the lookup
  have h₁ := take_stores ht
  have h₂ : Stores s s₁.takeNotDir.2 (s.finds found) := h₁.follows rfl rfl rfl fun hm => hm
  have h₃ := stores_getIgnoring (r := r) h₂
  split
  · exact h₁.follows rfl rfl rfl fun hm => hm
  · split
    · exact h₁.follows rfl rfl rfl fun hm => hm
    · dsimp only
      split
      · exact h₂.follows rfl rfl rfl fun hm => hm
      · split
        · split
          · exact h₃.follows rfl rfl rfl fun hm => hm
          · exact h₃.follows rfl rfl rfl fun hm => hm
        · split
          · exact h₂.follows rfl rfl rfl fun hm => hm
          · exact h₂.follows rfl rfl rfl fun hm => hm

/-- So does the last look into the slot. -/
theorem drain_stores {wasInvalidated : Bool} {found : PendingFound}
    (hs : s.drain i r wasInvalidated found = some s') : Stores s s' (s.finds found) := by
  obtain ⟨s₁, ht, rfl⟩ := Option.map_eq_some_iff.mp hs
  have h₁ := take_stores ht
  have h₂ : Stores s s₁.takeNotDir.2 (s.finds found) := h₁.follows rfl rfl rfl fun hm => hm
  have h₃ := stores_getIgnoring (r := r) h₂
  split
  · dsimp only
    split
    · exact h₂.follows rfl rfl rfl fun hm => hm
    · split
      · exact h₃.follows rfl rfl rfl fun hm => hm
      · exact h₃.follows rfl rfl rfl fun hm => hm
  · split
    · exact h₁.follows rfl rfl rfl fun hm => hm
    · exact h₁.follows rfl rfl rfl fun hm => hm
  · exact h₁.follows rfl rfl rfl fun hm => hm

/-- A reader's turn stores what it applies. -/
theorem stepReader_stores {a : ReadAction} (hs : s.stepReader i r a = some s') :
    Stores s s' (s.applies (.reader i a)) := by
  have hkept : ∀ phase, Stores s (s.go i r phase) none := fun _ => .of_cache rfl rfl (Nat.le_refl _) rfl
  unfold stepReader at hs
  split at hs
  · cases hs
    exact lookUp_stores _ _
  · cases hs
    exact checkExpiry_stores _
  · cases hs
    exact hkept _
  · cases hs
    exact hkept _
  · cases hs
    exact hkept _
  · cases hs
    exact .of_cache rfl rfl (Nat.le_max_left _ _) rfl
  · -- the probe's answer is the one turn that stores without looking into the slot
    cases hs
    exact applyProbe_stores _
  · exact checkPending_stores hs
  · cases hs
    exact startFetch_stores _
  · exact poll_stores hs
  · exact drain_stores hs
  · cases hs
    split
    · exact .of_unmarked rfl rfl (Nat.le_refl _) (unmarked_of_follows FsCache.follows_takeHardExpiredFallback)
    · exact .of_cache rfl rfl (Nat.le_refl _) rfl
  · cases hs

/-- So does a step of a soft refresh. -/
theorem stepSoft_stores {phase : SoftPhase} (hi : s.softs[i]? = some phase) {a : SoftAction}
    (hs : s.stepSoft i phase a = some s') : Stores s s' (s.applies (.soft i a)) := by
  have hkept : ∀ phase' applied, Stores s (s.goSoft i phase') applied :=
    fun _ _ => .of_cache rfl rfl (Nat.le_refl _) rfl
  have hanswered : ∀ sent phase' applied, Stores s ((s.answer sent).goSoft i phase') applied :=
    fun _ _ _ => .of_cache rfl rfl (Nat.le_max_left _ _) rfl
  unfold stepSoft at hs
  split at hs
  -- the two steps that put an answer into the cache
  case h_12 =>
    cases hs
    simp only [applies, hi]
    exact (stores_answer s _ _).follows rfl rfl rfl fun hm => hm
  case h_13 =>
    cases hs
    simp only [applies, hi]
    exact (stores_answer s _ _).follows rfl rfl rfl fun hm => hm
  -- giving up only clears the flag
  case h_14 =>
    cases hs
    exact .of_unmarked rfl rfl (Nat.le_refl _) FsCache.unmarked_clearRefreshing
  all_goals cases hs
  all_goals first
    | exact hkept _ _
    | exact hanswered _ _ _

/-- Every event keeps the listing that counts as current one that may be trusted. -/
theorem Trusted.step (h : s.Trusted) {e : DirRefreshEvent} (hmeets : s.NotOutdated e)
    (hs : s.step e = some s') : s'.Trusted := by
  cases e with
  | tick ms =>
    cases hs
    exact h
  | invalidate =>
    cases hs
    -- an invalidated entry does not count as current
    rintro ⟨e, he, hinv⟩
    have he : (s.cache.invalidateDir s.path).dir s.path = some e := he
    unfold FsCache.invalidateDir at he
    rw [FsCache.dir_modifyDir, if_pos rfl] at he
    obtain ⟨e', -, rfl⟩ := Option.map_eq_some_iff.mp he
    cases hinv
  | mark =>
    cases hs
    exact fun hm => absurd rfl (FsCache.unmarked_markInvalidated hm).1
  | put sent l =>
    -- a listing and a confirmation are as new as the request they answer
    simp only [DirRefresh.step] at hs
    split at hs
    · cases hs
      exact h.stores (stores_answer s _ sent) hmeets
    · cases hs
  | touch sent =>
    simp only [DirRefresh.step] at hs
    split at hs
    · cases hs
      exact h.stores (stores_answer s _ sent) hmeets
    · cases hs
  | confirm =>
    cases hs
    exact fun hm => h (unmarked_of_follows FsCache.follows_confirmDirFresh hm)
  | backdate t =>
    simp only [DirRefresh.step] at hs
    split at hs
    · cases hs
      exact fun hm => h (FsCache.unmarked_modifyDir hm fun _ => rfl)
    · cases hs
  | edit files =>
    cases hs
    exact fun hm => h (FsCache.unmarked_modifyDir hm fun _ => rfl)
  | remove =>
    cases hs
    exact fun hm => h (unmarked_of_follows FsCache.follows_removeDir hm)
  | enter optimistic connected configured =>
    cases hs
    exact h
  | reader i a =>
    obtain ⟨r, hi, hs⟩ := Option.bind_eq_some_iff.mp hs
    exact h.stores (stepReader_stores hs) hmeets
  | fetch =>
    simp only [DirRefresh.step] at hs
    split at hs
    · cases hs
      exact h
    · cases hs
  | soft i a =>
    obtain ⟨phase, hi, hs⟩ := Option.bind_eq_some_iff.mp hs
    exact h.stores (stepSoft_stores hi hs) hmeets

/-- And so does a whole run. -/
theorem Trusted.steps {es : List DirRefreshEvent} : ∀ {s s' : DirRefresh}, s.Trusted → s.NeverOutdated es →
    s.steps es = some s' → s'.Trusted := by
  induction es with
  | nil =>
    intro s s' h _ hs
    cases hs
    exact h
  | cons e es ih =>
    intro s s' h hmeets hs
    obtain ⟨s₁, hs₁, hs⟩ := Option.bind_eq_some_iff.mp hs
    have hrest := hmeets.2
    rw [hs₁] at hrest
    exact ih (h.step hmeets.1 hs₁) hrest hs

/-- What `get_cached_dir` serves has no mark. -/
theorem unmarked_of_served {c : FsCache} {path : PathBuf} {now ttl : Nat} {maxStale : Option Nat}
    (h : (c.getCachedDir path now ttl maxStale).1.isSome = true) : c.Unmarked path := by
  unfold FsCache.getCachedDir at h
  dsimp only at h
  split at h
  · cases h
  · rename_i e he
    split at h
    · cases h
    · rename_i hserved
      simp only [Bool.or_eq_true, not_or, Bool.not_eq_true] at hserved
      exact ⟨e, he, hserved.1⟩

/-- A listing of `/d`, a minute old. -/
def minuteOld : DirRefresh :=
  start ["d"]
    { dirCache := (∅ : AList fun _ : PathBuf => DirCacheEntry).insert ["d"] { files := [], etag := some "v1" } }
    60000

/-- A reader finds it due; an invalidation comes before the refresh asks the server. -/
def refreshedAfter : List DirRefreshEvent :=
  [.enter false false none, .reader 0 (.lookUp false true), .invalidate, .soft 0 .read, .soft 0 .send,
    .soft 0 (.token (.ok (some "v1"))), .soft 0 .apply]

/-- A refresh that was asked for and answered leaves the flag cleared. -/
theorem finished_refresh_leaves_no_flag :
    ∃ s e, minuteOld.steps refreshedAfter = some s ∧ s.dir = some e ∧ e.at = 60000 ∧ e.refreshing = false := by
  obtain ⟨s, e, hs, hsofts, hprobing, he, hat⟩ : ∃ s e, minuteOld.steps refreshedAfter = some s ∧
      s.softs = [] ∧ ¬s.Probing ∧ s.dir = some e ∧ e.at = 60000 := by
    refine ⟨_, _, rfl, rfl, ?_, rfl, rfl⟩
    rintro ⟨r, hr, -⟩
    exact absurd hr List.not_mem_nil
  have hmeets : minuteOld.NeverIgnored refreshedAfter :=
    ⟨trivial, trivial, trivial, trivial, trivial, trivial, trivial, trivial⟩
  exact ⟨s, e, hs, he, hat, refreshing_is_owned _ _ _ refreshedAfter s hmeets hs hsofts hprobing e he⟩

/-- A listing of `/d` past its maximal age of an hour. -/
def expiredListing : DirRefresh := { minuteOld with now := 7200000 }

/-- A first reader probes for the etag and gets no answer for fourteen seconds; a second one lists the
directory meanwhile. The first finds that listing due, and the flag it sets stays. -/
theorem ignored_refresh_leaks :
    ∃ s e, expiredListing.steps
        [.enter false false (some 3600000), .reader 0 (.lookUp false true), .reader 0 (.checkExpiry false),
          .reader 0 .sendProbe, .enter false false (some 3600000), .reader 1 (.lookUp false true),
          .reader 1 (.checkExpiry false), .reader 1 (.checkPending .nothing), .reader 1 (.startFetch true),
          .fetch, .reader 1 (.poll (.finished { etag := some "v2" }) false), .tick 14000,
          .reader 0 (.probeAnswer none), .reader 0 .applyProbe, .reader 0 (.checkPending .nothing),
          .reader 0 (.startFetch true)] = some s ∧
      s.softs = [] ∧ ¬s.Probing ∧ s.dir = some e ∧ e.refreshing = true := by
  refine ⟨_, _, rfl, rfl, ?_, rfl, rfl⟩
  rintro ⟨r, hr, -⟩
  exact absurd hr List.not_mem_nil

end DirRefresh

end Ncrs
