import Ncrs.ForStd.AList
import Ncrs.Native.DirCacheFile

/-!
# Which distrust survives a restart

What `saveDirCacheNow` and then `loadDirCache` make of the cached listings. Entries, self entry,
etag and fetch second come back, and of too many listings those fetched last. The flags do not: of
what made `getCachedDir` refuse a listing only its age is left, counted from the fetch second.

## Key results

- `FsCache.dir_loadDirCache`: what the started cache holds.
- `DirCacheEntry.Forgotten`: a listing refused for another reason than an age the file keeps.
- `FsCache.restart_keeps_distrust_iff`: a restart owes no listing its distrust if and only if none
  of those that may be restored is forgotten.
-/

namespace Ncrs

/-! ## Which listings are refused -/

/-- Past its maximum age, or from the future. -/
def TooOld (fetchedAt now : Nat) (maxStale : Option Nat) : Prop :=
  ∃ max, maxStale = some max ∧ (now < fetchedAt ∨ max ≤ now - fetchedAt)

namespace DirCacheEntry

/-- The retry window after a failed probe of a hard-expired listing is open. -/
def InRetryWindow (d : DirCacheEntry) (now : Nat) : Prop :=
  ∃ t, d.expiryRetryAfter = some t ∧ now < t

/-- `getCachedDir` does not serve the listing. -/
def Refused (d : DirCacheEntry) (now : Nat) (maxStale : Option Nat) : Prop :=
  d.invalidated = true ∨ d.hardExpired = true ∨
    (¬d.InRetryWindow now ∧ TooOld d.fetchedAt now maxStale)

/-- The fetch time as the file keeps it. -/
def keptFetchTime (d : DirCacheEntry) : Nat := d.fetchedAt / 1000 * 1000

/-- The listing is marked or from the future, and not past its maximum age counted from the second
    of its fetch. -/
def Forgotten (d : DirCacheEntry) (now : Nat) (maxStale : Option Nat) : Prop :=
  (d.invalidated = true ∨ d.hardExpired = true ∨
    (¬d.InRetryWindow now ∧ maxStale.isSome ∧ now < d.fetchedAt)) ∧
  ∀ max, maxStale = some max → 0 < max ∧ now < d.keptFetchTime + max

end DirCacheEntry

namespace FsCache

variable {c : FsCache} {path : PathBuf}

theorem getCachedDir_eq_none_iff {now ttl : Nat} {maxStale : Option Nat} :
    (c.getCachedDir path now ttl maxStale).1 = none ↔
      ∀ d, c.dir path = some d → d.Refused now maxStale := by
  unfold getCachedDir
  cases hd : c.dir path with
  | none => simp
  | some d =>
    have hretry : (d.expiryRetryAfter.any fun t => decide (now < t)) = true ↔ d.InRetryWindow now := by
      simp [DirCacheEntry.InRetryWindow, Option.any_eq_true]
    have hold : (maxStale.any fun max => decide (now < d.fetchedAt) || decide (max ≤ now - d.fetchedAt))
        = true ↔ TooOld d.fetchedAt now maxStale := by
      simp [TooOld, Option.any_eq_true]
    simp only [Option.some.injEq, forall_eq', DirCacheEntry.Refused, ← hretry, ← hold]
    cases d.invalidated <;> cases d.hardExpired <;> simp
    all_goals split <;> simp_all
    all_goals split <;> simp_all

end FsCache

/-! ## The restored listings -/

/-- A listing as `load_dir_cache` puts it into the cache. -/
structure PersistedDirEntry.RestoredAs (v : PersistedDirEntry) (d : DirCacheEntry) : Prop where
  files : d.files = v.files
  selfEntry : d.selfEntry = v.selfEntry
  etag : d.etag = v.etag
  fetchedAt : d.fetchedAt = (v.fetchedAt.map (· * 1000)).getD 0
  invalidated : d.invalidated = false
  hardExpired : d.hardExpired = false
  expiryRetryAfter : d.expiryRetryAfter = none

namespace FsCache

variable {c : FsCache} {now : Nat} {xs : List PersistedDir}

theorem restoreDir_of_absent {x : PersistedDir} (h : c.dir x.1 = none) :
    ∃ d, x.2.RestoredAs d ∧ c.restoreDir now x =
      { c with accessTick := c.accessTick + 1, dirCache := c.dirCache.insert x.1 d } := by
  refine ⟨_, ?_, by rw [restoreDir, if_neg (by simp [h])]⟩
  constructor <;> rfl

theorem restoreDir_dirCacheMaxDirs (c : FsCache) (now : Nat) (x : PersistedDir) :
    (c.restoreDir now x).dirCacheMaxDirs = c.dirCacheMaxDirs := by
  unfold restoreDir
  split <;> rfl

/-- What the insert loop leaves in the cache when none of the listings was there. -/
theorem dir_foldl_restoreDir (hxs : xs.NodupKeys) (hc : ∀ x ∈ xs, c.dir x.1 = none) :
    (∀ p d, (xs.foldl (restoreDir now) c).dir p = some d →
      c.dir p = some d ∨ ∃ x ∈ xs, x.1 = p ∧ x.2.RestoredAs d) ∧
    (∀ p, (c.dir p).isSome ∨ p ∈ xs.keys → ((xs.foldl (restoreDir now) c).dir p).isSome) ∧
    (xs.foldl (restoreDir now) c).dirCache.entries.length =
      c.dirCache.entries.length + xs.length := by
  induction xs generalizing c with
  | nil => simp [List.keys]
  | cons x xs ih =>
    have hx := hc x List.mem_cons_self
    obtain ⟨d, hd, hstep⟩ := restoreDir_of_absent hx
    obtain ⟨hnotin, hxs⟩ := List.nodupKeys_cons.mp hxs
    have hdir : ∀ p, (c.restoreDir now x).dir p = if p = x.1 then some d else c.dir p := by
      intro p
      rw [hstep]
      exact AList.lookup_insert_eq_ite _ _ _ _
    have hlen : (c.restoreDir now x).dirCache.entries.length = c.dirCache.entries.length + 1 := by
      have hnew : x.1 ∉ c.dirCache := AList.lookup_eq_none.mp hx
      rw [hstep, AList.entries_insert_of_notMem hnew, List.length_cons]
    have hrest : ∀ y ∈ xs, (c.restoreDir now x).dir y.1 = none := by
      intro y hy
      have hne : y.1 ≠ x.1 := by
        intro heq
        exact hnotin (heq ▸ List.mem_map_of_mem hy)
      rw [hdir, if_neg hne]
      exact hc y (List.mem_cons_of_mem _ hy)
    obtain ⟨hfrom, hto, htotal⟩ := ih hxs hrest
    simp only [List.foldl_cons]
    refine ⟨?_, ?_, ?_⟩
    · intro p e he
      obtain he | ⟨y, hy, hyp, hye⟩ := hfrom p e he
      · rw [hdir] at he
        split at he
        · rename_i hp
          obtain rfl := Option.some.inj he
          exact .inr ⟨x, List.mem_cons_self, hp.symm, hd⟩
        · exact .inl he
      · exact .inr ⟨y, List.mem_cons_of_mem _ hy, hyp, hye⟩
    · intro p hp
      apply hto
      rw [hdir]
      by_cases hpx : p = x.1
      · simp [hpx]
      · simp only [List.keys_cons, List.mem_cons, hpx, false_or] at hp
        simpa [hpx] using hp
    · rw [htotal, hlen, List.length_cons]
      omega

/-! ## The selection -/

theorem newestFirst_trans (a b c : PersistedDir) (hab : newestFirst a b) (hbc : newestFirst b c) :
    newestFirst a c := by
  simp only [newestFirst, decide_eq_true_eq] at *
  omega

theorem newestFirst_total (a b : PersistedDir) : newestFirst a b || newestFirst b a := by
  simp only [newestFirst, Bool.or_eq_true, decide_eq_true_eq]
  omega

variable {max : Nat} {s : Shuffle PersistedDir} {file : DirCacheFile}

theorem mem_of_mem_restorable {x : PersistedDir} (h : x ∈ restorable max s file) :
    x ∈ file.entries := by
  unfold restorable at h
  split at h
  · exact (s.sortUnstableBy_perm _ _).mem_iff.mp (List.mem_of_mem_take h)
  · exact h

theorem restorable_nodupKeys (max : Nat) (s : Shuffle PersistedDir) (file : DirCacheFile) :
    (restorable max s file).NodupKeys := by
  unfold restorable
  split
  · have hsorted : (s.sortUnstableBy newestFirst file.entries).NodupKeys :=
      (List.perm_nodupKeys (s.sortUnstableBy_perm _ _)).mpr file.nodupKeys
    exact hsorted.sublist (List.take_sublist _ _)
  · exact file.nodupKeys

theorem restorable_length (max : Nat) (s : Shuffle PersistedDir) (file : DirCacheFile) :
    (restorable max s file).length =
      if max = 0 then file.entries.length else min file.entries.length max := by
  have hperm := (s.sortUnstableBy_perm newestFirst file.entries).length_eq
  unfold restorable
  split <;> rename_i h <;> simp only [Bool.and_eq_true, decide_eq_true_eq] at h
  · rw [List.length_take, hperm, if_neg (by omega)]
    omega
  · split <;> omega

/-- What is dropped was not fetched after anything that is kept. -/
theorem newest_restorable {x y : PersistedDir} (hx : x ∈ restorable max s file)
    (hy : y ∈ file.entries) (hny : y ∉ restorable max s file) : newestFirst x y := by
  unfold restorable at hx hny
  split at hx
  · rename_i h
    rw [if_pos h] at hny
    exact s.le_of_mem_take newestFirst_trans newestFirst_total hx hy hny
  · rename_i h
    rw [if_neg h] at hny
    exact absurd hy hny

/-! ## After a restart -/

theorem mem_snapshot {x : PersistedDir} :
    x ∈ c.snapshot.entries ↔ ∃ d, c.dir x.1 = some d ∧ d.persisted = x.2 := by
  simp only [snapshot, List.mem_map]
  constructor
  · intro ⟨y, hy, hyx⟩
    subst hyx
    exact ⟨y.2, AList.mem_lookup_iff.mpr hy, rfl⟩
  · intro ⟨d, hd, hxd⟩
    refine ⟨⟨x.1, d⟩, AList.mem_lookup_iff.mp hd, ?_⟩
    rw [persistedDir, hxd]

/-- Fewer than `max` listings were fetched in a later second, or there is no limit. -/
def MayComeBack (c : FsCache) (max : Nat) (d : DirCacheEntry) : Prop :=
  max = 0 ∨
    (c.dirCache.entries.filter fun x => decide (d.fetchedAt / 1000 < x.2.fetchedAt / 1000)).length < max

variable {s₁ s₂ : Shuffle PersistedDir} {loadedAt : Nat}

/-- What the started cache holds. -/
theorem dir_loadDirCache (c : FsCache) (max : Nat) (s₁ s₂ : Shuffle PersistedDir) (loadedAt : Nat) :
    let c' := (startup max).loadDirCache s₁ s₂ loadedAt (some c.snapshot)
    (∀ p d', c'.dir p = some d' → ∃ d, c.dir p = some d ∧
      ⟨p, d.persisted⟩ ∈ restorable max s₁ c.snapshot ∧ d.persisted.RestoredAs d') ∧
    (∀ x ∈ restorable max s₁ c.snapshot, (c'.dir x.1).isSome) ∧
    c'.dirCache.entries.length =
      if max = 0 then c.dirCache.entries.length else min c.dirCache.entries.length max := by
  intro c'
  have hperm := s₂.sortUnstableBy_perm oldestFirst (restorable max s₁ c.snapshot)
  have hnodup := (List.perm_nodupKeys hperm).mpr (restorable_nodupKeys max s₁ c.snapshot)
  obtain ⟨hfrom, hto, hlen⟩ := dir_foldl_restoreDir (c := startup max) hnodup
    fun _ _ => rfl
  refine ⟨?_, ?_, ?_⟩
  · intro p d' hd'
    obtain hnone | ⟨x, hx, rfl, hrestored⟩ := hfrom p d' hd'
    · cases hnone
    · have hx' := hperm.mem_iff.mp hx
      obtain ⟨d, hd, hxd⟩ := mem_snapshot.mp (mem_of_mem_restorable hx')
      exact ⟨d, hd, by rw [hxd]; exact hx', by rw [hxd]; exact hrestored⟩
  · intro x hx
    exact hto x.1 (.inr (List.mem_map_of_mem (hperm.mem_iff.mpr hx)))
  · rw [show c'.dirCache.entries.length = _ from hlen, hperm.length_eq, restorable_length]
    simp [startup, snapshot]

/-- The members of the file that a listing has strictly before it. -/
theorem filter_newer (c : FsCache) (p : PathBuf) (d : DirCacheEntry) :
    (c.snapshot.entries.filter fun y => !newestFirst ⟨p, d.persisted⟩ y) =
      (c.dirCache.entries.filter fun x =>
        decide (d.fetchedAt / 1000 < x.2.fetchedAt / 1000)).map persistedDir := by
  rw [snapshot, List.filter_map]
  congr 2
  funext x
  rw [Bool.eq_iff_iff]
  simp [newestFirst, persistedDir, DirCacheEntry.persisted, fetchRank]

/-- Some order of equal fetch times brings such a listing back. -/
theorem mem_restorable_first {p : PathBuf} {d : DirCacheEntry} (hd : c.dir p = some d)
    (hmay : c.MayComeBack max d) :
    (⟨p, d.persisted⟩ : PersistedDir) ∈ restorable max (.first ⟨p, d.persisted⟩) c.snapshot := by
  have hmem : (⟨p, d.persisted⟩ : PersistedDir) ∈ c.snapshot.entries := mem_snapshot.mpr ⟨d, hd, rfl⟩
  unfold restorable
  split
  · rename_i h
    simp only [Bool.and_eq_true, decide_eq_true_eq] at h
    apply Shuffle.mem_take_first newestFirst_trans newestFirst_total hmem
    -- strictly before it stand the listings of a later second
    obtain hmax | hlt := hmay
    · omega
    · rwa [filter_newer, List.length_map]
  · exact hmem

theorem mayComeBack_of_mem_restorable {p : PathBuf} {d : DirCacheEntry}
    (h : (⟨p, d.persisted⟩ : PersistedDir) ∈ restorable max s₁ c.snapshot) :
    c.MayComeBack max d := by
  by_cases hmax : max = 0
  · exact .inl hmax
  right
  -- whatever was fetched in a later second is kept too
  let newer := c.snapshot.entries.filter fun y => !newestFirst ⟨p, d.persisted⟩ y
  have hnewer : newer.length = (c.dirCache.entries.filter fun x =>
      decide (d.fetchedAt / 1000 < x.2.fetchedAt / 1000)).length := by
    rw [← List.length_map persistedDir, ← filter_newer]
  have hnodup : ((⟨p, d.persisted⟩ : PersistedDir) :: newer).Nodup := by
    refine List.nodup_cons.mpr ⟨?_, (c.snapshot.nodupKeys.nodup).filter _⟩
    simp [newer, newestFirst]
  have hsub : (⟨p, d.persisted⟩ : PersistedDir) :: newer ⊆ restorable max s₁ c.snapshot := by
    intro y hy
    obtain rfl | hy := List.mem_cons.mp hy
    · exact h
    · obtain ⟨hmem, hlater⟩ := List.mem_filter.mp hy
      by_contra hdropped
      simp [newest_restorable h hmem hdropped] at hlater
  have hle := (hnodup.subperm hsub).length_le
  rw [List.length_cons, restorable_length, if_neg hmax] at hle
  omega

end FsCache

namespace DirCacheEntry

variable {d d' : DirCacheEntry} {now : Nat} {maxStale : Option Nat}

theorem refused_restored_iff (h : d.persisted.RestoredAs d') {t : Nat} :
    d'.Refused t maxStale ↔ TooOld d.keptFetchTime t maxStale := by
  have hfetched : d'.fetchedAt = d.keptFetchTime := h.fetchedAt
  simp [Refused, InRetryWindow, h.invalidated, h.hardExpired, h.expiryRetryAfter, hfetched]

/-- What it takes for a restored listing never to be served again. -/
theorem always_refused_iff (h : d.persisted.RestoredAs d') :
    (∀ t, now ≤ t → d'.Refused t maxStale) ↔
      ∃ max, maxStale = some max ∧ (max = 0 ∨ d.keptFetchTime + max ≤ now) := by
  simp only [refused_restored_iff h, TooOld]
  constructor
  · intro hrefused
    -- the first moment at which the kept fetch time is not in the future
    obtain ⟨limit, hlimit, hold⟩ := hrefused (max now d.keptFetchTime) (Nat.le_max_left _ _)
    exact ⟨limit, hlimit, by omega⟩
  · intro ⟨limit, hlimit, hold⟩ t ht
    exact ⟨limit, hlimit, by omega⟩

theorem keptFetchTime_le (d : DirCacheEntry) : d.keptFetchTime ≤ d.fetchedAt :=
  Nat.div_mul_le_self _ _

/-- A refused listing is forgotten unless its kept age alone refuses it. -/
theorem forgotten_iff (h : d.persisted.RestoredAs d') (hrefused : d.Refused now maxStale) :
    d.Forgotten now maxStale ↔ ¬∀ t, now ≤ t → d'.Refused t maxStale := by
  rw [always_refused_iff h]
  have hkept := d.keptFetchTime_le
  constructor
  · intro hforgotten hold
    obtain ⟨max, hmax, hold⟩ := hold
    have := hforgotten.2 max hmax
    omega
  · intro hnot
    refine ⟨?_, ?_⟩
    · obtain hinv | hexp | ⟨hretry, max, hmax, hold⟩ := hrefused
      · exact .inl hinv
      · exact .inr (.inl hexp)
      · right; right
        refine ⟨hretry, by simp [hmax], ?_⟩
        by_contra hpast
        exact hnot ⟨max, hmax, by omega⟩
    · intro max hmax
      by_contra hold
      exact hnot ⟨max, hmax, by omega⟩

end DirCacheEntry

/-- A forgotten listing is refused before the restart. -/
theorem DirCacheEntry.Forgotten.refused {d : DirCacheEntry} {now : Nat} {maxStale : Option Nat}
    (h : d.Forgotten now maxStale) : d.Refused now maxStale := by
  obtain hinv | hexp | ⟨hretry, hsome, hfuture⟩ := h.1
  · exact .inl hinv
  · exact .inr (.inl hexp)
  · obtain ⟨max, hmax⟩ := Option.isSome_iff_exists.mp hsome
    exact .inr (.inr ⟨hretry, max, hmax, .inl hfuture⟩)

namespace FsCache

/-- What the cache `c'` of the started program owes the cache `c` that was saved at `now`. -/
structure KeepsDistrust (c c' : FsCache) (now : Nat) (maxStale : Option Nat) : Prop where
  same : ∀ p d', c'.dir p = some d' → ∃ d, c.dir p = some d ∧ d'.files = d.files ∧
    d'.selfEntry = d.selfEntry ∧ d'.etag = d.etag ∧ d'.fetchedAt / 1000 = d.fetchedAt / 1000
  count : c'.dirCache.entries.length =
    if c'.dirCacheMaxDirs = 0 then c.dirCache.entries.length
    else min c.dirCache.entries.length c'.dirCacheMaxDirs
  newest : ∀ p d q e, c.dir p = some d → (c'.dir p).isSome → c.dir q = some e → c'.dir q = none →
    e.fetchedAt / 1000 ≤ d.fetchedAt / 1000
  distrusted : ∀ p ttl, (c.getCachedDir p now ttl maxStale).1 = none →
    ∀ t ttl', now ≤ t → (c'.getCachedDir p t ttl' maxStale).1 = none

variable {c : FsCache}

theorem loadDirCache_dirCacheMaxDirs (c : FsCache) (s₁ s₂ : Shuffle PersistedDir) (now : Nat)
    (file : Option DirCacheFile) : (c.loadDirCache s₁ s₂ now file).dirCacheMaxDirs = c.dirCacheMaxDirs := by
  cases file with
  | none => rfl
  | some file =>
    exact List.foldlRecOn (motive := fun b : FsCache => b.dirCacheMaxDirs = c.dirCacheMaxDirs) _ _ rfl
      fun b hb x _ => (restoreDir_dirCacheMaxDirs b now x).trans hb

theorem restart_keeps_distrust_iff (c : FsCache) (max loadedAt now : Nat) (maxStale : Option Nat)
    (old : Option DirCacheFile) :
    (∀ s₁ s₂, c.KeepsDistrust
        ((startup max).loadDirCache s₁ s₂ loadedAt (c.saveDirCacheNow .renamed old)) now maxStale) ↔
      ∀ p d, c.dir p = some d → c.MayComeBack max d → ¬d.Forgotten now maxStale := by
  simp only [saveDirCacheNow]
  constructor
  · intro hkeeps p d hd hmay hforgotten
    have h := hkeeps (.first ⟨p, d.persisted⟩) (.first ⟨p, d.persisted⟩)
    obtain ⟨hfrom, hto, -⟩ := dir_loadDirCache c max (.first ⟨p, d.persisted⟩)
      (.first ⟨p, d.persisted⟩) loadedAt
    obtain ⟨d', hd'⟩ := Option.isSome_iff_exists.mp (hto _ (mem_restorable_first hd hmay))
    obtain ⟨d₂, hd₂, -, hrestored⟩ := hfrom p d' hd'
    obtain rfl : d = d₂ := Option.some.inj (hd.symm.trans hd₂)
    have hnone : (c.getCachedDir p now 0 maxStale).1 = none := by
      rw [getCachedDir_eq_none_iff]
      intro d₂ hd₂
      obtain rfl : d = d₂ := Option.some.inj (hd.symm.trans hd₂)
      exact hforgotten.refused
    apply (DirCacheEntry.forgotten_iff hrestored hforgotten.refused).mp hforgotten
    intro t ht
    exact getCachedDir_eq_none_iff.mp (h.distrusted p 0 hnone t 0 ht) d' hd'
  · intro hnone s₁ s₂
    obtain ⟨hfrom, hto, hcount⟩ := dir_loadDirCache c max s₁ s₂ loadedAt
    refine ⟨?_, ?_, ?_, ?_⟩
    · intro p d' hd'
      obtain ⟨d, hd, -, hrestored⟩ := hfrom p d' hd'
      refine ⟨d, hd, hrestored.files, hrestored.selfEntry, hrestored.etag, ?_⟩
      rw [hrestored.fetchedAt]
      exact Nat.mul_div_cancel _ (by decide)
    · rw [loadDirCache_dirCacheMaxDirs]
      exact hcount
    · intro p d q e hd hp he hq
      obtain ⟨d', hd'⟩ := Option.isSome_iff_exists.mp hp
      obtain ⟨d₂, hd₂, hmem, -⟩ := hfrom p d' hd'
      obtain rfl : d = d₂ := Option.some.inj (hd.symm.trans hd₂)
      have hdropped : (⟨q, e.persisted⟩ : PersistedDir) ∉ restorable max s₁ c.snapshot := by
        intro hkept
        have := hto _ hkept
        simp [hq] at this
      have hle := newest_restorable hmem (mem_snapshot.mpr ⟨e, he, rfl⟩) hdropped
      simpa [newestFirst, DirCacheEntry.persisted, fetchRank] using hle
    · intro p ttl hrefused t ttl' ht
      rw [getCachedDir_eq_none_iff] at hrefused ⊢
      intro d' hd'
      obtain ⟨d, hd, hmem, hrestored⟩ := hfrom p d' hd'
      have hnot := hnone p d hd (mayComeBack_of_mem_restorable hmem)
      rw [DirCacheEntry.forgotten_iff hrestored (hrefused d hd), not_not] at hnot
      exact hnot t ht

/-- A listing that a change message marked, one second after it was fetched. -/
def markedListing : FsCache :=
  ({} : FsCache).setDir ["d"]
    { files := [{ path := ["d", "f"], isDir := false, size := 1 }], etag := some "1",
      fetchedAt := 5000, invalidated := true }

/-- The marked listing is refused before the restart and served after it. -/
theorem marked_listing_is_served_again :
    (markedListing.getCachedDir ["d"] 6000 10000 (some 3600000)).1 = none ∧
      (((startup 0).loadDirCache .none .none 6000
          (markedListing.saveDirCacheNow .renamed none)).getCachedDir ["d"] 7000 10000 (some 3600000)).1 =
        some ([{ path := ["d", "f"], isDir := false, size := 1 }], false) := by
  constructor
  · rfl
  · have hsort : Shuffle.none.sortUnstableBy oldestFirst (restorable 0 .none markedListing.snapshot) =
        markedListing.snapshot.entries := List.mergeSort_singleton _
    simp only [saveDirCacheNow, loadDirCache]
    rw [show (startup 0).dirCacheMaxDirs = 0 from rfl, hsort]
    rfl

end FsCache

end Ncrs
