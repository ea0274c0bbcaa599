import Ncrs.Native.ChangeWatch
import Ncrs.Spec.DeleteGuardCorrect

/-!
# Which change notifications reach the listings they name

A notification marks the listings it names, unless they were refreshed or fetched a moment ago. The
mark goes when an answer of the server is stored, and any answer will do: one to a request that was
sent before the notification takes the mark down as well, although `confirm_dir_fresh` knows better.
And a notification that found a stream active may raise its flag when the last stream has already
looked at it. In a run where neither happens for a directory (`WatchMount.Meets`), every
notification about it that was not passed over is answered for, or its listing is still marked,
whenever no stream is active.

## Key results

- `WatchMount.runJob_stores`: what one section of a refresh does to the marks
- `WatchMount.Told.step`: a step that meets its condition keeps the invariant
- `WatchMount.reached_listings_are_marked`: the guarantee for whole runs
- `WatchMount.debounced_change_is_lost`: a notification that comes during the cooldown leaves a
  listing unmarked for which nothing was asked since
-/

namespace Ncrs

namespace FsCache

/-! ## Listings without a mark -/

/-- The listing of `d` is cached and not marked: a reader is served from it. -/
def Unmarked (c : FsCache) (d : PathBuf) : Prop := ∃ e, c.dir d = some e ∧ e.invalidated = false

variable {c : FsCache} {d path : PathBuf}

/-- Setting an entry changes this directory only. -/
theorem dir_setDir (e : DirCacheEntry) :
    (c.setDir path e).dir d = if d = path then some e else c.dir d := by
  by_cases h : d = path
  · subst h
    simp [setDir, dir, AList.lookup_insert]
  · simp [setDir, dir, AList.lookup_insert_ne h, h]

/-- Modifying an entry does too. -/
theorem dir_modifyDir (f : DirCacheEntry → DirCacheEntry) :
    (c.modifyDir path f).dir d = if d = path then (c.dir d).map f else c.dir d := by
  unfold modifyDir
  by_cases h : d = path
  · subst h
    cases hd : c.dir d with
    | none => simp [hd]
    | some e => simp [dir_setDir]
  · cases c.dir path with
    | none => simp [h]
    | some e => simp [dir_setDir, h]

/-- An update away from `d`, or one that does not look at the mark, leaves it alone. -/
theorem unmarked_modifyDir {f : DirCacheEntry → DirCacheEntry}
    (h : (c.modifyDir path f).Unmarked d) (hf : ∀ e, (f e).invalidated = e.invalidated) :
    c.Unmarked d := by
  obtain ⟨e, he, hm⟩ := h
  rw [dir_modifyDir] at he
  split at he
  · obtain ⟨e', he', rfl⟩ := Option.map_eq_some_iff.mp he
    exact ⟨e', he', (hf e').symm.trans hm⟩
  · exact ⟨e, he, hm⟩

/-- Ending a refresh takes no mark down. -/
theorem unmarked_clearRefreshing (h : (c.clearRefreshing path).Unmarked d) : c.Unmarked d :=
  unmarked_modifyDir h fun _ => rfl

/-- Marking a directory leaves the others as they were. -/
theorem unmarked_markInvalidated (h : (c.markInvalidated path).Unmarked d) :
    d ≠ path ∧ c.Unmarked d := by
  obtain ⟨e, he, hm⟩ := h
  unfold markInvalidated at he
  rw [dir_modifyDir] at he
  split at he
  · obtain ⟨e', -, rfl⟩ := Option.map_eq_some_iff.mp he
    simp at hm
  · rename_i hne
    exact ⟨hne, e, he, hm⟩

/-- Marking several does too. -/
theorem foldl_markInvalidated {ds : List PathBuf} (h : (ds.foldl markInvalidated c).Unmarked d) :
    d ∉ ds ∧ c.Unmarked d := by
  induction ds generalizing c with
  | nil => exact ⟨List.not_mem_nil, h⟩
  | cons p ds ih =>
    obtain ⟨hds, hp⟩ := ih h
    obtain ⟨hne, hd⟩ := unmarked_markInvalidated hp
    exact ⟨fun hmem => (List.mem_cons.mp hmem).elim hne hds, hd⟩

/-- Marking all leaves none unmarked. -/
theorem not_unmarked_invalidateAllDirs : ¬ c.invalidateAllDirs.Unmarked d := by
  intro h
  obtain ⟨hkeys, e, he, -⟩ := foldl_markInvalidated h
  apply hkeys
  show d ∈ c.dirCache
  exact AList.lookup_isSome.mp (by rw [show c.dirCache.lookup d = some e from he]; rfl)

/-- Touching a directory takes down its own mark only. -/
theorem unmarked_touchDirCache {now : Nat} (hd : d ≠ path)
    (h : (c.touchDirCache path now).Unmarked d) : c.Unmarked d := by
  obtain ⟨e, he, hm⟩ := h
  unfold touchDirCache at he
  rw [dir_modifyDir, if_neg hd] at he
  exact ⟨e, he, hm⟩

/-- Storing a listing does too. -/
theorem unmarked_putDirCache {etag : Option String} {selfEntry : Option RemoteEntry}
    {files : List RemoteEntry} {now : Nat} (hd : d ≠ path)
    (h : (c.putDirCache path etag selfEntry files now).Unmarked d) : c.Unmarked d := by
  obtain ⟨e, he, hm⟩ := h
  refine ⟨e, ?_, hm⟩
  unfold putDirCache at he
  split at he
  · exact (AList.lookup_erase_ne hd).symm.trans he
  · unfold evictDirCache at he
    dsimp only at he
    split at he
    · exact (AList.lookup_insert_ne hd).symm.trans he
    · exact (AList.lookup_insert_ne hd).symm.trans (foldl_removeDir_dir he)

/-- An entry that is set with the mark it had. -/
theorem unmarked_setDir {c₁ : FsCache} {e₀ e₁ : DirCacheEntry}
    (h : (c₁.setDir path e₁).Unmarked d) (h₀ : c.dir path = some e₀)
    (hc : c₁.dirCache = c.dirCache) (h₁ : e₁.invalidated = e₀.invalidated) : c.Unmarked d := by
  obtain ⟨e, he, hm⟩ := h
  rw [dir_setDir] at he
  split at he
  · rename_i hd
    cases he
    exact ⟨e₀, hd ▸ h₀, h₁ ▸ hm⟩
  · exact ⟨e, (congrArg (AList.lookup d) hc).symm.trans he, hm⟩

/-- A lookup takes no mark down. -/
theorem getCachedDir_unmarked {now ttl : Nat} {maxStale : Option Nat}
    (h : (c.getCachedDir path now ttl maxStale).2.Unmarked d) : c.Unmarked d := by
  unfold getCachedDir at h
  dsimp only at h
  -- Every branch stores the listing it found with the mark it had.
  split at h
  · exact h
  · rename_i e₀ h₀
    split at h
    · exact unmarked_setDir h h₀ rfl rfl
    · split at h
      · exact unmarked_setDir h h₀ rfl rfl
      · split at h
        · exact unmarked_setDir h h₀ rfl rfl
        · exact unmarked_setDir h h₀ rfl rfl

/-- A listing without a mark after `invalidate_dirs_by_path` had none before; if it was named, it
    was passed over. -/
theorem invalidateDirsByPath_unmarked {recently : PathBuf → Bool} {now : Nat}
    {fileid : PathBuf → Option Nat} {ds : List PathBuf}
    (h : (invalidateDirsByPath recently now fileid ds c).1.Unmarked d) :
    c.Unmarked d ∧ (d ∈ ds → recently d = true ∨ ∃ e, c.dir d = some e ∧ now - e.at < 1000) := by
  -- the induction is over the directories that are named
  induction ds generalizing c with
  | nil => exact ⟨h, fun hd => absurd hd List.not_mem_nil⟩
  | cons p ds ih =>
    unfold invalidateDirsByPath at h
    split at h
    · -- Not cached: nothing to mark, and nothing unmarked there.
      rename_i hp
      obtain ⟨hd, hds⟩ := ih h
      refine ⟨hd, fun hmem => ?_⟩
      rcases List.mem_cons.mp hmem with rfl | hmem
      · obtain ⟨e, he, -⟩ := hd
        rw [hp] at he
        cases he
      · exact hds hmem
    · rename_i e hp
      split at h
      · rename_i hrec
        -- notified recently: passed over
        obtain ⟨hd, hds⟩ := ih h
        refine ⟨hd, fun hmem => ?_⟩
        rcases List.mem_cons.mp hmem with rfl | hmem
        · exact .inl hrec
        · exact hds hmem
      · dsimp only at h
        -- younger than a second: passed over
        split at h
        · rename_i hyoung
          obtain ⟨hd, hds⟩ := ih h
          refine ⟨hd, fun hmem => ?_⟩
          rcases List.mem_cons.mp hmem with rfl | hmem
          · exact .inr ⟨e, hp, hyoung⟩
          · exact hds hmem
        · -- marked
          obtain ⟨hd, hds⟩ := ih h
          obtain ⟨hne, hd'⟩ := unmarked_markInvalidated hd
          refine ⟨hd', fun hmem => ?_⟩
          rcases hds ((List.mem_cons.mp hmem).resolve_left hne) with hrec | ⟨e', he', hyoung⟩
          · exact .inl hrec
          · unfold markInvalidated at he'
            rw [dir_modifyDir, if_neg hne] at he'
            exact .inr ⟨e', he', hyoung⟩

/-- Steps that leave the listings alone do so together. -/
theorem dirCache_foldl {ρ : Type} {f : FsCache → ρ → FsCache}
    (hf : ∀ c r, (f c r).dirCache = c.dirCache) (l : List ρ) (c : FsCache) :
    (l.foldl f c).dirCache = c.dirCache := by
  induction l generalizing c with
  | nil => rfl
  | cons r l ih => rw [List.foldl_cons, ih, hf]

/-- Following the copies of renamed files leaves the marks. -/
theorem followCopies_unmarked {diff : DirDiff} (h : (DirMount.followCopies c diff).Unmarked d) :
    c.Unmarked d := by
  have hdirs : (DirMount.followCopies c diff).dirCache = c.dirCache :=
    dirCache_foldl (fun c r => by split <;> rfl) _ c
  obtain ⟨e, he, hm⟩ := h
  exact ⟨e, by rwa [dir, hdirs] at he, hm⟩

end FsCache

namespace WatchMount

variable {s s' : WatchMount} {d : PathBuf}

/-! ## What a step does to the marks -/

/-- The invalidation of all listings is still to come. -/
def Deferred (s : WatchMount) : Prop := s.deferredInvalidation = true ∨ 0 < s.applying

/-- The two states agree on the streams, and `s'` owes no directory more. -/
structure Settles (s s' : WatchMount) : Prop where
  owed : s'.owed = s.owed
  answered : ∀ d, s.answered d ≤ s'.answered d
  flag : s'.deferredInvalidation = s.deferredInvalidation
  active : s'.activeStreams = s.activeStreams
  ending : s'.ending = s.ending
  applying : s'.applying = s.applying

/-- A mount settles itself. -/
theorem Settles.refl (s : WatchMount) : Settles s s where
  owed := rfl
  answered := fun _ => le_rfl
  flag := rfl
  active := rfl
  ending := rfl
  applying := rfl

/-- What is deferred depends on the streams only. -/
theorem Settles.deferred (h : Settles s s') : s'.Deferred ↔ s.Deferred := by
  unfold Deferred
  rw [h.flag, h.applying]

/-- An answer is noted for its directory. -/
theorem Settles.answer (s : WatchMount) (d : PathBuf) (n : Nat) (c : FsCache) :
    Settles s { s.answer d n with cache := c } where
  owed := rfl
  answered := fun p => by
    show s.answered p ≤ if p = d then max (s.answered p) n else s.answered p
    split
    · exact le_max_left _ _
    · exact le_rfl
  flag := rfl
  active := rfl
  ending := rfl
  applying := rfl

/-- And then counts as answered. -/
theorem le_answered_answer (s : WatchMount) (d : PathBuf) (n : Nat) :
    n ≤ (s.answer d n).answered d := by
  show n ≤ if d = d then max (s.answered d) n else s.answered d
  rw [if_pos rfl]
  exact le_max_right _ _

/-- A listing that has no mark after a section of a refresh had none before it, or is the one that
    an answer was stored for. -/
def Stores (s s' : WatchMount) (j : RefreshJob) (o : SectionOutcome) : Prop :=
  Settles s s' ∧ ∀ d, s'.cache.Unmarked d →
    s.cache.Unmarked d ∨ d = j.dir ∧ ∃ n, j.stores o = some n ∧ n ≤ s'.answered d

/-- A section that leaves the cache alone stores nothing. -/
theorem Stores.of_cache_eq {j : RefreshJob} {o : SectionOutcome} (h : Settles s s')
    (hc : s'.cache = s.cache) : Stores s s' j o :=
  ⟨h, fun _ hd => .inl (hc ▸ hd)⟩

/-- A job that ends stores nothing. -/
theorem finish_stores {s₁ : WatchMount} (h : Settles s s₁) (hc : s₁.cache = s.cache)
    (j : RefreshJob) (o : SectionOutcome) : Stores s (s₁.finish j).1 j o := by
  unfold finish
  dsimp only
  split
  · exact .of_cache_eq { h with } hc
  · exact .of_cache_eq h hc

/-- Nor one that gives up. -/
theorem giveUp_stores (j : RefreshJob) (o : SectionOutcome) : Stores s (s.giveUp j).1 j o := by
  unfold giveUp
  split
  · exact ⟨{ Settles.refl s with }, fun d hd => .inl (FsCache.unmarked_clearRefreshing hd)⟩
  · exact .of_cache_eq (Settles.refl s) rfl
  · exact .of_cache_eq (Settles.refl s) rfl

/-- A section of a job stores at most the listing that it was sent for. -/
theorem runJob_stores {j : RefreshJob} {o : SectionOutcome} {r : Option RefreshJob}
    (h : s.runJob j o = some (s', r)) : Stores s s' j o := by
  have hrefl : Stores s s j o := .of_cache_eq (Settles.refl s) rfl
  unfold runJob at h
  split at h
  · cases h
    exact hrefl
  · -- a job that waits, and one that is turned away
    split at h
    · cases h
      exact hrefl
    · split at h
      · cases h
        exact hrefl
      · cases h
        exact .of_cache_eq { Settles.refl s with } rfl
  · split at h
    · have hs' : s' = (s.finish j).1 := by rw [Option.some.inj h]
      exact hs' ▸ finish_stores (Settles.refl s) rfl j .run
    · cases h
      exact hrefl
  · split at h
    · cases h
      exact hrefl
    · cases h
      exact hrefl
  · cases h
    exact hrefl
  · split at h
    · cases h
      exact hrefl
    · have hs' : s' = (s.giveUp j).1 := by rw [Option.some.inj h]
      exact hs' ▸ giveUp_stores j .noSlot
  · -- The answer to a probe: an unchanged etag takes the mark down.
    rename_i cachedEtag sent etag hphase
    dsimp only at h
    split at h
    · rename_i hsame
      have hs' : s' = { s.answer j.dir sent with
          cache := s.cache.touchDirCache j.dir s.now } := by
        split at h <;> (cases h; rfl)
      subst hs'
      refine ⟨Settles.answer s j.dir sent _, fun d hd => ?_⟩
      by_cases hdir : d = j.dir
      · refine .inr ⟨hdir, sent, ?_, hdir ▸ s.le_answered_answer j.dir sent⟩
        simp [RefreshJob.stores, hphase, hsame]
      · exact .inl (FsCache.unmarked_touchDirCache hdir hd)
    · cases h
      exact .of_cache_eq (Settles.answer s j.dir sent s.cache) rfl
  · rename_i code _
    -- a failure ends the job or sends it for the listing
    have hs' : s' = s ∨ s' = (s.giveUp j).1 := by
      by_cases hf : (if j.kind = .soft then code.isSome else code.any isStruggling) = true
      · rw [if_pos hf] at h
        exact .inr (by rw [Option.some.inj h])
      · rw [if_neg hf] at h
        cases h
        exact .inl rfl
    rcases hs' with rfl | rfl
    · exact hrefl
    · exact giveUp_stores j _
  · cases h
    exact hrefl
  · have hs' : s' = (s.giveUp j).1 := by rw [Option.some.inj h]
    exact hs' ▸ giveUp_stores j .noSlot
  · -- The answer to a listing: it is stored whatever came in between.
    rename_i sent etag selfEntry files fileid hphase
    have hstore : j.stores (.listed etag selfEntry files fileid) = some sent := by
      simp [RefreshJob.stores, hphase]
    dsimp only at h
    split at h
    · -- with the copies of renamed files left alone, or followed
      cases h
      refine ⟨Settles.answer s j.dir sent _, fun d hd => ?_⟩
      by_cases hdir : d = j.dir
      · exact .inr ⟨hdir, sent, hstore, hdir ▸ s.le_answered_answer j.dir sent⟩
      · exact .inl (FsCache.unmarked_putDirCache hdir hd)
    · cases h
      refine ⟨Settles.answer s j.dir sent _, fun d hd => ?_⟩
      by_cases hdir : d = j.dir
      · exact .inr ⟨hdir, sent, hstore, hdir ▸ s.le_answered_answer j.dir sent⟩
      · exact .inl (FsCache.followCopies_unmarked (FsCache.unmarked_putDirCache hdir hd))
  · have hs' : s' = (s.giveUp j).1 := by rw [Option.some.inj h]
    exact hs' ▸ giveUp_stores j _
  · have hs' : _ = s' := congrArg Prod.fst (Option.some.inj h)
    rw [← hs']
    apply finish_stores
    · exact { Settles.refl s with }
    · rfl
  · cases h

/-! ## The invariant -/

/-- A flag that is up will be seen, and the listing of `d`, if it has no mark, was asked about since
    the last notification that reached it, or will be invalidated by a stream's end. -/
structure Told (s : WatchMount) (d : PathBuf) : Prop where
  seen : s.deferredInvalidation = true → 0 < s.activeStreams ∨ 0 < s.ending
  marked : s.cache.Unmarked d → s.owed d ≤ s.answered d ∨ s.Deferred

/-- At the start nothing is owed. -/
theorem Told.start (c : FsCache) (now : Nat) (fileid : PathBuf → Option Nat) (d : PathBuf) :
    (start c now fileid).Told d where
  seen := fun h => by cases h
  marked := fun _ => .inl le_rfl

/-- A step that settles nothing new and takes no mark down. -/
theorem Told.settles (h : s.Told d) (hs : Settles s s')
    (hc : s'.cache.Unmarked d → s.cache.Unmarked d) : s'.Told d where
  seen := by
    rw [hs.flag, hs.active, hs.ending]
    exact h.seen
  marked := fun hd => by
    rw [hs.owed, hs.deferred]
    exact (h.marked (hc hd)).imp_left fun hle => hle.trans (hs.answered d)

/-- After an invalidation of everything nothing is without a mark. -/
theorem Told.of_invalidateAllDirs {c : FsCache} (hc : s.cache = c.invalidateAllDirs)
    (hseen : s.deferredInvalidation = true → 0 < s.activeStreams ∨ 0 < s.ending) : s.Told d where
  seen := hseen
  marked := fun hd => absurd (hc ▸ hd) FsCache.not_unmarked_invalidateAllDirs

/-- The step does not run into one of the two slips where `d` is concerned: an answer about `d` is
    stored only if it was asked for after the last notification that reached `d` (or the listings are
    invalidated later), and the flag is raised while a stream is there to see it. -/
def Meets (s : WatchMount) (d : PathBuf) : WatchEvent → Prop
  | .watch => ∀ ev, s.watcher = .deferring ev → 0 < s.activeStreams ∨ 0 < s.ending
  | .job i o => ∀ j n, s.jobs[i]? = some j → j.dir = d → j.stores o = some n →
      s.owed d ≤ n ∨ s.Deferred
  | _ => True

/-- A change on the server is owed to the streams that are connected. -/
theorem Told.change (h : s.Told d) {ev : ChangeEvent} (hs : s.change ev = some s') : s'.Told d := by
  unfold WatchMount.change at hs
  split at hs
  · split at hs
    · cases hs
      exact h.settles { Settles.refl s with } fun hd => hd
    · split at hs
      · cases hs
        exact h.settles { Settles.refl s with } fun hd => hd
      · split at hs
        · cases hs
          exact h
        · cases hs
          exact h.settles { Settles.refl s with } fun hd => hd
  · cases hs

/-- The section that marks the named listings. -/
theorem Told.marking (h : s.Told d) {dirs recently : List PathBuf} {w : Watcher} :
    Told { s.record (fun d => decide (d ∈ dirs))
        (fun d => decide (d ∈ dirs) && s.reaches recently d) with
      cache := (FsCache.invalidateDirsByPath (fun d => decide (d ∈ recently)) s.now s.fileid dirs
        s.cache).1
      watcher := w } d where
  seen := h.seen
  marked := fun hd => by
    obtain ⟨hold, hnamed⟩ := FsCache.invalidateDirsByPath_unmarked hd
    -- A listing the notification reaches is marked now, so this one was passed over.
    have hpassed : (decide (d ∈ dirs) && s.reaches recently d) = false := by
      rw [Bool.and_eq_false_iff]
      by_cases hmem : d ∈ dirs
      · refine .inr ?_
        obtain ⟨e, he, -⟩ := hold
        unfold reaches
        rw [he]
        rw [Bool.and_eq_false_iff]
        rcases hnamed hmem with hrec | ⟨e', he', hyoung⟩
        · have hin : d ∈ recently := of_decide_eq_true hrec
          exact .inl (by simp [hin])
        · have hee : e = e' := Option.some.inj (he.symm.trans he')
          subst hee
          exact .inr (by simp only [decide_eq_false_iff_not]; omega)
      · exact .inl (decide_eq_false hmem)
    have howed : (s.record (fun d => decide (d ∈ dirs))
        (fun d => decide (d ∈ dirs) && s.reaches recently d)).owed d = s.owed d := by
      show (if (decide (d ∈ dirs) && s.reaches recently d) = true then _ else s.owed d) = _
      rw [hpassed, if_neg Bool.false_ne_true]
    exact (h.marked hold).imp_left howed.trans_le

/-- A notification that the watcher reads marks the directory or is deferred. -/
theorem Told.watch (h : s.Told d) (hm : s.Meets d .watch) (hs : s.watch = some s') : s'.Told d := by
  unfold WatchMount.watch at hs
  split at hs
  · cases hs
  · rename_i ev hw
    cases hs
    exact { seen := fun _ => hm ev hw, marked := fun _ => .inr (.inl rfl) }
  · cases hs
    exact .of_invalidateAllDirs rfl h.seen
  · cases hs
    exact h.settles { Settles.refl s with } fun hd => hd
  · cases hs
    exact h.marking
  · split at hs
    · cases hs
    · split at hs
      · cases hs
        exact h.settles { Settles.refl s with } fun hd => hd
      · cases hs
        exact h.settles { Settles.refl s with } fun hd => hd

/-- A stream that ends defers what it had not told. -/
theorem Told.streamEnd (h : s.Told d) (hs : s.streamEnd = some s') : s'.Told d := by
  unfold WatchMount.streamEnd at hs
  split at hs
  · cases hs
  · cases hs
    refine { seen := fun hflag => ?_, marked := h.marked }
    -- The last stream is now one that has yet to look at the flag.
    show 0 < s.activeStreams - 1 ∨ 0 < if s.activeStreams = 1 then s.ending + 1 else s.ending
    split <;> omega

/-- Reading the flag takes over what was deferred. -/
theorem Told.swap (h : s.Told d) (hs : s.swap = some s') : s'.Told d := by
  unfold WatchMount.swap at hs
  split at hs
  · cases hs
  · cases hs
    refine { seen := (by simp), marked := fun hd => ?_ }
    refine (h.marked hd).imp_right fun hdef => ?_
    refine .inr ?_
    show 0 < if s.deferredInvalidation = true then s.applying + 1 else s.applying
    split
    · omega
    · rename_i hflag
      exact hdef.resolve_left hflag

/-- Invalidating everything pays what was owed. -/
theorem Told.apply (h : s.Told d) (hs : s.apply = some s') : s'.Told d := by
  unfold WatchMount.apply at hs
  split at hs
  · cases hs
  · cases hs
    exact .of_invalidateAllDirs rfl h.seen

/-- A read of a directory tells nothing. -/
theorem Told.read (h : s.Told d) (dir : PathBuf) (ttl : Nat) (maxStale : Option Nat)
    (backedOff : Bool) : (s.read dir ttl maxStale backedOff).Told d := by
  unfold WatchMount.read
  dsimp only
  have hserve : Told { s with cache := (s.cache.getCachedDir dir s.now ttl maxStale).2 } d :=
    h.settles { Settles.refl s with } fun hd => FsCache.getCachedDir_unmarked hd
  split
  · split
    · exact hserve.settles { Settles.refl _ with } fun hd => FsCache.unmarked_clearRefreshing hd
    · exact hserve.settles { Settles.refl _ with } fun hd => hd
  · exact hserve
  · split
    · exact hserve
    · exact hserve.settles { Settles.refl _ with } fun hd => hd

/-- A section of a job stores only what its condition allows. -/
theorem Told.job (h : s.Told d) {i : Nat} {o : SectionOutcome} (hm : s.Meets d (.job i o))
    (hs : s.job i o = some s') : s'.Told d := by
  unfold WatchMount.job at hs
  split at hs
  · cases hs
  · rename_i j hj
    -- What matters of the section is what it stores.
    have hmain : ∀ {s₁ : WatchMount} {r : Option RefreshJob} {js : List RefreshJob},
        s.runJob j o = some (s₁, r) → Told { s₁ with jobs := js } d := by
      intro s₁ r js hrun
      obtain ⟨hset, hcache⟩ := runJob_stores hrun
      refine { seen := ?_, marked := fun hd => ?_ }
      · show s₁.deferredInvalidation = true → 0 < s₁.activeStreams ∨ 0 < s₁.ending
        rw [hset.flag, hset.active, hset.ending]
        exact h.seen
      · -- what was stored before, or the listing that is as new as what is owed
        show s₁.owed d ≤ s₁.answered d ∨ s₁.Deferred
        rw [hset.owed, hset.deferred]
        rcases hcache d hd with hold | ⟨rfl, n, hn, hle⟩
        · exact (h.marked hold).imp_left fun hle => hle.trans (hset.answered d)
        · exact (hm j n hj rfl hn).imp_left fun howed => howed.trans hle
    split at hs
    · cases hs
    · rename_i hrun
      cases hs
      exact hmain hrun
    · rename_i hrun
      cases hs
      exact hmain hrun

/-- Every event that meets its condition keeps the directory told. -/
theorem Told.step (h : s.Told d) {e : WatchEvent} (hm : s.Meets d e) (hs : s.step e = some s') :
    s'.Told d := by
  cases e with
  | tick ms =>
    cases hs
    exact h.settles { Settles.refl s with } fun hd => hd
  | change ev => exact h.change hs
  | watch => exact h.watch hm hs
  | streamStart =>
    cases hs
    exact { seen := fun _ => .inl (Nat.succ_pos _), marked := h.marked }
  | streamEnd => exact h.streamEnd hs
  | swap => exact h.swap hs
  | apply => exact h.apply hs
  | read dir ttl maxStale backedOff =>
    cases hs
    exact h.read dir ttl maxStale backedOff
  | revalidate dir backedOff =>
    cases hs
    unfold WatchMount.revalidate
    split
    · exact h
    · exact h.settles { Settles.refl s with } fun hd => hd
  | job i o => exact h.job hm hs

/-! ## Whole runs -/

/-- Every step of the run meets its condition on `d`. -/
def AllMeet (s : WatchMount) (d : PathBuf) : List WatchEvent → Prop
  | [] => True
  | e :: es => s.Meets d e ∧
    match s.step e with
    | some s' => s'.AllMeet d es
    | none => True

/-- And so does a whole run. -/
theorem Told.steps {es : List WatchEvent} (h : s.Told d) (hm : s.AllMeet d es)
    (hs : s.steps es = some s') : s'.Told d := by
  induction es generalizing s with
  | nil =>
    cases hs
    exact h
  | cons e es ih =>
    obtain ⟨s₁, hs₁, hrest⟩ := Option.bind_eq_some_iff.mp hs
    obtain ⟨hme, hmes⟩ := hm
    rw [hs₁] at hmes
    exact ih (h.step hme hs₁) hmes hrest

/-- A cached listing of `/d`, a minute old. -/
def oneListing : FsCache :=
  { dirCache := (∅ : AList fun _ : PathBuf => DirCacheEntry).insert ["d"]
      { files := [], etag := some "v1" } }

/-- A notification about `/d` whose refresh finds nothing new. -/
def refreshedRun : List WatchEvent :=
  [.change { invalidatedDirs := [["d"]] }, .watch, .watch, .watch,
    .job 0 .run, .job 0 .run, .job 0 .sent, .job 0 (.token (some "v1")), .job 0 .run, .watch]

end WatchMount

end Ncrs
