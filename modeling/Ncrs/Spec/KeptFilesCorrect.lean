import Ncrs.Native.KeptFiles
import Ncrs.Spec.CacheLabelsCorrect

/-!
# A kept file stays kept

The mark of a kept file is the place of its copy: the cleanup only looks into the cache folder, and
a directory read takes the kept folder first. So the mark lasts while the copy does and no second
copy lies in the cache folder. The copy is given up where a new version cannot be had: a download
that fails removes it, and so does a listing that shows the file modified.

## Key results

- `KeptAt.ensure`: what a download leaves of a kept file
- `KeptAt.step`: what one operation does
- `runCacheCleanup_leaves`: the cleanup passes over it
- `kept_files_stay_kept`: the same for every run
- `kept_file_is_given_up`: a new version that cannot be downloaded
-/

namespace Ncrs

namespace KeptMount

variable {w w' : KeptMount} {p q path lp : PathBuf} {kept : Bool} {content : Bytes}

/-! ## Places -/

/-- Two places of the same mount are the same when their folder and their path are. -/
@[simp] theorem localPath_inj {kept' : Bool} :
    w.localPath kept p = w.localPath kept' q ↔ kept = kept' ∧ p = q := by
  unfold localPath
  rw [List.append_cancel_left_eq, List.cons.injEq]
  cases kept <;> cases kept' <;> simp

/-- A file that can be read has content. -/
theorem fileAt_eq_some : w.fileAt lp = some content ↔ w.disk lp = some content ∧ content ≠ [] := by
  simp [fileAt, Option.filter_eq_some_iff]

theorem fileAt_ne_nil (h : w.fileAt lp = some content) : content ≠ [] := (fileAt_eq_some.1 h).2

/-- An entry of `q` that is no other mark of `p` than that of its copy in the kept folder. -/
structure Fits (w : KeptMount) (p q : PathBuf) (e : FileCacheEntry) : Prop where
  own : q = p → e.kept = true ∧ e.localPath = w.localPath true p
  others : e.localPath = w.localPath true p → q = p

/-- A copy of `p` lies in the kept folder, `p`'s entry says so, and no other entry names the
    copy. -/
structure KeptAt (w : KeptMount) (p : PathBuf) : Prop where
  bytes : ∃ content, content ≠ [] ∧ w.disk (w.localPath true p) = some content
  fits : ∀ q e, w.cache.fileCache q = some e → w.Fits p q e

/-- An entry at its path's own place. -/
theorem fits_place {e : FileCacheEntry} (hplace : e.localPath = w.localPath e.kept q)
    (hmark : q = p → e.kept = true) : w.Fits p q e where
  own hq := by
    subst hq
    have hkept := hmark rfl
    rw [hkept] at hplace
    exact ⟨hkept, hplace⟩
  others hlp := by
    rw [hplace, localPath_inj] at hlp
    exact hlp.2

/-- Another file on the disk may change. -/
theorem KeptAt.setFile (h : w.KeptAt p) {content : Option Bytes} (hlp : lp ≠ w.localPath true p) :
    (w.setFile lp content).KeptAt p where
  bytes := by
    obtain ⟨b, hb, hdisk⟩ := h.bytes
    refine ⟨b, hb, ?_⟩
    show Function.update w.disk lp content (w.localPath true p) = some b
    rw [Function.update_of_ne hlp.symm, hdisk]
  fits q e he := ⟨(h.fits q e he).own, (h.fits q e he).others⟩

/-- New bytes in any place do no harm. -/
theorem KeptAt.setBytes (h : w.KeptAt p) (hbytes : content ≠ []) :
    (w.setFile lp (some content)).KeptAt p := by
  by_cases hlp : lp = w.localPath true p
  · refine ⟨⟨content, hbytes, ?_⟩, fun q e he => ⟨(h.fits q e he).own, (h.fits q e he).others⟩⟩
    show Function.update w.disk lp (some content) (w.localPath true p) = some content
    rw [hlp, Function.update_self]
  · exact h.setFile hlp

/-- An entry that fits may be set. -/
theorem KeptAt.setEntry (h : w.KeptAt p) {entry : Option FileCacheEntry}
    (hentry : ∀ e, entry = some e → w.Fits p q e) : (w.setEntry q entry).KeptAt p where
  bytes := h.bytes
  fits r e he := by
    have he : Function.update w.cache.fileCache q entry r = some e := he
    by_cases hr : r = q
    · subst hr
      rw [Function.update_self] at he
      exact ⟨(hentry e he).own, (hentry e he).others⟩
    · rw [Function.update_of_ne hr] at he
      exact ⟨(h.fits r e he).own, (h.fits r e he).others⟩

/-- An entry may be dropped. -/
theorem KeptAt.dropEntry (h : w.KeptAt p) : (w.setEntry q none).KeptAt p :=
  h.setEntry fun _ he => by cases he

/-- A status may be set. -/
theorem KeptAt.setStatus (h : w.KeptAt p) {status : Option FileStatus} :
    (w.setStatus q status).KeptAt p :=
  ⟨h.bytes, fun r e he => ⟨(h.fits r e he).own, (h.fits r e he).others⟩⟩

/-- Saving the table changes neither entries nor files. -/
theorem KeptAt.saveFileCache (h : w.KeptAt p) : w.saveFileCache.KeptAt p :=
  ⟨h.bytes, fun r e he => ⟨(h.fits r e he).own, (h.fits r e he).others⟩⟩

/-- Only the listings change. -/
theorem KeptAt.relisted (h : w.KeptAt p) {c : FsCache} (hc : c.fileCache = w.cache.fileCache) :
    KeptAt { w with cache := c } p where
  bytes := h.bytes
  fits r e he := by
    have he : c.fileCache r = some e := he
    rw [hc] at he
    exact ⟨(h.fits r e he).own, (h.fits r e he).others⟩

/-! ## Downloads -/

/-- A copy that was fetched lies on the disk. -/
theorem addCopy_disk {etag : Option String} :
    (w.addCopy q kept content etag).disk (w.localPath kept q) = some content :=
  Function.update_self ..

/-- A copy that is added keeps the file kept, if it is added as kept. -/
theorem KeptAt.addCopy (h : w.KeptAt p) {etag : Option String}
    (hown : q = p → kept = true ∧ content ≠ []) : (w.addCopy q kept content etag).KeptAt p := by
  have hfile : (w.setFile (w.localPath kept q) (some content)).KeptAt p := by
    by_cases hlp : w.localPath kept q = w.localPath true p
    · exact h.setBytes (hown (localPath_inj.1 hlp).2).2
    · exact h.setFile hlp
  apply KeptAt.setStatus
  apply KeptAt.saveFileCache
  apply hfile.setEntry
  rintro e ⟨⟩
  exact fits_place rfl fun hq => (hown hq).1

/-- The attempts end with a download that brings bytes. -/
def brings : List DownloadAttempt → Bool
  | .done content _ :: _ => !content.isEmpty
  | .failed _ _ :: rest => brings rest
  | _ => false

/-- A download of a copy that is not fresh gets as far as the server and brings nothing. -/
def loses (w : KeptMount) (path : PathBuf) (folder : Bool) (attempts : List DownloadAttempt) : Bool :=
  (w.freshCopy path).isNone && folder && !brings attempts &&
    decide (attempts.head? ≠ some .noPart)

/-- Whatever becomes of the download of another copy. -/
theorem KeptAt.fetchCopy (h : w.KeptAt p) {retries : Nat} {attempts : List DownloadAttempt}
    {r : Except EnsureError PathBuf}
    (hrun : fetchCopy q kept retries w attempts = some (w', r))
    (helse : q = p → kept = false)
    (hapart : w'.disk (w'.localPath false p) = none) : w'.KeptAt p := by
  -- the induction is over the attempts that the download makes
  induction attempts generalizing w retries with
  | nil => cases hrun
  | cons a rest ih =>
    cases a with
    | noPart =>
      cases hrun
      exact h
    | done content etag =>
      cases hrun
      refine h.addCopy fun hq => ?_
      -- A copy of the file itself would lie in the cache folder.
      have hkept := helse hq
      subst hq hkept
      have hdisk : (w.addCopy q false content etag).disk (w.localPath false q) = some content :=
        addCopy_disk
      exact absurd (hdisk.symm.trans hapart) (by simp)
    | failed again removed =>
      -- the partial file that was removed is not the kept one
      have hlp : w.localPath kept q ≠ w.localPath true p := by
        intro heq
        obtain ⟨rfl, rfl⟩ := localPath_inj.1 heq
        cases helse rfl
      have hw : (if removed then w.setFile (w.localPath kept q) none else w).KeptAt p := by
        split
        · exact h.setFile hlp
        · exact h
      simp only [KeptMount.fetchCopy] at hrun
      split at hrun
      · exact ih hw hrun
      · split at hrun <;> cases hrun
        exact hw.dropEntry.setStatus

/-- A download that brings bytes in the end, whatever its first attempts removed. -/
theorem keptAt_of_brings {retries : Nat} {attempts : List DownloadAttempt}
    {r : Except EnsureError PathBuf} (hfits : ∀ q e, w.cache.fileCache q = some e → w.Fits p q e)
    (hrun : fetchCopy p true retries w attempts = some (w', r)) (hbrings : brings attempts = true) :
    w'.KeptAt p := by
  induction attempts generalizing w retries with
  | nil => cases hrun
  | cons a rest ih =>
    -- only the last attempt can bring the file: those before it failed
    cases a with
    | noPart => cases hbrings
    | done content etag =>
      cases hrun
      have hbytes : content ≠ [] := by simpa [brings] using hbrings
      have hfile : (w.setFile (w.localPath true p) (some content)).KeptAt p :=
        ⟨⟨content, hbytes, Function.update_self ..⟩,
          fun q e he => ⟨(hfits q e he).own, (hfits q e he).others⟩⟩
      apply KeptAt.setStatus
      apply KeptAt.saveFileCache
      apply hfile.setEntry
      rintro e ⟨⟩
      exact fits_place rfl fun _ => rfl
    | failed again removed =>
      have hw : ∀ q e,
          (if removed then w.setFile (w.localPath true p) none else w).cache.fileCache q = some e →
          (if removed then w.setFile (w.localPath true p) none else w).Fits p q e := by
        cases removed <;> exact fun q e he => ⟨(hfits q e he).own, (hfits q e he).others⟩
      simp only [KeptMount.fetchCopy] at hrun
      split at hrun
      · exact ih hw hrun hbrings
      · split at hrun
        · rename_i hrest
          rw [hrest] at hbrings
          cases hbrings
        · cases hrun

/-- A copy that is fresh has an entry. -/
theorem freshCopy_eq_some {e : FileCacheEntry} (h : w.freshCopy q = some e) :
    w.cache.fileCache q = some e := (Option.filter_eq_some_iff.1 h).1

/-- A fresh copy of another file may be moved into the kept folder. -/
theorem KeptAt.keepCopy (h : w.KeptAt p) {e : FileCacheEntry} (hfresh : w.freshCopy q = some e)
    (hq : q ≠ p) : (w.keepCopy q e).KeptAt p := by
  have hnew : w.localPath true q ≠ w.localPath true p := fun heq => hq (localPath_inj.1 heq).2
  have hold : e.localPath ≠ w.localPath true p :=
    fun heq => hq ((h.fits q e (freshCopy_eq_some hfresh)).others heq)
  apply KeptAt.setStatus
  apply KeptAt.saveFileCache
  apply ((h.setFile hnew).setFile hold).setEntry
  rintro _ ⟨⟩
  exact fits_place rfl fun heq => absurd heq hq

/-- Ensuring a file keeps the kept one, unless it is this one and the fetch loses it. -/
theorem KeptAt.ensure (h : w.KeptAt p) {folder renamed : Bool} {attempts : List DownloadAttempt}
    {r : Except EnsureError PathBuf}
    (hrun : w.ensureFileCached q kept folder renamed attempts = some (w', r))
    (hends : q = p → kept = true → w.loses p folder attempts = false)
    (hapart : w'.disk (w'.localPath false p) = none) : w'.KeptAt p := by
  unfold ensureFileCached at hrun
  split at hrun
  · rename_i e hfresh
    dsimp only at hrun
    split at hrun <;> cases hrun
    · -- The file itself is kept already.
      rename_i hkeep
      refine h.keepCopy hfresh fun hq => ?_
      have hmark := ((h.fits q e (freshCopy_eq_some hfresh)).own hq).1
      simp [hmark] at hkeep
    · exact h
  · -- no fresh copy: the file is fetched
    rename_i hstale
    dsimp only at hrun
    split at hrun
    · rename_i hfolder
      by_cases hother : q = p → kept = false
      · exact h.setStatus.fetchCopy hrun hother hapart
      rw [Classical.not_imp, Bool.not_eq_false] at hother
      obtain ⟨rfl, rfl⟩ := hother
      have hno := hends rfl rfl
      -- the fetch of the kept file itself brings bytes or finds no part, or it is a loss
      by_cases hbrings : brings attempts = true
      · exact keptAt_of_brings h.setStatus.fits hrun hbrings
      have hhead : attempts.head? = some .noPart := by
        simpa [loses, hstale, hfolder, hbrings] using hno
      obtain ⟨rest, rfl⟩ := List.head?_eq_some_iff.1 hhead
      cases hrun
      exact h.setStatus
    · cases hrun
      exact h.setStatus

/-! ## Other copies -/

/-- A file that was read by streaming leaves the kept one alone. -/
theorem KeptAt.streamed (h : w.KeptAt p)
    (hapart : (w.streamed q content).disk (w.localPath false p) = none) :
    (w.streamed q content).KeptAt p := by
  unfold KeptMount.streamed at hapart ⊢
  split at hapart
  · rename_i hnew
    rw [if_pos hnew]
    rw [Bool.and_eq_true, Bool.not_eq_true', List.isEmpty_eq_false_iff] at hnew
    refine h.addCopy fun hq => ⟨?_, hnew.2⟩
    by_contra hkept
    rw [Bool.not_eq_true] at hkept
    rw [hkept, ← hq, addCopy_disk] at hapart
    cases hapart
  · rename_i hold
    rw [if_neg hold]
    exact h

/-- An upload leaves the file kept: its bytes go where the entry says. -/
theorem KeptAt.uploaded (h : w.KeptAt p) {modified : Nat} {token : Option String} {placed : Bool}
    (hbytes : q = p → placed = true → content ≠ [])
    (hapart : (w.uploaded q content modified token placed).disk (w.localPath false p) = none) :
    (w.uploaded q content modified token placed).KeptAt p := by
  unfold KeptMount.uploaded at hapart ⊢
  dsimp only at hapart ⊢
  split at hapart
  · rename_i hplaced
    rw [if_pos hplaced]
    -- otherwise the upload would have put the file into the cache folder
    have hpinned : q = p → (w.cache.fileCache q).any (·.kept) = true := by
      intro hq
      by_contra hno
      rw [Bool.not_eq_true] at hno
      rw [hno, ← hq] at hapart
      have hdisk : (w.setFile (w.localPath false q) (some content)).disk (w.localPath false q) =
        some content := Function.update_self ..
      exact absurd (hdisk.symm.trans hapart) (by simp)
    rw [Bool.and_eq_true] at hplaced
    have hfile : (w.setFile (w.localPath ((w.cache.fileCache q).any (·.kept)) q)
        (some content)).KeptAt p := by
      by_cases hlp : w.localPath ((w.cache.fileCache q).any (·.kept)) q = w.localPath true p
      · exact h.setBytes (hbytes (localPath_inj.1 hlp).2 hplaced.2)
      · exact h.setFile hlp
    apply KeptAt.setStatus
    apply hfile.setEntry
    rintro e ⟨⟩
    exact fits_place rfl hpinned
  · rename_i hno
    rw [if_neg hno]
    exact h.setStatus

/-- A directory read makes entries at their path's own place, and takes the kept folder first. -/
theorem KeptAt.findCopy_fits (h : w.KeptAt p) {f : RemoteEntry} {e : FileCacheEntry}
    (he : (w.findCopy f).2 = some e) : w.Fits p f.path e := by
  unfold findCopy at he
  split at he
  · cases he
    exact fits_place rfl fun _ => rfl
  · rename_i hkept _
    cases he
    refine fits_place rfl fun hf => ?_
    obtain ⟨b, hb, hdisk⟩ := h.bytes
    rw [hf, fileAt_eq_some.2 ⟨hdisk, hb⟩] at hkept
    cases hkept
  · cases he

/-- An entry fits whatever else the mount holds. -/
theorem Fits.congr {e : FileCacheEntry} (h : w.Fits p q e) (hdir : w'.cacheDir = w.cacheDir) :
    w'.Fits p q e := by
  have hlp : w'.localPath true p = w.localPath true p := by rw [localPath, localPath, hdir]
  exact ⟨fun hq => hlp ▸ h.own hq, fun heq => h.others (heq.trans hlp)⟩

/-- Listing another file, or this one, keeps it kept. -/
theorem KeptAt.readdirFile (h : w.KeptAt p) {uploads : List PathBuf} {f : RemoteEntry} :
    (w.readdirFile uploads f).KeptAt p := by
  have hentry : ∀ m : KeptMount, m.cacheDir = w.cacheDir → m.KeptAt p →
      (if (m.cache.fileCache f.path).isNone then m.setEntry f.path (w.findCopy f).2
        else m).KeptAt p := by
    intro m hdir hm
    split
    · exact hm.setEntry fun e he => (h.findCopy_fits he).congr hdir
    · exact hm
  unfold KeptMount.readdirFile
  dsimp only
  split
  · exact h
  split
  · exact hentry w rfl h
  · exact hentry _ rfl h.setStatus

/-- So does every step of a loop. -/
theorem KeptAt.foldl {α : Type} {f : KeptMount → α → KeptMount} {l : List α} (h : w.KeptAt p)
    (hf : ∀ w : KeptMount, ∀ a ∈ l, w.KeptAt p → (f w a).KeptAt p) : (l.foldl f w).KeptAt p := by
  induction l generalizing w with
  | nil => exact h
  | cons a l ih =>
    exact ih (hf w a List.mem_cons_self h) fun w b hb => hf w b (List.mem_cons_of_mem a hb)

/-- A directory listing keeps it kept. -/
theorem KeptAt.readdir (h : w.KeptAt p) {dir : PathBuf} {oldChildren : List PathBuf} :
    (w.readdir dir oldChildren).KeptAt p := by
  unfold KeptMount.readdir
  apply KeptAt.foldl
  · exact h.foldl fun _ _ _ h => h.setStatus
  · exact fun _ _ _ h => h.readdirFile

/-- Moving the entries of other files does. -/
theorem KeptAt.moveEntry (h : w.KeptAt p) {r : PathBuf × PathBuf × Bool}
    (hsrc : r.1 ≠ p) (hdst : r.2.1 ≠ p) : (w.moveEntry r).KeptAt p := by
  unfold KeptMount.moveEntry
  split
  · rename_i e _ he
    apply KeptAt.saveFileCache
    apply h.dropEntry.setEntry
    rintro _ ⟨⟩
    exact ⟨fun hq => absurd hq hdst, fun hlp => absurd ((h.fits _ e he).others hlp) hsrc⟩
  · exact h

/-- Evicting another file does. -/
theorem KeptAt.evictStale (h : w.KeptAt p) {failing : List PathBuf} (hq : q ≠ p) :
    (w.evictStale failing q).KeptAt p := by
  unfold KeptMount.evictStale
  split
  · rename_i e he
    apply KeptAt.saveFileCache
    split
    · exact h.dropEntry
    · exact h.dropEntry.setFile fun hlp => hq ((h.fits q e he).others hlp)
  · exact h

/-- Applying a listing that neither changed nor moved the file keeps it kept. -/
theorem KeptAt.applyListing (h : w.KeptAt p) {dir : PathBuf} {diff : DirDiff}
    {etag : Option String} {selfEntry : Option RemoteEntry} {fresh : List RemoteEntry} {now : Nat}
    {failing : List PathBuf} (hmodified : p ∉ diff.modified)
    (hrenames : ∀ r ∈ diff.renames, r.1 ≠ p ∧ r.2.1 ≠ p) :
    (w.applyListing dir diff etag selfEntry fresh now failing).KeptAt p := by
  unfold KeptMount.applyListing
  refine KeptAt.relisted ?_ (LabelWorld.putDirCache_fileCache ..)
  apply KeptAt.foldl
  · exact h.foldl fun _ r hr h => h.moveEntry (hrenames r hr).1 (hrenames r hr).2
  · intro _ q hq h
    refine h.evictStale fun heq => hmodified ?_
    rwa [← heq]

/-- An eviction of another entry keeps it kept. -/
theorem KeptAt.evictEntry (h : w.KeptAt p) {failing : List PathBuf} {keepFailed : Bool}
    (hq : q ≠ p) : (w.evictEntry failing keepFailed q).KeptAt p := by
  unfold KeptMount.evictEntry
  split
  · rename_i e he
    split
    · split
      · exact h
      · exact h.dropEntry.setStatus
    · have hplace : e.localPath ≠ w.localPath true p := fun hlp => hq ((h.fits q e he).others hlp)
      exact (h.setFile hplace).dropEntry.setStatus
  · exact h

/-- Reading `file_cache.json` moves a copy only from where the file of the same path below `kept`
    would have had its copy before there were two folders. -/
theorem KeptAt.loadEntry (h : w.KeptAt p) {stuck : List PathBuf} (hq : q ≠ "kept" :: p) :
    (w.loadEntry stuck q).KeptAt p := by
  have hload : ∀ {w : KeptMount} {l : List (PathBuf × LoadedCacheEntry)}, w.KeptAt p →
      KeptAt { w with toCheck := l } p :=
    fun h => ⟨h.bytes, fun r e he => ⟨(h.fits r e he).own, (h.fits r e he).others⟩⟩
  unfold KeptMount.loadEntry
  split
  · exact h
  dsimp only
  split
  · exact hload h
  · exact hload h
  · rename_i hlegacy
    split
    · exact h
    · refine hload ((h.setBytes (fileAt_ne_nil hlegacy)).setFile fun hlp => hq ?_)
      exact List.append_cancel_left hlp
  · exact h

/-- A restart keeps it kept unless it removes its copy. -/
theorem KeptAt.restart (h : w.KeptAt p) {cache : FsCache} {offline : Bool}
    {order stuck : List PathBuf} (horder : offline = false → "kept" :: p ∉ order) :
    (w.restart cache offline order stuck).KeptAt p := by
  have hfresh : KeptAt { w with
      cache := { cache with fileCache := fun _ => none }, status := fun _ => none, toCheck := [] } p :=
    ⟨h.bytes, fun _ _ he => by cases he⟩
  unfold KeptMount.restart
  dsimp only
  split
  · exact hfresh
  · rename_i honline
    rw [Bool.not_eq_true] at honline
    refine hfresh.foldl fun _ q hq h => h.loadEntry fun heq => horder honline ?_
    rwa [← heq]

/-! ## The cleanup -/

/-- Taking a file out of the walk leaves files of the walk. -/
theorem mem_swapRemove {files : List CachedFile} {i : Nat} {f : CachedFile}
    (h : f ∈ swapRemove files i) : f ∈ files := by
  unfold swapRemove at h
  split at h
  · rename_i last hlast
    obtain hmem | rfl := List.mem_or_eq_of_mem_set (List.mem_of_mem_dropLast h)
    · exact hmem
    · exact List.mem_of_getLast? hlast
  · exact h

/-- The files a run of the cleanup has still to look at are among those found, and `P` holds of the
    mount. -/
structure Cleanup.Within (P : KeptMount → Prop) (walked : List CachedFile) (c : Cleanup) : Prop where
  files : ∀ f ∈ c.files, f ∈ walked
  mount : P c.mount

section Cleanup

variable {P : KeptMount → Prop} {walked : List CachedFile} {failing : List PathBuf} {c : Cleanup}
  (hevict : ∀ m : KeptMount, ∀ f ∈ walked, P m →
    P (((m.setFile f.path none).setEntry f.remotePath none).setStatus f.remotePath (some .remote)))

include hevict

/-- Evicting a file of the walk stays inside the walk. -/
theorem Cleanup.Within.evict (h : c.Within P walked) {f : CachedFile} (hf : f ∈ walked) :
    (c.evict failing f).Within P walked := by
  unfold Cleanup.evict
  split
  · exact h
  · exact ⟨h.files, hevict c.mount f hf h.mount⟩

/-- Purging the old files does. -/
theorem Cleanup.Within.purgeOld (h : c.Within P walked) (cutoff fuel i : Nat) :
    (c.purgeOld failing cutoff fuel i).Within P walked := by
  induction fuel generalizing c i with
  | zero => exact h
  | succ fuel ih =>
    unfold Cleanup.purgeOld
    split
    · exact h
    rename_i f hf
    split
    · have hrest : Cleanup.Within P walked { c with files := swapRemove c.files i } :=
        ⟨fun g hg => h.files g (mem_swapRemove hg), h.mount⟩
      exact ih (hrest.evict hevict (h.files f (List.mem_of_getElem? hf))) i
    · exact ih h (i + 1)

/-- And making room. -/
theorem Cleanup.Within.makeRoom (h : c.Within P walked) (maxBytes : Nat) :
    (c.makeRoom failing maxBytes).Within P walked := by
  have hfold : ∀ (l : List CachedFile) (c : Cleanup), (∀ f ∈ l, f ∈ walked) → c.Within P walked →
      (l.foldl (fun c f => if c.totalSize ≤ maxBytes then c else c.evict failing f) c).Within P
        walked := by
    intro l
    induction l with
    | nil => exact fun _ _ hc => hc
    | cons f l ih =>
      intro c hsub hc
      rw [List.foldl_cons]
      refine ih _ (fun g hg => hsub g (List.mem_cons_of_mem f hg)) ?_
      split
      · exact hc
      · exact hc.evict hevict (hsub f List.mem_cons_self)
  exact hfold _ c (fun f hf => h.files f ((List.mem_insertionSort _).1 hf)) h

/-- What the eviction of each file found and the saving of the entries keep, the cleanup keeps. -/
theorem runCacheCleanup_induction {maxBytes : Nat} {cutoff : Option Nat} (hstart : P w)
    (hsave : ∀ m : KeptMount, P m → P m.saveFileCache) :
    P (w.runCacheCleanup walked maxBytes cutoff failing) := by
  have hwalked : Cleanup.Within P walked
      { mount := w, files := walked, totalSize := (walked.map (·.size)).sum } :=
    ⟨fun _ hf => hf, hstart⟩
  have hsaved : ∀ c : Cleanup, c.Within P walked →
      P (if c.evicted then c.mount.saveFileCache else c.mount) := by
    intro c hc
    split
    · exact hsave _ hc.mount
    · exact hc.mount
  have hrest : ∀ c : Cleanup, c.Within P walked →
      (if 0 < maxBytes && maxBytes < c.totalSize then c.makeRoom failing maxBytes
        else c).Within P walked := by
    intro c hc
    split
    · exact hc.makeRoom hevict maxBytes
    · exact hc
  cases cutoff with
  | none => exact hsaved _ (hrest _ hwalked)
  | some cutoff => exact hsaved _ (hrest _ (hwalked.purgeOld hevict cutoff walked.length 0))

end Cleanup

/-- The files found lie in the cache folder. -/
theorem walked_place {walked : List CachedFile} (hwalk : w.walks walked = true) {f : CachedFile}
    (hf : f ∈ walked) (hapart : w.disk (w.localPath false p) = none) :
    f.path = w.localPath false f.remotePath ∧ f.remotePath ≠ p := by
  have hfile := List.all_eq_true.1 hwalk f hf
  rw [Bool.and_eq_true, decide_eq_true_eq, decide_eq_true_eq] at hfile
  refine ⟨hfile.1, fun heq => ?_⟩
  rw [hfile.1, heq, hapart] at hfile
  cases hfile.2

/-- The copy, the entry and the status of `p` are the same as before. -/
structure Leaves (p : PathBuf) (w w' : KeptMount) : Prop where
  cacheDir : w'.cacheDir = w.cacheDir
  copy : w'.disk (w.localPath true p) = w.disk (w.localPath true p)
  entry : w'.cache.fileCache p = w.cache.fileCache p
  status : w'.status p = w.status p

/-- The cleanup passes over a file that has no copy in the cache folder. -/
theorem runCacheCleanup_leaves {walked : List CachedFile} {maxBytes : Nat} {cutoff : Option Nat}
    {failing : List PathBuf} (hwalk : w.walks walked = true)
    (hapart : w.disk (w.localPath false p) = none) :
    Leaves p w (w.runCacheCleanup walked maxBytes cutoff failing) := by
  refine runCacheCleanup_induction (fun m f hf hm => ?_) ⟨rfl, rfl, rfl, rfl⟩
    fun m hm => ⟨hm.cacheDir, hm.copy, hm.entry, hm.status⟩
  obtain ⟨hplace, hne⟩ := walked_place hwalk hf hapart
  have hpath : w.localPath true p ≠ f.path := by
    rw [hplace]
    simp
  refine ⟨hm.cacheDir, ?_, ?_, ?_⟩
  · rw [← hm.copy]
    exact Function.update_of_ne hpath ..
  · rw [← hm.entry]
    exact Function.update_of_ne hne.symm ..
  · rw [← hm.status]
    exact Function.update_of_ne hne.symm ..

/-- The cleanup keeps the file kept, since it walks the cache folder only. -/
theorem KeptAt.runCacheCleanup (h : w.KeptAt p) {walked : List CachedFile} {maxBytes : Nat}
    {cutoff : Option Nat} {failing : List PathBuf} (hwalk : w.walks walked = true) :
    (w.runCacheCleanup walked maxBytes cutoff failing).KeptAt p := by
  have hkeeps : (w.runCacheCleanup walked maxBytes cutoff failing).cacheDir = w.cacheDir ∧
      (w.runCacheCleanup walked maxBytes cutoff failing).KeptAt p := by
    refine runCacheCleanup_induction (P := fun m => m.cacheDir = w.cacheDir ∧ m.KeptAt p)
      (fun m f hf hm => ⟨hm.1, ?_⟩) ⟨rfl, h⟩ fun m hm => ⟨hm.1, hm.2.saveFileCache⟩
    have hfile := List.all_eq_true.1 hwalk f hf
    rw [Bool.and_eq_true, decide_eq_true_eq] at hfile
    have hpath : f.path ≠ m.localPath true p := by
      rw [hfile.1, localPath, localPath, hm.1]
      simp
    exact (hm.2.setFile hpath).dropEntry.setStatus
  exact hkeeps.2

/-! ## Runs -/

/-- The user, a listing that shows the file modified or renamed, or a download that brings nothing
    ends it. The last two but one are a restart that takes the copy for that of another file, and
    the check of an entry at boot. -/
def ends (w : KeptMount) (p : PathBuf) : KeptEvent → Bool
  | .keep q folder _ attempts => decide (q = p) && w.loses p folder attempts
  | .read q folder _ attempts => decide (q = p) && w.autoKeepCached && w.loses p folder attempts
  | .uploaded q content _ _ placed => decide (q = p) && placed && content.isEmpty
  | .applyListing _ old _ _ fresh fileid _ _ =>
    let diff := old.computeDirDiff fresh fileid
    decide (p ∈ diff.modified) || diff.renames.any fun r => decide (r.1 = p) || decide (r.2.1 = p)
  | .evict path _ pending _ => decide (path <+: p) && decide (p ∉ pending)
  | .purge _ pending _ => decide (p ∉ pending)
  | .restart _ offline order _ => !offline && decide ("kept" :: p ∈ order)
  | .bootCheck i answer folder _ attempts =>
    w.toCheck[i]?.any fun x => decide (x.1 = p) && x.2.kept &&
      answer.any (fun etag => decide (etag ≠ some x.2.etag)) &&
      (w.setEntry p none).loses p folder attempts
  | _ => false

/-- No step ends it, and no copy of the file lies in the cache folder, too. -/
def spares (p : PathBuf) (w : KeptMount) : List KeptEvent → Bool
  | [] => (w.disk (w.localPath false p)).isNone
  | e :: es => (w.disk (w.localPath false p)).isNone && !w.ends p e && match w.step e with
    | some w => w.spares p es
    | none => true

/-- The check at startup keeps it, unless the download after it loses it. -/
theorem KeptAt.bootCheck (h : w.KeptAt p) {e : LoadedCacheEntry} {answer : Option (Option String)}
    {folder renamed : Bool} {attempts : List DownloadAttempt}
    (hrun : w.bootCheck q e answer folder renamed attempts = some w')
    (hends : q = p → e.kept = true → answer.any (fun etag => decide (etag ≠ some e.etag)) = true →
      (w.setEntry p none).loses p folder attempts = false)
    (hapart : w'.disk (w'.localPath false p) = none) : w'.KeptAt p := by
  unfold KeptMount.bootCheck at hrun
  split at hrun
  · cases hrun
    exact h
  split at hrun
  · cases hrun
    exact h
  · rename_i hnew
    obtain ⟨⟨w₁, r⟩, hensure, rfl⟩ := Option.map_eq_some_iff.1 hrun
    refine h.dropEntry.ensure hensure (fun hq hkept => ?_) hapart
    rw [hq]
    exact hends hq hkept (decide_eq_true hnew)

/-- Every event that spares the file keeps it kept. -/
theorem KeptAt.step (h : w.KeptAt p) {e : KeptEvent} (hends : w.ends p e = false)
    (hstep : w.step e = some w') (hapart : w'.disk (w'.localPath false p) = none) :
    w'.KeptAt p := by
  cases e with
  | refresh dir etag selfEntry files now =>
    cases hstep
    exact h.relisted (LabelWorld.putDirCache_fileCache ..)
  | dropListing dir =>
    -- events that change listings only
    cases hstep
    exact h.relisted rfl
  | relist path token size modified =>
    cases hstep
    exact h.relisted (LabelWorld.modifyFiles_fileCache ..)
  | rename src dst =>
    cases hstep
    exact h.relisted (LabelWorld.moveListed_fileCache ..)
  | unlink path =>
    cases hstep
    apply KeptAt.setStatus
    apply KeptAt.dropEntry
    exact h.relisted (LabelWorld.modifyFiles_fileCache ..)
  | keep path folder renamed attempts =>
    obtain ⟨⟨w₁, r⟩, hensure, rfl⟩ := Option.map_eq_some_iff.1 hstep
    -- a fetch of the file may lose it, which is what the event was asked
    refine h.ensure hensure (fun hq _ => ?_) hapart
    simpa [ends, hq] using hends
  | read path folder renamed attempts =>
    obtain ⟨⟨w₁, r⟩, hensure, rfl⟩ := Option.map_eq_some_iff.1 hstep
    refine h.ensure hensure (fun hq hkept => ?_) hapart
    simpa [ends, hq, hkept] using hends
  | streamed path content =>
    cases hstep
    refine h.streamed ?_
    have hplace : (w.streamed path content).localPath false p = w.localPath false p := by
      unfold KeptMount.streamed
      split <;> rfl
    rwa [← hplace]
  | uploaded path content modified token placed =>
    cases hstep
    refine h.uploaded (fun hq hplaced => ?_) ?_
    · simpa [ends, hq, hplaced] using hends
    -- the copy still has its place
    have hplace : (w.uploaded path content modified token placed).localPath false p =
        w.localPath false p := by
      unfold KeptMount.uploaded
      dsimp only
      split <;> rfl
    rwa [← hplace]
  | readdir dir oldChildren =>
    cases hstep
    exact h.readdir
  | applyListing dir old etag selfEntry fresh fileid now failing =>
    cases hstep
    simp only [ends, Bool.or_eq_false_iff, decide_eq_false_iff_not, List.any_eq_false,
      Bool.or_eq_true, decide_eq_true_eq, not_or] at hends
    exact h.applyListing hends.1 hends.2
  | cleanup walked maxBytes cutoff failing =>
    simp only [KeptMount.step] at hstep
    split at hstep <;> cases hstep
    rename_i hwalk
    exact h.runCacheCleanup hwalk
  | evict path keys pending failing =>
    cases hstep
    have hfold : (List.foldl (KeptMount.evictEntry failing false) w (keys.filter fun q =>
        decide (path <+: q) && decide (q ∉ pending))).KeptAt p := by
      -- the paths under the one that is evicted are not the file's
      refine h.foldl fun _ q hq h => h.evictEntry fun heq => ?_
      have hunder := (List.mem_filter.1 hq).2
      rw [heq] at hunder
      simp only [ends] at hends
      rw [hunder] at hends
      cases hends
    split
    · exact hfold.saveFileCache
    · exact hfold.saveFileCache.setStatus
  | purge keys pending failing =>
    cases hstep
    apply KeptAt.saveFileCache
    refine h.foldl fun _ q hq h => h.evictEntry fun heq => ?_
    have hfree := (List.mem_filter.1 hq).2
    rw [heq] at hfree
    simp only [ends] at hends
    rw [hfree] at hends
    cases hends
  | restart cache offline order stuck =>
    cases hstep
    refine h.restart fun honline hmem => ?_
    simp [ends, honline, hmem] at hends
  | bootCheck i answer folder renamed attempts =>
    simp only [KeptMount.step] at hstep
    split at hstep
    · rename_i q e hentry
      have hrest : KeptAt { w with toCheck := w.toCheck.eraseIdx i } p :=
        ⟨h.bytes, fun q e he => ⟨(h.fits q e he).own, (h.fits q e he).others⟩⟩
      -- the file that is checked has no entry while it is fetched again
      refine hrest.bootCheck hstep (fun hq hkept hnew => ?_) hapart
      rw [ends, hentry] at hends
      dsimp only [Option.any_some] at hends
      have hno : (w.setEntry p none).loses p folder attempts = false := by
        simpa only [hq, hkept, hnew, decide_true, Bool.true_and] using hends
      exact hno
    · cases hstep

/-- And so does a whole run. -/
theorem KeptAt.steps (h : w.KeptAt p) {es : List KeptEvent} (hspares : w.spares p es = true)
    (hrun : w.steps es = some w') : w'.KeptAt p ∧ w'.disk (w'.localPath false p) = none := by
  induction es generalizing w with
  | nil =>
    cases hrun
    exact ⟨h, Option.isNone_iff_eq_none.1 hspares⟩
  | cons e es ih =>
    rw [KeptMount.steps, Option.bind_eq_some_iff] at hrun
    obtain ⟨w₁, hstep, hrest⟩ := hrun
    simp only [spares, hstep, Bool.and_eq_true, Bool.not_eq_true'] at hspares
    have hapart : w₁.disk (w₁.localPath false p) = none := by
      cases es <;> simp only [spares, Bool.and_eq_true, Option.isNone_iff_eq_none] at hspares
      · exact hspares.2
      · exact hspares.2.1.1
    exact ih (h.step hspares.1.2 hstep hapart) hspares.2 hrest

/-! ## What a kept file is, and what ends it -/

/-- An answer with a local path: the file's entry names it. -/
theorem fetchCopy_ok {retries : Nat} {attempts : List DownloadAttempt}
    (hrun : fetchCopy q kept retries w attempts = some (w', .ok lp)) :
    ∃ e, w'.cache.fileCache q = some e ∧ e.localPath = lp := by
  induction attempts generalizing w retries with
  | nil => cases hrun
  | cons a rest ih =>
    cases a with
    | noPart => cases hrun
    | done content etag =>
      cases hrun
      exact ⟨_, Function.update_self .., rfl⟩
    | failed again removed =>
      simp only [KeptMount.fetchCopy] at hrun
      split at hrun
      · exact ih hrun
      · split at hrun <;> cases hrun

/-- A file that was ensured has an entry with its place. -/
theorem ensure_ok {folder renamed : Bool} {attempts : List DownloadAttempt}
    (hrun : w.ensureFileCached q kept folder renamed attempts = some (w', .ok lp)) :
    ∃ e, w'.cache.fileCache q = some e ∧ e.localPath = lp := by
  unfold ensureFileCached at hrun
  split at hrun
  · rename_i e hfresh
    dsimp only at hrun
    split at hrun <;> cases hrun
    · exact ⟨_, Function.update_self .., rfl⟩
    · exact ⟨e, freshCopy_eq_some hfresh, rfl⟩
  · dsimp only at hrun
    split at hrun
    · exact fetchCopy_ok hrun
    · cases hrun

/-- The last failed attempt drops the entry, and the copy too if it can be removed. -/
theorem fetchCopy_failed {retries : Nat} {attempts : List DownloadAttempt}
    (hrun : fetchCopy q kept retries w attempts = some (w', .error .download)) :
    w'.cache.fileCache q = none ∧ w'.status q = some .remote ∧
      ∀ again, attempts.getLast? = some (.failed again true) →
        w'.disk (w'.localPath kept q) = none := by
  induction attempts generalizing w retries with
  | nil => cases hrun
  | cons a rest ih =>
    cases a with
    | noPart => cases hrun
    | done content etag => cases hrun
    | failed again removed =>
      simp only [KeptMount.fetchCopy] at hrun
      split at hrun
      · -- a failure that is retried decides nothing
        cases rest with
        | nil => cases hrun
        | cons b rest =>
          obtain ⟨hentry, hstatus, hcopy⟩ := ih hrun
          refine ⟨hentry, hstatus, fun again hlast => hcopy again ?_⟩
          rwa [List.getLast?_cons_cons] at hlast
      · split at hrun <;> cases hrun
        rename_i hrest
        refine ⟨Function.update_self .., Function.update_self .., fun again hlast => ?_⟩
        rw [hrest] at hlast
        cases hlast
        exact Function.update_self ..

/-- The same of ensuring a file. -/
theorem ensure_failed {folder renamed : Bool} {attempts : List DownloadAttempt}
    (hrun : w.ensureFileCached q kept folder renamed attempts = some (w', .error .download)) :
    w'.cache.fileCache q = none ∧ w'.status q = some .remote ∧
      ∀ again, attempts.getLast? = some (.failed again true) →
        w'.disk (w'.localPath kept q) = none := by
  unfold ensureFileCached at hrun
  split at hrun
  · dsimp only at hrun
    split at hrun <;> cases hrun
  · dsimp only at hrun
    split at hrun
    · exact fetchCopy_failed hrun
    · cases hrun

/-- A file with an entry still has one after a listing. -/
theorem readdirFile_isSome {uploads : List PathBuf} {f : RemoteEntry}
    (h : (w.cache.fileCache p).isSome = true) :
    ((w.readdirFile uploads f).cache.fileCache p).isSome = true := by
  -- an entry is set only where there was none
  have hentry : ∀ m : KeptMount, m.cache.fileCache = w.cache.fileCache →
      ((if (m.cache.fileCache f.path).isNone then m.setEntry f.path (w.findCopy f).2
        else m).cache.fileCache p).isSome = true := by
    intro m hm
    rw [hm]
    split
    · rename_i hnone
      have hne : p ≠ f.path := by
        rintro rfl
        rw [Option.isNone_iff_eq_none.1 hnone] at h
        cases h
      have hkeep : (m.setEntry f.path (w.findCopy f).2).cache.fileCache p = m.cache.fileCache p :=
        Function.update_of_ne hne ..
      rw [hkeep, hm]
      exact h
    · rw [hm]
      exact h
  unfold KeptMount.readdirFile
  dsimp only
  split
  · exact h
  split
  · exact hentry w rfl
  · exact hentry _ rfl

/-- The listing of the kept file itself finds its copy. -/
theorem KeptAt.readdirFile_finds (h : w.KeptAt p) {uploads : List PathBuf} {f : RemoteEntry}
    (hpath : f.path = p) (hdir : f.isDir = false) :
    ((w.readdirFile uploads f).cache.fileCache p).isSome = true := by
  subst hpath
  have hfound : (w.findCopy f).2.isSome = true := by
    obtain ⟨b, hb, hdisk⟩ := h.bytes
    simp [findCopy, fileAt_eq_some.2 ⟨hdisk, hb⟩]
  have hentry : ∀ m : KeptMount,
      ((if (m.cache.fileCache f.path).isNone then m.setEntry f.path (w.findCopy f).2
        else m).cache.fileCache f.path).isSome = true := by
    intro m
    split
    · have hnew : (m.setEntry f.path (w.findCopy f).2).cache.fileCache f.path = (w.findCopy f).2 :=
        Function.update_self ..
      rwa [hnew]
    · rename_i hold
      rwa [Bool.not_eq_true, Option.isNone_eq_false_iff] at hold
  unfold KeptMount.readdirFile
  rw [hdir, if_neg (by simp)]
  dsimp only
  split
  · exact hentry w
  · exact hentry _

/-- A directory read that lists the file finds its copy. -/
theorem KeptAt.readdir_isSome (h : w.KeptAt p) {dir : PathBuf} {oldChildren : List PathBuf}
    {f : RemoteEntry} (hf : f ∈ ((w.cache.dir dir).map (·.files)).getD []) (hpath : f.path = p)
    (hdir : f.isDir = false) :
    ((w.readdir dir oldChildren).cache.fileCache p).isSome = true := by
  -- the induction is over the files that are still to be listed
  have hfound : ∀ (uploads : List PathBuf) (l : List RemoteEntry) (w : KeptMount), w.KeptAt p →
      (f ∈ l ∨ (w.cache.fileCache p).isSome = true) →
      ((l.foldl (KeptMount.readdirFile uploads) w).cache.fileCache p).isSome = true := by
    intro uploads l
    induction l with
    | nil =>
      rintro w - (hmem | hsome)
      · cases hmem
      · exact hsome
    | cons g l ih =>
      intro w h hor
      rw [List.foldl_cons]
      refine ih _ h.readdirFile ?_
      by_cases hsome : (w.cache.fileCache p).isSome = true
      · exact .inr (readdirFile_isSome hsome)
      obtain hmem := hor.resolve_right hsome
      obtain rfl | hmem := List.mem_cons.1 hmem
      · exact .inr (h.readdirFile_finds hpath hdir)
      · exact .inl hmem
  exact hfound _ _ _ (h.foldl fun _ _ _ h => h.setStatus) (.inl hf)

/-- Moving other entries leaves the file's. -/
theorem moveEntry_entry {r : PathBuf × PathBuf × Bool} (hsrc : r.1 ≠ p) (hdst : r.2.1 ≠ p) :
    (w.moveEntry r).cache.fileCache p = w.cache.fileCache p := by
  unfold KeptMount.moveEntry
  split
  · rename_i e _ _
    have hnew : ((w.setEntry r.1 none).setEntry r.2.1 (some e)).cache.fileCache p =
        (w.setEntry r.1 none).cache.fileCache p := Function.update_of_ne hdst.symm ..
    have hold : (w.setEntry r.1 none).cache.fileCache p = w.cache.fileCache p :=
      Function.update_of_ne hsrc.symm ..
    exact hnew.trans hold
  · rfl

/-- So does evicting another file. -/
theorem evictStale_entry {failing : List PathBuf} (hne : q ≠ p) :
    (w.evictStale failing q).cache.fileCache p = w.cache.fileCache p := by
  unfold KeptMount.evictStale
  split
  · dsimp only
    split <;> exact Function.update_of_ne hne.symm ..
  · rfl

/-- An eviction gives no file an entry. -/
theorem evictStale_none {failing : List PathBuf} (h : w.cache.fileCache p = none) :
    (w.evictStale failing q).cache.fileCache p = none := by
  by_cases hq : q = p
  · subst hq
    rw [KeptMount.evictStale, h]
    exact h
  · rw [evictStale_entry hq, h]

/-- Nor does it bring a file back. -/
theorem evictStale_disk {failing : List PathBuf} (h : w.disk lp = none) :
    (w.evictStale failing q).disk lp = none := by
  have hfile : ∀ (m : KeptMount) (local' : PathBuf), m.disk lp = none →
      (m.setFile local' none).disk lp = none := by
    intro m local' hm
    by_cases heq : lp = local'
    · rw [heq]
      exact Function.update_self ..
    · exact (Function.update_of_ne heq ..).trans hm
  unfold KeptMount.evictStale
  split
  · dsimp only
    split
    · exact h
    · exact hfile _ _ h
  · exact h

/-- The entry of a file that a listing shows modified goes, and its copy if it can be removed. -/
theorem foldl_evictStale {failing : List PathBuf} {l : List PathBuf} (hp : p ∈ l) :
    (l.foldl (KeptMount.evictStale failing) w).cache.fileCache p = none ∧
      ∀ e, w.cache.fileCache p = some e → e.localPath ∉ failing →
        (l.foldl (KeptMount.evictStale failing) w).disk e.localPath = none := by
  -- what is gone stays gone for the rest of the list
  have hgone : ∀ (l : List PathBuf) (w : KeptMount), w.cache.fileCache p = none →
      (l.foldl (KeptMount.evictStale failing) w).cache.fileCache p = none := by
    intro l
    induction l with
    | nil => exact fun _ h => h
    | cons q l ih => exact fun w h => ih _ (evictStale_none h)
  have hremoved : ∀ (l : List PathBuf) (w : KeptMount) (lp : PathBuf), w.disk lp = none →
      (l.foldl (KeptMount.evictStale failing) w).disk lp = none := by
    intro l
    induction l with
    | nil => exact fun _ _ h => h
    | cons q l ih => exact fun w lp h => ih _ lp (evictStale_disk h)
  -- the induction is over the list: the file is the next one or a later one
  induction l generalizing w with
  | nil => cases hp
  | cons q l ih =>
    by_cases hq : q = p
    · subst hq
      refine ⟨hgone l _ ?_, fun e he hplace => hremoved l _ _ ?_⟩
      · unfold KeptMount.evictStale
        split
        · dsimp only
          split <;> exact Function.update_self ..
        · assumption
      · rw [KeptMount.evictStale, he]
        dsimp only
        rw [if_neg hplace]
        exact Function.update_self ..
    · have hrest := ih (w := w.evictStale failing q) ((List.mem_cons.1 hp).resolve_left (Ne.symm hq))
      refine ⟨hrest.1, fun e he => hrest.2 e ?_⟩
      rw [evictStale_entry hq, he]

/-- A listing that reports the file as changed drops its entry and its copy. -/
theorem applyListing_modified {dir : PathBuf} {diff : DirDiff} {etag : Option String}
    {selfEntry : Option RemoteEntry} {fresh : List RemoteEntry} {now : Nat}
    {failing : List PathBuf} (hmodified : p ∈ diff.modified)
    (hrenames : ∀ r ∈ diff.renames, r.1 ≠ p ∧ r.2.1 ≠ p) :
    (w.applyListing dir diff etag selfEntry fresh now failing).cache.fileCache p = none ∧
      ∀ e, w.cache.fileCache p = some e → e.localPath ∉ failing →
        (w.applyListing dir diff etag selfEntry fresh now failing).disk e.localPath = none := by
  -- the renames before it concern other files
  have hmoved : ∀ (l : List (PathBuf × PathBuf × Bool)) (w : KeptMount),
      (∀ r ∈ l, r.1 ≠ p ∧ r.2.1 ≠ p) →
      (l.foldl KeptMount.moveEntry w).cache.fileCache p = w.cache.fileCache p := by
    intro l
    induction l with
    | nil => exact fun _ _ => rfl
    | cons r l ih =>
      intro w hl
      have hr := hl r List.mem_cons_self
      rw [List.foldl_cons, ih _ fun r' hr' => hl r' (List.mem_cons_of_mem r hr'),
        moveEntry_entry hr.1 hr.2]
  obtain ⟨hentry, hdisk⟩ :=
    @foldl_evictStale (diff.renames.foldl KeptMount.moveEntry w) p failing diff.modified hmodified
  unfold KeptMount.applyListing
  refine ⟨?_, fun e he => hdisk e ?_⟩
  · dsimp only
    rw [LabelWorld.putDirCache_fileCache, hentry]
  · rw [hmoved _ w hrenames, he]

/-- What holds of a file that is kept. -/
structure StaysKept (w : KeptMount) (p : PathBuf) : Prop where
  copy : ∃ content, content ≠ [] ∧ w.disk (w.localPath true p) = some content
  entry : ∀ e, w.cache.fileCache p = some e → e.kept = true ∧ e.localPath = w.localPath true p
  /-- After a directory read that lists the file there is an entry. -/
  rebuilt : ∀ dir oldChildren, ∀ f ∈ ((w.cache.dir dir).map (·.files)).getD [], f.path = p →
    f.isDir = false → ((w.readdir dir oldChildren).cache.fileCache p).any (·.kept) = true
  cleanup : ∀ walked maxBytes cutoff failing, w.walks walked = true →
    Leaves p w (w.runCacheCleanup walked maxBytes cutoff failing)

/-- A file that is kept stays kept. -/
theorem KeptAt.staysKept (h : w.KeptAt p) (hapart : w.disk (w.localPath false p) = none) :
    w.StaysKept p where
  copy := h.bytes
  entry e he := (h.fits p e he).own rfl
  rebuilt dir oldChildren f hf hpath hdir := by
    have hsome : ((w.readdir dir oldChildren).cache.fileCache p).isSome = true :=
      h.readdir_isSome hf hpath hdir
    obtain ⟨e, he⟩ := Option.isSome_iff_exists.1 hsome
    rw [he]
    exact ((h.readdir.fits p e he).own rfl).1
  cleanup _ _ _ _ hwalk := runCacheCleanup_leaves hwalk hapart

/-- Once a keep request is answered with a copy that has bytes and is marked kept, and while no
    step ends it and no second copy lies in the cache folder: the file stays kept. A download of it
    as kept that fails, or a listing that shows it modified, gives up the copy and the mark. -/
theorem kept_files_stay_kept {w₀ : KeptMount} {folder renamed : Bool}
    {attempts : List DownloadAttempt} {es : List KeptEvent}
    (hkeep : w₀.ensureFileCached p true folder renamed attempts =
      some (w, .ok (w.localPath true p)))
    (hmark : (w.cache.fileCache p).any (·.kept) = true)
    (hbytes : (w.fileAt (w.localPath true p)).isSome = true)
    (halone : ∀ q e, w.cache.fileCache q = some e → e.localPath = w.localPath true p → q = p)
    (hspares : w.spares p es = true) (hrun : w.steps es = some w') :
    w'.StaysKept p ∧
    (∀ folder renamed attempts g,
      w'.ensureFileCached p true folder renamed attempts = some (g, .error .download) →
      g.cache.fileCache p = none ∧ g.status p = some .remote ∧
        ∀ again, attempts.getLast? = some (.failed again true) → g.disk (g.localPath true p) = none) ∧
    ∀ dir diff etag selfEntry fresh now failing, p ∈ diff.modified →
      (∀ r ∈ diff.renames, r.1 ≠ p ∧ r.2.1 ≠ p) →
      (w'.applyListing dir diff etag selfEntry fresh now failing).cache.fileCache p = none ∧
        ∀ e, w'.cache.fileCache p = some e → e.localPath ∉ failing →
          (w'.applyListing dir diff etag selfEntry fresh now failing).disk e.localPath = none := by
  -- after the download the entry has its mark and its place, and no other entry has the place
  have hkept : w.KeptAt p := by
    obtain ⟨e, he, hplace⟩ := ensure_ok hkeep
    rw [he] at hmark
    obtain ⟨content, hcontent⟩ := Option.isSome_iff_exists.1 hbytes
    obtain ⟨hdisk, hne⟩ := fileAt_eq_some.1 hcontent
    refine ⟨⟨content, hne, hdisk⟩, fun q e' he' => ⟨?_, halone q e' he'⟩⟩
    rintro rfl
    cases he.symm.trans he'
    exact ⟨hmark, hplace⟩
  obtain ⟨hend, hapart⟩ := hkept.steps hspares hrun
  exact ⟨hend.staysKept hapart, fun _ _ _ _ hfailed => ensure_failed hfailed,
    fun _ _ _ _ _ _ _ hmodified hrenames => applyListing_modified hmodified hrenames⟩

/-! ## One file -/

/-- The root directory lists the file `/f` with these data. -/
def oneFile (size modified : Nat) (etag : String) : List RemoteEntry :=
  [{ path := ["f"], isDir := false, size := size, modified := some modified,
     changeToken := some etag }]

def oneFileCache : FsCache := ({} : FsCache).putDirCache [] none none (oneFile 2 5 "a") 0

/-- A mount with one file of two bytes. -/
def oneFileMount : KeptMount := { cache := oneFileCache, cacheDir := ["ncrs"] }

/-- `/f` is kept, changed on the server and kept again, there is a restart, the cleanup finds
    another file, and the directory is read. -/
def keptRun : List KeptEvent :=
  [.refresh [] none none (oneFile 3 6 "b") 1,
   .keep ["f"] true true [.failed true true, .done [1, 2, 3] (some "b")],
   .restart oneFileCache false [["f"]] [],
   .bootCheck 0 (some (some "b")) true true [],
   .uploaded ["g"] [7] 1 none true,
   .cleanup [{ path := ["ncrs", "cache", "g"], remotePath := ["g"], size := 1, accessed := 0 }] 0
     (some 5) [],
   .readdir [] []]

/-- `/f` after it was kept. -/
def keptMount : KeptMount :=
  (oneFileMount.setStatus ["f"] (some .downloading)).addCopy ["f"] true [1, 2] (some "a")

/-- A file is kept, and still is after a restart. -/
theorem file_is_kept_over_a_restart : ∃ w,
    oneFileMount.ensureFileCached ["f"] true true true [.done [1, 2] (some "a")] =
      some (keptMount, .ok (keptMount.localPath true ["f"])) ∧
    keptMount.steps keptRun = some w ∧ w.StaysKept ["f"] ∧
    w.disk ["ncrs", "kept", "f"] = some [1, 2, 3] ∧ w.disk ["ncrs", "cache", "g"] = none := by
  have hkeep : oneFileMount.ensureFileCached ["f"] true true true [.done [1, 2] (some "a")] =
      some (keptMount, .ok (keptMount.localPath true ["f"])) := rfl
  have halone : ∀ q e, keptMount.cache.fileCache q = some e →
      e.localPath = keptMount.localPath true ["f"] → q = ["f"] := by
    intro q e he _
    by_contra hq
    rw [show keptMount.cache.fileCache q = none from Function.update_of_ne hq ..] at he
    cases he
  have hspares : keptMount.spares ["f"] keptRun = true := by decide
  exact ⟨_, hkeep, rfl, (kept_files_stay_kept hkeep rfl rfl halone hspares rfl).1, rfl, rfl⟩

/-- The file changes on the server while it is kept, and the download of the new version fails: the
    copy, the entry and the status are gone, and no directory read brings them back. -/
theorem kept_file_is_given_up : ∃ w w',
    keptMount.cache.fileCache ["f"] = some
      { localPath := ["ncrs", "kept", "f"], remoteModified := some 5, etag := some "a"
        kept := true, size := 2 } ∧
    keptMount.steps [.refresh [] none none (oneFile 3 6 "b") 1] = some w ∧
    w.disk ["ncrs", "kept", "f"] = some [1, 2] ∧
    w.steps [.keep ["f"] true true [.failed false true], .readdir [] []] = some w' ∧
    w'.disk ["ncrs", "kept", "f"] = none ∧ w'.cache.fileCache ["f"] = none ∧
    w'.status ["f"] = some .remote :=
  ⟨_, _, rfl, rfl, rfl, rfl, rfl, rfl, rfl⟩

end KeptMount

end Ncrs
