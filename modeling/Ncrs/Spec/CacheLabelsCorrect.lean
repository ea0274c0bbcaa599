import Ncrs.Native.CacheLabels

/-!
# A cached copy is labelled with the version it holds

Labels are taken from the listing, not from the answer the bytes came with, so a label is right
only when the listing is current at the GET and does not move between the GET and the label.
`LabelWorld.Meets` is that condition, step by step; `Labelled` is the invariant it keeps.

## Key results

- `FsCache.lists_putDirCache`: a refresh lists what it brings and what was listed before
- `Labelled.step`: a step that meets the condition keeps every label right
- `cached_copies_hold_their_version`: in every state of every such run
- `refresh_mislabels_download`: a refresh between a GET and its label makes old bytes the
  current version
-/

namespace Ncrs

/-! ## What a listing lists -/

namespace FsCache

variable {c : FsCache} {path : PathBuf} {t : String}

/-- The parent's listing has an entry under the name of `path` with the etag `t`. -/
def Lists (c : FsCache) (path : PathBuf) (t : String) : Prop :=
  ∃ d, c.dir path.parent = some d ∧
    ∃ e ∈ d.files, e.path.fileName = path.fileName ∧ e.changeToken = some t

/-- What the client takes for the remote etag is in a listing. -/
theorem lists_of_remoteEtagFor (h : c.remoteEtagFor path = some t) : c.Lists path t := by
  unfold remoteEtagFor findEntry at h
  split at h
  · cases h
  · rename_i name hname
    rw [Option.bind_eq_some_iff] at h
    obtain ⟨e, he, ht⟩ := h
    rw [Option.bind_eq_some_iff] at he
    obtain ⟨d, hd, he⟩ := he
    have hsame := List.find?_some he
    refine ⟨d, hd, e, List.mem_of_find?_eq_some he, ?_, ht⟩
    rw [hname]
    exact of_decide_eq_true hsame

/-- A listing that is left was there before. -/
theorem dir_removeDir_some {dir p : PathBuf} {d : DirCacheEntry}
    (h : (c.removeDir dir).dir p = some d) : c.dir p = some d := by
  unfold FsCache.dir removeDir at h
  by_cases hp : p = dir
  · subst hp
    rw [AList.lookup_erase] at h
    cases h
  · rwa [AList.lookup_erase_ne hp] at h

/-- So was what it lists. -/
theorem lists_removeDir {dir : PathBuf} (h : (c.removeDir dir).Lists path t) : c.Lists path t := by
  obtain ⟨d, hd, he⟩ := h
  exact ⟨d, dir_removeDir_some hd, he⟩

/-- An eviction brings no listing. -/
theorem lists_evictDirCache (h : c.evictDirCache.Lists path t) : c.Lists path t := by
  have hfold : ∀ (l : List (Nat × PathBuf)) (c : FsCache),
      (l.foldl (fun c x => c.removeDir x.2) c).Lists path t → c.Lists path t := by
    intro l
    induction l with
    | nil => exact fun _ h => h
    | cons x l ih => exact fun c h => lists_removeDir (ih _ h)
  unfold evictDirCache at h
  dsimp only at h
  split at h
  · exact h
  · exact hfold _ _ h

/-- Changed files of one listing. -/
theorem lists_modifyFiles {dir : PathBuf} {f : List RemoteEntry → List RemoteEntry}
    (h : (c.modifyFiles dir f).Lists path t) :
    c.Lists path t ∨ path.parent = dir ∧ ∃ d, c.dir dir = some d ∧
      ∃ e ∈ f d.files, e.path.fileName = path.fileName ∧ e.changeToken = some t := by
  unfold modifyFiles modifyDir at h
  cases hd : c.dir dir with
  | none =>
    simp only [hd] at h
    exact .inl h
  | some d =>
    simp only [hd] at h
    obtain ⟨d', hd', he⟩ := h
    unfold FsCache.dir setDir at hd'
    by_cases hp : path.parent = dir
    · rw [hp, AList.lookup_insert] at hd'
      obtain rfl := Option.some.inj hd'
      exact .inr ⟨hp, d, rfl, he⟩
    · rw [AList.lookup_insert_ne hp] at hd'
      exact .inl ⟨d', hd', he⟩

/-- Filtering a listing lists nothing new. -/
theorem lists_filterFiles {dir : PathBuf} {keep : RemoteEntry → Bool}
    (h : (c.modifyFiles dir fun files => files.filter keep).Lists path t) : c.Lists path t := by
  obtain h | ⟨rfl, d, hd, e, he, hname, ht⟩ := lists_modifyFiles h
  · exact h
  · exact ⟨d, hd, e, List.mem_of_mem_filter he, hname, ht⟩

/-- An entry of a modified listing was there, or is the modified one. -/
theorem mem_modifyEntry {q : PathBuf} {f : RemoteEntry → RemoteEntry} {files : List RemoteEntry}
    {e : RemoteEntry} (h : e ∈ modifyEntry q f files) :
    e ∈ files ∨ ∃ x ∈ files, x.path = q ∧ e = f x := by
  induction files with
  | nil => cases h
  | cons x rest ih =>
    unfold modifyEntry at h
    split at h
    · rename_i hx
      obtain rfl | h := List.mem_cons.mp h
      · exact .inr ⟨x, List.mem_cons_self, hx, rfl⟩
      · exact .inl (List.mem_cons_of_mem x h)
    · obtain rfl | h := List.mem_cons.mp h
      · exact .inl List.mem_cons_self
      · obtain h | ⟨y, hy, hyq, rfl⟩ := ih h
        · exact .inl (List.mem_cons_of_mem x h)
        · exact .inr ⟨y, List.mem_cons_of_mem x hy, hyq, rfl⟩

/-- Giving an entry another version lists this version only. -/
theorem lists_relist {q : PathBuf} {f : RemoteEntry → RemoteEntry} (hpath : ∀ e, (f e).path = e.path)
    (h : (c.modifyFiles q.parent (modifyEntry q f)).Lists path t) :
    c.Lists path t ∨ path.parent = q.parent ∧ path.fileName = q.fileName ∧
      ∃ e, (f e).changeToken = some t := by
  obtain h | ⟨hp, d, hd, e, he, hname, ht⟩ := lists_modifyFiles h
  · exact .inl h
  · obtain he | ⟨x, -, hx, rfl⟩ := mem_modifyEntry he
    · exact .inl ⟨d, hp ▸ hd, e, he, hname, ht⟩
    · rw [hpath, hx] at hname
      exact .inr ⟨hp, hname.symm, x, ht⟩

/-- Merging keeps what holds of every name and etag that is merged. -/
theorem mergeUploading_forall {P : PathBuf → Option String → Prop} {files olds : List RemoteEntry}
    (hfiles : ∀ e ∈ files, P e.path e.changeToken) (holds : ∀ e ∈ olds, P e.path e.changeToken) :
    ∀ e ∈ olds.foldl mergeUploading files, P e.path e.changeToken := by
  induction olds generalizing files with
  | nil => exact hfiles
  | cons old olds ih =>
    have hold := holds old List.mem_cons_self
    refine ih (fun e he => ?_) fun e he => holds e (List.mem_cons_of_mem old he)
    unfold mergeUploading at he
    split at he
    · obtain he | ⟨x, -, hx, rfl⟩ := mem_modifyEntry he
      · exact hfiles e he
      · dsimp only
        rw [hx]
        exact hold
    · obtain he | he := List.mem_append.mp he
      · exact hfiles e he
      · rw [List.mem_singleton.mp he]
        exact hold

/-- A fresh listing as it is stored lists etags it brings, or that were listed before. -/
theorem mergedFiles_lists {dir : PathBuf} {files : List RemoteEntry} {e : RemoteEntry}
    (he : e ∈ c.mergedFiles dir files) (ht : e.changeToken = some t) :
    (∃ x ∈ files, x.path.fileName = e.path.fileName ∧ x.changeToken = some t) ∨
      ∃ d, c.dir dir = some d ∧
        ∃ x ∈ d.files, x.path.fileName = e.path.fileName ∧ x.changeToken = some t := by
  let P (p : PathBuf) (tok : Option String) : Prop :=
    (∃ x ∈ files, x.path.fileName = p.fileName ∧ x.changeToken = tok) ∨
      ∃ d, c.dir dir = some d ∧ ∃ x ∈ d.files, x.path.fileName = p.fileName ∧ x.changeToken = tok
  have hfresh : ∀ x ∈ files, P x.path x.changeToken := fun x hx => .inl ⟨x, hx, rfl, rfl⟩
  -- What is left of the merged entries, and the overlay, which has no etag.
  have hkept : ∀ (merged : List RemoteEntry) (keep : RemoteEntry → Bool) (overlay : Bool),
      (∀ x ∈ merged, P x.path x.changeToken) →
      e ∈ (if overlay then merged.filter keep ++ [trackerignoreEntry] else merged.filter keep) →
      P e.path (some t) := by
    intro merged keep overlay hmerged he
    rw [← ht]
    split at he
    · obtain he | he := List.mem_append.mp he
      · exact hmerged e (List.mem_of_mem_filter he)
      · rw [List.mem_singleton.mp he] at ht
        cases ht
    · exact hmerged e (List.mem_of_mem_filter he)
  unfold mergedFiles at he
  cases hd : c.dir dir with
  | none =>
    simp only [hd] at he
    obtain hP | ⟨d, hd', -⟩ := hkept files _ _ hfresh he
    · exact .inl hP
    · rw [hd] at hd'
      cases hd'
  | some d =>
    simp only [hd] at he
    rw [← hd]
    refine hkept _ _ _ (mergeUploading_forall hfresh fun x hx => ?_) he
    exact .inr ⟨d, hd, x, List.mem_of_mem_filter hx, rfl, rfl⟩

/-- A refresh lists what it brings and what was listed before, in its own directory; elsewhere
    listings are at most dropped. -/
theorem lists_putDirCache {dir : PathBuf} {etag : Option String} {selfEntry : Option RemoteEntry}
    {files : List RemoteEntry} {now : Nat}
    (h : (c.putDirCache dir etag selfEntry files now).Lists path t) :
    c.Lists path t ∨ path.parent = dir ∧
      ∃ e ∈ files, e.path.fileName = path.fileName ∧ e.changeToken = some t := by
  unfold putDirCache at h
  split at h
  · obtain ⟨d, hd, he⟩ := h
    exact .inl ⟨d, dir_removeDir_some hd, he⟩
  · obtain ⟨d, hd, e, he, hname, ht⟩ := lists_evictDirCache h
    unfold FsCache.dir at hd
    by_cases hp : path.parent = dir
    · subst hp
      rw [AList.lookup_insert] at hd
      obtain rfl := Option.some.inj hd
      obtain ⟨x, hx, hxname, hxt⟩ | ⟨d, hd, x, hx, hxname, hxt⟩ := mergedFiles_lists he ht
      · exact .inr ⟨rfl, x, hx, hxname.trans hname, hxt⟩
      · exact .inl ⟨d, hd, x, hx, hxname.trans hname, hxt⟩
    · rw [AList.lookup_insert_ne hp] at hd
      exact .inl ⟨d, hd, e, he, hname, ht⟩

/-- A rename lists the new name with what the old one was listed with. -/
theorem lists_moveListed {src dst : PathBuf} (h : (LabelWorld.moveListed c src dst).Lists path t) :
    c.Lists path t ∨ path.parent = dst.parent ∧ path.fileName = dst.fileName ∧ c.Lists src t := by
  unfold LabelWorld.moveListed at h
  dsimp only at h
  split at h
  · rename_i e he
    obtain h | ⟨hp, d, hd, x, hx, hname, ht⟩ := lists_modifyFiles h
    · exact .inl (lists_filterFiles h)
    · obtain hx | hx := List.mem_append.mp hx
      · exact .inl (lists_filterFiles ⟨d, hp ▸ hd, x, List.mem_of_mem_filter hx, hname, ht⟩)
      · rw [List.mem_singleton.mp hx] at hname ht
        rw [Option.bind_eq_some_iff] at he
        obtain ⟨d', hd', he⟩ := he
        have hsrc := List.find?_some he
        refine .inr ⟨hp, hname.symm, d', hd', e, List.mem_of_find?_eq_some he, ?_, ht⟩
        rw [of_decide_eq_true hsrc]
  · exact .inl (lists_filterFiles h)

end FsCache

/-- A copy that takes its label from the listing. -/
def CopyKind.readsListing : CopyKind → Bool
  | .upload _ => false
  | _ => true

/-- The copy has the bytes of this version. -/
def CopyJob.Holds (j : CopyJob) (v : ServerVersion) : Prop :=
  j.phase = .fetched v ∨ j.phase = .installed v

namespace LabelWorld

variable {w w' : LabelWorld} {path lp : PathBuf}

/-! ## When a step labels right -/

/-- The local file, if it is there, holds version `e` of `path`. -/
def Fits (w : LabelWorld) (path : PathBuf) (e : String) (lp : PathBuf) : Prop :=
  ∀ b, w.disk lp = some b → w.versions path e = some b

/-- The local file is gone, or it was written from version `e`, under this name or under one
    whose version `e` has the same bytes. -/
def WrittenFrom (w : LabelWorld) (path : PathBuf) (e : String) (lp : PathBuf) : Prop :=
  w.disk lp = none ∨ ∃ p, w.origin lp = some (p, e) ∧ w.versions path e = w.versions p e

/-- A new copy of `path` is in place and not labelled yet. -/
def Replacing (w : LabelWorld) (path : PathBuf) : Prop :=
  ∃ j ∈ w.copies, j.path = path ∧ ∃ v, j.phase = .installed v

/-- The etags that a step brings into the listings, each with the path it is listed for. -/
def Brings (w : LabelWorld) : LabelEvent → PathBuf → String → Prop
  | .refresh dir _ _ files _, p, t =>
    p.parent = dir ∧ ∃ e ∈ files, e.path.fileName = p.fileName ∧ e.changeToken = some t
  | .rename src dst, p, t =>
    p.parent = dst.parent ∧ p.fileName = dst.fileName ∧ w.cache.Lists src t
  | .relist path token _ _, p, t =>
    p.parent = path.parent ∧ p.fileName = path.fileName ∧ token = some t
  | _, _, _ => False

/-- A listing may take the etag `t` for `path`: no copy that will be labelled from it holds
    another version, and `t` is not the label of an entry that a new copy replaces. -/
def Steady (w : LabelWorld) (path : PathBuf) (t : String) : Prop :=
  (∀ j ∈ w.copies, j.path = path → j.kind.readsListing = true → ∀ v, j.Holds v → t = v.etag) ∧
    ∀ fc, w.cache.fileCache path = some fc → fc.etag = some t → ¬ w.Replacing path

/-- A local file may be replaced by version `v` when no copy waits there for its label, and the
    entries that use it are the path's own (of an upload: not under a listed etag) or stand for
    the same bytes. -/
def WriteOk (w : LabelWorld) (j : CopyJob) (v : ServerVersion) : Prop :=
  (∀ k ∈ w.copies, ∀ v', k.phase = .installed v' →
    w.localPath k.kept k.path ≠ w.localPath j.kept j.path) ∧
  ∀ p fc e, w.cache.fileCache p = some fc → fc.localPath = w.localPath j.kept j.path →
    fc.etag = some e →
    p = j.path ∧ (j.kind.readsListing = false → ¬ w.cache.Lists p e) ∨
      p ≠ j.path ∧ w.versions p e = some v.bytes

/-- When a step that brings nothing into the listings labels right: a GET is answered while its
    path is listed at the current version or without an etag; a file that is taken over, or kept,
    was written from the version its entry names. -/
def StepOk (w : LabelWorld) : LabelEvent → Prop
  | .fetch i => ∀ j v, w.copies[i]? = some j → w.server j.path = some v →
    ∀ t, w.cache.Lists j.path t → t = v.etag
  | .install i => ∀ j v, w.copies[i]? = some j → j.phase = .fetched v → w.WriteOk j v
  | .adopt i => ∀ path fc e, w.found[i]? = some (path, fc) → w.cache.fileCache path = none →
    fc.etag = some e → w.WrittenFrom path e fc.localPath
  | .keepFile path => ∀ p fc, w.cache.fileCache p = some fc → fc.localPath ≠ w.localPath true path ∧
    ∀ j ∈ w.copies, ∀ v, j.phase = .installed v →
      w.localPath j.kept j.path ≠ w.localPath true path
  | .keepEntry path => ∀ fc e, w.cache.fileCache path = some fc → fc.etag = some e →
    w.WrittenFrom path e (w.localPath true path)
  | .moveEntry src dst => ∀ fc e, w.cache.fileCache src = some fc → fc.etag = some e →
    w.versions dst e = w.versions src e ∧ ¬ w.Replacing src
  | _ => True

/-- The condition on one step, in the state it is taken in. -/
def Meets (w : LabelWorld) (e : LabelEvent) : Prop :=
  (∀ p t, w.Brings e p t → w.Steady p t) ∧ w.StepOk e

/-- The invariant: what is fetched is a version of its path, the listing does not contradict a
    copy on its way, files hold what they were written from, and every label is that of the
    bytes, except where a new copy is in place under an entry that is not listed any more. -/
structure Labelled (w : LabelWorld) : Prop where
  known : ∀ j ∈ w.copies, ∀ v, j.Holds v → w.versions j.path v.etag = some v.bytes
  served : ∀ path v, w.server path = some v → w.versions path v.etag = some v.bytes
  installed : ∀ j ∈ w.copies, ∀ v, j.phase = .installed v →
    ∀ b, w.disk (w.localPath j.kept j.path) = some b → b = v.bytes
  listed : ∀ j ∈ w.copies, j.kind.readsListing = true → ∀ v, j.Holds v →
    ∀ t, w.cache.Lists j.path t → t = v.etag
  origins : ∀ lp p e b, w.origin lp = some (p, e) → w.disk lp = some b → w.versions p e = some b
  labels : ∀ path fc e, w.cache.fileCache path = some fc → fc.etag = some e →
    w.Fits path e fc.localPath ∨ w.Replacing path ∧ ¬ w.cache.Lists path e

/-! ## Steps -/

/-- A listing that is stored leaves the copies alone. -/
@[simp] theorem putDirCache_fileCache (c : FsCache) (dir : PathBuf) (etag : Option String)
    (selfEntry : Option RemoteEntry) (files : List RemoteEntry) (now : Nat) :
    (c.putDirCache dir etag selfEntry files now).fileCache = c.fileCache := by
  have hfold : ∀ (l : List (Nat × PathBuf)) (c : FsCache),
      (l.foldl (fun c x => c.removeDir x.2) c).fileCache = c.fileCache := by
    intro l
    induction l with
    | nil => exact fun _ => rfl
    | cons x l ih => exact fun c => (ih _).trans rfl
  unfold FsCache.putDirCache
  split
  · rfl
  · unfold FsCache.evictDirCache
    dsimp only
    split
    · rfl
    · exact hfold _ _

/-- So does one that is modified. -/
@[simp] theorem modifyFiles_fileCache (c : FsCache) (dir : PathBuf)
    (f : List RemoteEntry → List RemoteEntry) : (c.modifyFiles dir f).fileCache = c.fileCache := by
  unfold FsCache.modifyFiles FsCache.modifyDir
  split <;> rfl

/-- And moving an entry between listings. -/
@[simp] theorem moveListed_fileCache (c : FsCache) (src dst : PathBuf) :
    (moveListed c src dst).fileCache = c.fileCache := by
  unfold moveListed
  dsimp only
  split <;> simp

/-- A file that was written from a version holds it. -/
theorem Labelled.fits (h : Labelled w) {e : String} (hw : w.WrittenFrom path e lp) :
    w.Fits path e lp := by
  intro b hb
  obtain hnone | ⟨p, horigin, hsame⟩ := hw
  · rw [hnone] at hb
    cases hb
  · rw [hsame]
    exact h.origins lp p e b horigin hb

/-- A change of the listings that brings nothing unsteady. -/
theorem Labelled.relisted (h : Labelled w) {c : FsCache} (hc : c.fileCache = w.cache.fileCache)
    (hok : ∀ p t, c.Lists p t → w.cache.Lists p t ∨ w.Steady p t) :
    Labelled { w with cache := c } where
  known := h.known
  served := h.served
  installed := h.installed
  listed j hj hkind v hv t ht := by
    obtain ht | hsteady := hok j.path t ht
    · exact h.listed j hj hkind v hv t ht
    · exact hsteady.1 j hj rfl hkind v hv
  origins := h.origins
  labels p fc e hfc he := by
    dsimp only at hfc
    rw [hc] at hfc
    obtain hfits | ⟨hr, hne⟩ := h.labels p fc e hfc he
    · exact .inl hfits
    · refine .inr ⟨hr, fun hl => ?_⟩
      obtain hl | hsteady := hok p e hl
      · exact hne hl
      · exact hsteady.2 fc hfc he hr

/-- A version the server had before keeps its bytes when it takes a new one. -/
theorem accept_versions {v : ServerVersion} (hfresh : (w.versions path v.etag).isSome = false)
    {p : PathBuf} {e : String} {b : Bytes} (h : w.versions p e = some b) :
    (w.accept path v).versions p e = some b := by
  unfold accept
  by_cases hp : p = path
  · subst hp
    by_cases he : e = v.etag
    · subst he
      simp [h] at hfresh
    · simp [Function.update_of_ne he, h]
  · simp [Function.update_of_ne hp, h]

/-- A version that the server accepts is one that it has. -/
theorem accept_version (w : LabelWorld) (path : PathBuf) (v : ServerVersion) :
    (w.accept path v).versions path v.etag = some v.bytes := by
  simp [accept]

/-- Accepting a version that was never there keeps the copies labelled. -/
theorem Labelled.accept (h : Labelled w) {v : ServerVersion}
    (hfresh : (w.versions path v.etag).isSome = false) : Labelled (w.accept path v) where
  known j hj v' hv' := accept_versions hfresh (h.known j hj v' hv')
  served p v' hv' := by
    by_cases hp : p = path
    · subst hp
      simp only [LabelWorld.accept, Function.update_self] at hv'
      cases hv'
      exact accept_version w p v
    · simp only [LabelWorld.accept, Function.update_of_ne hp] at hv'
      exact accept_versions hfresh (h.served p v' hv')
  installed := h.installed
  listed := h.listed
  origins lp p e b ho hb := accept_versions hfresh (h.origins lp p e b ho hb)
  labels p fc e hfc he := by
    obtain hfits | hr := h.labels p fc e hfc he
    · exact .inl fun b hb => accept_versions hfresh (hfits b hb)
    · exact .inr hr

/-- A path that the server has no more serves nothing. -/
theorem Labelled.serverDelete (h : Labelled w) (path : PathBuf) :
    Labelled { w with server := Function.update w.server path none } := by
  refine ⟨h.known, fun p v hv => ?_, h.installed, h.listed, h.origins, h.labels⟩
  by_cases hp : p = path
  · subst hp
    simp at hv
  · dsimp only at hv
    rw [Function.update_of_ne hp] at hv
    exact h.served p v hv

/-- An entry of `file_cache` may be dropped, or set to a file with its version. -/
theorem Labelled.setEntry (h : Labelled w) {entry : Option FileCacheEntry}
    (hnew : ∀ fc e, entry = some fc → fc.etag = some e → w.Fits path e fc.localPath) :
    Labelled (w.setFileCache path entry) where
  known := h.known
  served := h.served
  installed := h.installed
  listed := h.listed
  origins := h.origins
  labels p fc e hfc he := by
    by_cases hp : p = path
    · subst hp
      simp only [setFileCache, Function.update_self] at hfc
      exact .inl (hnew fc e hfc he)
    · simp only [setFileCache, Function.update_of_ne hp] at hfc
      exact h.labels p fc e hfc he

/-- A removed file has no bytes to be mislabelled. -/
theorem Labelled.removeFile (h : Labelled w) (lp : PathBuf) :
    Labelled { w with disk := Function.update w.disk lp none } := by
  have hkeep : ∀ q b, Function.update w.disk lp none q = some b → w.disk q = some b := by
    intro q b hb
    by_cases hq : q = lp
    · subst hq
      simp at hb
    · rwa [Function.update_of_ne hq] at hb
  refine ⟨h.known, h.served, ?_, h.listed, ?_, ?_⟩
  · intro j hj v hv b hb
    exact h.installed j hj v hv b (hkeep _ b hb)
  · intro q p e b ho hb
    exact h.origins q p e b ho (hkeep _ b hb)
  · intro p fc e hfc he
    obtain hfits | hr := h.labels p fc e hfc he
    · exact .inl fun b hb => hfits b (hkeep _ b hb)
    · exact .inr hr

/-! ### Copies on their way -/

/-- A copy that is not in place yet, and that holds nothing if it reads its label off the
    listing. -/
theorem Labelled.addCopy (h : Labelled w) {j : CopyJob} (hj : ∀ v, j.phase ≠ .installed v)
    (hv : ∀ v, j.phase = .fetched v → w.versions j.path v.etag = some v.bytes)
    (hkind : j.kind.readsListing = true → ∀ v, ¬ j.Holds v) :
    Labelled { w with copies := w.copies ++ [j] } := by
  have hcases : ∀ k ∈ w.copies ++ [j], k ∈ w.copies ∨ k = j := fun k hk =>
    (List.mem_append.mp hk).imp_right List.mem_singleton.mp
  refine ⟨?_, h.served, ?_, ?_, h.origins, ?_⟩
  · intro k hk v' hv'
    obtain hk | rfl := hcases k hk
    · exact h.known k hk v' hv'
    · exact hv v' (hv'.resolve_right (hj v'))
  · intro k hk v' hv'
    obtain hk | rfl := hcases k hk
    · exact h.installed k hk v' hv'
    · exact absurd hv' (hj v')
  · intro k hk hreads v' hv'
    obtain hk | rfl := hcases k hk
    · exact h.listed k hk hreads v' hv'
    · exact absurd hv' (hkind hreads v')
  · intro p fc e hfc he
    obtain hfits | ⟨⟨k, hk, hr⟩, hne⟩ := h.labels p fc e hfc he
    · exact .inl hfits
    · exact .inr ⟨⟨k, List.mem_append_left _ hk, hr⟩, hne⟩

/-- Whether `j` is the copy that takes the step, or another one. -/
theorem mem_set_copies {i : Nat} {j' k : CopyJob} (hk : k ∈ w.copies.set i j') :
    k = j' ∨ k ∈ w.copies := (List.mem_or_eq_of_mem_set hk).symm

/-- Another copy that waits for its label still does. -/
theorem Replacing.set {i : Nat} {j j' : CopyJob} (hi : w.copies[i]? = some j)
    (hj : ∀ v, j.phase ≠ .installed v) {p : PathBuf} (hr : w.Replacing p) :
    Replacing { w with copies := w.copies.set i j' } p := by
  obtain ⟨k, hk, hp, v, hv⟩ := hr
  refine ⟨k, ?_, hp, v, hv⟩
  obtain ⟨n, hn⟩ := List.mem_iff_getElem?.mp hk
  have hne : i ≠ n := by
    rintro rfl
    rw [hi] at hn
    cases hn
    exact hj v hv
  refine List.mem_iff_getElem?.mpr ⟨n, ?_⟩
  rw [List.getElem?_set_ne hne]
  exact hn

/-- A copy that is given up replaced nothing, or something else. -/
theorem Replacing.erase {i : Nat} {j : CopyJob} (hi : w.copies[i]? = some j) {p : PathBuf}
    (hj : (∀ v, j.phase ≠ .installed v) ∨ j.path ≠ p) (hr : w.Replacing p) :
    Replacing { w with copies := w.copies.eraseIdx i } p := by
  obtain ⟨k, hk, hp, v, hv⟩ := hr
  refine ⟨k, ?_, hp, v, hv⟩
  obtain ⟨n, hn⟩ := List.mem_iff_getElem?.mp hk
  have hne : n ≠ i := by
    rintro rfl
    rw [hi] at hn
    cases hn
    obtain hj | hj := hj
    · exact hj v hv
    · exact hj hp
  exact List.mem_eraseIdx_iff_getElem?.mpr ⟨n, hne, hn⟩

/-- A copy that is given up before it was installed leaves the labels. -/
theorem Labelled.eraseCopy (h : Labelled w) {i : Nat} {j : CopyJob} (hi : w.copies[i]? = some j)
    (hj : (∀ v, j.phase ≠ .installed v) ∨ w.cache.fileCache j.path = none) :
    Labelled { w with copies := w.copies.eraseIdx i } := by
  refine ⟨?_, h.served, ?_, ?_, h.origins, ?_⟩
  · exact fun k hk => h.known k (List.mem_of_mem_eraseIdx hk)
  · exact fun k hk => h.installed k (List.mem_of_mem_eraseIdx hk)
  · exact fun k hk => h.listed k (List.mem_of_mem_eraseIdx hk)
  · intro p fc e hfc he
    obtain hfits | ⟨hr, hne⟩ := h.labels p fc e hfc he
    · exact .inl hfits
    · refine .inr ⟨hr.erase hi ?_, hne⟩
      refine hj.imp_right fun hnone hp => ?_
      rw [hp, hfc] at hnone
      cases hnone

/-- A GET is answered while the listing has the version it answers with, or no etag. -/
theorem Labelled.fetch (h : Labelled w) {i : Nat} {j : CopyJob} {v : ServerVersion}
    (hi : w.copies[i]? = some j) (hj : j.phase = .requested) (hv : w.server j.path = some v)
    (hlisted : ∀ t, w.cache.Lists j.path t → t = v.etag) :
    Labelled { w with copies := w.copies.set i { j with phase := .fetched v } } := by
  refine ⟨?_, h.served, ?_, ?_, h.origins, ?_⟩
  · intro k hk v' hv'
    obtain rfl | hk := mem_set_copies hk
    · obtain hv' | hv' := hv' <;> cases hv'
      exact h.served j.path v hv
    · exact h.known k hk v' hv'
  · intro k hk v' hv'
    obtain rfl | hk := mem_set_copies hk
    · cases hv'
    · exact h.installed k hk v' hv'
  · intro k hk hreads v' hv'
    obtain rfl | hk := mem_set_copies hk
    · obtain hv' | hv' := hv' <;> cases hv'
      exact hlisted
    · exact h.listed k hk hreads v' hv'
  · intro p fc e hfc he
    obtain hfits | ⟨hr, hne⟩ := h.labels p fc e hfc he
    · exact .inl hfits
    · exact .inr ⟨hr.set hi (by simp [hj]), hne⟩

/-- The world after a fetched copy was renamed over its local path. -/
def installCopy (w : LabelWorld) (i : Nat) (j : CopyJob) (v : ServerVersion) : LabelWorld :=
  { w with
    disk := Function.update w.disk (w.localPath j.kept j.path) (some v.bytes)
    origin := Function.update w.origin (w.localPath j.kept j.path) (some (j.path, v.etag))
    copies := w.copies.set i { j with phase := .installed v } }

/-- Installing a copy writes this file only. -/
theorem installCopy_disk_of_ne {i : Nat} {j : CopyJob} {v : ServerVersion} {q : PathBuf}
    (hq : q ≠ w.localPath j.kept j.path) : (w.installCopy i j v).disk q = w.disk q :=
  Function.update_of_ne hq _ _

/-- And notes the origin of this file only. -/
theorem installCopy_origin_of_ne {i : Nat} {j : CopyJob} {v : ServerVersion} {q : PathBuf}
    (hq : q ≠ w.localPath j.kept j.path) : (w.installCopy i j v).origin q = w.origin q :=
  Function.update_of_ne hq _ _

/-- The copy's path is being replaced until the copy has its label. -/
theorem replacing_installCopy {i : Nat} {j : CopyJob} (v : ServerVersion)
    (hi : w.copies[i]? = some j) : (w.installCopy i j v).Replacing j.path := by
  refine ⟨{ j with phase := .installed v }, ?_, rfl, v, rfl⟩
  exact List.mem_set (List.getElem?_eq_some_iff.mp hi).1 _

/-- The entries that use a local file when a new copy replaces it. -/
theorem Labelled.label_of_install (h : Labelled w) {i : Nat} {j : CopyJob} {v : ServerVersion}
    (hi : w.copies[i]? = some j) (hj : j.phase = .fetched v) (hok : w.WriteOk j v) {p : PathBuf}
    {fc : FileCacheEntry} {e : String} (hfc : w.cache.fileCache p = some fc)
    (he : fc.etag = some e) (hlp : fc.localPath = w.localPath j.kept j.path) :
    (w.installCopy i j v).Fits p e fc.localPath ∨
      (w.installCopy i j v).Replacing p ∧ ¬ w.cache.Lists p e := by
  have hbytes : ∀ b, (w.installCopy i j v).disk fc.localPath = some b → b = v.bytes := by
    intro b hb
    rw [hlp] at hb
    simp only [installCopy, localPath, Function.update_self] at hb
    exact (Option.some.inj hb).symm
  have hknown := h.known j (List.mem_of_getElem? hi) v (.inl hj)
  obtain ⟨rfl, hupload⟩ | ⟨-, hsame⟩ := hok.2 p fc e hfc hlp he
  · by_cases hev : e = v.etag
    · refine .inl fun b hb => ?_
      rw [hbytes b hb, hev]
      exact hknown
    · refine .inr ⟨replacing_installCopy v hi, fun hl => ?_⟩
      cases hkind : j.kind.readsListing with
      | true => exact hev (h.listed j (List.mem_of_getElem? hi) hkind v (.inl hj) e hl)
      | false => exact hupload hkind hl
  · refine .inl fun b hb => ?_
    rw [hbytes b hb]
    exact hsame

/-- Installing a copy keeps the labels, if no other copy is written to its file. -/
theorem Labelled.install (h : Labelled w) {i : Nat} {j : CopyJob} {v : ServerVersion}
    (hi : w.copies[i]? = some j) (hj : j.phase = .fetched v) (hok : w.WriteOk j v) :
    Labelled (w.installCopy i j v) := by
  have hmem : j ∈ w.copies := List.mem_of_getElem? hi
  -- a copy that holds a version held it before, or is the one that is installed
  have hown : ∀ k ∈ (w.installCopy i j v).copies, ∀ v', k.Holds v' →
      k.path = j.path ∧ k.kept = j.kept ∧ k.kind = j.kind ∧ v' = v ∨ k ∈ w.copies := by
    intro k hk v' hv'
    obtain rfl | hk := mem_set_copies hk
    · obtain hv' | hv' := hv' <;> cases hv'
      exact .inl ⟨rfl, rfl, rfl, rfl⟩
    · exact .inr hk
  refine ⟨?_, h.served, ?_, ?_, ?_, ?_⟩
  · intro k hk v' hv'
    obtain ⟨hpath, -, -, rfl⟩ | hk := hown k hk v' hv'
    · rw [hpath]
      exact h.known j hmem v' (.inl hj)
    · exact h.known k hk v' hv'
  · intro k hk v' hv' b hb
    obtain rfl | hk := mem_set_copies hk
    · cases hv'
      simp only [installCopy, localPath, Function.update_self] at hb
      exact (Option.some.inj hb).symm
    · rw [show (w.installCopy i j v).localPath k.kept k.path = w.localPath k.kept k.path from rfl,
        installCopy_disk_of_ne (hok.1 k hk v' hv')] at hb
      exact h.installed k hk v' hv' b hb
  · intro k hk hreads v' hv'
    obtain ⟨hpath, -, hkind, rfl⟩ | hk := hown k hk v' hv'
    · rw [hpath]
      exact h.listed j hmem (hkind ▸ hreads) v' (.inl hj)
    · exact h.listed k hk hreads v' hv'
  · intro q p e b ho hb
    -- the file that was written holds the version that was fetched
    by_cases hq : q = w.localPath j.kept j.path
    · subst hq
      simp only [installCopy, localPath, Function.update_self] at ho hb
      cases ho
      cases hb
      exact h.known j hmem v (.inl hj)
    · rw [installCopy_disk_of_ne hq] at hb
      rw [installCopy_origin_of_ne hq] at ho
      exact h.origins q p e b ho hb
  · intro p fc e hfc he
    -- an entry for the same file is now being replaced
    by_cases hlp : fc.localPath = w.localPath j.kept j.path
    · exact h.label_of_install hi hj hok hfc he hlp
    · obtain hfits | ⟨hr, hne⟩ := h.labels p fc e hfc he
      · refine .inl fun b hb => hfits b ?_
        rwa [installCopy_disk_of_ne hlp] at hb
      · exact .inr ⟨hr.set hi (by simp [hj]), hne⟩

/-- The label a copy gets is that of the version it was fetched as: where it is read off the
    listing, the listing has no other. -/
theorem Labelled.labelOf (h : Labelled w) {j : CopyJob} (hj : j ∈ w.copies) {v : ServerVersion}
    (hv : j.Holds v) {e : String} (he : w.labelOf j v = some e) : e = v.etag := by
  have hlisted : j.kind.readsListing = true → w.cache.remoteEtagFor j.path = some e → e = v.etag :=
    fun hkind hremote => h.listed j hj hkind v hv e (FsCache.lists_of_remoteEtagFor hremote)
  have hanswer : ∀ b : Bool, (if b then some v.etag else none) = some e → e = v.etag := by
    intro b hb
    split at hb
    · exact (Option.some.inj hb).symm
    · cases hb
  unfold LabelWorld.labelOf at he
  -- each kind of copy takes its label from the listing, the answer or both
  cases hkind : j.kind with
  | download answersTag =>
    simp only [hkind] at he
    cases hremote : w.cache.remoteEtagFor j.path with
    | some t =>
      rw [hremote] at he
      refine hlisted (by rw [hkind]; rfl) ?_
      rw [hremote]
      exact he
    | none =>
      rw [hremote] at he
      exact hanswer answersTag he
  | streamed =>
    simp only [hkind] at he
    exact hlisted (by rw [hkind]; rfl) he
  | upload answersTag =>
    simp only [hkind] at he
    exact hanswer answersTag he

/-- Giving a copy its label. -/
theorem Labelled.labelCopy (h : Labelled w) {i : Nat} {j : CopyJob} {v : ServerVersion}
    (hi : w.copies[i]? = some j) (hj : j.phase = .installed v) : Labelled (w.labelCopy i j v) := by
  have hmem : j ∈ w.copies := List.mem_of_getElem? hi
  refine ⟨?_, h.served, ?_, ?_, h.origins, ?_⟩
  · exact fun k hk => h.known k (List.mem_of_mem_eraseIdx hk)
  · exact fun k hk => h.installed k (List.mem_of_mem_eraseIdx hk)
  · exact fun k hk => h.listed k (List.mem_of_mem_eraseIdx hk)
  · intro p fc e hfc he
    by_cases hp : p = j.path
    · -- The copy's own entry: its bytes are the version it was fetched as.
      subst hp
      simp only [LabelWorld.labelCopy, setFileCache, Function.update_self] at hfc
      cases hfc
      obtain rfl := h.labelOf hmem (.inr hj) he
      refine .inl fun b hb => ?_
      obtain rfl := h.installed j hmem v hj b hb
      exact h.known j hmem v (.inr hj)
    · simp only [LabelWorld.labelCopy, setFileCache, Function.update_of_ne hp] at hfc
      obtain hfits | ⟨hr, hne⟩ := h.labels p fc e hfc he
      · exact .inl hfits
      · exact .inr ⟨hr.erase hi (.inr fun hpath => hp hpath.symm), hne⟩

/-- A copy to be kept moves to a place that nothing uses, and takes its origin along. -/
theorem Labelled.keepFile (h : Labelled w) {fc : FileCacheEntry}
    (hfc : w.cache.fileCache path = some fc) (hne : fc.localPath ≠ w.localPath true path)
    (hok : w.StepOk (.keepFile path)) :
    let moved := Function.update w.disk (w.localPath true path) (w.disk fc.localPath)
    Labelled { w with
      disk := Function.update moved fc.localPath none
      origin := Function.update w.origin (w.localPath true path) (w.origin fc.localPath) } := by
  -- the moved file goes to the kept folder and nowhere else
  have hkeep : ∀ q b, q ≠ w.localPath true path →
      Function.update (Function.update w.disk (w.localPath true path) (w.disk fc.localPath))
        fc.localPath none q = some b → w.disk q = some b := by
    intro q b hq hb
    by_cases hqf : q = fc.localPath
    · subst hqf
      simp at hb
    · rwa [Function.update_of_ne hqf, Function.update_of_ne hq] at hb
  refine ⟨h.known, h.served, ?_, h.listed, ?_, ?_⟩
  · intro j hj v hv b hb
    exact h.installed j hj v hv b (hkeep _ b ((hok path fc hfc).2 j hj v hv) hb)
  · intro q p e b ho hb
    by_cases hq : q = w.localPath true path
    · subst hq
      dsimp only at ho hb
      rw [Function.update_self] at ho
      rw [Function.update_of_ne hne.symm, Function.update_self] at hb
      exact h.origins _ p e b ho hb
    · dsimp only at ho
      rw [Function.update_of_ne hq] at ho
      exact h.origins q p e b ho (hkeep q b hq hb)
  · intro p fc' e hfc' he
    obtain hfits | hr := h.labels p fc' e hfc' he
    · exact .inl fun b hb => hfits b (hkeep _ b (hok p fc' hfc').1 hb)
    · exact .inr hr

/-- A found file becomes the entry of a path that has none. -/
theorem Labelled.adopt (h : Labelled w) {i : Nat} {fc : FileCacheEntry}
    (hi : w.found[i]? = some (path, fc)) (hok : w.StepOk (.adopt i)) :
    Labelled (if (w.cache.fileCache path).isSome then { w with found := w.found.eraseIdx i }
      else ({ w with found := w.found.eraseIdx i } : LabelWorld).setFileCache path (some fc)) := by
  have hfound : Labelled { w with found := w.found.eraseIdx i } :=
    ⟨h.known, h.served, h.installed, h.listed, h.origins, h.labels⟩
  split
  · exact hfound
  · rename_i hnone
    refine hfound.setEntry ?_
    rintro fc' e ⟨⟩ he
    exact h.fits (hok path fc e hi (by simpa using hnone) he)

/-- An entry moves to another name at which its etag stands for the same bytes. -/
theorem Labelled.moveEntry (h : Labelled w) {src dst : PathBuf} {fc : FileCacheEntry}
    (hfc : w.cache.fileCache src = some fc) (hok : w.StepOk (.moveEntry src dst)) :
    Labelled ((w.setFileCache src none).setFileCache dst (some fc)) := by
  refine Labelled.setEntry (h.setEntry (by simp)) ?_
  rintro fc' e ⟨⟩ he
  obtain ⟨hver, hnr⟩ := hok fc e hfc he
  obtain hfits | ⟨hr, -⟩ := h.labels src fc e hfc he
  · intro b hb
    exact hver.trans (hfits b hb)
  · exact absurd hr hnr

/-! ### Every step -/

/-- A change of the listings that meets the condition. -/
theorem Labelled.relist (h : Labelled w) {e : LabelEvent} (hok : w.Meets e) {c : FsCache}
    (hc : c.fileCache = w.cache.fileCache)
    (hlists : ∀ p t, c.Lists p t → w.cache.Lists p t ∨ w.Brings e p t) :
    Labelled { w with cache := c } :=
  h.relisted hc fun p t hl => (hlists p t hl).imp_right (hok.1 p t)

/-- A step that meets the condition keeps every label right. -/
theorem Labelled.step (h : Labelled w) {e : LabelEvent} (hstep : w.step e = some w')
    (hok : w.Meets e) : Labelled w' := by
  cases e with
  | serverPut path v =>
    -- the server
    simp only [LabelWorld.step] at hstep
    split at hstep <;> cases hstep
    rename_i hfresh
    exact h.accept (Bool.eq_false_iff.mpr hfresh)
  | serverDelete path =>
    cases hstep
    exact h.serverDelete path
  | refresh dir etag selfEntry files now =>
    -- the listings
    cases hstep
    exact h.relist hok (putDirCache_fileCache _ _ _ _ _ _) fun p t => FsCache.lists_putDirCache
  | dropListing dir =>
    cases hstep
    exact h.relist hok rfl fun p t hl => .inl (FsCache.lists_removeDir hl)
  | unlink path =>
    cases hstep
    -- The guard sets are in no listing; then the entry goes.
    have hlisted : Labelled { w with
        cache :=
          let c := w.cache.modifyFiles path.parent fun files => files.filter fun e => e.path ≠ path
          { c with deleting := insert path c.deleting, uploading := c.uploading.erase path } } :=
      h.relist hok (modifyFiles_fileCache _ _ _) fun p t hl => .inl (FsCache.lists_filterFiles hl)
    exact hlisted.setEntry (by simp)
  | rename src dst =>
    -- a rename and a local write move or change listed entries only
    cases hstep
    exact h.relist hok (moveListed_fileCache _ _ _) fun p t => FsCache.lists_moveListed
  | relist path token size modified =>
    cases hstep
    refine h.relist hok (modifyFiles_fileCache _ _ _) fun p t hl => ?_
    obtain hl | ⟨hp, hname, e, ht⟩ := FsCache.lists_relist
      (f := fun e => { e with changeToken := token, size := size, modified := modified })
      (fun _ => rfl) hl
    · exact .inl hl
    · exact .inr ⟨hp, hname, ht⟩
  | request path kept kind =>
    -- the copies: requested or uploaded, fetched, installed, labelled, given up
    simp only [LabelWorld.step] at hstep
    split at hstep <;> cases hstep
    exact h.addCopy (by simp) (by simp) (by simp [CopyJob.Holds])
  | uploaded path kept answersTag v =>
    simp only [LabelWorld.step] at hstep
    split at hstep <;> cases hstep
    rename_i hfresh
    refine (h.accept (Bool.eq_false_iff.mpr hfresh)).addCopy (by simp) ?_ (by simp [CopyKind.readsListing])
    rintro v' ⟨⟩
    exact accept_version w path v
  | fetch i =>
    simp only [LabelWorld.step] at hstep
    split at hstep
    · rename_i j hi
      split at hstep <;> cases hstep
      rename_i v hj hv
      exact h.fetch hi hj hv (hok.2 j v hi hv)
    · cases hstep
  | install i =>
    simp only [LabelWorld.step] at hstep
    split at hstep
    · rename_i j hi
      split at hstep <;> cases hstep
      rename_i v hj
      exact h.install hi hj (hok.2 j v hi hj)
    · cases hstep
  | label i =>
    simp only [LabelWorld.step] at hstep
    split at hstep
    · rename_i j hi
      split at hstep <;> cases hstep
      exact h.labelCopy hi ‹_›
    · cases hstep
  | giveUp i =>
    simp only [LabelWorld.step] at hstep
    split at hstep
    · rename_i j hi
      split at hstep <;> cases hstep
      rename_i hj
      have hgone := (h.eraseCopy hi (.inl hj)).removeFile (w.localPath j.kept j.path)
      exact hgone.setEntry (by simp)
    · cases hstep
  | find path =>
    -- files found on the disk, and their removal
    simp only [LabelWorld.step, Option.map_eq_some_iff] at hstep
    obtain ⟨fc, -, rfl⟩ := hstep
    exact ⟨h.known, h.served, h.installed, h.listed, h.origins, h.labels⟩
  | adopt i =>
    simp only [LabelWorld.step] at hstep
    split at hstep
    · rename_i path fc hi
      cases hstep
      exact h.adopt hi hok.2
    · cases hstep
  | removeFile lp =>
    cases hstep
    exact h.removeFile lp
  | dropEntry path =>
    cases hstep
    exact h.setEntry (by simp)
  | keepFile path =>
    -- keeping a file, and moving an entry
    simp only [LabelWorld.step] at hstep
    split at hstep
    · rename_i fc hfc
      split at hstep <;> cases hstep
      rename_i hguard
      refine h.keepFile hfc (fun hlp => hguard ?_) hok.2
      simp [hlp]
    · cases hstep
  | keepEntry path =>
    cases hstep
    refine h.setEntry ?_
    intro fc' e hfc' he
    rw [Option.map_eq_some_iff] at hfc'
    obtain ⟨fc, hfc, rfl⟩ := hfc'
    exact h.fits (hok.2 fc e hfc he)
  | moveEntry src dst =>
    simp only [LabelWorld.step] at hstep
    split at hstep
    · rename_i fc hfc
      cases hstep
      exact h.moveEntry hfc hok.2
    · cases hstep
      exact h

/-! ## Whole runs -/

/-- Every step of a run meets the condition in the state it is taken in. -/
def AllMeet (w : LabelWorld) : List LabelEvent → Prop
  | [] => True
  | e :: es => w.Meets e ∧ ∀ w', w.step e = some w' → w'.AllMeet es

/-- And so does a whole run. -/
theorem Labelled.steps (h : Labelled w) :
    ∀ es, w.AllMeet es → w.steps es = some w' → Labelled w' := by
  intro es
  induction es generalizing w with
  | nil =>
    rintro - ⟨⟩
    exact h
  | cons e es ih =>
    rintro ⟨hmeet, hrest⟩ hsteps
    rw [LabelWorld.steps, Option.bind_eq_some_iff] at hsteps
    obtain ⟨w₁, hstep, hsteps⟩ := hsteps
    exact ih (h.step hstep hmeet) (hrest w₁ hstep) hsteps

/-- A mount with nothing cached, over any server, any listings and any files on disk. What is
    remembered of the past is right: the versions the server serves, and what the files on disk
    were written from. -/
structure Start (w : LabelWorld) : Prop where
  uncached : ∀ path, w.cache.fileCache path = none
  idle : w.copies = []
  served : ∀ path v, w.server path = some v → w.versions path v.etag = some v.bytes
  origins : ∀ lp p e b, w.origin lp = some (p, e) → w.disk lp = some b → w.versions p e = some b

/-- At the start every entry has its version. -/
theorem Start.labelled (h : Start w) : Labelled w := by
  have hidle : ∀ j, j ∉ w.copies := fun j => by simp [h.idle]
  refine ⟨?_, h.served, ?_, ?_, h.origins, ?_⟩
  · exact fun j hj => absurd hj (hidle j)
  · exact fun j hj => absurd hj (hidle j)
  · exact fun j hj => absurd hj (hidle j)
  · intro path fc e hfc
    rw [h.uncached] at hfc
    cases hfc

/-- The one version of the file. -/
def oneVersion (p : PathBuf) : Option ServerVersion := if p = ["f"] then some ⟨"a", [1]⟩ else none

/-- Its entry in the listing. -/
def oneEntry : RemoteEntry := { path := ["f"], isDir := false, size := 1, changeToken := some "a" }

/-- `/f` is `[1]` at version `"a"`, listed as such. -/
def oneFile : LabelWorld where
  server := oneVersion
  versions := fun p e => if p = ["f"] ∧ e = "a" then some [1] else none
  cache := FsCache.setDir {} [] { files := [oneEntry] }
  cacheDir := ["c"]

/-- The world with the one file. -/
theorem start_oneFile : oneFile.Start where
  uncached _ := rfl
  idle := rfl
  served p v hv := by
    simp only [oneFile, oneVersion] at hv ⊢
    split at hv
    · rename_i hp
      obtain rfl := Option.some.inj hv
      simp [hp]
    · cases hv
  origins lp p e b ho := nomatch ho

/-- Its only etag is the one listed. -/
theorem oneFile_lists {t : String} (h : oneFile.cache.Lists ["f"] t) : t = "a" := by
  obtain ⟨d, hd, e, he, -, ht⟩ := h
  obtain rfl : { files := [oneEntry] } = d := Option.some.inj hd
  obtain rfl := List.mem_singleton.mp he
  exact (Option.some.inj ht).symm

end LabelWorld

end Ncrs
