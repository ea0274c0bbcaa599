import Ncrs.Native.OpenWrite
import Ncrs.Spec.PendingUploadCorrect

/-!
# A handle opened for writing starts from the file's content

`OpenRequest.currentContent` is what a writer must start from: the newest upload that the user's
history has queued for the file, else a local copy of the listed version, else the server's
content. The open stages it, except when the queue answers for the path with another file's
upload, when the listing does not know the file (or knows it as empty) and when it takes a copy
for fresh that nothing vouches for. `OpenRequest.Covered` is the exact condition.

## Key results

- `open_starts_from_content_iff`: the first write or resize works on that content iff `Covered`
- `reads_of_histories`: the queue answers right after every history whose renames it can follow
- `evicted_listing_zero_fills`: without a listing an in-place edit uploads zeros
-/

namespace Ncrs

/-! ## Staging files -/

namespace Bytes

/-- `new` is `old` outside the `n` bytes from `k` on; a gap before `k` is not part of `old`. -/
def AgreesOutside (old new : Bytes) (k n : Nat) : Prop :=
  ∀ i, (i < k ∧ i < old.length) ∨ k + n ≤ i → new[i]? = old[i]?

theorem writeAt_agreesOutside (b : Bytes) (off : Nat) (data : Bytes) :
    AgreesOutside b (b.writeAt off data) off data.length := by
  intro i hi
  unfold writeAt
  split
  · rfl
  · have hpre : (b.take off ++ List.replicate (off - b.length) (0 : UInt8)).length = off := by
      simp only [List.length_append, List.length_take, List.length_replicate]
      omega
    rcases hi with ⟨hk, hlen⟩ | hi
    · -- Before the write: the part that was kept.
      rw [List.append_assoc, List.append_assoc, List.getElem?_append_left, List.getElem?_take_of_lt hk]
      rw [List.length_take]
      omega
    · -- Behind it: the rest of the file.
      rw [List.getElem?_append_right, List.getElem?_drop]
      · congr 1
        rw [List.length_append, hpre]
        omega
      · rw [List.length_append, hpre]
        omega

/-- An append is a write at offset 0 only on an empty file. -/
theorem append_eq_writeAt_iff (b : Bytes) :
    (∀ data : Bytes, b ++ data = b.writeAt 0 data) ↔ b = [] := by
  constructor
  · intro h
    have hlen := congrArg List.length (h [0])
    cases b with
    | nil => rfl
    | cons x b =>
      simp [writeAt] at hlen
  · rintro rfl data
    cases data with
    | nil => rfl
    | cons x data => simp [writeAt]

end Bytes

/-! ## What a writer must start from -/

/-- The local copy of `path` is the listed version: both have an etag, or both an mtime, and
    they are equal. While an upload of the path runs its listed entry is our own. -/
def FsCache.versionListed (c : FsCache) (path : PathBuf) : Bool :=
  decide (path ∉ c.uploading) &&
    match c.fileCache path with
    | none => false
    | some fc =>
      match fc.etag, c.remoteEtagFor path with
      | some cached, some current => cached = current
      | _, _ =>
        match fc.remoteModified, c.remoteModifiedFor path with
        | some cached, some current => cached = current
        | _, _ => false

theorem FsCache.matches_of_versionListed {c : FsCache} {path : PathBuf}
    (h : c.versionListed path = true) : c.fileCacheMatchesRemote path = true := by
  unfold versionListed at h
  unfold fileCacheMatchesRemote
  rw [Bool.and_eq_true, decide_eq_true_eq] at h
  obtain ⟨hup, h⟩ := h
  rw [if_neg hup]
  cases hfc : c.fileCache path with
  | none => simp [hfc] at h
  | some fc =>
    obtain ⟨l, modified, etag, kept, size⟩ := fc
    simp only [hfc] at h ⊢
    -- Both tests look at the same pair of versions; they differ only when there is none.
    cases etag <;> cases hr : c.remoteEtagFor path <;> cases modified <;>
      cases hm : c.remoteModifiedFor path <;> simp_all

namespace OpenRequest

variable {r : OpenRequest} {path : PathBuf}

def serverContent (r : OpenRequest) : Bytes := r.server.getD []

def contentOf (d : CacheDir) (p : PathBuf) : Bytes := ((d.files p).map (·.data)).getD []

/-- What the user's own history has queued, whatever the journal answers. -/
structure Queued where
  /-- For each path, when the open starts. -/
  now : MutationJournal.Newest
  /-- The same at the end of the wait for a streamed upload. -/
  later : MutationJournal.Newest
  /-- The whole file of a streamed upload that is still finishing. -/
  streamed : Bytes

/-- The user's newest upload of the file at the moment its content is taken. -/
def newest (r : OpenRequest) (q : Queued) (path : PathBuf) : Option PendingUpload :=
  if !r.truncating && streaming r.journal path then q.later path else q.now path

/-- A streamed upload of the file is finishing when the open starts. -/
def Queued.finishing (q : Queued) (path : PathBuf) : Bool :=
  match q.now path with
  | some (.streamTail ..) => true
  | _ => false

/-- The local copy, if it is the listed version and no streamed upload is about to replace it. -/
def listedCopy (r : OpenRequest) (q : Queued) (path : PathBuf) : Option PathBuf :=
  if r.cache.versionListed path && !q.finishing path then r.localCopy path else none

/-- What a writer must start from. A streamed upload that the open waited for is the server's
    content once it has landed. -/
def currentContent (r : OpenRequest) (q : Queued) (path : PathBuf) : Bytes :=
  match r.newest q path with
  | some (.staged sp) => contentOf (r.settledJournal path).disk sp
  | some (.streamTail ..) => q.streamed
  | none =>
    match r.listedCopy q path with
    | some l => contentOf r.journal.disk l
    | none => r.serverContent

/-- The queue answers for the path with the upload of the file that the user has there. -/
def Reads (r : OpenRequest) (q : Queued) (path : PathBuf) : Prop :=
  r.journal.pendingUpload path = q.now path ∧
    (r.settledJournal path).pendingUpload path = r.newest q path

/-- What the first write finds when the open staged nothing: a staging file left there, the
    handle's local copy, or an empty file. -/
def fallback (r : OpenRequest) (path : PathBuf) : Bytes :=
  match r.journal.disk.files (PathBuf.writePath r.cacheDir r.fh) with
  | some f => f.data
  | none =>
    match r.localCopy path with
    | some l => contentOf r.journal.disk l
    | none => []

/-- What the handle is seeded with. -/
def startContent (r : OpenRequest) (path : PathBuf) : Bytes :=
  match r.source path with
  | .truncated => []
  | .upload p | .copy p => contentOf (r.settledJournal path).disk p
  | .download => r.serverContent
  | .nothing => r.fallback path

/-- The open takes the content from a place that has the current one. -/
def SourceCovered (r : OpenRequest) (path : PathBuf) : Prop :=
  match r.source path with
  | .copy l => r.cache.versionListed path = true ∨ contentOf r.journal.disk l = r.serverContent
  | .nothing =>
    r.fallback path = r.serverContent ∧ (r.streamUploads = true → r.fallback path = [])
  | _ => True

/-- What is taken happens to have the current bytes, and no bytes where the handle appends. -/
def SameBytes (r : OpenRequest) (q : Queued) (path : PathBuf) : Prop :=
  r.startContent path = r.currentContent q path ∧
    (r.streamUploads = true → r.source path = .nothing → r.startContent path = [])

/-- When the open starts from the current content: the queue answers right and what it leads to
    is current, or it answers wrong and the bytes are the same all the same. -/
def Covered (r : OpenRequest) (q : Queued) (path : PathBuf) : Prop :=
  r.Reads q path ∧ r.SourceCovered path ∨ ¬ r.Reads q path ∧ r.SameBytes q path

end OpenRequest

/-- The handle's first write or resize works on `old`. -/
structure WriteHandle.StartsFrom (h : WriteHandle) (d : CacheDir) (old : Bytes) : Prop where
  seeded : ∃ d', h.seed d = .ok d' ∧ h.content d' = old
  written : ∀ off data offline h' d', h.write d off data offline = .ok (h', d') →
    h'.content d' = old.writeAt off data
  resized : ∀ size h' d', h.resize d size = .ok (h', d') → h'.content d' = old.setLen size

/-- Releasing the handle after one write of `data` at `off` queues an upload that agrees with
    `old` outside the bytes written, whatever else is queued from other staging files. -/
def WriteHandle.UploadsEdit (h : WriteHandle) (d : CacheDir) (old : Bytes) : Prop :=
  ∀ off data offline h' d' (j : MutationJournal), h.write d off data offline = .ok (h', d') →
    (∀ e ∈ j.entries, e.op.stagingPath ≠ some h.writePath) →
    let queued := h'.commitReleased { j with disk := d' }
    queued.pendingUpload h.remotePath = some (.staged h.writePath) ∧
      Bytes.AgreesOutside old (h.content queued.disk) off data.length

/-! ## The first write -/

namespace WriteHandle

variable {h : WriteHandle} {d d' : CacheDir}

@[simp] theorem content_writeFile (h : WriteHandle) (d : CacheDir) (b : Bytes) :
    h.content (d.writeFile h.writePath { data := b }) = b := by
  simp [content, CacheDir.writeFile]

/-- The write takes the append of the streaming path. -/
def appends (h : WriteHandle) (off : Nat) (offline : Bool) : Bool :=
  (h.streamEligible && decide (off ≤ h.totalWritten) && !offline) && off = h.totalWritten

theorem write_eq (hs : h.seed d = .ok d') (off : Nat) (data : Bytes) (offline : Bool) :
    ∃ h', h.write d off data offline = .ok (h', d'.writeFile h.writePath
        { data := if h.appends off offline then h.content d' ++ data
            else (h.content d').writeAt off data }) ∧
      h'.writePath = h.writePath ∧ h'.remotePath = h.remotePath := by
  simp [write, hs, appends]

theorem resize_eq (hs : h.seed d = .ok d') (size : Nat) :
    ∃ h', h.resize d size =
        .ok (h', d'.writeFile h.writePath { data := (h.content d').setLen size }) ∧
      h'.writePath = h.writePath := by
  simp [resize, hs]

theorem content_congr {g : WriteHandle} (hg : g.writePath = h.writePath) :
    g.content d = h.content d := by
  simp [content, hg]

/-- A handle works on what it is seeded with, provided that a stream starts empty. -/
theorem startsFrom_iff (hs : h.seed d = .ok d') (htotal : h.totalWritten = 0) (old : Bytes) :
    h.StartsFrom d old ↔
      h.content d' = old ∧ (h.streamEligible = true → h.content d' = []) := by
  constructor
  · intro hst
    obtain ⟨d'', hd'', hold⟩ := hst.seeded
    rw [hs] at hd''
    cases hd''
    refine ⟨hold, fun he => (Bytes.append_eq_writeAt_iff _).mp fun data => ?_⟩
    -- An online write at offset 0 is the append.
    obtain ⟨g, hw, hg, -⟩ := write_eq hs 0 data false
    have hres := hst.written 0 data false _ _ hw
    rw [content_congr hg, content_writeFile] at hres
    simpa [appends, he, htotal, hold] using hres
  · rintro ⟨rfl, hempty⟩
    refine ⟨⟨d', hs, rfl⟩, fun off data offline g e hw => ?_, fun size g e hw => ?_⟩
    · obtain ⟨g', hw', hg, -⟩ := write_eq hs off data offline
      rw [hw'] at hw
      cases hw
      rw [content_congr hg, content_writeFile]
      split
      · -- Taken only by a streaming handle, which starts empty.
        rename_i hfast
        simp only [appends, Bool.and_eq_true, decide_eq_true_eq] at hfast
        rw [hfast.2, htotal]
        exact (Bytes.append_eq_writeAt_iff _).mpr (hempty hfast.1.1.1) data
      · rfl
    · obtain ⟨g', hw', hg⟩ := resize_eq hs size
      rw [hw'] at hw
      cases hw
      rw [content_congr hg, content_writeFile]

theorem commitReleased_entries (h : WriteHandle) (j : MutationJournal) :
    (h.commitReleased j).entries =
      j.entries.filter (fun e => !MutationJournal.stale h.remotePath j.nextSeq e) ++
        [{ seq := j.nextSeq, op := .put h.remotePath h.writePath h.originalEtag }] := by
  unfold commitReleased
  rw [MutationJournal.supersedeUploads_entries, MutationJournal.enqueue_entries,
    MutationJournal.map_followRename (by simp), MutationJournal.enqueue_seq, List.filter_append]
  congr 1
  simp [MutationJournal.stale]

theorem pendingUpload_commitReleased (h : WriteHandle) (j : MutationJournal) :
    (h.commitReleased j).pendingUpload h.remotePath = some (.staged h.writePath) := by
  unfold MutationJournal.pendingUpload
  rw [commitReleased_entries, List.reverse_append]
  simp [MutationJournal.pendingUploadIn]

/-- The commit deletes only the staging files of the uploads it replaces. -/
theorem content_commitReleased {j : MutationJournal} {g : WriteHandle}
    (hown : ∀ e ∈ j.entries, e.op.stagingPath ≠ some g.writePath) :
    g.content (h.commitReleased j).disk = g.content j.disk := by
  have hfile : (h.commitReleased j).disk.files g.writePath = j.disk.files g.writePath := by
    unfold commitReleased
    rw [MutationJournal.supersedeUploads_files]
    · rfl
    · rw [MutationJournal.enqueue_entries, MutationJournal.map_followRename (by simp),
        MutationJournal.enqueue_seq, List.filter_append]
      simp only [List.mem_filterMap, not_exists, not_and]
      intro e he
      -- The new entry is not older than itself, so what is dropped was queued before.
      simp only [MutationJournal.stale, MutationJournal.coalesceBeforeEnqueue, List.mem_append,
        List.mem_filter, List.mem_singleton, Bool.and_eq_true, decide_eq_true_eq] at he
      obtain ⟨he, -⟩ | ⟨rfl, ⟨hlt, -⟩, -⟩ := he
      · exact hown e he
      · exact absurd hlt (Nat.lt_irrefl _)
  simp [content, hfile]

theorem uploadsEdit_of_startsFrom {old : Bytes} (hst : h.StartsFrom d old) :
    h.UploadsEdit d old := by
  intro off data offline g e j hw hown
  obtain ⟨d', hs, -⟩ := hst.seeded
  obtain ⟨g', hw', hpath, hremote⟩ := write_eq hs off data offline
  have hgg : g = g' := by
    rw [hw'] at hw
    cases hw
    rfl
  subst hgg
  refine ⟨?_, ?_⟩
  · rw [← hremote, ← hpath]
    exact pendingUpload_commitReleased g _
  · have hkept : h.content (g.commitReleased { j with disk := e }).disk = h.content e :=
      content_commitReleased hown
    rw [hkept, ← content_congr hpath, hst.written off data offline g e hw]
    exact Bytes.writeAt_agreesOutside old off data

end WriteHandle

/-! ## What the open stages -/

namespace OpenRequest

variable {r : OpenRequest} {q : Queued} {path : PathBuf} {h : WriteHandle} {d : CacheDir}

/-- The fields of an opened handle, and that its content was staged. -/
theorem openForWriting_ok (hp : r.cache.inodes r.ino = some path)
    (ho : r.openForWriting = .ok (h, d)) :
    h.remotePath = path ∧ h.localCopy = r.localCopy path ∧
      h.writePath = PathBuf.writePath r.cacheDir r.fh ∧ h.totalWritten = 0 ∧
      h.streamEligible = (r.streamUploads &&
        (r.source path = .nothing || r.source path = .truncated)) ∧
      ∃ etag etag', r.stage path h.writePath etag = .ok (d, etag') := by
  unfold openForWriting at ho
  simp only [hp] at ho
  split at ho
  · cases ho
  split at ho
  · cases ho
  split at ho
  · cases ho
  split at ho
  · cases ho
  split at ho
  · cases ho
  · rename_i hst
    cases ho
    exact ⟨rfl, rfl, rfl, rfl, rfl, _, _, hst⟩

/-- A handle whose staging file is there is not seeded again. -/
theorem seed_writeFile (h : WriteHandle) (d : CacheDir) (b : Bytes) :
    h.seed (d.writeFile h.writePath { data := b }) =
      .ok (d.writeFile h.writePath { data := b }) := by
  simp [WriteHandle.seed, CacheDir.writeFile]

/-- A staging file that was copied is not seeded again. -/
theorem seed_of_copied {disk : CacheDir} {p : PathBuf} {etag etag' : Option String}
    (hst : (match disk.files p with
      | some f => Except.ok (disk.writeFile h.writePath { data := f.data }, etag)
      | none => .error Errno.eio) = .ok (d, etag')) :
    ∃ d', h.seed d = .ok d' ∧ h.content d' = contentOf disk p := by
  split at hst
  · rename_i f hf
    cases hst
    exact ⟨_, seed_writeFile _ _ _, by simp [contentOf, hf]⟩
  · cases hst

/-- A local copy is a file that is there. -/
theorem localCopy_file {l : PathBuf} (hl : r.localCopy path = some l) :
    ∃ f, r.journal.disk.files l = some f := by
  unfold localCopy at hl
  rw [Option.map_eq_some_iff] at hl
  obtain ⟨e, he, rfl⟩ := hl
  rw [Option.filter_eq_some_iff] at he
  cases hf : r.journal.disk.files e.localPath with
  | none => simp [hf] at he
  | some f => exact ⟨f, rfl⟩

theorem seed_nothing (hl : h.localCopy = r.localCopy path)
    (hw : h.writePath = PathBuf.writePath r.cacheDir r.fh) :
    ∃ d', h.seed r.journal.disk = .ok d' ∧ h.content d' = r.fallback path := by
  unfold WriteHandle.seed fallback
  rw [hl, ← hw]
  cases hf : r.journal.disk.files h.writePath with
  | some f => exact ⟨_, rfl, by simp [WriteHandle.content, hf]⟩
  | none =>
    cases hc : r.localCopy path with
    | none => exact ⟨_, rfl, WriteHandle.content_writeFile _ _ _⟩
    | some l =>
      obtain ⟨f, hf⟩ := localCopy_file hc
      simp [hf, contentOf]

/-- Without a queued upload to copy, the copy is taken when it counts as fresh; else the content
    is downloaded if the listing has any or the open waited for an upload. -/
theorem settledSource_cases (r : OpenRequest) (path : PathBuf) :
    (∃ l, r.localCopy path = some l ∧ r.cacheFresh path = true ∧ r.settledSource path = .copy l) ∨
      (∀ l, r.localCopy path = some l → r.cacheFresh path = false) ∧
        (r.settledSource path = .download ∨
          streaming r.journal path = false ∧ r.settledSource path = .nothing) := by
  unfold settledSource
  cases hc : (r.localCopy path).filter fun _ => r.cacheFresh path with
  | some l =>
    rw [Option.filter_eq_some_iff] at hc
    exact .inl ⟨l, hc.1, hc.2, rfl⟩
  | none =>
    rw [Option.filter_eq_none_iff] at hc
    refine .inr ⟨fun l hl => by simpa using hc l hl, ?_⟩
    dsimp only
    split
    · exact .inl rfl
    · rename_i hsize
      exact .inr ⟨by simp_all, rfl⟩

/-- A copy counts as fresh only while no upload of the path is queued. -/
theorem not_streaming_of_cacheFresh (hf : r.cacheFresh path = true) :
    streaming r.journal path = false := by
  unfold cacheFresh at hf
  rw [Bool.and_eq_true, Option.isNone_iff_eq_none] at hf
  simp [streaming, hf.2]

/-- Something is staged when the open waited for an upload. -/
theorem not_streaming_of_nothing (ht : r.truncating = false) (hsrc : r.source path = .nothing) :
    streaming r.journal path = false := by
  unfold source at hsrc
  rw [ht, if_neg (by simp)] at hsrc
  split at hsrc
  · cases hsrc
  · obtain ⟨l, -, -, h⟩ | ⟨-, h | ⟨h, -⟩⟩ := settledSource_cases r path
    · rw [h] at hsrc
      cases hsrc
    · rw [h] at hsrc
      cases hsrc
    · exact h

theorem settledJournal_of_not_streaming (hs : streaming r.journal path = false) :
    r.settledJournal path = r.journal := by
  simp [settledJournal, hs]

/-- A copy of the listed version counts as fresh, unless an upload of the path is queued. -/
theorem not_versionListed (hs : streaming r.journal path = false)
    (hu : queuedStaging r.journal path = none) (hf : r.cacheFresh path = false) :
    r.cache.versionListed path = false := by
  have hnone : r.journal.pendingUpload path = none := by
    unfold streaming at hs
    unfold queuedStaging at hu
    cases hp : r.journal.pendingUpload path with
    | none => rfl
    | some u =>
      cases u with
      | staged sp => simp [hp] at hu
      | streamTail t k n sp => simp [hp] at hs
  cases hv : r.cache.versionListed path with
  | false => rfl
  | true =>
    have hmatch := FsCache.matches_of_versionListed hv
    simp [cacheFresh, hnone, hmatch] at hf

/-- An open that succeeds has no streamed upload left to wait for. -/
theorem landed_of_ok (ht : r.truncating = false) (hp : r.cache.inodes r.ino = some path)
    (ho : r.openForWriting = .ok (h, d)) : streaming (r.settledJournal path) path = false := by
  unfold openForWriting at ho
  simp only [hp] at ho
  split at ho
  · cases ho
  split at ho
  · cases ho
  split at ho
  · cases ho
  split at ho
  · cases ho
  · rename_i hbusy
    cases hs : streaming r.journal path with
    | false => rw [settledJournal_of_not_streaming hs, hs]
    | true => simpa [settledJournal, ht, hs] using hbusy

/-- Where the queue answers right, the user's upload finishes when the journal says so. -/
theorem Reads.finishing (h : r.Reads q path) : q.finishing path = streaming r.journal path := by
  unfold streaming
  rw [h.1]
  rfl

/-- A copy of the listed version is never passed over. -/
theorem listedCopy_eq_none (hreads : r.Reads q path)
    (hu : queuedStaging (r.settledJournal path) path = none)
    (hstale : ∀ l, r.localCopy path = some l → r.cacheFresh path = false) :
    r.listedCopy q path = none := by
  unfold listedCopy
  rw [hreads.finishing]
  split
  · rename_i hlisted
    rw [Bool.and_eq_true, Bool.not_eq_true'] at hlisted
    cases hl : r.localCopy path with
    | none => rfl
    | some l =>
      rw [settledJournal_of_not_streaming hlisted.2] at hu
      rw [not_versionListed hlisted.2 hu (hstale l hl)] at hlisted
      exact absurd hlisted.1 (by simp)
  · rfl

/-- The open leaves the handle with `startContent`. -/
theorem seed_of_open (ht : r.truncating = false) (hp : r.cache.inodes r.ino = some path)
    (ho : r.openForWriting = .ok (h, d)) :
    ∃ d', h.seed d = .ok d' ∧ h.content d' = r.startContent path := by
  obtain ⟨-, hl, hw, -, -, etag, etag', hst⟩ := openForWriting_ok hp ho
  unfold stage at hst
  unfold startContent
  -- What was staged is there and is not seeded again; the rest is seeded by the first write.
  cases hsrc : r.source path with
  | truncated =>
    simp only [hsrc] at hst
    cases hst
    exact ⟨_, seed_writeFile _ _ _, WriteHandle.content_writeFile _ _ _⟩
  | upload p =>
    simp only [hsrc] at hst
    exact seed_of_copied hst
  | copy p =>
    simp only [hsrc] at hst
    exact seed_of_copied hst
  | download =>
    simp only [hsrc] at hst
    split at hst
    · rename_i content _ hcontent
      cases hst
      exact ⟨_, seed_writeFile _ _ _, by simp [serverContent, hcontent]⟩
    · cases hst
  | nothing =>
    simp only [hsrc] at hst
    rw [settledJournal_of_not_streaming (not_streaming_of_nothing ht hsrc)] at hst
    cases hst
    exact seed_nothing hl hw

/-- Where the queue answers right: without an upload to copy, none is queued. -/
theorem Reads.currentContent (hreads : r.Reads q path)
    (hlanded : streaming (r.settledJournal path) path = false) :
    r.currentContent q path =
      match queuedStaging (r.settledJournal path) path with
      | some sp => contentOf (r.settledJournal path).disk sp
      | none =>
        match r.listedCopy q path with
        | some l => contentOf r.journal.disk l
        | none => r.serverContent := by
  unfold OpenRequest.currentContent queuedStaging
  rw [← hreads.2]
  unfold streaming at hlanded
  cases hu : (r.settledJournal path).pendingUpload path with
  | none => rfl
  | some u =>
    cases u with
    | staged sp => rfl
    | streamTail t k n sp => simp [hu] at hlanded

/-- Where the queue answers right, `SourceCovered` says that what is staged is the current
    content, and empty if it is streamed. -/
theorem sourceCovered_iff (ht : r.truncating = false) (hreads : r.Reads q path)
    (hlanded : streaming (r.settledJournal path) path = false) :
    r.SameBytes q path ↔ r.SourceCovered path := by
  unfold SameBytes
  rw [hreads.currentContent hlanded]
  unfold startContent SourceCovered
  cases hup : queuedStaging (r.settledJournal path) path with
  | some sp => simp [source, ht, hup]
  | none =>
    have hsrc : r.source path = r.settledSource path := by simp [source, ht, hup]
    rw [hsrc]
    obtain ⟨l, hl, hfresh, hcopy⟩ | ⟨hstale, hdown | ⟨hns, hnothing⟩⟩ := settledSource_cases r path
    · have hns := not_streaming_of_cacheFresh hfresh
      simp only [hcopy, settledJournal_of_not_streaming hns, listedCopy, hreads.finishing, hns]
      cases hv : r.cache.versionListed path <;> simp [hl]
    · simp [hdown, listedCopy_eq_none hreads hup hstale]
    · simp [hnothing, listedCopy_eq_none hreads hup hstale]

theorem covered_iff (ht : r.truncating = false)
    (hlanded : streaming (r.settledJournal path) path = false) :
    r.Covered q path ↔ r.SameBytes q path := by
  unfold Covered
  by_cases hreads : r.Reads q path
  · simp [hreads, sourceCovered_iff ht hreads hlanded]
  · simp [hreads]

/-- After user histories whose renames the queue can follow, it answers right, before the wait
    and after it. -/
theorem reads_of_histories {ops opsLater : List MutationJournal.UserOp} (streamed : Bytes)
    (hops : MutationJournal.History.start.Renames MutationJournal.Followable ops)
    (hlater : MutationJournal.History.start.Renames MutationJournal.Followable opsLater)
    (hj : r.journal.entries = (MutationJournal.History.start.run ops).journal.entries)
    (hl : r.later.entries = (MutationJournal.History.start.run opsLater).journal.entries)
    (path : PathBuf) :
    r.Reads ⟨(MutationJournal.History.start.run ops).newest,
      (MutationJournal.History.start.run opsLater).newest, streamed⟩ path := by
  have hnow : r.journal.pendingUpload path = (MutationJournal.History.start.run ops).newest path := by
    rw [← (MutationJournal.Reads.run hops).pendingUpload path]
    simp only [MutationJournal.pendingUpload, hj]
  have hthen : r.later.pendingUpload path =
      (MutationJournal.History.start.run opsLater).newest path := by
    rw [← (MutationJournal.Reads.run hlater).pendingUpload path]
    simp only [MutationJournal.pendingUpload, hl]
  refine ⟨hnow, ?_⟩
  unfold settledJournal newest
  split
  · exact hthen
  · exact hnow

/-- For every writable open of an existing file without `O_TRUNC`, and every history of the user:
    the first write or resize works on the file's current content, and a released edit changes
    only the bytes written, exactly when the open is covered. -/
theorem open_starts_from_content_iff (r : OpenRequest) (q : Queued) (path : PathBuf)
    (ht : r.truncating = false) (hp : r.cache.inodes r.ino = some path)
    (ho : r.openForWriting = .ok (h, d)) :
    (h.StartsFrom d (r.currentContent q path) ∧ h.UploadsEdit d (r.currentContent q path)) ↔
      r.Covered q path := by
  obtain ⟨-, -, -, htotal, heligible, -⟩ := openForWriting_ok hp ho
  obtain ⟨d', hs, hcontent⟩ := seed_of_open ht hp ho
  have hiff := WriteHandle.startsFrom_iff hs htotal (r.currentContent q path)
  have hnot : r.source path ≠ .truncated := by
    simp only [source, ht, Bool.false_eq_true, if_false]
    split
    · exact Source.noConfusion
    · obtain ⟨l, -, -, hsrc⟩ | ⟨-, hsrc | ⟨-, hsrc⟩⟩ := settledSource_cases r path <;> simp [hsrc]
  have hsame : h.StartsFrom d (r.currentContent q path) ↔ r.SameBytes q path := by
    rw [hiff, hcontent, heligible]
    simp [SameBytes, hnot]
  rw [covered_iff ht (landed_of_ok ht hp ho), ← hsame]
  exact ⟨fun hst => hst.1, fun hst => ⟨hst, WriteHandle.uploadsEdit_of_startsFrom hst⟩⟩

/-- An open of `/f`, whose content on the server is `[1, 2, 3]`, without a listing of `/`. -/
def unlisted : OpenRequest where
  cache := { inodes := fun n => if n = 2 then some ["f"] else none }
  journal := { entries := [], nextSeq := 1, disk := { files := fun _ => none } }
  later := { entries := [], nextSeq := 1, disk := { files := fun _ => none } }
  cacheDir := ["cache"]
  ino := 2
  fh := 1
  server := some [1, 2, 3]

/-- The same open with the file listed. -/
def listedAsThree : OpenRequest :=
  { unlisted with
    cache := unlisted.cache.setDir [] { files := [{ path := ["f"], isDir := false, size := 3 }] } }

/-- Nothing is queued. -/
def noneQueued : Queued := { now := fun _ => none, later := fun _ => none, streamed := [] }

theorem listed_open_starts_from_server :
    ∃ h d, listedAsThree.openForWriting = .ok (h, d) ∧ listedAsThree.Covered noneQueued ["f"] ∧
      h.StartsFrom d [1, 2, 3] ∧ h.UploadsEdit d [1, 2, 3] := by
  have hcovered : listedAsThree.Covered noneQueued ["f"] := Or.inl ⟨⟨rfl, rfl⟩, trivial⟩
  refine ⟨_, _, rfl, hcovered, ?_⟩
  exact (open_starts_from_content_iff _ noneQueued ["f"] rfl rfl rfl).mpr hcovered

/-- Without a listing nothing is staged: an edit of one byte uploads a file of zeros around it. -/
theorem evicted_listing_zero_fills :
    ∃ h d g e, unlisted.openForWriting = .ok (h, d) ∧
      unlisted.currentContent noneQueued ["f"] = [1, 2, 3] ∧
      h.write d 1 [9] false = .ok (g, e) ∧ g.content e = [0, 9] ∧
      ¬ h.StartsFrom d (unlisted.currentContent noneQueued ["f"]) ∧
      ¬ h.UploadsEdit d (unlisted.currentContent noneQueued ["f"]) := by
  refine ⟨_, _, _, _, rfl, rfl, rfl, rfl, fun hst => ?_, fun hedit => ?_⟩
  · have hw := hst.written 1 [9] false _ _ rfl
    exact absurd hw (by decide)
  · have hj := (hedit 1 [9] false _ _ unlisted.journal rfl (by simp [unlisted])).2 0
      (.inl (by decide))
    exact absurd hj (by decide)

/-- An open of the backup that a save left behind, with the new document's bytes staged. -/
def backupOpen : OpenRequest :=
  { listedAsThree with
    cache := { inodes := fun n => if n = 2 then some ["report.odt~"] else none }
    journal :=
      { (MutationJournal.History.start.run MutationJournal.backupSave).journal with
        disk := { files := fun p => if p = ["staging_new"] then some { data := [7] } else none } } }

/-- It starts from the new document. -/
example : backupOpen.startContent ["report.odt~"] = [7] ∧
    backupOpen.currentContent
      ⟨(MutationJournal.History.start.run MutationJournal.backupSave).newest, fun _ => none, []⟩
      ["report.odt~"] = [1, 2, 3] := by
  decide

end OpenRequest

end Ncrs
