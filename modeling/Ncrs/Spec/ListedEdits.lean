import Ncrs.Native.ListedMount
import Ncrs.Spec.CacheLabelsCorrect
import Ncrs.Spec.ChangeWatchCorrect
import Ncrs.Spec.DeleteGuardCorrect
import Ncrs.Spec.JournalDurable
import Ncrs.Spec.LiveWorkersCorrect

/-!
# Edits of listings and of the queue

`create`, `mkdir`, `unlink`, `rmdir` and `rename` put entries into the cached listings or take them
out, and leave each listing its etag. What they queue stands for what they edit. A worker's or the
replay's section on the journal leaves the numbers and the paths of the entries it does not take out.

## Key results

- `FsCache.Edited`: what a request, a worker or the replay does to the listings
- `MutationJournal.landings`: the changes the queue stands for, and which sections leave them alone
- `DirMount.Edits`: a request that queues what it edits
- `DirMount.Removes`, `DirMount.Commits`, `DirMount.renameTo_cases`: what `unlink`, `rmdir`,
  `release` and `rename` do to the queue, the handles and the guards
-/

namespace Ncrs

namespace DavServer

/-- The children of a directory are the paths one name below it. -/
theorem isChild_iff {dir p : PathBuf} : isChild dir p = true ↔ p ≠ [] ∧ p.parent = dir := by
  simp [isChild]

/-- A name under a directory is a child of it. -/
theorem isChild_append (dir : PathBuf) (name : String) : isChild dir (dir ++ [name]) = true := by
  simp [isChild, PathBuf.parent]

end DavServer

/-! ## Edits of listings -/

namespace FsCache

variable {c c' c'' : FsCache} {dir path : PathBuf}

/-- `files'` are the entries of `files` with `adds` put in and `removes` taken out. -/
structure FilesEdited (dir : PathBuf) (adds removes : List PathBuf)
    (files files' : List RemoteEntry) :
    Prop where
  from_old : ∀ e' ∈ files', (∃ e ∈ files, e.path = e'.path ∧ e.isDir = e'.isDir) ∨
    e'.path ∈ adds ∧ DavServer.isChild dir e'.path = true
  kept : ∀ e ∈ files, (∃ e' ∈ files', e'.path = e.path) ∨ e.path ∈ removes

theorem FilesEdited.refl {adds removes : List PathBuf} (files : List RemoteEntry) :
    FilesEdited dir adds removes files files :=
  ⟨fun e he => .inl ⟨e, he, rfl, rfl⟩, fun e he => .inl ⟨e, he, rfl⟩⟩

/-- Edits one after the other are one edit, as each entry keeps its path and kind. -/
theorem FilesEdited.trans {adds removes : List PathBuf} {l l' l'' : List RemoteEntry}
    (h : FilesEdited dir adds removes l l') (h' : FilesEdited dir adds removes l' l'') :
    FilesEdited dir adds removes l l'' where
  from_old e he := by
    rcases h'.from_old e he with ⟨e₁, he₁, hpath, hdir⟩ | hnew
    · rcases h.from_old e₁ he₁ with ⟨e₀, he₀, hpath₀, hdir₀⟩ | hnew
      · exact .inl ⟨e₀, he₀, hpath₀.trans hpath, hdir₀.trans hdir⟩
      · exact .inr (hpath ▸ hnew)
    · exact .inr hnew
  kept e he := by
    rcases h.kept e he with ⟨e₁, he₁, hpath⟩ | hgone
    · rcases h'.kept e₁ he₁ with ⟨e₂, he₂, hpath₂⟩ | hgone
      · exact .inl ⟨e₂, he₂, hpath₂.trans hpath⟩
      · exact .inr (hpath ▸ hgone)
    · exact .inr hgone

/-- A new child at the end of the listing. -/
theorem filesEdited_push {adds removes : List PathBuf} (files : List RemoteEntry) {e : RemoteEntry}
    (he : e.path ∈ adds) (hchild : DavServer.isChild dir e.path = true) :
    FilesEdited dir adds removes files (files ++ [e]) where
  from_old x hx := by
    rcases List.mem_append.mp hx with hx | hx
    · exact .inl ⟨x, hx, rfl, rfl⟩
    · obtain rfl := List.mem_singleton.mp hx
      exact .inr ⟨he, hchild⟩
  kept x hx := .inl ⟨x, List.mem_append_left _ hx, rfl⟩

/-- The entries of one path taken out. -/
theorem filesEdited_filter {adds removes : List PathBuf} (files : List RemoteEntry) {p : PathBuf}
    (hp : p ∈ removes) : FilesEdited dir adds removes files (files.filter fun e => e.path ≠ p) where
  from_old x hx := .inl ⟨x, (List.mem_filter.mp hx).1, rfl, rfl⟩
  kept x hx := by
    by_cases hxp : x.path = p
    · exact .inr (hxp ▸ hp)
    · exact .inl ⟨x, List.mem_filter.mpr ⟨hx, decide_eq_true hxp⟩, rfl⟩

/-- An entry that is changed in place keeps its path and kind. -/
theorem filesEdited_modifyEntry {adds removes : List PathBuf} (files : List RemoteEntry)
    (p : PathBuf)
    {f : RemoteEntry → RemoteEntry} (hpath : ∀ e, (f e).path = e.path)
    (hdir : ∀ e, (f e).isDir = e.isDir) :
    FilesEdited dir adds removes files (modifyEntry p f files) where
  from_old x hx := by
    rcases mem_modifyEntry hx with hx | ⟨e, he, -, rfl⟩
    · exact .inl ⟨x, hx, rfl, rfl⟩
    · exact .inl ⟨e, he, (hpath e).symm, (hdir e).symm⟩
  kept e he := by
    have hmem : e.path ∈ files.map (·.path) := List.mem_map_of_mem he
    rw [← modifyEntry_paths hpath files] at hmem
    obtain ⟨x, hx, hxe⟩ := List.mem_map.mp hmem
    exact .inl ⟨x, hx, hxe⟩

/-- Each listing there is now is an edit of the one that was there, with the same etag, or has none
    and lists children only. -/
def Edited (c c' : FsCache) (adds removes : List PathBuf) : Prop :=
  ∀ dir d', c'.dir dir = some d' →
    (d'.etag = none ∧ ∀ e' ∈ d'.files, DavServer.isChild dir e'.path = true ∨
      ∃ d, c.dir dir = some d ∧ ∃ e ∈ d.files, e.path = e'.path) ∨
    ∃ d, c.dir dir = some d ∧ d'.etag = d.etag ∧ FilesEdited dir adds removes d.files d'.files

variable {adds removes : List PathBuf}

/-- A change that leaves the listings alone edits nothing. -/
theorem Edited.of_dirCache (h : c'.dirCache = c.dirCache) : Edited c c' adds removes := by
  intro dir d' hd'
  refine .inr ⟨d', ?_, rfl, .refl _⟩
  rw [← hd']
  exact congrArg (AList.lookup dir) h.symm

theorem Edited.refl (c : FsCache) : Edited c c adds removes := .of_dirCache rfl

/-- Two edits of the cache in a row, listing by listing. -/
theorem Edited.trans (h : Edited c c' adds removes) (h' : Edited c' c'' adds removes) :
    Edited c c'' adds removes := by
  intro dir d'' hd''
  rcases h' dir d'' hd'' with ⟨hnone, hold⟩ | ⟨d', hd', hetag', hfiles'⟩
  · refine .inl ⟨hnone, fun e'' he'' => ?_⟩
    rcases hold e'' he'' with hchild | ⟨d', hd', e', he', hpath'⟩
    · exact .inl hchild
    · rcases h dir d' hd' with ⟨-, hold⟩ | ⟨d, hd, -, hfiles⟩
      · exact hpath' ▸ hold e' he'
      · rcases hfiles.from_old e' he' with ⟨e, he, hpath, -⟩ | ⟨-, hchild⟩
        · exact .inr ⟨d, hd, e, he, hpath.trans hpath'⟩
        · exact .inl (hpath' ▸ hchild)
  · rcases h dir d' hd' with ⟨hnone, hold⟩ | ⟨d, hd, hetag, hfiles⟩
    · refine .inl ⟨hetag'.trans hnone, fun e'' he'' => ?_⟩
      rcases hfiles'.from_old e'' he'' with ⟨e', he', hpath', -⟩ | ⟨-, hchild⟩
      · exact hpath' ▸ hold e' he'
      · exact .inl hchild
    · exact .inr ⟨d, hd, hetag'.trans hetag, hfiles.trans hfiles'⟩

theorem FilesEdited.mono {adds removes adds' removes' : List PathBuf}
    {files files' : List RemoteEntry}
    (h : FilesEdited dir adds removes files files') (hadds : adds ⊆ adds')
    (hremoves : removes ⊆ removes') :
    FilesEdited dir adds' removes' files files' :=
  ⟨fun e' he' => (h.from_old e' he').imp_right (.imp_left (hadds ·)),
    fun e he => (h.kept e he).imp_right (hremoves ·)⟩

/-- An edit stays one when more paths may be added and removed. -/
theorem Edited.mono {adds' removes' : List PathBuf} (h : Edited c c' adds removes)
    (hadds : adds ⊆ adds')
    (hremoves : removes ⊆ removes') : Edited c c' adds' removes' := by
  intro dir d' hd'
  rcases h dir d' hd' with hnone | ⟨d, hd, hetag, hfiles⟩
  · exact .inl hnone
  · exact .inr ⟨d, hd, hetag, hfiles.mono hadds hremoves⟩

/-- An edit, and then something that has nothing to do with listings. -/
theorem Edited.then_dirCache (h : Edited c c' adds removes) (hc : c''.dirCache = c'.dirCache) :
    Edited c c'' adds removes := h.trans (.of_dirCache hc)

/-- A listing that keeps its etag is edited as its files are. -/
theorem edited_modifyDir {path : PathBuf} {f : DirCacheEntry → DirCacheEntry}
    (hetag : ∀ d, (f d).etag = d.etag)
    (hfiles : ∀ d, FilesEdited path adds removes d.files (f d).files) :
    Edited c (c.modifyDir path f) adds removes := by
  intro dir d' hd'
  rw [dir_modifyDir] at hd'
  split at hd'
  · rename_i hdir
    obtain rfl := hdir
    obtain ⟨d, hd, rfl⟩ := Option.map_eq_some_iff.mp hd'
    exact .inr ⟨d, hd, hetag d, hfiles d⟩
  · exact .inr ⟨d', hd', rfl, .refl _⟩

/-- A change of one listing's files. -/
theorem edited_modifyFiles {path : PathBuf} {f : List RemoteEntry → List RemoteEntry}
    (hfiles : ∀ files, FilesEdited path adds removes files (f files)) :
    Edited c (c.modifyFiles path f) adds removes :=
  edited_modifyDir (fun _ => rfl) fun d => hfiles d.files

/-- A change of one entry in its directory's listing. -/
theorem edited_modifyEntry {dir path : PathBuf} {f : RemoteEntry → RemoteEntry}
    (hpath : ∀ e, (f e).path = e.path) (hdir : ∀ e, (f e).isDir = e.isDir) :
    Edited c (c.modifyFiles dir (modifyEntry path f)) adds removes :=
  edited_modifyFiles fun files => filesEdited_modifyEntry files path hpath hdir

/-- A listing that is dropped shows nothing wrong. -/
theorem edited_removeDir (path : PathBuf) : Edited c (c.removeDir path) adds removes := by
  intro dir d' hd'
  have hd' : (c.dirCache.erase path).lookup dir = some d' := hd'
  by_cases hdir : dir = path
  · rw [hdir, AList.lookup_erase] at hd'
    cases hd'
  · rw [AList.lookup_erase_ne hdir] at hd'
    exact .inr ⟨d', hd', rfl, .refl _⟩

/-- No listing of `p`'s parent shows `p`. -/
def Hides (c : FsCache) (p : PathBuf) : Prop :=
  ∀ d, c.dir p.parent = some d → ∀ e ∈ d.files, e.path ≠ p

/-- After its entry is filtered out of its directory, no listing shows the path. -/
theorem hides_filtered (c : FsCache) (p : PathBuf) :
    (c.modifyFiles p.parent fun files => files.filter fun e => e.path ≠ p).Hides p := by
  intro d hd e he
  unfold modifyFiles at hd
  rw [dir_modifyDir, if_pos rfl] at hd
  obtain ⟨d₀, -, rfl⟩ := Option.map_eq_some_iff.mp hd
  exact of_decide_eq_true (List.mem_filter.mp he).2

theorem Hides.of_dirCache {p : PathBuf} (h : c.Hides p) (hc : c'.dirCache = c.dirCache) :
    c'.Hides p := by
  intro d hd
  refine h d ?_
  rw [← hd]
  exact congrArg (AList.lookup p.parent) hc.symm

/-- Dropping listings does not bring a hidden path back. -/
theorem Hides.removeDir {p : PathBuf} (h : c.Hides p) (dir : PathBuf) : (c.removeDir dir).Hides p :=
  fun d hd => h d (foldl_removeDir_dir (l := [(0, dir)]) hd)

/-- Giving out an inode changes no listing. -/
@[simp] theorem allocateInode_dirCache (c : FsCache) (p : PathBuf) :
    (c.allocateInode p).2.dirCache = c.dirCache := by
  unfold allocateInode
  split <;> rfl

/-- Moving paths changes no listing. -/
@[simp] theorem movePaths_dirCache (c : FsCache) (src dst : PathBuf) (subtree : Bool) :
    (c.movePaths src dst subtree).dirCache = c.dirCache := by
  have hone : (c.movePath src dst).dirCache = c.dirCache := by
    unfold movePath
    split <;> rfl
  unfold movePaths
  split
  · exact hone
  · exact hone

/-! ### Storing a listing -/

section Store

variable {etag : Option String} {selfEntry : Option RemoteEntry} {files : List RemoteEntry}
  {now : Nat}

/-- The stored listing is there unless it was evicted, and the others are as they were. -/
theorem putDirCache_dir {d : DirCacheEntry}
    (h : (c.putDirCache path etag selfEntry files now).dir dir = some d) :
    dir = path ∧ d.files = c.mergedFiles path files ∧ d.etag = etag ∨ dir ≠ path ∧
    c.dir dir = some d := by
  by_cases hdir : dir = path
  · subst hdir
    refine .inl ⟨rfl, putDirCache_files h, ?_⟩
    -- A directory that does not fit is not kept; else it is kept, and others may be evicted for it.
    unfold putDirCache at h
    split at h
    · have hnone : (c.dirCache.erase dir).lookup dir = some d := h
      rw [AList.lookup_erase] at hnone
      cases hnone
    · unfold evictDirCache at h
      dsimp only at h
      split at h
      · exact Option.some.inj ((AList.lookup_insert c.dirCache).symm.trans h) ▸ rfl
      · exact Option.some.inj ((AList.lookup_insert c.dirCache).symm.trans (foldl_removeDir_dir h))
          ▸ rfl
  · refine .inr ⟨hdir, ?_⟩
    unfold putDirCache at h
    split at h
    · exact (AList.lookup_erase_ne hdir).symm.trans h
    · unfold evictDirCache at h
      dsimp only at h
      split at h
      · exact (AList.lookup_insert_ne hdir).symm.trans h
      · exact (AList.lookup_insert_ne hdir).symm.trans (foldl_removeDir_dir h)

/-- Dropping listings takes no path out of the guard set. -/
theorem foldl_removeDir_uploading (l : List (Nat × PathBuf)) (c : FsCache) :
    (l.foldl (fun c x => c.removeDir x.2) c).uploading = c.uploading := by
  induction l generalizing c with
  | nil => rfl
  | cons x l ih => exact ih (c.removeDir x.2)

/-- Storing a listing, with the evictions it brings, leaves the guards of unsaved files alone. -/
@[simp] theorem putDirCache_uploading (c : FsCache) (path : PathBuf) (etag : Option String)
    (selfEntry : Option RemoteEntry) (files : List RemoteEntry) (now : Nat) :
    (c.putDirCache path etag selfEntry files now).uploading = c.uploading := by
  unfold putDirCache
  split
  · rfl
  · unfold evictDirCache
    dsimp only
    split
    · rfl
    · exact foldl_removeDir_uploading _ _

/-- Where an entry of a merged listing comes from: the server, or the old listing, for an upload in
    flight the server does not list. -/
theorem foldl_mergeUploading_from {olds files : List RemoteEntry} {x : RemoteEntry}
    (hx : x ∈ olds.foldl mergeUploading files) :
    (∃ f ∈ files, f.path = x.path ∧ f.isDir = x.isDir) ∨
      ∃ o ∈ olds, o.path = x.path ∧ o.isDir = x.isDir ∧ x.path ∉ files.map (·.path) := by
  induction olds generalizing files with
  | nil => exact .inl ⟨x, hx, rfl, rfl⟩
  | cons o olds ih =>
    rcases ih hx with ⟨f, hf, hpath, hdir⟩ | ⟨o', ho', hpath, hdir, hnot⟩
    · -- A kept entry came with the listing, perhaps with the size of the upload merged in.
      unfold mergeUploading at hf
      split at hf
      · rcases mem_modifyEntry hf with hf | ⟨e, he, -, rfl⟩
        · exact .inl ⟨f, hf, hpath, hdir⟩
        · exact .inl ⟨e, he, hpath, hdir⟩
      · rename_i hnone
        rcases List.mem_append.mp hf with hf | hf
        · exact .inl ⟨f, hf, hpath, hdir⟩
        · -- Not listed: it is the entry of an upload still running, added behind.
          obtain rfl := List.mem_singleton.mp hf
          refine .inr ⟨f, List.mem_cons_self, hpath, hdir, fun hlisted => hnone ?_⟩
          obtain ⟨g, hg, hgx⟩ := List.mem_map.mp hlisted
          exact List.any_eq_true.mpr ⟨g, hg, decide_eq_true (hgx.trans hpath.symm)⟩
    · refine .inr ⟨o', List.mem_cons_of_mem _ ho', hpath, hdir, fun hlisted => hnot ?_⟩
      exact mergeUploading_paths files o hlisted

/-- Where an entry of a stored listing comes from: the tracker's ignore file in the root, the
    answer, or a guarded entry of the listing before that the answer did not have. -/
theorem mergedFiles_from {x : RemoteEntry} (hx : x ∈ c.mergedFiles path files) :
    x = trackerignoreEntry ∧ path = [] ∨ (∃ f ∈ files, f.path = x.path ∧ f.isDir = x.isDir) ∨
      ∃ d, c.dir path = some d ∧ ∃ o ∈ d.files, o.path ∈ c.uploading ∧ o.path = x.path ∧
        o.isDir = x.isDir ∧ x.path ∉ files.map (·.path) := by
  unfold mergedFiles at hx
  -- Nothing cached before: the listing itself, and in the root the mount's own entry.
  cases hd : c.dir path with
  | none =>
    simp only [hd] at hx
    split at hx
    · rename_i hroot
      rcases List.mem_append.mp hx with hx | hx
      · exact .inr (.inl ⟨x, (List.mem_filter.mp hx).1, rfl, rfl⟩)
      · simp only [Bool.and_eq_true, decide_eq_true_eq] at hroot
        exact .inl ⟨List.mem_singleton.mp hx, hroot.1.1.1⟩
    · exact .inr (.inl ⟨x, (List.mem_filter.mp hx).1, rfl, rfl⟩)
  | some d =>
    -- Cached before: also the entries whose upload still runs.
    have hmerged : x ∈ (d.files.filter fun (e : RemoteEntry) => decide (e.path ∈ c.uploading)).foldl
        mergeUploading files → (∃ f ∈ files, f.path = x.path ∧ f.isDir = x.isDir) ∨
        ∃ d', some d = some d' ∧ ∃ o ∈ d'.files, o.path ∈ c.uploading ∧ o.path = x.path ∧
          o.isDir = x.isDir ∧ x.path ∉ files.map (·.path) := by
      intro hmem
      refine (foldl_mergeUploading_from hmem).imp id fun ⟨o, ho, hpath, hdir, hnot⟩ => ?_
      obtain ⟨ho, hup⟩ := List.mem_filter.mp ho
      exact ⟨d, rfl, o, ho, of_decide_eq_true hup, hpath, hdir, hnot⟩
    simp only [hd] at hx
    split at hx
    · rename_i hroot
      rcases List.mem_append.mp hx with hx | hx
      · exact .inr (hmerged (List.mem_filter.mp hx).1)
      · simp only [Bool.and_eq_true, decide_eq_true_eq] at hroot
        exact .inl ⟨List.mem_singleton.mp hx, hroot.1.1.1⟩
    · exact .inr (hmerged (List.mem_filter.mp hx).1)

/-- A placeholder listing, without an etag, keeps what was listed there of uploads in flight. -/
theorem edited_placeholder {adds removes : List PathBuf} (path : PathBuf) (now : Nat) :
    Edited c (c.putDirCache path none none [] now) adds removes := by
  intro dir d' hd'
  rcases putDirCache_dir hd' with ⟨rfl, hfiles, hetag⟩ | ⟨-, hd⟩
  · refine .inl ⟨hetag, fun e' he' => ?_⟩
    rw [hfiles] at he'
    rcases mergedFiles_from he' with ⟨rfl, rfl⟩ | ⟨f, hf, -⟩ | ⟨d, hd, o, ho, -, hpath, -⟩
    · exact .inl rfl
    · cases hf
    · exact .inr ⟨d, hd, o, ho, hpath⟩
  · exact .inr ⟨d', hd, rfl, .refl _⟩

end Store

end FsCache

/-! ## Numbers of entries -/

namespace MutationJournal

variable {j k l : MutationJournal}

/-- No number is given back, and every queued entry keeps having one that was given out. -/
structure Grows (j k : MutationJournal) : Prop where
  nextSeq : j.nextSeq ≤ k.nextSeq
  seqs : (∀ e ∈ j.entries, e.seq < j.nextSeq) → ∀ e ∈ k.entries, e.seq < k.nextSeq

theorem Grows.refl (j : MutationJournal) : Grows j j := ⟨Nat.le_refl _, fun h => h⟩

/-- The queue's numbers grow over any number of steps. -/
theorem Grows.trans (h : Grows j k) (h' : Grows k l) : Grows j l :=
  ⟨Nat.le_trans h.nextSeq h'.nextSeq, fun hj => h'.seqs (h.seqs hj)⟩

/-- A change inside the entries takes no number. -/
theorem Grows.of_entries (hentries : k.entries = j.entries) (hnext : k.nextSeq = j.nextSeq) :
    Grows j k := by
  refine ⟨hnext.ge, fun h e he => ?_⟩
  rw [hnext]
  exact h e (hentries ▸ he)

/-- Requeueing keeps each number. -/
theorem Requeued.grows (h : Requeued j k) : Grows j k := by
  refine ⟨h.nextSeq.ge, fun hj e he => ?_⟩
  obtain ⟨e', he', hseq⟩ := List.mem_map.mp (h.seqs e.seq (List.mem_map_of_mem he))
  rw [h.nextSeq, ← hseq]
  exact hj e' he'

/-- Saving the journal changes no entry. -/
theorem Saves.grows (h : Saves j k) : Grows j k := by
  cases h with
  | marks h hsame => exact h.grows
  | queue h => exact h.grows.trans (.of_entries rfl rfl)
  | queued h e hseq =>
    refine ⟨Nat.le_succ _, fun hj x hx => ?_⟩
    rcases List.mem_append.mp hx with hx | hx
    · have hlt := h.grows.seqs hj x hx
      rw [h.nextSeq] at hlt
      exact Nat.lt_succ_of_lt hlt
    · rw [List.mem_singleton.mp hx, hseq]
      exact Nat.lt_succ_self _
  | conflicts cs n hle hids => exact .of_entries rfl rfl

/-- No operation of the journal gives out a number that was used. -/
theorem apply_grows (j : MutationJournal) (op : JournalOp) : Grows j (j.apply op) :=
  (apply_saves j op).grows

/-- The same of what live workers and requests do to it. -/
theorem liveOp_grows (j : MutationJournal) (op : LiveOp) : Grows j (op.apply j) := by
  cases op with
  | enqueue op => exact apply_grows j (.enqueue op)
  | retargetUpload src dst base => exact apply_grows j (.retargetUpload src dst base)
  | supersedeUploads path newest => exact apply_grows j (.supersedeUploads path newest)
  | settleUpload seq startedAs ifMatch => exact apply_grows j (.settleUpload seq startedAs ifMatch)
  | claim seq => exact apply_grows j (.claim seq)
  | markFailed seq error => exact apply_grows j (.markFailed seq error)
  | markDeferred seq error => exact apply_grows j (.markDeferred seq error)
  | remove seq => exact apply_grows j (.remove seq)
  | handStagingToRename uploadedAs staging =>
    exact apply_grows j (.handStagingToRename uploadedAs staging)
  | rebase path sent new => exact apply_grows j (.rebase path sent new)

/-- And of a sequence of them. -/
theorem foldl_grows (ops : List LiveOp) (j : MutationJournal) :
    Grows j (ops.foldl LiveOp.apply j) := by
  induction ops generalizing j with
  | nil => exact .refl j
  | cons op ops ih => exact (liveOp_grows j op).trans (ih (op.apply j))

/-- The end of a replayed entry takes it out, or leaves it for later. -/
theorem settleEntry_grows (j : MutationJournal) (c : FsCache) (e : JournalEntry) (r : ReplayResult) :
    Grows j (settleEntry j c e r).2.1 := by
  cases r with
  | ok => exact (apply_grows j .dequeueFront).trans (.of_entries rfl rfl)
  | uploaded etag => exact (apply_grows j .dequeueFront).trans (.of_entries rfl rfl)
  | conflict kind => exact (apply_grows j (.addConflict kind)).trans (apply_grows _ .dequeueFront)
  | idempotent => exact (apply_grows j .dequeueFront).trans (.of_entries rfl rfl)
  | retryable msg => exact apply_grows j (.markDeferred e.seq msg)
  | serverError msg => exact apply_grows j (.markFailed e.seq msg)

/-- What a landed mutation notes in the journal only grows it. -/
theorem noteLanded_grows (j : MutationJournal) (op : MutationOp) (r : ReplayResult) :
    Grows j (noteLanded j op r) := by
  unfold noteLanded
  split
  · exact apply_grows j (.rebase _ _ _)
  · exact apply_grows j (.rebase _ _ _)
  · exact apply_grows j (.rebase _ _ _)
  · exact .refl j

/-- Claiming the front only grows the journal. -/
theorem claimFront_grows (j : MutationJournal) : Grows j (claimFront j).2 := by
  unfold claimFront
  split
  · exact .refl j
  · split
    · exact .refl j
    · exact apply_grows j (.claim _)

/-- No section of the replay uses a number again. -/
theorem replayStep_grows (l : ReplayLoop) (st : ReplayStep) :
    Grows l.journal (l.replayStep st).journal := by
  unfold ReplayLoop.replayStep
  split
  · dsimp only
    split
    · exact .refl _
    · exact .refl _
    · exact claimFront_grows l.journal
  · split <;> exact .refl _
  · exact noteLanded_grows ..
  · exact .of_entries (settleBytes_entries ..) (settleBytes_nextSeq ..)
  · exact settleEntry_grows ..
  · split
    · exact .of_entries (recoverEntry_entries ..) (recoverEntry_nextSeq ..)
    · exact .refl _
  · exact (apply_grows l.journal (.addConflict _)).trans (apply_grows _ .dequeueFront)
  · exact .refl _

end MutationJournal

/-! ## Changes that are queued -/

/-- The change an entry stands for. -/
def JournalEntry.landing (e : JournalEntry) : Landing :=
  { seq := e.seq, adds := e.op.adds, removes := e.op.removes }

/-- The results after which the replay takes its entry out. -/
def ReplayResult.ends : ReplayResult → Bool
  | retryable _ | serverError _ => false
  | ok | uploaded _ | conflict _ | idempotent => true

/-- The sections of the replay that take the front entry out. -/
def ReplayLoop.dequeues (l : ReplayLoop) (st : ReplayStep) : Bool :=
  match l.phase, st with
  | .settled _ result, .finish => result.ends
  | .recovered _ _, .giveUp => true
  | _, _ => false

namespace MutationOp

/-- A changed condition does not change where an entry lands. -/
@[simp] theorem rebaseEntry_landing (new : Option String) (e : JournalEntry) :
    (MutationJournal.rebaseEntry new e).landing = e.landing := by
  unfold MutationJournal.rebaseEntry JournalEntry.landing
  split <;> simp_all [adds, removes]

/-- A MOVE's condition is none of the paths it re-roots. -/
theorem condition_paths (op : MutationOp) (dst : PathBuf) (ifMatch : Option String) :
    (op.condition dst ifMatch).adds = op.adds ∧ (op.condition dst ifMatch).removes = op.removes := by
  unfold condition
  split
  · split <;> exact ⟨rfl, rfl⟩
  · split <;> exact ⟨rfl, rfl⟩
  · exact ⟨rfl, rfl⟩

/-- An upload puts a file at its path and takes nothing away. -/
theorem isUploadOf_paths {op : MutationOp} {p : PathBuf} (h : op.isUploadOf p = true) :
    op.adds = [p] ∧ op.removes = [] ∧ op.path = p := by
  cases op with
  | put q s m => exact ⟨congrArg ([·]) (of_decide_eq_true h), rfl, of_decide_eq_true h⟩
  | finishChunked q u n b l t m sp hd w =>
    exact ⟨congrArg ([·]) (of_decide_eq_true h), rfl, of_decide_eq_true h⟩
  | _ => cases h

/-- A queued creation of a folder adds that path and removes none. -/
theorem isMkDirOf_paths {op : MutationOp} {p : PathBuf} (h : op.isMkDirOf p = true) :
    op.adds = [p] ∧ op.removes = [] := by
  cases op with
  | mkDir q => exact ⟨congrArg ([·]) (of_decide_eq_true h), rfl⟩
  | _ => cases h

end MutationOp

namespace MutationJournal

variable {j k : MutationJournal} {seq : SeqId}

/-- The changes the queue stands for. -/
def landings (j : MutationJournal) : List Landing := j.entries.map (·.landing)

/-- Whether the upload `seq` was renamed on while something that replaces it was queued behind it. -/
def withdraws (j : MutationJournal) (seq : SeqId) : Bool :=
  (j.entries.findIdx? fun e => e.seq = seq).any fun i => j.entries[i]?.any fun e =>
    e.retargeted && (j.entries.drop (i + 1)).any fun x => x.op.replaces e.op.path

/-- A change of an entry that leaves its target alone changes no landing. -/
theorem modify_landings {f : JournalEntry → JournalEntry} (hf : ∀ e, (f e).landing = e.landing)
    (j : MutationJournal) (seq : SeqId) : (j.modify seq f).landings = j.landings := by
  unfold modify
  split
  · exact List.map_modify_of_eq hf _ _
  · rfl

/-- Claiming is a mark. -/
@[simp] theorem claim_landings (j : MutationJournal) (seq : SeqId) :
    (j.claim seq).2.landings = j.landings := by
  unfold claim
  split
  · split
    · rfl
    · exact modify_landings (f := fun e => { e with inFlight := true }) (fun _ => rfl) j seq
  · rfl

/-- So is a failure that is noted. -/
@[simp] theorem markFailed_landings (j : MutationJournal) (seq : SeqId) (error : String) :
    (j.markFailed seq error).landings = j.landings :=
  modify_landings (f := fun e => { e with
    attempts := e.attempts + 1, lastError := some error, inFlight := false, destFixed := false })
    (fun _ => rfl) j seq

/-- So is a deferral. -/
@[simp] theorem markDeferred_landings (j : MutationJournal) (seq : SeqId) (error : String) :
    (j.markDeferred seq error).landings = j.landings :=
  modify_landings (f := fun e =>
    { e with lastError := some error, inFlight := false, destFixed := false })
    (fun _ => rfl) j seq

/-- A staging file handed to a rename changes the source of bytes, not a target. -/
@[simp] theorem handStagingToRename_landings (j : MutationJournal) (uploadedAs staging : PathBuf) :
    (j.handStagingToRename uploadedAs staging).2.landings = j.landings := by
  unfold handStagingToRename
  split
  · rfl
  · refine List.map_modify_of_eq (fun e => ?_) _ _
    unfold JournalEntry.landing
    split
    · rename_i hop
      rw [hop]
      rfl
    · rfl

/-- A new base etag changes no target. -/
@[simp] theorem rebase_landings (j : MutationJournal) (path : PathBuf) (sent new : Option String) :
    (j.rebase path sent new).landings = j.landings := by
  unfold rebase
  split
  · rfl
  · split
    · refine (List.map_map ..).trans (List.map_congr_left fun e _ => ?_)
      dsimp only [Function.comp_apply]
      split
      · exact MutationOp.rebaseEntry_landing new e
      · rfl
    · rfl

/-- The change that an entry stands for goes with it. -/
@[simp] theorem remove_landings (j : MutationJournal) (seq : SeqId) :
    (j.remove seq).landings = j.landings.filter fun l => l.seq ≠ seq :=
  (List.filter_map (f := JournalEntry.landing) (p := fun l => decide (l.seq ≠ seq))).symm

/-- The front change goes first. -/
@[simp] theorem dequeueFront_landings (j : MutationJournal) :
    j.dequeueFront.2.landings = j.landings.tail := by
  rw [landings, dequeueFront_entries, List.map_tail]
  rfl

/-- Whether an upload can be re-pointed does not depend on the version it is to replace. -/
theorem retargetUpload_fst (j : MutationJournal) (src dst : PathBuf) (base base' : Option String) :
    (j.retargetUpload src dst base).1 = (j.retargetUpload src dst base').1 := by
  unfold retargetUpload
  split
  · split
    · split
      · rfl
      · split <;> rfl
    · rfl
  · rfl

/-- What an entry is after a rename does not depend on the version the rename replaces. -/
theorem followRename_landing (src dst : PathBuf) (base base' : Option String) (e : JournalEntry) :
    (followRename (.rename src dst none base) e).landing =
    (followRename (.rename src dst none base') e).landing := by
  unfold followRename JournalEntry.landing
  dsimp only
  split
  · dsimp only
    rw [((e.op.updatePathPrefix src dst).condition_paths dst base).1,
      ((e.op.updatePathPrefix src dst).condition_paths dst base).2,
      ((e.op.updatePathPrefix src dst).condition_paths dst base').1,
      ((e.op.updatePathPrefix src dst).condition_paths dst base').2]
  · rfl

/-- An unlink's entry drops the uploads and the folder queued under its name, at most. -/
theorem mem_enqueue_unlink {path : PathBuf} {e : JournalEntry} (he : e ∈ j.entries) :
    e ∈ (j.enqueue (.unlink path)).2.entries ∨ e.op.adds = [path] ∧ e.op.removes = [] := by
  rw [enqueue_entries, map_followRename (fun _ _ _ _ h => (by cases h)), coalesce_unlink_entries]
  split
  · exact .inl (List.mem_append_left _ he)
  · cases hup : e.op.isUploadOf path with
    | true => exact .inr ⟨(MutationOp.isUploadOf_paths hup).1, (MutationOp.isUploadOf_paths hup).2.1⟩
    | false =>
      cases hmk : e.op.isMkDirOf path with
      | true => exact .inr (MutationOp.isMkDirOf_paths hmk)
      | false => exact .inl (List.mem_append_left _ (List.mem_filter.mpr ⟨he, by rw [hup, hmk]; rfl⟩))

/-- A rmdir that is queued drops at most the unsent creation of the same folder. -/
theorem mem_enqueue_rmDir {path : PathBuf} {e : JournalEntry} (he : e ∈ j.entries) :
    e ∈ (j.enqueue (.rmDir path)).2.entries ∨ e.op.adds = [path] ∧ e.op.removes = [] := by
  rw [enqueue_entries, map_followRename (fun _ _ _ _ h => (by cases h))]
  cases hmk : e.op.isMkDirOf path with
  | true => exact .inr (MutationOp.isMkDirOf_paths hmk)
  | false => exact .inl (List.mem_append_left _ (List.mem_filter.mpr ⟨he, by rw [hmk]; rfl⟩))

/-- What a worker does to the queue when its request has been answered. -/
theorem liveOps_landings (j : MutationJournal) (seq : SeqId) (op : MutationOp) (dest : PathBuf)
    (sent : Option String) (a : LiveAnswer) :
    ((a.liveOps seq op dest sent).foldl LiveOp.apply j).landings =
      if a.ends op then j.landings.filter fun l => l.seq ≠ seq else j.landings := by
  cases a with
  | landed etag =>
    cases op with
    | finishChunked p u n b l t m sp hd whole =>
      cases whole <;> simp [LiveAnswer.liveOps, LiveAnswer.ends, LiveOp.apply]
    | _ => simp [LiveAnswer.liveOps, LiveAnswer.ends, LiveOp.apply]
  | settled => cases op <;> simp [LiveAnswer.liveOps, LiveAnswer.ends, LiveOp.apply]
  | deferred error => cases op <;> simp [LiveAnswer.liveOps, LiveAnswer.ends, LiveOp.apply]
  | failed error => cases op <;> simp [LiveAnswer.liveOps, LiveAnswer.ends, LiveOp.apply]

/-- A target that is fixed stays the same target. -/
theorem fixed_landings (j : MutationJournal) (i : Nat) :
    landings { j with entries := j.entries.modify i fun e => { e with destFixed := true } } =
    j.landings :=
  List.map_modify_of_eq (f := fun e : JournalEntry => { e with destFixed := true })
    (fun _ => rfl) _ _

/-- Settling an upload keeps what other entries stand for. -/
theorem settleUpload_landings_subset (j : MutationJournal) (seq : SeqId) (startedAs : PathBuf)
    (ifMatch : Option String) :
    (j.landings.filter fun l => l.seq ≠ seq) ⊆
    (j.settleUpload seq startedAs ifMatch).2.landings := by
  intro l hl
  obtain ⟨hl, hseq⟩ := List.mem_filter.mp hl
  rcases j.settleUpload_cases seq startedAs ifMatch with
    ⟨i, e, hidx, hget, -, heq⟩ | heq | ⟨msg, heq⟩ | ⟨i, path, etag, heq⟩
  · -- The entry taken out is the upload's own, and only its landing goes with it.
    rw [heq]
    obtain ⟨x, hx, rfl⟩ := List.mem_map.mp hl
    obtain ⟨k, hk⟩ := List.mem_iff_getElem?.mp hx
    refine List.mem_map_of_mem (List.mem_eraseIdx_iff_getElem?.mpr ⟨k, fun hki => ?_, hk⟩)
    have hxe : x = e := Option.some.inj (hk.symm.trans (hki ▸ hget))
    obtain ⟨hlt, he, -⟩ := List.findIdx?_eq_some_iff_getElem.mp hidx
    have hei : j.entries[i] = e := Option.some.inj ((List.getElem?_eq_getElem hlt).symm.trans hget)
    rw [hei] at he
    exact of_decide_eq_true hseq (hxe ▸ of_decide_eq_true he)
  · rw [heq]
    exact hl
  · rw [heq, markDeferred_landings]
    exact hl
  · rw [heq]
    exact fixed_landings j i ▸ hl

/-- An upload that is settled and not withdrawn lands where it did. -/
theorem settleUpload_landings (h : j.withdraws seq = false) (startedAs : PathBuf)
    (ifMatch : Option String) :
    (j.settleUpload seq startedAs ifMatch).2.landings = j.landings := by
  unfold settleUpload
  split
  · rfl
  · rename_i i hidx
    split
    · rfl
    · rename_i e hget
      split
      · exact fixed_landings j i
      · rename_i hret
        -- A later write of the same path would have withdrawn the upload, which `withdraws` denies.
        have hlater : (j.entries.drop (i + 1)).any (fun x => x.op.replaces e.op.path) = false := by
          simp only [withdraws, hidx, Option.any_some, hget, Bool.and_eq_false_iff] at h
          refine h.resolve_left fun hfalse => hret ?_
          rw [hfalse]
          rfl
        dsimp only
        rw [if_neg (by rw [hlater]; exact Bool.false_ne_true)]
        split
        · split
          · rfl
          · exact markDeferred_landings ..
        · exact fixed_landings j i

/-- What the replay notes of a landed version is conditions only. -/
theorem noteLanded_landings (j : MutationJournal) (op : MutationOp) (r : ReplayResult) :
    (noteLanded j op r).landings = j.landings := by
  unfold noteLanded
  split
  · exact rebase_landings ..
  · exact rebase_landings ..
  · exact rebase_landings ..
  · rfl

/-- The replayed entry's change leaves the queue when the entry ends. -/
theorem settleEntry_landings (j : MutationJournal) (c : FsCache) (e : JournalEntry)
    (r : ReplayResult) :
    (settleEntry j c e r).2.1.landings = if r.ends then j.landings.tail else j.landings := by
  cases r with
  | ok => exact dequeueFront_landings j
  | uploaded etag => exact dequeueFront_landings j
  | conflict kind => exact dequeueFront_landings (j.addConflict kind)
  | idempotent => exact dequeueFront_landings j
  | retryable msg => exact markDeferred_landings j e.seq msg
  | serverError msg => exact markFailed_landings j e.seq msg

/-- The front is marked, not taken. -/
theorem claimFront_landings (j : MutationJournal) : (claimFront j).2.landings = j.landings := by
  unfold claimFront
  split
  · rfl
  · split
    · rfl
    · exact claim_landings j _

/-- The replay takes out its front entry or leaves the queue as it is. -/
theorem replayStep_landings (l : ReplayLoop) (st : ReplayStep) :
    (l.replayStep st).journal.landings =
      if l.dequeues st then l.journal.landings.tail else l.journal.landings := by
  unfold ReplayLoop.replayStep
  -- Phase by phase: only a settled result and a given-up entry leave the queue.
  split
  · rename_i hphase
    simp only [ReplayLoop.dequeues, hphase, Bool.false_eq_true, if_false]
    split
    · rfl
    · rfl
    · exact claimFront_landings l.journal
  · rename_i hphase
    simp only [ReplayLoop.dequeues, hphase, Bool.false_eq_true, if_false]
    split <;> rfl
  · rename_i hphase
    simp only [ReplayLoop.dequeues, hphase, Bool.false_eq_true, if_false]
    exact noteLanded_landings ..
  · rename_i hphase
    simp only [ReplayLoop.dequeues, hphase, Bool.false_eq_true, if_false]
    exact congrArg (List.map (·.landing)) (settleBytes_entries ..)
  · rename_i hphase
    simp only [ReplayLoop.dequeues, hphase]
    exact settleEntry_landings ..
  · rename_i hphase
    simp only [ReplayLoop.dequeues, hphase, Bool.false_eq_true, if_false]
    split
    · exact congrArg (List.map (·.landing)) (recoverEntry_entries ..)
    · rfl
  · rename_i hphase
    simp only [ReplayLoop.dequeues, hphase, if_true]
    exact dequeueFront_landings (l.journal.addConflict _)
  · -- A section in a phase that is not its own.
    rename_i hfinish _ hgiveUp
    rw [if_neg]
    unfold ReplayLoop.dequeues
    split
    · exact (hfinish _ _ ‹_› rfl).elim
    · exact (hgiveUp _ _ ‹_› rfl).elim
    · exact Bool.false_ne_true

end MutationJournal

/-! ## What a request edits -/

namespace DirMount

variable {m m' m'' : DirMount}

/-- A request's edits of listings are queued under new numbers. -/
structure Edits (m m' : DirMount) (adds removes : List PathBuf) : Prop where
  edited : FsCache.Edited m.cache m'.cache adds removes
  grows : m.journal.Grows m'.journal
  adds : ∀ p ∈ adds, ∃ e ∈ m'.journal.entries, m.journal.nextSeq ≤ e.seq ∧ p ∈ e.op.adds
  removes : ∀ p ∈ removes, p = trackerignorePath ∨
    ∃ e ∈ m'.journal.entries, m.journal.nextSeq ≤ e.seq ∧ p ∈ e.op.removes

/-- A request that queues nothing and leaves the listings alone. -/
theorem Edits.of_same (hcache : m'.cache.dirCache = m.cache.dirCache)
    (hjournal : m'.journal = m.journal) :
    Edits m m' [] [] := by
  refine ⟨.of_dirCache hcache, ?_, fun p hp => ?_, fun p hp => ?_⟩
  · rw [hjournal]
    exact .refl _
  · cases hp
  · cases hp

/-- The `.trackerignore` entry may be hidden besides. -/
theorem Edits.hidingTracker {adds : List PathBuf} (h : Edits m m' adds []) :
    Edits m m' adds [trackerignorePath] :=
  ⟨h.edited.mono (List.Subset.refl _) (List.nil_subset _), h.grows, h.adds,
    fun _ hp => .inl (List.mem_singleton.mp hp)⟩

/-- The operation a request queues is for what it edits. -/
theorem Edits.of_enqueue (op : MutationOp)
    (hedit : FsCache.Edited m.cache m'.cache op.adds op.removes)
    (hjournal : m'.journal = (m.journal.enqueue op).2) : Edits m m' op.adds op.removes := by
  have hqueued : { seq := m.journal.nextSeq, op := op } ∈ m'.journal.entries := by
    rw [hjournal, MutationJournal.enqueue_entries]
    exact List.mem_append_right _ List.mem_cons_self
  refine ⟨hedit, ?_, fun p hp => ⟨_, hqueued, Nat.le_refl _, hp⟩,
    fun p hp => .inr ⟨_, hqueued, Nat.le_refl _, hp⟩⟩
  rw [hjournal]
  exact MutationJournal.apply_grows m.journal (.enqueue op)

/-- Nothing changes but ghost entries and inodes. -/
structure Idle (m m' : DirMount) : Prop where
  dirCache : m'.cache.dirCache = m.cache.dirCache
  uploading : m'.cache.uploading = m.cache.uploading
  openFiles : m'.openFiles = m.openFiles
  journal : m'.journal = m.journal

/-- What is queued stays queued, the handles stay open and the guards stay up. -/
structure Keeps (m m' : DirMount) : Prop where
  entries : m.journal.entries ⊆ m'.journal.entries
  openFiles : m.openFiles ⊆ m'.openFiles
  uploading : m.cache.uploading ⊆ m'.cache.uploading

/-- Nothing changed, so every queued change and every handle is kept. -/
theorem Idle.keeps (h : Idle m m') : Keeps m m' where
  entries _ he := h.journal ▸ he
  openFiles _ hx := h.openFiles ▸ hx
  uploading _ hp := h.uploading ▸ hp

/-- Nothing changed, so no listing was edited. -/
theorem Idle.edits (h : Idle m m') : Edits m m' [] [] := .of_same h.dirCache h.journal

/-- What `unlink` and `rmdir` do to the mount: the name goes out of the listing, what was queued to
    put something there may go with it, and the removal is queued. -/
structure Removes (m m' : DirMount) (path : PathBuf) : Prop extends Edits m m' [] [path] where
  hides : m'.cache.Hides path
  entries : ∀ e ∈ m.journal.entries, e ∈ m'.journal.entries ∨ e.op.adds = [path] ∧ e.op.removes = []
  openFiles : ∀ h ∈ m.openFiles, h.remotePath ≠ path → h ∈ m'.openFiles
  uploading : ∀ p ∈ m.cache.uploading, p ≠ path → p ∈ m'.cache.uploading

/-- What `create` does to the mount: it lists a new file, under a guard. -/
structure Creates (m m' : DirMount) (path : PathBuf) : Prop where
  edited : FsCache.Edited m.cache m'.cache [path] []
  uploading : m'.cache.uploading = insert path m.cache.uploading
  journal : m'.journal = m.journal

/-- Giving out an inode changes no upload guard. -/
theorem allocateInode_uploading (c : FsCache) (p : PathBuf) :
    (c.allocateInode p).2.uploading = c.uploading := by
  unfold FsCache.allocateInode
  split <;> rfl

/-- Changing a listing changes no upload guard. -/
theorem modifyDir_uploading (c : FsCache) (p : PathBuf) (f : DirCacheEntry → DirCacheEntry) :
    (c.modifyDir p f).uploading = c.uploading := by
  unfold FsCache.modifyDir
  split <;> rfl

/-- A create fails and changes nothing, or adds the new path and a handle that makes it. -/
theorem create_cases (m : DirMount) (parent : Nat) (name : String) :
    (m.create parent name).1 = false ∧ Idle m (m.create parent name).2 ∨
    ∃ parentPath, m.cache.inodes parent = some parentPath ∧ (m.create parent name).1 = true ∧
      (m.create parent name).2.openFiles = m.openFiles ∧
      Creates m (m.create parent name).2 (parentPath ++ [name]) := by
  unfold create
  split
  · -- No such parent, a path that is busy, offline, refused: nothing is written.
    exact .inl ⟨rfl, rfl, rfl, rfl, rfl⟩
  · rename_i parentPath hparent
    dsimp only
    split
    · exact .inl ⟨rfl, rfl, rfl, rfl, rfl⟩
    · split
      · exact .inl ⟨rfl, FsCache.allocateInode_dirCache _ _, allocateInode_uploading _ _, rfl, rfl⟩
      · split
        · exact .inl ⟨rfl, rfl, rfl, rfl, rfl⟩
        · -- Created: the inode, the entry in the parent's listing, the guard of the new path.
          refine .inr ⟨parentPath, hparent, rfl, rfl, ?_, ?_, rfl⟩
          · refine .then_dirCache ?_ rfl
            refine .trans (.of_dirCache
              (FsCache.allocateInode_dirCache m.cache (parentPath ++ [name]))) ?_
            refine FsCache.edited_modifyFiles fun files => ?_
            exact FsCache.filesEdited_push files List.mem_cons_self
              (DavServer.isChild_append parentPath name)
          · dsimp only
            rw [FsCache.modifyFiles, modifyDir_uploading, allocateInode_uploading]
            rfl

/-- The new file has a handle, which is to bring it to the server. -/
theorem createFile_cases (m : DirMount) (parent : Nat) (name : String) (fh : Nat) (streams : Bool) :
    Idle m (m.createFile parent name fh streams) ∨
    ∃ path h, Creates m (m.createFile parent name fh streams) path ∧
      (m.createFile parent name fh streams).openFiles = m.openFiles ++ [h] ∧
      h.created = true ∧ h.unlinked = false ∧ h.remotePath = path := by
  rcases m.create_cases parent name with ⟨hfalse, hidle⟩ | ⟨parentPath, hparent, htrue,
    hopen, hcreates⟩
  · refine .inl ?_
    simp only [createFile, hfalse]
    exact hidle
  · refine .inr ⟨parentPath ++ [name], ?_⟩
    simp only [createFile, htrue, hparent, hopen]
    exact ⟨_, ⟨hcreates.edited, hcreates.uploading, hcreates.journal⟩, rfl, rfl, rfl, rfl⟩

/-- A mkdir adds at most the new folder to its parent's listing. -/
theorem mkdir_edits (m : DirMount) (parent : Nat) (name : String) :
    ∃ adds, Edits m (m.mkdir parent name) adds [] ∧ Keeps m (m.mkdir parent name) := by
  have hidle : ∀ {m'}, Idle m m' → ∃ adds, Edits m m' adds [] ∧ Keeps m m' :=
    fun h => ⟨[], h.edits, h.keeps⟩
  unfold mkdir
  split
  · exact hidle ⟨rfl, rfl, rfl, rfl⟩
  · split
    · exact hidle ⟨rfl, rfl, rfl, rfl⟩
    · split
      · exact hidle ⟨rfl, rfl, rfl, rfl⟩
      · rename_i parentPath hparent
        dsimp only
        split
        · -- Refused by the journal after the inode is given out.
          exact hidle ⟨FsCache.allocateInode_dirCache _ _, allocateInode_uploading _ _, rfl, rfl⟩
        · -- Made: the entry in the parent's listing, the empty listing of the directory, the guards
          -- kept.
          refine ⟨[parentPath ++ [name]], .of_enqueue (.mkDir (parentPath ++ [name])) ?_ rfl, ?_,
            List.Subset.refl _, Eq.superset ?_⟩
          · refine .trans (.of_dirCache
              (FsCache.allocateInode_dirCache m.cache (parentPath ++ [name]))) ?_
            refine .trans (FsCache.edited_modifyFiles fun files => ?_)
              (FsCache.edited_placeholder _ _)
            exact FsCache.filesEdited_push files List.mem_cons_self
              (DavServer.isChild_append parentPath name)
          · have hentries := m.journal.enqueue_entries (.mkDir (parentPath ++ [name]))
            rw [MutationJournal.map_followRename fun _ _ _ _ h => (by cases h)] at hentries
            exact hentries ▸ List.subset_append_left _ _
          · rw [FsCache.putDirCache_uploading, FsCache.modifyFiles, modifyDir_uploading]
            exact allocateInode_uploading _ _

/-- An unlink takes its path out of the listing; of the tracker's ignore file it is only
    pretended. -/
theorem unlink_edits (m : DirMount) (parent : Nat) (name : String) :
    Edits m (m.unlink parent name) [] [trackerignorePath] ∧ Keeps m (m.unlink parent name) ∨
      ∃ path, Removes m (m.unlink parent name) path := by
  have hidle : ∀ {m'}, Idle m m' → Edits m m' [] [trackerignorePath] ∧ Keeps m m' ∨ ∃ path,
    Removes m m' path :=
    fun h => .inl ⟨h.edits.hidingTracker, h.keeps⟩
  unfold unlink
  split
  · exact hidle ⟨rfl, rfl, rfl, rfl⟩
  · split
    · exact hidle ⟨rfl, rfl, rfl, rfl⟩
    · rename_i parentPath hparent
      have hdir : PathBuf.parent (parentPath ++ [name]) = parentPath :=
        (DavServer.isChild_iff.mp (DavServer.isChild_append parentPath name)).2
      dsimp only
      split
      · -- the entry the mount adds itself: it is only hidden
        rename_i htracker
        refine .inl ⟨⟨?_, .refl _, fun p hp => (by cases hp),
          fun p hp => .inl (List.mem_singleton.mp hp)⟩, List.Subset.refl _, List.Subset.refl _, ?_⟩
        · refine .then_dirCache (FsCache.edited_modifyFiles fun files => ?_) rfl
          exact FsCache.filesEdited_filter files (htracker ▸ List.mem_cons_self)
        · exact (modifyDir_uploading _ _ _).superset
      · split
        · exact hidle ⟨rfl, rfl, rfl, rfl⟩
        · -- Removed: hidden from the parent's listing, queued, its handles unlinked, its guard dropped.
          refine .inr ⟨parentPath ++ [name], .of_enqueue (.unlink (parentPath ++ [name])) ?_ rfl, ?_,
            fun e he => MutationJournal.mem_enqueue_unlink he, fun h hh hne => ?_,
              fun p hp hne => ?_⟩
          · refine .then_dirCache (FsCache.edited_modifyFiles fun files => ?_) rfl
            exact FsCache.filesEdited_filter files List.mem_cons_self
          · exact (FsCache.hides_filtered m.cache (parentPath ++ [name])).of_dirCache rfl
          · exact List.mem_map.mpr ⟨h, hh, if_neg hne⟩
          · have hguards : (m.cache.startDelete (.unlink (parentPath ++ [name]))).uploading =
                m.cache.uploading.erase (parentPath ++ [name]) :=
              congrArg (Finset.erase · (parentPath ++ [name])) (modifyDir_uploading _ _ _)
            exact hguards ▸ Finset.mem_erase.mpr ⟨hne, hp⟩

/-- A rmdir that goes through takes its path out of the listing. -/
theorem rmdir_edits (m : DirMount) (parent : Nat) (name : String) :
    Idle m (m.rmdir parent name).2 ∨ ∃ path, Removes m (m.rmdir parent name).2 path := by
  unfold rmdir
  split
  · exact .inl ⟨rfl, rfl, rfl, rfl⟩
  · split
    · exact .inl ⟨rfl, rfl, rfl, rfl⟩
    · rename_i parentPath hparent
      have hdir : PathBuf.parent (parentPath ++ [name]) = parentPath :=
        (DavServer.isChild_iff.mp (DavServer.isChild_append parentPath name)).2
      dsimp only
      split
      · exact .inl ⟨rfl, rfl, rfl, rfl⟩
      · refine .inr ⟨parentPath ++ [name], .of_enqueue (.rmDir (parentPath ++ [name])) ?_ rfl, ?_,
          fun e he => MutationJournal.mem_enqueue_rmDir he, fun h hh _ => hh, fun p hp _ => ?_⟩
        · refine .then_dirCache ?_ rfl
          refine .trans (FsCache.edited_modifyFiles fun files => ?_) (FsCache.edited_removeDir _)
          exact FsCache.filesEdited_filter files List.mem_cons_self
        · have hhides := (FsCache.hides_filtered m.cache (parentPath ++ [name])).removeDir
            (parentPath ++ [name])
          rw [hdir] at hhides
          exact hhides.of_dirCache rfl
        · exact (modifyDir_uploading _ _ _).superset hp

/-- A rename shows the entry under its new path and no longer under the old one. -/
theorem renameListed_edited (m : DirMount) (src dst : PathBuf) (hdst : dst ≠ []) :
    FsCache.Edited m.cache (m.renameListed src dst).2 [dst] [src] := by
  unfold renameListed
  dsimp only
  refine .then_dirCache ?_ (FsCache.movePaths_dirCache _ _ _ _)
  have htaken : FsCache.Edited m.cache
      (m.cache.modifyFiles src.parent fun files => files.filter fun e => e.path ≠ src) [dst] [src] :=
    FsCache.edited_modifyFiles fun files => FsCache.filesEdited_filter files List.mem_cons_self
  split
  · rename_i e he
    refine htaken.trans (FsCache.edited_modifyFiles fun files => ⟨fun x hx => ?_, fun x hx => ?_⟩)
    · rcases List.mem_append.mp hx with hx | hx
      · exact .inl ⟨x, (List.mem_filter.mp hx).1, rfl, rfl⟩
      · obtain rfl := List.mem_singleton.mp hx
        exact .inr ⟨List.mem_cons_self, DavServer.isChild_iff.mpr ⟨hdst, rfl⟩⟩
    · by_cases hxp : x.path = dst
      · exact .inl ⟨_, List.mem_append_right _ List.mem_cons_self, hxp.symm⟩
      · exact .inl ⟨x, List.mem_append_left _ (List.mem_filter.mpr ⟨hx, decide_eq_true hxp⟩), rfl⟩
  · exact htaken

@[simp] theorem moveGuard_dirCache (c : FsCache) (src dst : PathBuf) :
    (moveGuard c src dst).dirCache = c.dirCache := by
  unfold moveGuard
  split <;> rfl

/-- Only the moved path itself loses its guard. -/
theorem mem_moveGuard {c : FsCache} {src dst p : PathBuf} (hp : p ∈ c.uploading) (hne : p ≠ src) :
    p ∈ (moveGuard c src dst).uploading := by
  unfold moveGuard
  split
  · exact Finset.mem_insert_of_mem (Finset.mem_erase.mpr ⟨hne, hp⟩)
  · exact hp

/-- Whether a rename takes the handle's file from its path: it lies below `src`, or `dst` was it. -/
def displaces (m : DirMount) (src dst : PathBuf) (h : DirHandle) : Bool :=
  (h.remotePath.stripPrefix src).isSome
    || decide ((m.cache.paths dst).filter (fun d => some d ≠ m.cache.paths src) = some h.ino)

/-- Whether the source counts as being on the server: nothing that is listed says otherwise. -/
def sourceOnServer (m : DirMount) (src : PathBuf) : Bool :=
  ((m.cache.listed src.parent).bind fun files => files.find? fun e => e.path = src).all
    fun e => e.isDir || e.changeToken.isSome

/-- What every `rename` does to the listings, the handles and the guards. -/
structure Moves (m m' : DirMount) (src dst : PathBuf) : Prop where
  edited : FsCache.Edited m.cache m'.cache [dst] [src]
  hides : src ≠ dst → m'.cache.Hides src
  openFiles : ∀ h ∈ m.openFiles, m.displaces src dst h = false → h ∈ m'.openFiles
  uploading : ∀ p ∈ m.cache.uploading, p ≠ src → p ∈ m'.cache.uploading

/-- After a rename no listing shows the old path. -/
theorem hides_renameListed (m : DirMount) {src dst : PathBuf} (hne : src ≠ dst) :
    (m.renameListed src dst).2.Hides src := by
  have hfiltered := FsCache.hides_filtered m.cache src
  unfold renameListed
  dsimp only
  refine FsCache.Hides.of_dirCache ?_ (FsCache.movePaths_dirCache _ _ _ _)
  split
  · intro d hd e he
    -- the entry goes into the listing under its new name
    rw [FsCache.modifyFiles, FsCache.dir_modifyDir] at hd
    split at hd
    · obtain ⟨d₀, hd₀, rfl⟩ := Option.map_eq_some_iff.mp hd
      rcases List.mem_append.mp he with he | he
      · exact hfiltered d₀ hd₀ e (List.mem_filter.mp he).1
      · rw [List.mem_singleton.mp he]
        exact hne.symm
    · exact hfiltered d hd e he
  · exact hfiltered

/-- The listings move without the guards, which follow later. -/
theorem renameListed_uploading (m : DirMount) (src dst : PathBuf) :
    (m.renameListed src dst).2.uploading = m.cache.uploading := by
  have hmove : ∀ (c : FsCache) (subtree : Bool),
    (c.movePaths src dst subtree).uploading = c.uploading := by
    intro c subtree
    have hone : (c.movePath src dst).uploading = c.uploading := by
      unfold FsCache.movePath
      split <;> rfl
    unfold FsCache.movePaths
    split
    · exact hone
    · exact hone
  unfold renameListed
  dsimp only
  rw [hmove]
  split
  · rw [FsCache.modifyFiles, modifyDir_uploading, FsCache.modifyFiles, modifyDir_uploading]
  · rw [FsCache.modifyFiles, modifyDir_uploading]

/-- A handle of neither name stays as it is. -/
theorem retargetHandle_of_outside {m : DirMount} {src dst : PathBuf} {h : DirHandle}
    (hout : m.displaces src dst h = false) :
    retargetHandle src dst (m.renameListed src dst).1.displaced h = h := by
  obtain ⟨houtside, hother⟩ := Bool.or_eq_false_iff.mp hout
  unfold retargetHandle
  rw [Option.isSome_eq_false_iff.mp houtside |> Option.isNone_iff_eq_none.mp]
  exact if_neg (of_decide_eq_false hother)

/-- A rename of a file that has not been committed yet is the open handle's, that of one whose upload
    can be re-pointed is the upload's, and any other queues a MOVE. -/
theorem renameTo_cases (m : DirMount) (src dst : PathBuf) (hdst : dst ≠ []) :
    Moves m (m.renameTo src dst) src dst ∧
      (if m.uncommittedSource src && !m.journal.hasPendingPut src then
        (m.renameTo src dst).journal = m.journal ∧
          (src ∈ m.cache.uploading → ∃ h ∈ (m.renameTo src dst).openFiles, h.created = true ∧
            h.unlinked = false ∧ h.remotePath = dst ∧ dst ∈ (m.renameTo src dst).cache.uploading)
      else if !m.sourceOnServer src && (m.journal.retargetUpload src dst none).1 then
        ∃ base, (m.renameTo src dst).journal = (m.journal.retargetUpload src dst base).2
      else ∃ base, (m.renameTo src dst).journal =
        (m.journal.enqueue (.rename src dst none base)).2) := by
  have hlisted := m.renameListed_edited src dst hdst
  have huploading := m.renameListed_uploading src dst
  have hhandles : ∀ h ∈ m.openFiles, m.displaces src dst h = false →
      h ∈ m.openFiles.map (retargetHandle src dst (m.renameListed src dst).1.displaced) :=
    fun h hh hout => List.mem_map.mpr ⟨h, hh, retargetHandle_of_outside hout⟩
  have hmoved : ∀ p ∈ m.cache.uploading, p ≠ src →
      p ∈ (moveGuard (m.renameListed src dst).2 src dst).uploading :=
    fun p hp hne => mem_moveGuard (huploading ▸ hp) hne
  have hsource : (m.renameListed src dst).1.sourceOnServer = m.sourceOnServer src := rfl
  unfold renameTo
  dsimp only
  rw [hsource, m.journal.retargetUpload_fst src dst _ none]
  split
  · rename_i huncommitted
    refine ⟨⟨hlisted.then_dirCache (moveGuard_dirCache _ _ _), fun hne => ?_, hhandles, hmoved⟩,
      rfl, fun hup => ?_⟩
    · exact (m.hides_renameListed hne).of_dirCache (moveGuard_dirCache _ _ _)
    · obtain ⟨h, hh, hopen⟩ := List.any_eq_true.mp (Bool.and_eq_true_iff.mp huncommitted).1
      simp only [Bool.and_eq_true, decide_eq_true_eq, Bool.not_eq_true'] at hopen
      obtain ⟨⟨hpath, hcreated⟩, hunlinked⟩ := hopen
      have hself : src.stripPrefix src = some [] :=
        (PathBuf.stripPrefix_eq_some_iff src src []).mpr (List.append_nil src).symm
      have hat : retargetHandle src dst (m.renameListed src dst).1.displaced h =
        { h with remotePath := dst } := by
        unfold retargetHandle
        rw [hpath, hself]
        exact congrArg (fun q => { h with remotePath := q }) (List.append_nil dst)
      refine ⟨_, List.mem_map_of_mem hh, ?_⟩
      rw [hat]
      refine ⟨hcreated, hunlinked, rfl, ?_⟩
      rw [moveGuard, if_pos (huploading ▸ hup)]
      exact Finset.mem_insert_self _ _
  · split
    · refine ⟨⟨hlisted.then_dirCache (moveGuard_dirCache _ _ _), fun hne => ?_, hhandles, hmoved⟩,
        _, rfl⟩
      exact (m.hides_renameListed hne).of_dirCache (moveGuard_dirCache _ _ _)
    · refine ⟨⟨hlisted.then_dirCache rfl, fun hne => (m.hides_renameListed hne).of_dirCache rfl,
        hhandles, fun p hp hne => ?_⟩, _, rfl⟩
      dsimp only
      split
      · exact huploading ▸ hp
      · exact Finset.mem_insert_of_mem (huploading ▸ hp)

/-- The paths of a rename that is allowed and no echo. -/
def renamePaths (m : DirMount) (parent : Nat) (name : String) (newparent : Nat) (newname : String) :
    Option (PathBuf × PathBuf) :=
  match validate newname, m.cache.inodes parent, m.cache.inodes newparent with
  | .ok (), some p, some q =>
    if m.cache.lacks parent (if parent ≠ newparent then 'V' else 'N') || m.ghostPair (p ++ [name])
      (q ++ [newname])
    then none
    else some (p ++ [name], q ++ [newname])
  | _, _, _ => none

/-- A rename that is refused changes nothing; else it is the move of one path to another. -/
theorem rename_cases (m : DirMount) (parent : Nat) (name : String) (newparent : Nat)
    (newname : String)
    (flags : RenameFlags) :
    match m.renamePaths parent name newparent newname with
    | none => Idle m (m.rename parent name newparent newname flags).2
    | some (src, dst) => dst ≠ [] ∧ (m.rename parent name newparent newname flags).2 = m.renameTo src dst := by
  unfold rename renamePaths
  generalize (if parent ≠ newparent then 'V' else 'N') = required
  cases hvalid : validate newname with
  | error e => exact ⟨rfl, rfl, rfl, rfl⟩
  | ok =>
    dsimp only
    cases hlacks : m.cache.lacks parent required with
    | true =>
      cases m.cache.inodes parent <;> cases m.cache.inodes newparent <;> exact ⟨rfl, rfl, rfl, rfl⟩
    | false =>
      cases hp : m.cache.inodes parent with
      | none => exact ⟨rfl, rfl, rfl, rfl⟩
      | some p =>
        cases hq : m.cache.inodes newparent with
        | none => exact ⟨rfl, rfl, rfl, rfl⟩
        | some q =>
          dsimp only
          cases hghost : m.ghostPair (p ++ [name]) (q ++ [newname]) with
          | true => exact ⟨rfl, rfl, rfl, rfl⟩
          | false => exact ⟨List.append_ne_nil_of_right_ne_nil _ (List.cons_ne_nil _ _), rfl⟩

end DirMount

/-- What a worker's answer does to the cache edits no listing: it sets sizes and etags. -/
theorem LiveAnswer.settleCache_edited (a : LiveAnswer) (c : FsCache) (j : MutationJournal)
    (op : MutationOp)
    (dest : PathBuf) (size mtime : Nat) (sourceGone : Bool) {adds removes : List PathBuf} :
    FsCache.Edited c (a.settleCache c j op dest size mtime sourceGone) adds removes := by
  have hnoted : ∀ etag, FsCache.Edited c
      (noteUploaded { c with uploading := c.uploading.erase dest } dest etag size mtime) adds
        removes :=
    fun _ => .trans (.of_dirCache rfl) (FsCache.edited_modifyEntry (fun _ => rfl) fun _ => rfl)
  unfold settleCache
  split
  · exact hnoted _
  · exact hnoted _
  · exact .of_dirCache rfl
  · exact .of_dirCache rfl
  · split
    · exact FsCache.edited_removeDir _
    · exact .refl c
  · exact .refl c
  · exact .refl c
  · exact .refl c
  · exact .of_dirCache rfl
  · exact .of_dirCache rfl
  · rename_i dst _ _ etag
    have htoken : ∀ tag, FsCache.Edited c (c.modifyFiles dst.parent (FsCache.modifyEntry dst fun e =>
        { e with changeToken := some tag })) adds removes :=
      fun _ => FsCache.edited_modifyEntry (fun _ => rfl) fun _ => rfl
    cases etag with
    | none =>
      dsimp only
      split
      · exact .of_dirCache rfl
      · exact .refl c
    | some tag =>
      dsimp only
      split
      · exact (htoken tag).then_dirCache rfl
      · exact htoken tag
  · split
    · exact .of_dirCache rfl
    · exact .refl c
  · exact .of_dirCache rfl

namespace DirMount

theorem dropGuard_dirCache (m : DirMount) (h : DirHandle) :
    (m.dropGuard h).cache.dirCache = m.cache.dirCache := by
  unfold dropGuard
  split <;> rfl

theorem dropGuard_journal (m : DirMount) (h : DirHandle) : (m.dropGuard h).journal = m.journal := by
  unfold dropGuard
  split <;> rfl

/-- A commit sets size and time of the entry it uploads. -/
theorem commit_edited (m : DirMount) (op : MutationOp) (size mtime : Nat)
    {adds removes : List PathBuf} :
    FsCache.Edited m.cache (m.commit op size mtime).cache adds removes := by
  have hnoted : FsCache.Edited m.cache (noteSaved m.cache op.path size mtime) adds removes :=
    FsCache.edited_modifyEntry (fun _ => rfl) fun _ => rfl
  unfold commit
  dsimp only
  split
  · exact hnoted
  · exact hnoted.then_dirCache rfl

theorem commit_grows (m : DirMount) (op : MutationOp) (size mtime : Nat) :
    m.journal.Grows (m.commit op size mtime).journal :=
  (MutationJournal.apply_grows m.journal (.enqueue op)).trans
    (MutationJournal.apply_grows _ (.supersedeUploads op.path _))

/-- What a commit of an upload does to the mount. -/
structure Commits (m m' : DirMount) (path : PathBuf) : Prop extends Edits m m' [] [] where
  entries : ∀ e ∈ m.journal.entries, e ∈ m'.journal.entries ∨ e.op.isUploadOf path = true
  queued : ∃ e ∈ m'.journal.entries, m.journal.nextSeq ≤ e.seq ∧ path ∈ e.op.adds
  openFiles : m'.openFiles = m.openFiles
  uploading : m.cache.uploading ⊆ m'.cache.uploading

/-- A commit queues an upload of its path. -/
theorem commit_commits (m : DirMount) {op : MutationOp} {path : PathBuf}
    (hop : op.isUploadOf path = true)
    (size mtime : Nat) : Commits m (m.commit op size mtime) path := by
  obtain ⟨hadds, -, hpath⟩ := MutationOp.isUploadOf_paths hop
  have hentries : (m.commit op size mtime).journal.entries =
      ((m.journal.enqueue op).2.entries.filter fun e => !MutationJournal.stale op.path
        m.journal.nextSeq e) := by
    unfold commit
    dsimp only
    rw [MutationJournal.supersedeUploads_entries, ← m.journal.coalesceBeforeEnqueue_nextSeq op]
    rfl
  have hqueue : (m.journal.enqueue op).2.entries = m.journal.entries ++
    [{ seq := m.journal.nextSeq, op := op }] := by
    have hnone : (m.journal.coalesceBeforeEnqueue op).entries = m.journal.entries := by
      cases op with
      | put => rfl
      | finishChunked => rfl
      | _ => cases hop
    rw [MutationJournal.enqueue_entries, hnone, MutationJournal.map_followRename]
    rintro src dst s m rfl
    cases hop
  refine ⟨⟨m.commit_edited op size mtime, m.commit_grows op size mtime, fun _ hp => (by cases hp),
    fun _ hp => (by cases hp)⟩, fun e he => ?_,
      ⟨{ seq := m.journal.nextSeq, op := op }, ?_, Nat.le_refl _, ?_⟩,
    rfl, ?_⟩
  · cases hup : e.op.isUploadOf path with
    | true => exact .inr rfl
    | false =>
      refine .inl (hentries ▸ List.mem_filter.mpr ⟨hqueue ▸ List.mem_append_left _ he, ?_⟩)
      rw [MutationJournal.stale, hpath, hup, Bool.and_false]
      rfl
  · -- the new entry is not older than itself
    refine hentries ▸ List.mem_filter.mpr ⟨hqueue ▸ List.mem_append_right _ List.mem_cons_self, ?_⟩
    rw [MutationJournal.stale, decide_eq_false (Nat.lt_irrefl _), Bool.false_and, Bool.false_and]
    rfl
  · rw [hadds]
    exact List.mem_cons_self
  · have hsaved : (noteSaved m.cache op.path size mtime).uploading = m.cache.uploading :=
      modifyDir_uploading _ _ _
    unfold commit
    dsimp only
    split
    · exact hsaved.superset
    · exact hsaved.superset.trans (Finset.subset_insert _ _)

end DirMount

/-- Whether a close of the handle takes its guard away, since no upload will. -/
def DirHandle.dropsGuard (h : DirHandle) : Bool :=
  h.created && (h.uploadFailed || h.unlinked || !h.dirty && h.stagedLen.isSome)

/-- Whether a close of the handle queues an upload. -/
def DirHandle.commits (h : DirHandle) (upload : Option DirMount.Commit) : Bool :=
  !h.uploadFailed && !h.unlinked && h.dirty && upload.any fun u => u.op.isUploadOf h.remotePath

namespace DirMount

/-- The mount with the handle closed. -/
def closed (m : DirMount) (fh : Nat) : DirMount :=
  { m with openFiles := m.openFiles.filter fun h => h.fh ≠ fh }

/-- A close commits the handle's file, or leaves the queue alone and may take a guard away. -/
theorem release_cases (m : DirMount) (fh : Nat) (upload : Option Commit) :
    match m.openFiles.find? fun h => h.fh = fh with
    | none => m.release fh upload = m
    | some h =>
      if h.commits upload then Commits (m.closed fh) (m.release fh upload) h.remotePath
      else (m.release fh upload).journal = m.journal ∧
        (m.release fh upload).cache.dirCache = m.cache.dirCache ∧
        (m.release fh upload).openFiles = (m.closed fh).openFiles ∧
        (m.release fh upload).cache.uploading =
          if h.dropsGuard then m.cache.uploading.erase h.remotePath else m.cache.uploading := by
  have hdrop : ∀ h : DirHandle, ((m.closed fh).dropGuard h).cache.uploading =
      if h.created then m.cache.uploading.erase h.remotePath else m.cache.uploading := by
    intro h
    unfold dropGuard
    split <;> rfl
  have hopen : ∀ h : DirHandle, ((m.closed fh).dropGuard h).openFiles = (m.closed fh).openFiles := by
    intro h
    unfold dropGuard
    split <;> rfl
  have hdropped : ∀ h : DirHandle, h.dropsGuard = h.created →
      ((m.closed fh).dropGuard h).journal = m.journal ∧
        ((m.closed fh).dropGuard h).cache.dirCache = m.cache.dirCache ∧
        ((m.closed fh).dropGuard h).openFiles = (m.closed fh).openFiles ∧
        ((m.closed fh).dropGuard h).cache.uploading =
          if h.dropsGuard then m.cache.uploading.erase h.remotePath else m.cache.uploading :=
    fun h hsame => ⟨dropGuard_journal _ h, dropGuard_dirCache _ h, hopen h, hsame ▸ hdrop h⟩
  unfold release
  cases hfind : m.openFiles.find? fun h => h.fh = fh with
  | none => rfl
  | some h =>
    dsimp only
    cases hover : h.uploadFailed || h.unlinked with
    | true =>
      -- the upload failed, or the file is gone
      have hcommits : h.commits upload = false := by
        rw [DirHandle.commits, ← Bool.not_or, hover, Bool.not_true, Bool.false_and, Bool.false_and]
      rw [hcommits]
      simp only [if_true, Bool.false_eq_true, if_false]
      exact hdropped h (by rw [DirHandle.dropsGuard, hover, Bool.true_or, Bool.and_true])
    | false =>
      have hcommits : h.commits upload =
        (h.dirty && upload.any fun u => u.op.isUploadOf h.remotePath) := by
        rw [DirHandle.commits, ← Bool.not_or, hover, Bool.not_false, Bool.true_and]
      have hguard : h.dropsGuard = (h.created && (!h.dirty && h.stagedLen.isSome)) := by
        rw [DirHandle.dropsGuard, hover, Bool.false_or]
      rw [hcommits]
      cases hdirty : h.dirty with
      | false =>
        -- nothing was written
        simp only [Bool.not_false, Bool.false_and, Bool.false_eq_true, if_true, if_false]
        rw [hdirty, Bool.not_false, Bool.true_and] at hguard
        cases hstaged : h.stagedLen.isSome with
        | true =>
          simp only [if_true]
          exact hdropped h (by rw [hguard, hstaged, Bool.and_true])
        | false =>
          rw [hguard, hstaged, Bool.and_false]
          exact ⟨rfl, rfl, rfl, rfl⟩
      | true =>
        rw [hdirty, Bool.not_true, Bool.false_and, Bool.and_false] at hguard
        rw [hguard]
        cases upload with
        | none => exact ⟨rfl, rfl, rfl, rfl⟩
        | some u =>
          simp only [Bool.not_true, Bool.true_and, Option.any_some, Bool.false_eq_true, if_false]
          cases hop : u.op.isUploadOf h.remotePath with
          | true => exact (m.closed fh).commit_commits hop u.size u.mtime
          | false => exact ⟨rfl, rfl, rfl, rfl⟩

end DirMount

/-- The guard that is over with an operation: an upload's, which was sent to `dest`, or a MOVE's. -/
def MutationOp.guard (op : MutationOp) (dest : PathBuf) : Option PathBuf :=
  match op with
  | put .. | finishChunked .. => some dest
  | rename _ dst _ _ => some dst
  | mkDir _ | unlink _ | rmDir _ => none

/-- A worker's answer lifts the guard of its own target only. -/
theorem LiveAnswer.mem_settleCache (a : LiveAnswer) {c : FsCache} {j : MutationJournal}
    {op : MutationOp}
    {dest p : PathBuf} {size mtime : Nat} {sourceGone : Bool} (hp : p ∈ c.uploading)
    (hguard : op.guard dest ≠ some p) :
    p ∈ (a.settleCache c j op dest size mtime sourceGone).uploading := by
  have herased : ∀ {q : PathBuf}, some q ≠ some p → p ∈ c.uploading.erase q :=
    fun hne => Finset.mem_erase.mpr ⟨fun hpq => hne (congrArg some hpq.symm), hp⟩
  unfold settleCache
  split
  · exact (DirMount.modifyDir_uploading _ _ _).superset (herased hguard)
  · exact (DirMount.modifyDir_uploading _ _ _).superset (herased hguard)
  · exact herased hguard
  · exact herased hguard
  · split
    · exact hp
    · exact hp
  · exact hp
  · exact hp
  · exact hp
  · exact hp
  · exact hp
  · rename_i dst _ _ etag
    -- the listed entry may get a new version
    have htoken : ∀ c' : FsCache, c'.uploading = c.uploading →
        p ∈ (if (j.pendingUpload dst).isNone then { c' with uploading := c'.uploading.erase dst }
          else c').uploading := by
      intro c' hc'
      split
      · exact hc' ▸ herased hguard
      · exact hc' ▸ hp
    cases etag with
    | none => exact htoken c rfl
    | some tag => exact htoken _ (DirMount.modifyDir_uploading _ _ _)
  · split
    · exact herased hguard
    · exact hp
  · exact herased hguard

/-- The replay lifts the guard of what it uploaded only. -/
theorem mem_releaseUploadGuard {j : MutationJournal} {c : FsCache} {op : MutationOp} {p : PathBuf}
    (hp : p ∈ c.uploading) (hguard : op.guard op.path ≠ some p) :
    p ∈ (releaseUploadGuard j c op).uploading := by
  have herased : ∀ {q : PathBuf}, some q ≠ some p →
      p ∈ (if (j.pendingUpload q).isNone then { c with uploading := c.uploading.erase q }
        else c).uploading := by
    intro q hne
    split
    · exact Finset.mem_erase.mpr ⟨fun hpq => hne (congrArg some hpq.symm), hp⟩
    · exact hp
  cases op with
  | put => exact herased hguard
  | finishChunked => exact herased hguard
  | rename => exact herased hguard
  | _ => exact hp

theorem clearDeleting_uploading (op : MutationOp) (c : FsCache) :
    (clearDeleting c op).uploading = c.uploading := by
  unfold clearDeleting
  split <;> rfl

theorem releaseUploadGuard_dirCache (j : MutationJournal) (c : FsCache) (op : MutationOp) :
    (releaseUploadGuard j c op).dirCache = c.dirCache := by
  unfold releaseUploadGuard
  repeat' split
  all_goals rfl

theorem clearDeleting_dirCache (c : FsCache) (op : MutationOp) :
    (clearDeleting c op).dirCache = c.dirCache := by
  unfold clearDeleting
  split <;> rfl

end Ncrs
