import Ncrs.Spec.ReplayCorrect

/-!
# Offline edits reach the server as the user made them

The journal is not the user's history: uploads are superseded and re-pointed, entries are
dropped before a delete. The invariant `Recorded` says that the queue still stands for the
tree the user sees: its changes, run on the server's tree, give that tree. It is kept by every
operation that meets `UserOp.Clear`, the conditions under which dropping, re-pointing or
rewriting a queued entry loses nothing.

## Key results

- `Recorded.step`: each user operation keeps the invariant
- `offline_replay_preserves_tree`: replaying the queue gives the server the user's tree
- `offline_replay_loses_edit`: without the conditions an edit is lost
-/

namespace Ncrs

open FileTree

namespace MutationOp

/-- A MOVE that takes `path` along. -/
def takes (op : MutationOp) (path : PathBuf) : Bool :=
  match op with
  | rename src _ _ _ => path.startsWith src
  | _ => false

/-- A MOVE from or to somewhere below `path`, or of `path` or a folder above it. -/
def crosses (op : MutationOp) (path : PathBuf) : Bool :=
  match op with
  | rename src dst _ _ =>
    path.startsWith src || src.startsWith path || (dst.startsWith path && path ≠ dst)
  | _ => false

end MutationOp

/-- No MOVE queued after an upload of `path` takes the uploaded file along. -/
def OfflineMount.UploadsStay (m : OfflineMount) (path : PathBuf) : Prop :=
  m.journal.entries.Pairwise fun a b => a.op.isUploadOf path = true → b.op.takes path = false

/-- No MOVE queued after the creation of folder `path` goes through it. -/
def OfflineMount.FolderUncrossed (m : OfflineMount) (path : PathBuf) : Prop :=
  m.journal.entries.Pairwise fun a b => a.op.isMkDirOf path = true → b.op.crosses path = false

/-- When recording an operation on the mount `m` over the server tree `t` loses nothing:
    an upload (or a folder) is dropped only if no queued MOVE needs it, an upload is
    re-pointed only if the server has nothing under the old name, and queueing a MOVE
    rewrites no queued entry. -/
def UserOp.Clear (t : Tree String Bytes) (m : OfflineMount) : UserOp → Prop
  | .write path _ => m.UploadsStay path
  | .mkdir _ => True
  | .unlink path =>
    (m.journal.entries.any fun e => e.op.hasPriorEtag path) = true ∨ m.UploadsStay path
  | .rmdir path => m.FolderUncrossed path
  | .rename src dst =>
    if m.retargets src dst then t src = none
    else ∀ e ∈ m.journal.entries, e.retargeted = false → ∀ p ∈ e.op.names, ¬ src <+: p

/-! ## The tree the user sees -/

namespace OfflineMount

/-- The content a listing node shows. -/
def node : Node Seen → Node Bytes
  | .dir => .dir
  | .file f => .file f.1

/-- The content of the user's tree is what is seen there. -/
theorem tree_eq (m : OfflineMount) (p : PathBuf) : m.tree p = (m.seen p).map node := by
  unfold tree
  cases h : m.seen p with
  | none => rfl
  | some n => cases n <;> rfl

/-- A write or a new folder sets its own place in the tree. -/
theorem tree_set {m m' : OfflineMount} {p : PathBuf} {n : Node Seen}
    (h : m'.seen = set m.seen p n) : m'.tree = set m.tree p (node n) := by
  funext q
  rw [tree_eq, h]
  simp only [FileTree.set, tree_eq]
  split <;> rfl

/-- A deletion removes the place and what is below. -/
theorem tree_delete {m m' : OfflineMount} {p : PathBuf}
    (h : m'.seen = delete m.seen p) : m'.tree = delete m.tree p := by
  funext q
  rw [tree_eq, h]
  simp only [FileTree.delete, tree_eq]
  split <;> rfl

/-- A rename moves the place and what is below. -/
theorem tree_move {m m' : OfflineMount} {src dst : PathBuf}
    (h : m'.seen = move m.seen src dst) : m'.tree = move m.tree src dst := by
  funext q
  rw [tree_eq, h]
  simp only [FileTree.move, tree_eq]
  split
  · rfl
  · split <;> rfl

end OfflineMount

/-! ## What the queue stands for -/

/-- A queued upload is a PUT of its path. -/
theorem isPut_change (files : PathBuf → Option LocalFile) (op : MutationOp) (p : PathBuf) :
    (op.change files).isPut p = op.isUploadOf p := by
  cases op <;> rfl

/-- A queued folder creation is an MKCOL of its path. -/
theorem isMkcol_change (files : PathBuf → Option LocalFile) (op : MutationOp) (p : PathBuf) :
    (op.change files).isMkcol p = op.isMkDirOf p := by
  cases op <;> rfl

/-- A queued operation takes a path away as its change does. -/
theorem takes_change (files : PathBuf → Option LocalFile) (op : MutationOp) (p : PathBuf) :
    (op.change files).Takes p ↔ op.takes p = true := by
  cases op <;> simp [MutationOp.change, Op.Takes, MutationOp.takes]

/-- A queued operation crosses a path as its change does. -/
theorem crosses_change (files : PathBuf → Option LocalFile) (op : MutationOp) (p : PathBuf) :
    (op.change files).Crosses p ↔ op.crosses p = true := by
  cases op <;> simp [MutationOp.change, Op.Crosses, MutationOp.crosses, or_assoc]

/-- The changes of two queues, one behind the other. -/
theorem changes_append (files : PathBuf → Option LocalFile) (l l' : List JournalEntry) :
    changes files (l ++ l') = changes files l ++ changes files l' := List.map_append

/-- Dropping the uploads of a path drops their changes. -/
theorem changes_filter_upload (files : PathBuf → Option LocalFile) (l : List JournalEntry)
    (p : PathBuf) :
    changes files (l.filter fun e => !e.op.isUploadOf p) =
      (changes files l).filter fun o => !o.isPut p := by
  unfold changes
  rw [List.filter_map]
  congr 1
  refine List.filter_congr fun e _ => ?_
  rw [Function.comp_apply, isPut_change]

/-- Dropping the creations of a folder drops their changes. -/
theorem changes_filter_mkDir (files : PathBuf → Option LocalFile) (l : List JournalEntry)
    (p : PathBuf) :
    changes files (l.filter fun e => !e.op.isMkDirOf p) =
      (changes files l).filter fun o => !o.isMkcol p := by
  unfold changes
  rw [List.filter_map]
  congr 1
  refine List.filter_congr fun e _ => ?_
  rw [Function.comp_apply, isMkcol_change]

/-- With no operation after the uploads of `p` that takes it away, none of the changes does. -/
theorem OfflineMount.UploadsStay.changes {m : OfflineMount} {p : PathBuf} (h : m.UploadsStay p)
    (files : PathBuf → Option LocalFile) :
    (changes files m.journal.entries).Pairwise fun a b => a.isPut p = true → ¬ b.Takes p := by
  refine List.pairwise_map.mpr (List.Pairwise.imp ?_ h)
  intro a b hab ha
  rw [isPut_change] at ha
  rw [takes_change, hab ha]
  simp

/-- With no operation that crosses the queued creation of `p`, none of the changes does. -/
theorem OfflineMount.FolderUncrossed.changes {m : OfflineMount} {p : PathBuf}
    (h : m.FolderUncrossed p) (files : PathBuf → Option LocalFile) :
    (changes files m.journal.entries).Pairwise fun a b => a.isMkcol p = true → ¬ b.Crosses p := by
  refine List.pairwise_map.mpr (List.Pairwise.imp ?_ h)
  intro a b hab ha
  rw [isMkcol_change] at ha
  rw [crosses_change, hab ha]
  simp

/-! ## The invariant -/

/-- The state of the queue and of the staging files. -/
structure QueueOk (m : OfflineMount) : Prop where
  ready : Ready m.cacheDir m.journal.disk.files m.journal.entries
  untried : ∀ e ∈ m.journal.entries, e.attempts = 0
  older : ∀ e ∈ m.journal.entries, e.seq < m.journal.nextSeq
  used : ∀ s ∈ stagings m.journal.entries, ∃ fh < m.nextFh, s = PathBuf.writePath m.cacheDir fh

/-- The queue stands for the tree the user sees: its changes, run on the server's tree `t`,
    give that tree. -/
structure Recorded (t : Tree String Bytes) (m : OfflineMount) : Prop where
  closed : Closed t
  queue : QueueOk m
  runs : run t (changes m.journal.disk.files m.journal.entries) = m.tree
  fits : Fitting t (changes m.journal.disk.files m.journal.entries)
  /-- A folder whose creation is queued is still there: a rename or a removal of it would
      have been caught by `UserOp.Clear` or taken the entry out. -/
  folders : ∀ e ∈ m.journal.entries, ∀ p, e.op = .mkDir p → m.tree p = some .dir
  retargetedPut : ∀ e ∈ m.journal.entries, e.retargeted = true → ∃ p s c, e.op = .put p s c

/-! ## The queue -/

/-- The staging files of two queues, one behind the other. -/
theorem stagings_append (l l' : List JournalEntry) :
    stagings (l ++ l') = stagings l ++ stagings l' := List.filterMap_append

/-- A staging file is an entry's. -/
theorem mem_stagings {l : List JournalEntry} {s : PathBuf} :
    s ∈ stagings l ↔ ∃ e ∈ l, e.op.stagingPath = some s := List.mem_filterMap

/-- A staging file belongs to one entry. -/
theorem eq_of_stagingPath {l : List JournalEntry} (hnd : (stagings l).Nodup) {a b : JournalEntry}
    {s : PathBuf} (ha : a ∈ l) (hb : b ∈ l) (has : a.op.stagingPath = some s)
    (hbs : b.op.stagingPath = some s) : a = b := by
  induction l with
  | nil => cases ha
  | cons e l ih =>
    have hhead : ∀ x ∈ l, x.op.stagingPath = some s → e.op.stagingPath ≠ some s := by
      intro x hx hxs hes
      simp only [stagings, List.filterMap_cons, hes, List.nodup_cons] at hnd
      exact hnd.1 (mem_stagings.mpr ⟨x, hx, hxs⟩)
    have htail : (stagings l).Nodup := hnd.sublist ((List.sublist_cons_self e l).filterMap _)
    rcases List.mem_cons.mp ha with rfl | ha' <;> rcases List.mem_cons.mp hb with rfl | hb'
    · rfl
    · exact absurd has (hhead b hb' hbs)
    · exact absurd hbs (hhead a ha' has)
    · exact ih htail ha' hb'

/-- What is dropped from a queue does not take a kept entry's file along. -/
theorem notMem_stagings_of_filter {l : List JournalEntry} (hnd : (stagings l).Nodup)
    {f : JournalEntry → Bool} {s : PathBuf} (hs : s ∈ stagings (l.filter fun e => !f e)) :
    s ∉ stagings (l.filter f) := by
  intro hs'
  obtain ⟨a, ha, has⟩ := mem_stagings.mp hs
  obtain ⟨b, hb, hbs⟩ := mem_stagings.mp hs'
  rw [List.mem_filter] at ha hb
  have hab := eq_of_stagingPath hnd ha.1 hb.1 has hbs
  rw [hab, hb.2] at ha
  simp at ha

/-- Entries kept (up to their condition) from a queue in good order, with one more behind
    them, are in good order. -/
theorem QueueOk.extend {m m' : OfflineMount} (h : QueueOk m) {l kept : List JournalEntry}
    {new : JournalEntry} (hsub : l.Sublist m.journal.entries)
    (hkept : kept.map JournalEntry.uncond = l.map JournalEntry.uncond)
    (hentries : m'.journal.entries = kept ++ [new]) (hdir : m'.cacheDir = m.cacheDir)
    (hfh : m.nextFh ≤ m'.nextFh) (hseq : m.journal.nextSeq ≤ m'.journal.nextSeq)
    (hfiles : ∀ s ∈ stagings l, m'.journal.disk.files s = m.journal.disk.files s)
    (hplain : new.op.Plain) (hidle : new.inFlight = false) (htried : new.attempts = 0)
    (hnew : new.seq < m'.journal.nextSeq)
    (hstaging : ∀ s, new.op.stagingPath = some s → s ∉ stagings l ∧
      (m'.journal.disk.files s).isSome ∧ ∃ fh < m'.nextFh, s = PathBuf.writePath m.cacheDir fh) :
    QueueOk m' := by
  have hst : stagings kept = stagings l := by
    rw [← stagings_map_uncond, hkept, stagings_map_uncond]
  have hstsub : (stagings l).Sublist (stagings m.journal.entries) := hsub.filterMap _
  -- Every kept entry is one of the old ones up to its condition.
  have hold : ∀ e ∈ kept, ∃ x ∈ m.journal.entries, x.uncond = e.uncond := by
    intro e he
    have hmem : e.uncond ∈ l.map JournalEntry.uncond := hkept ▸ List.mem_map_of_mem he
    obtain ⟨x, hx, hxe⟩ := List.mem_map.mp hmem
    exact ⟨x, hsub.subset hx, hxe⟩
  -- a staging file is a kept entry's or the new one's
  have hmem : ∀ s ∈ stagings m'.journal.entries,
      s ∈ stagings l ∨ new.op.stagingPath = some s := by
    intro s hs
    rw [hentries, stagings_append, List.mem_append, hst] at hs
    rcases hs with hs | hs
    · exact Or.inl hs
    · obtain ⟨e, he, hes⟩ := mem_stagings.mp hs
      rw [List.mem_singleton.mp he] at hes
      exact Or.inr hes
  -- and was given out by the handles so far
  have hused : ∀ s ∈ stagings m'.journal.entries,
      ∃ fh < m'.nextFh, s = PathBuf.writePath m'.cacheDir fh := by
    intro s hs
    rw [hdir]
    rcases hmem s hs with hs | hs
    · obtain ⟨fh, hlt, heq⟩ := h.used s (hstsub.subset hs)
      exact ⟨fh, by omega, heq⟩
    · exact (hstaging s hs).2.2
  refine ⟨⟨?_, ?_, ?_, ?_, ?_⟩, ?_, ?_, hused⟩
  · -- the entries stay plain, idle and with staging files of their own: the old ones as before
    intro e he
    rw [hentries, List.mem_append, List.mem_singleton] at he
    rcases he with he | rfl
    · obtain ⟨x, hx, hxe⟩ := hold e he
      rw [← MutationOp.plain_uncond, ← JournalEntry.uncond_op, ← hxe, JournalEntry.uncond_op,
        MutationOp.plain_uncond]
      exact h.ready.plain x hx
    · exact hplain
  · intro e he
    rw [hentries, List.mem_append, List.mem_singleton] at he
    rcases he with he | rfl
    · obtain ⟨x, hx, hxe⟩ := hold e he
      rw [← JournalEntry.uncond_inFlight, ← hxe, JournalEntry.uncond_inFlight]
      exact h.ready.idle x hx
    · exact hidle
  · intro s hs
    obtain ⟨fh, -, heq⟩ := hused s hs
    exact ⟨fh, heq⟩
  · intro s hs
    rcases hmem s hs with hs | hs
    · rw [hfiles s hs]
      exact h.ready.present s (hstsub.subset hs)
    · exact (hstaging s hs).2.1
  · -- the new file is none of the old ones
    rw [hentries, stagings_append, hst]
    refine List.Nodup.append (h.ready.nodup.sublist hstsub) ?_ ?_
    · cases hs : new.op.stagingPath <;> simp [stagings, hs]
    · intro s hs hs'
      obtain ⟨e, he, hes⟩ := mem_stagings.mp hs'
      rw [List.mem_singleton.mp he] at hes
      exact (hstaging s hes).1 hs
  · -- nothing was tried yet
    intro e he
    rw [hentries, List.mem_append, List.mem_singleton] at he
    rcases he with he | rfl
    · obtain ⟨x, hx, hxe⟩ := hold e he
      rw [← JournalEntry.uncond_attempts, ← hxe, JournalEntry.uncond_attempts]
      exact h.untried x hx
    · exact htried
  · -- the new entry's number is the newest
    intro e he
    rw [hentries, List.mem_append, List.mem_singleton] at he
    rcases he with he | rfl
    · obtain ⟨x, hx, hxe⟩ := hold e he
      rw [← JournalEntry.uncond_seq, ← hxe, JournalEntry.uncond_seq]
      exact Nat.lt_of_lt_of_le (h.older x hx) hseq
    · exact hnew

/-! ## What each operation does to the queue -/

/-- Writing a file replaces its queued uploads by one behind everything else. -/
theorem OfflineMount.write_entries {m : OfflineMount} (h : QueueOk m) (p : PathBuf)
    (data : Bytes) :
    (m.write p data).journal.entries =
      (m.journal.entries.filter fun e => !e.op.isUploadOf p) ++
        [{ seq := m.journal.nextSeq
           op := .put p (.writePath m.cacheDir m.nextFh) ((m.listedToken p).getD none) }] := by
  -- Every queued upload of `p` is older than the new one and idle; the new one is not older.
  have hstale : ∀ e ∈ m.journal.entries,
      MutationJournal.stale p m.journal.nextSeq e = e.op.isUploadOf p := by
    intro e he
    simp [MutationJournal.stale, h.older e he, h.ready.idle e he]
  simp only [write, MutationJournal.supersedeUploads_entries, MutationJournal.enqueue_entries,
    MutationJournal.enqueue_seq, MutationJournal.coalesceBeforeEnqueue]
  rw [MutationJournal.map_followRename (by simp), List.filter_append,
    List.filter_congr fun e he => by rw [hstale e he]]
  simp [MutationJournal.stale]

/-- Writing a file leaves the staging files of the kept entries alone and fills its own. -/
theorem OfflineMount.write_files {m : OfflineMount} (h : QueueOk m) (p : PathBuf)
    (data : Bytes) :
    (∀ s ∈ stagings (m.journal.entries.filter fun e => !e.op.isUploadOf p),
      (m.write p data).journal.disk.files s = m.journal.disk.files s) ∧
    (m.write p data).journal.disk.files (.writePath m.cacheDir m.nextFh) =
      some { data := data } ∧
    PathBuf.writePath m.cacheDir m.nextFh ∉ stagings m.journal.entries := by
  -- the handle's number was not given out, so neither was the name of its staging file
  have hunused : PathBuf.writePath m.cacheDir m.nextFh ∉ stagings m.journal.entries := by
    intro hs
    obtain ⟨fh, hlt, heq⟩ := h.used _ hs
    rw [PathBuf.writePath_inj] at heq
    omega
  have hsub : ∀ f s, s ∈ stagings (m.journal.entries.filter f) → s ∈ stagings m.journal.entries :=
    fun f s hs => (List.filter_sublist.filterMap _).subset hs
  -- The superseded entries are the queued uploads of `p`.
  have hfiles : ∀ x, x ∉ stagings (m.journal.entries.filter fun e => e.op.isUploadOf p) →
      (m.write p data).journal.disk.files x =
        (m.journal.disk.writeFile (.writePath m.cacheDir m.nextFh) { data := data }).files x := by
    intro x hx
    refine MutationJournal.supersedeUploads_files fun hmem => hx ?_
    obtain ⟨e, he, hes⟩ := List.mem_filterMap.mp hmem
    rw [List.mem_filter, MutationJournal.enqueue_entries, MutationJournal.enqueue_seq,
      MutationJournal.map_followRename (by simp), List.mem_append, List.mem_singleton] at he
    rcases he.1 with hold | rfl
    · refine mem_stagings.mpr ⟨e, List.mem_filter.mpr ⟨hold, ?_⟩, hes⟩
      have := he.2
      simp only [MutationJournal.stale, Bool.and_eq_true] at this
      exact this.2
    · simp [MutationJournal.stale] at he
  refine ⟨?_, ?_, hunused⟩
  · -- the other uploads keep their files
    intro s hs
    have hne : s ≠ PathBuf.writePath m.cacheDir m.nextFh := fun hss => hunused (hss ▸ hsub _ s hs)
    rw [hfiles s (notMem_stagings_of_filter h.ready.nodup hs)]
    simp only [CacheDir.writeFile, if_neg hne]
  · -- the new file is the one written
    rw [hfiles _ fun hs => hunused (hsub _ _ hs)]
    simp [CacheDir.writeFile]

/-! ## Each operation keeps the invariant -/

namespace Recorded

variable {t : Tree String Bytes} {m m' : OfflineMount}

/-- What the user sees is a tree without a file above another entry. -/
theorem closedTree (h : Recorded t m) : Closed m.tree := by
  rw [← h.runs]
  exact h.closed.run h.fits.named

/-- The shape of every step: some entries are kept, up to their condition, one is queued
    behind them, and its change takes what the kept ones stand for to the tree seen now. -/
theorem snoc (h : Recorded t m) {l kept : List JournalEntry} {new : JournalEntry}
    (hsub : l.Sublist m.journal.entries)
    (hkept : kept.map JournalEntry.uncond = l.map JournalEntry.uncond)
    (hentries : m'.journal.entries = kept ++ [new]) (hqueue : QueueOk m')
    (hfiles : ∀ s ∈ stagings l, m'.journal.disk.files s = m.journal.disk.files s)
    (hfit : Fitting t (changes m.journal.disk.files l))
    (hfits : (new.op.change m'.journal.disk.files).Fits (run t (changes m.journal.disk.files l)))
    (happly : FileTree.apply (run t (changes m.journal.disk.files l))
      (new.op.change m'.journal.disk.files) = m'.tree)
    (hfolders : ∀ e ∈ l, ∀ q, e.op = .mkDir q → m'.tree q = some .dir)
    (hnewdir : ∀ q, new.op = .mkDir q → m'.tree q = some .dir)
    (hnewput : new.retargeted = true → ∃ p s c, new.op = .put p s c) : Recorded t m' := by
  have hchanges : changes m'.journal.disk.files m'.journal.entries =
      changes m.journal.disk.files l ++ [new.op.change m'.journal.disk.files] := by
    rw [hentries, changes_append, ← changes_map_uncond _ kept, hkept, changes_map_uncond,
      changes_congr hfiles]
    rfl
  -- each kept entry is an old one up to its condition
  have hold : ∀ e ∈ kept, ∃ x ∈ l, x.uncond = e.uncond := by
    intro e he
    have hmem : e.uncond ∈ l.map JournalEntry.uncond := hkept ▸ List.mem_map_of_mem he
    obtain ⟨x, hx, hxe⟩ := List.mem_map.mp hmem
    exact ⟨x, hx, hxe⟩
  refine ⟨h.closed, hqueue, ?_, ?_, ?_, ?_⟩
  · -- the queue is replayed to what the user sees
    rw [hchanges, run_append]
    exact happly
  · -- each change still fits where it is made
    rw [hchanges, fitting_append]
    exact ⟨hfit, hfits, trivial⟩
  · -- a folder whose creation is queued is one the user sees
    intro e he q hq
    rw [hentries, List.mem_append, List.mem_singleton] at he
    rcases he with he | rfl
    · obtain ⟨x, hx, hxe⟩ := hold e he
      refine hfolders x hx q ?_
      have hops := congrArg JournalEntry.op hxe
      rw [JournalEntry.uncond_op, JournalEntry.uncond_op, hq] at hops
      cases hxop : x.op <;> rw [hxop] at hops <;> simp_all [MutationOp.uncond]
    · exact hnewdir q hq
  · -- a re-pointed entry is an upload
    intro e he hret
    rw [hentries, List.mem_append, List.mem_singleton] at he
    rcases he with he | rfl
    · obtain ⟨x, hx, hxe⟩ := hold e he
      have hret' := congrArg JournalEntry.retargeted hxe
      rw [JournalEntry.uncond_retargeted, JournalEntry.uncond_retargeted, hret] at hret'
      obtain ⟨p, s, c, hput⟩ := h.retargetedPut x (hsub.subset hx) hret'
      have hops := congrArg JournalEntry.op hxe
      rw [JournalEntry.uncond_op, JournalEntry.uncond_op, hput] at hops
      cases heop : e.op <;> rw [heop] at hops <;> simp_all [MutationOp.uncond]
    · exact hnewput hret

/-- Without the uploads of `p`, which no later MOVE takes along, the queue gives the user's
    tree everywhere but at `p`. -/
theorem drop_uploads (h : Recorded t m) {p : PathBuf} (hstay : m.UploadsStay p)
    (hp : m.tree p ≠ some .dir) :
    let l := m.journal.entries.filter fun e => !e.op.isUploadOf p
    Fitting t (changes m.journal.disk.files l) ∧
    (∀ q, q ≠ p → run t (changes m.journal.disk.files l) q = m.tree q) ∧
    run t (changes m.journal.disk.files l) p ≠ some .dir := by
  intro l
  obtain ⟨hfit, hrun⟩ := run_filter_put (Or.inl rfl) h.fits (hstay.changes _)
  rw [h.runs, ← changes_filter_upload] at hrun
  rw [← changes_filter_upload] at hfit
  refine ⟨hfit, ?_, ?_⟩
  · intro q hq
    rcases hrun with hrun | hrun
    · rw [hrun]
    · exact (hrun.off q hq).symm
  · rcases hrun with hrun | hrun
    · rw [← hrun]
      exact hp
    · exact hrun.notDir

/-- Without the creation of folder `p`, which no later MOVE crosses, the queue gives the
    user's tree everywhere outside `p`. -/
theorem drop_mkDir (h : Recorded t m) {p : PathBuf} (hfree : m.FolderUncrossed p) :
    let l := m.journal.entries.filter fun e => !e.op.isMkDirOf p
    Fitting t (changes m.journal.disk.files l) ∧
    ∀ q, ¬ p <+: q → run t (changes m.journal.disk.files l) q = m.tree q := by
  intro l
  obtain ⟨hfit, hrun⟩ := run_filter_mkcol (Or.inl rfl) h.closed h.fits (hfree.changes _)
  rw [h.runs, ← changes_filter_mkDir] at hrun
  rw [← changes_filter_mkDir] at hfit
  refine ⟨hfit, ?_⟩
  intro q hq
  rcases hrun with hrun | hrun
  · rw [hrun]
  · exact (hrun.off q hq).symm

/-- Below an empty folder there is nothing. -/
theorem none_below_empty (h : Recorded t m) {p q : PathBuf}
    (hempty : ∀ name, m.tree (p ++ [name]) = none) (hpq : p <+: q) (hne : p ≠ q) :
    m.tree q = none := by
  obtain ⟨s, rfl⟩ := hpq
  cases s with
  | nil => simp at hne
  | cons name s =>
    by_cases hs : s = []
    · rw [hs]
      exact hempty name
    · rw [show p ++ name :: s = (p ++ [name]) ++ s by simp]
      refine h.closedTree.none_below (List.prefix_append _ _) (by simpa using hs) ?_
      rw [hempty name]
      simp

/-- A file is written: its earlier uploads go, and the new one ends the queue. -/
theorem write (h : Recorded t m) {p : PathBuf} {data : Bytes}
    (hv : (UserOp.write p data).Valid m.tree) (hclear : (UserOp.write p data).Clear t m) :
    Recorded t (m.write p data) := by
  obtain ⟨hne, hpar, hdir⟩ := hv
  obtain ⟨hfiles, hnew, hunused⟩ := m.write_files h.queue p data
  obtain ⟨hfit, hoff, hnotdir⟩ := h.drop_uploads hclear hdir
  have hentries := m.write_entries h.queue p data
  have htree : (m.write p data).tree = FileTree.set m.tree p (.file data) :=
    OfflineMount.tree_set (n := .file (data, (m.listedToken p).getD none)) rfl
  have hsub := List.filter_sublist (p := fun e => !e.op.isUploadOf p) (l := m.journal.entries)
  have hqueue : QueueOk (m.write p data) := by
    refine h.queue.extend hsub rfl hentries rfl (Nat.le_succ _) (by simp [OfflineMount.write])
      hfiles trivial rfl rfl (by simp [OfflineMount.write]) ?_
    intro s hs
    obtain rfl : PathBuf.writePath m.cacheDir m.nextFh = s := by
      simpa [MutationOp.stagingPath] using hs
    exact ⟨fun hmem => hunused ((hsub.filterMap _).subset hmem), by rw [hnew]; rfl, m.nextFh,
      Nat.lt_succ_self _, rfl⟩
  have hchange : MutationOp.change (m.write p data).journal.disk.files
      (.put p (.writePath m.cacheDir m.nextFh) ((m.listedToken p).getD none)) = .put p data := by
    simp [MutationOp.change, stagedContent, hnew]
  refine h.snoc hsub rfl hentries hqueue hfiles hfit ?_ ?_ ?_ (by simp) (by simp)
  · -- where the upload is made there is no folder
    rw [hchange]
    exact ⟨hne, hnotdir⟩
  · -- without the earlier uploads the file is the only place that differs
    rw [hchange, htree]
    simp only [FileTree.apply]
    rw [if_pos ⟨hne, by rw [hoff _ (dropLast_ne_self hne)]; exact hpar, hnotdir⟩]
    funext q
    simp only [FileTree.set]
    split
    · rfl
    · rename_i hq
      exact hoff q hq
  · -- the file is none of the queued folders
    intro e he q hq
    have hqdir := h.folders e (hsub.subset he) q hq
    have hqp : q ≠ p := fun hqp => hdir (hqp ▸ hqdir)
    rw [htree]
    simp only [FileTree.set, if_neg hqp]
    exact hqdir

/-- A folder is made: its creation ends the queue. -/
theorem mkdir (h : Recorded t m) {p : PathBuf} (hv : (UserOp.mkdir p).Valid m.tree) :
    Recorded t (m.mkdir p) := by
  obtain ⟨hne, hpar, hnone⟩ := hv
  have htree : (m.mkdir p).tree = FileTree.set m.tree p .dir :=
    OfflineMount.tree_set (n := .dir) rfl
  have hentries : (m.mkdir p).journal.entries =
      m.journal.entries ++ [{ seq := m.journal.nextSeq, op := .mkDir p }] := by
    simp only [OfflineMount.mkdir, MutationJournal.enqueue_entries,
      MutationJournal.coalesceBeforeEnqueue]
    rw [MutationJournal.map_followRename (by simp)]
  have hqueue : QueueOk (m.mkdir p) :=
    h.queue.extend (List.Sublist.refl _) rfl hentries rfl (Nat.le_refl _)
      (by simp [OfflineMount.mkdir]) (fun _ _ => rfl) trivial rfl rfl
      (by simp [OfflineMount.mkdir]) (by simp [MutationOp.stagingPath])
  have hruns : run t (changes m.journal.disk.files m.journal.entries) = m.tree := h.runs
  refine h.snoc (List.Sublist.refl _) rfl hentries hqueue (fun _ _ => rfl) h.fits ?_ ?_ ?_ ?_
    (by simp)
  · -- the place is free, and the parent a folder, on the server as here
    rw [hruns]
    exact ⟨hne, hnone⟩
  · rw [hruns, htree]
    exact if_pos ⟨hne, hpar, hnone⟩
  · -- the queued folders are seen, the new one too
    intro e he q hq
    rw [htree]
    simp only [FileTree.set]
    split
    · rfl
    · exact h.folders e he q hq
  · intro q hq
    obtain rfl : p = q := by simpa using hq
    rw [htree]
    simp [FileTree.set]

/-- A file is deleted: uploads that replace nothing are dropped, and the deletion ends the queue. -/
theorem unlink (h : Recorded t m) {p : PathBuf} (hv : (UserOp.unlink p).Valid m.tree)
    (hclear : (UserOp.unlink p).Clear t m) : Recorded t (m.unlink p) := by
  obtain ⟨hne, c, hfile⟩ := hv
  have hdir : m.tree p ≠ some .dir := by rw [hfile]; simp
  have htree : (m.unlink p).tree = FileTree.delete m.tree p := OfflineMount.tree_delete rfl
  -- a queued folder is not below the file, so it stays
  have hfolder : ∀ e ∈ m.journal.entries, ∀ q, e.op = .mkDir q → (m.unlink p).tree q = some .dir := by
    intro e he q hq
    have hqdir := h.folders e he q hq
    have hpq : ¬ p <+: q := by
      intro hpq
      by_cases heq : p = q
      · exact hdir (heq ▸ hqdir)
      · rw [h.closedTree.none_below hpq heq hdir] at hqdir
        cases hqdir
    rw [htree]
    simp only [FileTree.delete, if_neg hpq]
    exact hqdir
  -- No folder creation of `p` is queued: `p` is a file.
  have hnomk : ∀ e ∈ m.journal.entries, e.op.isMkDirOf p = false := by
    intro e he
    cases hop : e.op <;> simp only [MutationOp.isMkDirOf]
    rename_i q
    simp only [decide_eq_false_iff_not]
    intro hqp
    exact hdir (hqp ▸ h.folders e he q hop)
  by_cases hprior : (m.journal.entries.any fun e => e.op.hasPriorEtag p) = true
  · -- A queued upload replaces a server version: nothing is dropped.
    have hentries : (m.unlink p).journal.entries =
        m.journal.entries ++ [{ seq := m.journal.nextSeq, op := .unlink p }] := by
      simp only [OfflineMount.unlink, MutationJournal.enqueue_entries,
        MutationJournal.coalesce_unlink_entries, if_pos hprior]
      rw [MutationJournal.map_followRename (by simp)]
    have hfiles : ∀ s ∈ stagings m.journal.entries,
        (m.unlink p).journal.disk.files s = m.journal.disk.files s := fun s _ =>
      MutationJournal.coalesce_unlink_files (by simp [hprior])
    have hqueue : QueueOk (m.unlink p) :=
      h.queue.extend (List.Sublist.refl _) rfl hentries rfl (Nat.le_refl _)
        (by simp [OfflineMount.unlink]) hfiles trivial rfl rfl
        (by simp [OfflineMount.unlink]) (by simp [MutationOp.stagingPath])
    refine h.snoc (List.Sublist.refl _) rfl hentries hqueue hfiles h.fits hne ?_ hfolder
      (by simp) (by simp)
    rw [h.runs, htree]
    rfl
  · -- The uploads of `p` go, with their files.
    have hstay : m.UploadsStay p := hclear.resolve_left hprior
    obtain ⟨hfit, hoff, -⟩ := h.drop_uploads hstay hdir
    have hsub := List.filter_sublist (p := fun e => !e.op.isUploadOf p) (l := m.journal.entries)
    have hentries : (m.unlink p).journal.entries =
        (m.journal.entries.filter fun e => !e.op.isUploadOf p) ++
          [{ seq := m.journal.nextSeq, op := .unlink p }] := by
      simp only [OfflineMount.unlink, MutationJournal.enqueue_entries,
        MutationJournal.coalesce_unlink_entries, if_neg hprior]
      rw [MutationJournal.map_followRename (by simp),
        List.filter_congr fun e he => by rw [hnomk e he, Bool.not_false, Bool.and_true]]
    have hfiles : ∀ s ∈ stagings (m.journal.entries.filter fun e => !e.op.isUploadOf p),
        (m.unlink p).journal.disk.files s = m.journal.disk.files s := fun s hs =>
      MutationJournal.coalesce_unlink_files fun _ =>
        notMem_stagings_of_filter h.queue.ready.nodup hs
    have hqueue : QueueOk (m.unlink p) :=
      h.queue.extend hsub rfl hentries rfl (Nat.le_refl _)
        (by simp [OfflineMount.unlink]) hfiles trivial rfl rfl
        (by simp [OfflineMount.unlink]) (by simp [MutationOp.stagingPath])
    refine h.snoc hsub rfl hentries hqueue hfiles hfit hne ?_
      (fun e he => hfolder e (hsub.subset he)) (by simp) (by simp)
    -- the two trees differ at the path at most, and it goes
    rw [htree]
    show FileTree.delete _ p = FileTree.delete _ p
    funext q
    simp only [FileTree.delete]
    split
    · rfl
    · rename_i hpq
      exact hoff q fun hq => hpq (hq ▸ List.prefix_rfl)

/-- A folder is deleted: its queued creation is dropped, and the deletion ends the queue. -/
theorem rmdir (h : Recorded t m) {p : PathBuf} (hv : (UserOp.rmdir p).Valid m.tree)
    (hclear : (UserOp.rmdir p).Clear t m) : Recorded t (m.rmdir p) := by
  obtain ⟨hne, hdir, hempty⟩ := hv
  obtain ⟨hfit, hoff⟩ := h.drop_mkDir hclear
  have htree : (m.rmdir p).tree = FileTree.delete m.tree p := OfflineMount.tree_delete rfl
  have hsub := List.filter_sublist (p := fun e => !e.op.isMkDirOf p) (l := m.journal.entries)
  have hentries : (m.rmdir p).journal.entries =
      (m.journal.entries.filter fun e => !e.op.isMkDirOf p) ++
        [{ seq := m.journal.nextSeq, op := .rmDir p }] := by
    simp only [OfflineMount.rmdir, MutationJournal.enqueue_entries,
      MutationJournal.coalesceBeforeEnqueue]
    rw [MutationJournal.map_followRename (by simp)]
  have hqueue : QueueOk (m.rmdir p) :=
    h.queue.extend hsub rfl hentries rfl (Nat.le_refl _)
      (by simp [OfflineMount.rmdir]) (fun _ _ => rfl) trivial rfl rfl
      (by simp [OfflineMount.rmdir]) (by simp [MutationOp.stagingPath])
  refine h.snoc hsub rfl hentries hqueue (fun _ _ => rfl) hfit hne ?_ ?_ (by simp) (by simp)
  · -- the two trees differ at the folder at most, and it goes
    rw [htree]
    show FileTree.delete _ p = FileTree.delete _ p
    funext q
    simp only [FileTree.delete]
    split
    · rfl
    · rename_i hpq
      exact hoff q hpq
  · -- a queued folder below it is none: the folder is empty
    intro e he q hq
    have hqdir := h.folders e (hsub.subset he) q hq
    have hpq : ¬ p <+: q := by
      intro hpq
      by_cases heq : p = q
      · -- The entry itself was dropped.
        subst heq
        have hkeep := (List.mem_filter.mp he).2
        rw [hq] at hkeep
        simp [MutationOp.isMkDirOf] at hkeep
      · rw [h.none_below_empty hempty hpq heq] at hqdir
        cases hqdir
    rw [htree]
    simp only [FileTree.delete, if_neg hpq]
    exact hqdir

/-- A rename the kernel lets through is a move the server makes. -/
theorem moveOk (h : Recorded t m) {src dst : PathBuf}
    (hv : (UserOp.rename src dst).Valid m.tree) : MoveOk m.tree src dst := by
  obtain ⟨hsrc, hdst, hex, hpar, hsd, hfile, hdir⟩ := hv
  refine ⟨hsrc, hdst, hex, hpar, hsd, ?_⟩
  intro hds
  have hne : dst ≠ src := fun heq => hsd (heq ▸ List.prefix_rfl)
  -- The source lies inside the destination, which then is a folder and not empty.
  have hdstdir := h.closedTree.ancestor hds hne hex
  cases hn : m.tree src with
  | none => exact hex hn
  | some n =>
    cases n with
    | file c => exact hfile ⟨c, hn⟩ hdstdir
    | dir => exact hex (h.none_below_empty (hdir hn (by rw [hdstdir]; simp)).2 hds hne)

/-- A queued folder creation outside the source is still a folder after the move. -/
theorem folder_of_move (h : Recorded t m) {src dst q : PathBuf}
    (hv : (UserOp.rename src dst).Valid m.tree) (hq : m.tree q = some .dir) (hsq : ¬ src <+: q) :
    FileTree.move m.tree src dst q = some .dir := by
  obtain ⟨hsrc, hdst, hex, hpar, hsd, hfile, hdir⟩ := hv
  simp only [FileTree.move]
  split
  · rename_i hdq
    by_cases heq : dst = q
    · -- A folder replaces the empty folder `dst`.
      subst heq
      cases hn : m.tree src with
      | none => exact absurd hn hex
      | some n =>
        cases n with
        | file c => exact absurd hq (hfile ⟨c, hn⟩)
        | dir => simp [hn]
    · have hdstdir := h.closedTree.ancestor hdq heq (by rw [hq]; simp)
      cases hn : m.tree src with
      | none => exact absurd hn hex
      | some n =>
        cases n with
        | file c => exact absurd hdstdir (hfile ⟨c, hn⟩)
        | dir =>
          have hempty := (hdir hn (by rw [hdstdir]; simp)).2
          rw [h.none_below_empty hempty hdq heq] at hq
          cases hq
  · exact hq

/-- A rename that is queued as a MOVE and rewrites no entry. -/
theorem rename_queued (h : Recorded t m) {src dst : PathBuf}
    (hv : (UserOp.rename src dst).Valid m.tree) (hret : m.retargets src dst = false)
    (hclear : ∀ e ∈ m.journal.entries, e.retargeted = false → ∀ p ∈ e.op.names, ¬ src <+: p) :
    Recorded t (m.rename src dst) := by
  have htree : (m.rename src dst).tree = FileTree.move m.tree src dst := OfflineMount.tree_move rfl
  have hjournal : (m.rename src dst).journal =
      (m.journal.enqueue (.rename src dst none (m.destBase src dst))).2 := by
    simp [OfflineMount.rename, hret]
  -- the entries stay, with the condition of the moved upload, and the rename ends the queue
  have hentries : (m.rename src dst).journal.entries =
      m.journal.entries.map
        (MutationJournal.followRename (.rename src dst none (m.destBase src dst))) ++
      [{ seq := m.journal.nextSeq, op := .rename src dst none (m.destBase src dst) }] := by
    rw [hjournal, MutationJournal.enqueue_entries]
    rfl
  have hkept : (m.journal.entries.map
      (MutationJournal.followRename (.rename src dst none (m.destBase src dst)))).map
        JournalEntry.uncond = m.journal.entries.map JournalEntry.uncond := by
    rw [List.map_map]
    exact List.map_congr_left fun e he => MutationJournal.followRename_uncond (hclear e he)
  -- no file is touched
  have hfiles : (m.rename src dst).journal.disk.files = m.journal.disk.files := by
    rw [hjournal]
    rfl
  have hqueue : QueueOk (m.rename src dst) :=
    h.queue.extend (List.Sublist.refl _) hkept hentries rfl (Nat.le_refl _)
      (by rw [hjournal]; simp) (fun s _ => by rw [hfiles]) rfl rfl rfl
      (by rw [hjournal]; simp) (by simp [MutationOp.stagingPath])
  refine h.snoc (List.Sublist.refl _) hkept hentries hqueue (fun s _ => by rw [hfiles]) h.fits
    ⟨hv.1, hv.2.1⟩ ?_ ?_ (by simp) (by simp)
  · -- the rename moves on the server what it moves here
    rw [h.runs, htree]
    exact if_pos (h.moveOk hv)
  · -- a queued folder is not below what moves, or is re-pointed, which only uploads are
    intro e he q hq
    have hnot : e.retargeted = false := by
      by_contra hr
      obtain ⟨p, s, c, hput⟩ := h.retargetedPut e he (by simpa using hr)
      rw [hput] at hq
      cases hq
    rw [htree]
    refine h.folder_of_move hv (h.folders e he q hq) (hclear e he hnot q ?_)
    rw [hq]
    exact List.mem_cons_self

/-! ### A rename that re-points an upload -/

/-- `e` is the only queued upload of `src`, unconditional, from the local file `staging`, and
    nothing else queued touches `src`. -/
structure Repoints (m : OfflineMount) (src : PathBuf) (e : JournalEntry) (staging : PathBuf) :
    Prop where
  one : m.journal.entries.filter (fun e => e.op.isUploadOf src) = [e]
  op : e.op = .put src staging none
  other : ∀ x ∈ m.journal.entries, x.op.isUploadOf src = false → x.op.touches src = false

namespace Repoints

variable {src staging : PathBuf} {e : JournalEntry}

/-- The re-pointed entry is in the queue. -/
theorem mem (hr : Repoints m src e staging) : e ∈ m.journal.entries := by
  have hmem : e ∈ m.journal.entries.filter (fun e => e.op.isUploadOf src) := by
    rw [hr.one]
    exact List.mem_singleton_self e
  exact (List.mem_filter.mp hmem).1

/-- A queued MOVE neither takes `src` along nor brings something to it. -/
theorem move_outside (hr : Repoints m src e staging) {x : JournalEntry}
    (hx : x ∈ m.journal.entries) {s d : PathBuf} {st : Option PathBuf} {c : Option String}
    (hop : x.op = .rename s d st c) : ¬ s <+: src ∧ ¬ d <+: src := by
  have htouch := hr.other x hx (by rw [hop]; rfl)
  rw [hop] at htouch
  simpa [MutationOp.touches, PathBuf.startsWith_eq_false_iff] using htouch

/-- Nothing takes the re-pointed upload's path away. -/
theorem uploadsStay (hr : Repoints m src e staging) : m.UploadsStay src := by
  refine List.pairwise_of_forall_mem_list fun a _ b hb _ => ?_
  cases hop : b.op with
  | rename s d st c =>
    simp only [MutationOp.takes, PathBuf.startsWith_eq_false_iff]
    exact (hr.move_outside hb hop).1
  | _ => rfl

/-- The rest of the queue brings nothing to `src`. -/
theorem gone (hr : Repoints m src e staging) (ht : t src = none)
    (files : PathBuf → Option LocalFile) :
    run t (changes files (m.journal.entries.filter fun e => !e.op.isUploadOf src)) src = none := by
  refine run_none_of_not_makes ?_ ht
  intro o ho
  obtain ⟨x, hx, rfl⟩ := List.mem_map.mp ho
  obtain ⟨hx, hup⟩ := List.mem_filter.mp hx
  have hother := hr.other x hx (by simpa using hup)
  cases hop : x.op with
  | rename s d st c => exact (hr.move_outside hx hop).2
  | mkDir p =>
    rw [hop] at hother
    simp only [MutationOp.touches, PathBuf.startsWith_eq_false_iff] at hother
    intro hp
    exact hother (hp ▸ List.prefix_rfl)
  | put p s c =>
    rw [hop] at hup
    simpa [MutationOp.isUploadOf, MutationOp.change, Op.Makes] using hup
  | finishChunked p =>
    rw [hop] at hup
    simpa [MutationOp.isUploadOf, MutationOp.change, Op.Makes] using hup
  | unlink p => exact id
  | rmDir p => exact id

/-- The staged bytes are what the user sees at `src`. -/
theorem content (hr : Repoints m src e staging) (h : Recorded t m) (ht : t src = none)
    {c : Bytes} (hc : m.tree src = some (.file c)) :
    stagedContent m.journal.disk.files staging = c := by
  have horigin : t src = some (.file c) ∨
      Op.put src c ∈ changes m.journal.disk.files m.journal.entries := by
    refine run_file_origin ?_ (by rw [h.runs]; exact hc)
    intro s d hmove hd
    obtain ⟨x, hx, hxe⟩ := List.mem_map.mp hmove
    cases hop : x.op with
    | rename s' d' st m' =>
      rw [hop] at hxe
      simp only [MutationOp.change, Op.move.injEq] at hxe
      exact (hr.move_outside hx hop).2 (hxe.2 ▸ hd)
    | _ => rw [hop] at hxe; simp [MutationOp.change] at hxe
  rw [ht] at horigin
  rcases horigin with horigin | hput
  · cases horigin
  · obtain ⟨x, hx, hxe⟩ := List.mem_map.mp hput
    have hup : x.op.isUploadOf src = true := by
      rw [← isPut_change m.journal.disk.files, hxe]
      simp [Op.isPut]
    have hxmem : x ∈ m.journal.entries.filter (fun e => e.op.isUploadOf src) :=
      List.mem_filter.mpr ⟨hx, hup⟩
    rw [hr.one, List.mem_singleton] at hxmem
    rw [hxmem, hr.op] at hxe
    simpa [MutationOp.change] using hxe

end Repoints

/-- The re-pointed queue is in good order. -/
theorem repointed_queue (h : Recorded t m) {src staging : PathBuf} {e : JournalEntry}
    (hr : Repoints m src e staging) (op : MutationOp) (hplain : op.Plain)
    (hop : op.stagingPath = some staging)
    (hentries : m'.journal.entries = m.journal.entries.filter (fun e => !e.op.isUploadOf src) ++
      [{ e with op := op, retargeted := true }])
    (hdir : m'.cacheDir = m.cacheDir) (hfh : m'.nextFh = m.nextFh)
    (hseq : m'.journal.nextSeq = m.journal.nextSeq)
    (hfiles : m'.journal.disk.files = m.journal.disk.files) : QueueOk m' := by
  refine h.queue.extend List.filter_sublist rfl hentries hdir (Nat.le_of_eq hfh.symm)
    (Nat.le_of_eq hseq.symm)
    (fun s _ => by rw [hfiles]) hplain (h.queue.ready.idle e hr.mem) (h.queue.untried e hr.mem)
    (by rw [hseq]; exact h.queue.older e hr.mem) ?_
  intro s hs
  obtain rfl : staging = s := by simpa [hop] using hs
  have hes : e.op.stagingPath = some staging := by rw [hr.op]; rfl
  have hst : staging ∈ stagings m.journal.entries := mem_stagings.mpr ⟨e, hr.mem, hes⟩
  refine ⟨fun hin => ?_, by rw [hfiles]; exact h.queue.ready.present _ hst,
    by rw [hfh]; exact h.queue.used _ hst⟩
  refine notMem_stagings_of_filter h.queue.ready.nodup hin ?_
  rw [hr.one]
  exact mem_stagings.mpr ⟨e, List.mem_singleton_self e, hes⟩

/-- Putting a file at its new name, with nothing left under the old one, is the move of it. -/
theorem put_eq_move (h : Recorded t m) {src dst : PathBuf} {c : Bytes} {t' : Tree String Bytes}
    (hmove : MoveOk m.tree src dst) (hc : m.tree src = some (.file c))
    (hdst : m.tree dst ≠ some .dir) (hoff : ∀ q, q ≠ src → t' q = m.tree q)
    (hgone : t' src = none) : FileTree.apply t' (.put dst c) = FileTree.move m.tree src dst := by
  obtain ⟨-, hd, -, hpar, hsd, hds⟩ := hmove
  have hsrc : m.tree src ≠ some .dir := by rw [hc]; simp
  have hne : dst ≠ src := fun heq => hsd (heq ▸ List.prefix_rfl)
  have hok : PutOk t' dst := by
    refine ⟨hd, ?_, by rw [hoff dst hne]; exact hdst⟩
    rw [hoff _ fun heq => hsd (heq ▸ List.dropLast_prefix dst)]
    exact hpar
  simp only [FileTree.apply, if_pos hok]
  funext q
  simp only [FileTree.set, FileTree.move]
  -- below the new name there is the file only
  by_cases hdq : dst <+: q
  · rw [if_pos hdq]
    by_cases heq : q = dst
    · rw [if_pos heq, heq]
      simp [hc]
    · -- Nothing is below the file, neither at the old nor at the new name.
      rw [if_neg heq, hoff q fun hqs => hds (hqs ▸ hdq),
        h.closedTree.none_below hdq (Ne.symm heq) hdst]
      symm
      refine h.closedTree.none_below (List.prefix_append _ _) ?_ hsrc
      obtain ⟨s, rfl⟩ := hdq
      simpa using heq
  · -- elsewhere only the old name changes, and it is free before and after
    have heq : q ≠ dst := fun heq => hdq (heq ▸ List.prefix_rfl)
    rw [if_neg hdq, if_neg heq]
    by_cases hsq : src <+: q
    · rw [if_pos hsq]
      by_cases hqs : q = src
      · rw [hqs]
        exact hgone
      · rw [hoff q hqs]
        exact h.closedTree.none_below hsq (Ne.symm hqs) hsrc
    · rw [if_neg hsq]
      exact hoff q fun hqs => hsq (hqs ▸ List.prefix_rfl)

/-- A listed path without an etag is a file. -/
theorem file_of_not_onServer {src : PathBuf} (hon : m.sourceOnServer src = false) :
    ∃ c, m.tree src = some (.file c) := by
  simp only [OfflineMount.sourceOnServer, OfflineMount.listedToken] at hon
  split at hon
  · rename_i token heq
    split at heq
    · rename_i f hf
      exact ⟨f.1, by rw [OfflineMount.tree_eq, hf]; rfl⟩
    · cases heq
  · cases hon

/-- A rename that re-points the upload of a file the server does not have. -/
theorem rename_retargeted (h : Recorded t m) {src dst : PathBuf}
    (hv : (UserOp.rename src dst).Valid m.tree) (hret : m.retargets src dst = true)
    (hclear : t src = none) : Recorded t (m.rename src dst) := by
  have htree : (m.rename src dst).tree = FileTree.move m.tree src dst := OfflineMount.tree_move rfl
  have hmove := h.moveOk hv
  have hretargets := hret
  rw [OfflineMount.retargets, Bool.and_eq_true, Bool.not_eq_true'] at hret
  -- one entry is re-pointed, and the other uploads of the old name go
  obtain ⟨e, staging, hone, hop, -, hother, hjournal⟩ :=
    MutationJournal.retargetUpload_true hret.2
  have hr : Repoints m src e staging :=
    ⟨hone, hop, fun x hx hup => hother x (List.mem_filter.mpr ⟨hx, by rw [hup]; rfl⟩)⟩
  have hjournal' : (m.rename src dst).journal =
      (m.journal.retargetUpload src dst (m.destBase src dst)).2 := if_pos hretargets
  rw [hjournal] at hjournal'
  have hentries : (m.rename src dst).journal.entries =
      m.journal.entries.filter (fun e => !e.op.isUploadOf src) ++
        [{ e with op := .put dst staging (m.destBase src dst), retargeted := true }] := by
    rw [hjournal']
    rfl
  have hfiles : (m.rename src dst).journal.disk.files = m.journal.disk.files := by
    rw [hjournal']
    rfl
  have hqueue : QueueOk (m.rename src dst) :=
    h.repointed_queue hr (.put dst staging (m.destBase src dst)) trivial rfl hentries rfl rfl
      (by rw [hjournal']; rfl) hfiles
  obtain ⟨c, hc⟩ := file_of_not_onServer hret.1
  have hsrc : m.tree src ≠ some .dir := by rw [hc]; simp
  have hdst : m.tree dst ≠ some .dir := hv.2.2.2.2.2.1 ⟨c, hc⟩
  -- the new place is another one
  have hne : dst ≠ src := fun heq => hv.2.2.2.2.1 (heq ▸ List.prefix_rfl)
  obtain ⟨hfit, hoff, -⟩ := h.drop_uploads hr.uploadsStay hsrc
  have hchange : MutationOp.change (m.rename src dst).journal.disk.files
      (.put dst staging (m.destBase src dst)) = .put dst c := by
    rw [hfiles]
    simp [MutationOp.change, hr.content h hclear hc]
  -- the re-pointed upload ends the queue, with the file it had
  refine h.snoc List.filter_sublist rfl hentries hqueue (fun s _ => by rw [hfiles]) hfit ?_ ?_ ?_
    (by simp) (by simp)
  · -- where it is made there is no folder
    rw [hchange]
    exact ⟨hv.2.1, by rw [hoff dst hne]; exact hdst⟩
  · rw [hchange, htree]
    exact h.put_eq_move hmove hc hdst hoff (hr.gone hclear _)
  · -- a queued folder is not below the file that moves
    intro x hx q hq
    have hqdir := h.folders x (List.filter_sublist.subset hx) q hq
    have hsq : ¬ src <+: q := by
      intro hsq
      by_cases heq : src = q
      · exact hsrc (heq ▸ hqdir)
      · rw [h.closedTree.none_below hsq heq hsrc] at hqdir
        cases hqdir
    rw [htree]
    exact h.folder_of_move hv hqdir hsq

/-- Each user operation keeps the invariant. -/
theorem step (h : Recorded t m) {op : UserOp} (hv : op.Valid m.tree) (hclear : op.Clear t m) :
    Recorded t (m.step op) := by
  cases op with
  | write p data => exact h.write hv hclear
  | mkdir p => exact h.mkdir hv
  | unlink p => exact h.unlink hv hclear
  | rmdir p => exact h.rmdir hv hclear
  | rename src dst =>
    simp only [UserOp.Clear] at hclear
    split at hclear
    · rename_i hret
      exact h.rename_retargeted hv hret hclear
    · rename_i hret
      exact h.rename_queued hv (by simpa using hret) hclear

end Recorded

/-! ## Runs -/

/-- Every operation is valid in the tree the user sees at that moment. -/
def ValidRun : OfflineMount → List UserOp → Prop
  | _, [] => True
  | m, op :: ops => op.Valid m.tree ∧ ValidRun (m.step op) ops

/-- Every operation meets its condition. -/
def ClearRun (t : Tree String Bytes) : OfflineMount → List UserOp → Prop
  | _, [] => True
  | m, op :: ops => op.Clear t m ∧ ClearRun t (m.step op) ops

/-- Every run of valid operations keeps the queue in step with what the user sees. -/
theorem Recorded.steps {t : Tree String Bytes} {m : OfflineMount} (h : Recorded t m)
    {ops : List UserOp} (hv : ValidRun m ops) (hclear : ClearRun t m ops) :
    Recorded t (m.steps ops) := by
  induction ops generalizing m with
  | nil => exact h
  | cons op ops ih => exact ih (h.step hv.1 hclear.1) hv.2 hclear.2

/-- A mount with nothing queued stands for the server's tree. -/
theorem Recorded.fresh {t : Tree String Bytes} (hc : Closed t) (etag : PathBuf → String)
    (served : PathBuf → Option String) (disk : CacheDir) (cacheDir : PathBuf)
    (nextSeq nextFh : Nat) :
    Recorded t (.fresh t etag served disk cacheDir nextSeq nextFh) := by
  have hnil : (OfflineMount.fresh t etag served disk cacheDir nextSeq nextFh).journal.entries =
    [] := rfl
  refine ⟨hc, ⟨⟨?_, ?_, ?_, ?_, ?_⟩, ?_, ?_, ?_⟩, ?_, trivial, ?_, ?_⟩ <;>
    try simp [hnil, stagings]
  funext p
  rw [OfflineMount.tree_eq]
  show t p = _
  simp only [OfflineMount.fresh]
  cases hp : t p with
  | none => rfl
  | some n => cases n <;> rfl

/-- The replay of what a mount has queued, against a plain server that has the tree `t`. -/
def OfflineMount.replay (m : OfflineMount) (t : Tree String Bytes)
    (token : PathBuf → Bytes → Option String) (cache : FsCache) (stamp : SeqId → Nat → String)
    (now : SeqId → Nat → Nat) (fuel : Nat) : Bool × ReplayState (Tree String Bytes) :=
  replayJournal { backend := webdav token, cacheDir := m.cacheDir, stamp := stamp, now := now } fuel
    { journal := m.journal, cache := cache, server := t }

/-- Offline edits that meet the conditions reach the server as the user made them: the replay
    ends by itself, empties the queue and leaves the server with the tree the user saw. -/
theorem offline_replay_preserves_tree {t : Tree String Bytes} (hc : Closed t)
    (etag : PathBuf → String) (served : PathBuf → Option String) (disk : CacheDir)
    (cacheDir : PathBuf) (nextSeq nextFh : Nat) (ops : List UserOp)
    (hv : ValidRun (.fresh t etag served disk cacheDir nextSeq nextFh) ops)
    (hclear : ClearRun t (.fresh t etag served disk cacheDir nextSeq nextFh) ops)
    (token : PathBuf → Bytes → Option String) (cache : FsCache) (stamp : SeqId → Nat → String)
    (now : SeqId → Nat → Nat) :
    let m := (OfflineMount.fresh t etag served disk cacheDir nextSeq nextFh).steps ops
    ∃ n, ∀ fuel, n ≤ fuel →
      (m.replay t token cache stamp now fuel).1 = true ∧
      (m.replay t token cache stamp now fuel).2.journal.entries = [] ∧
      (m.replay t token cache stamp now fuel).2.server = m.tree := by
  intro m
  have h : Recorded t m := (Recorded.fresh hc etag served disk cacheDir nextSeq nextFh).steps hv hclear
  obtain ⟨rounds, w, hrun, hempty, hserver⟩ := replayJournal_webdav
    { backend := webdav token, cacheDir := m.cacheDir, stamp := stamp, now := now } rfl
    m.journal.entries { journal := m.journal, cache := cache, server := t } rfl h.queue.ready
    h.queue.untried hc h.fits.named
  refine ⟨rounds + 1, fun fuel hfuel => ?_⟩
  have hfuel' : m.replay t token cache stamp now fuel = (true, w) := by
    have hk := hrun (fuel - (rounds + 1))
    rw [Nat.add_sub_cancel' hfuel] at hk
    exact hk
  rw [hfuel']
  exact ⟨rfl, hempty, hserver.trans h.runs⟩

/-- A server with one file `/a`. -/
def oneFile : Tree String Bytes :=
  fun p => if p = [] then some .dir else if p = ["a"] then some (.file [1]) else none

/-- A mount over it. -/
def oneFileMount : OfflineMount :=
  .fresh oneFile (fun _ => "etag") (fun _ => none) { files := fun _ => none } ["cache"] 1 1

/-- The tree of the example has its folders. -/
theorem oneFile_closed : Closed oneFile := by
  refine ⟨rfl, ?_⟩
  intro p hp hex
  simp only [oneFile, if_neg hp] at hex
  split at hex
  · rename_i ha
    rw [ha]
    rfl
  · exact absurd rfl hex

/-- An edit of `/a` and a rename of it: the queued upload is rewritten to the new name and the
    MOVE, still queued behind it, overwrites it with the server's old content. -/
theorem offline_replay_loses_edit :
    let ops : List UserOp := [.write ["a"] [2], .rename ["a"] ["b"]]
    let m := oneFileMount.steps ops
    Closed oneFile ∧ ValidRun oneFileMount ops ∧ ∃ fuel,
      let r := m.replay oneFile (fun _ _ => none) {} (fun _ _ => "") (fun _ _ => 0) fuel
      r.1 = true ∧ m.tree ["b"] = some (.file [2]) ∧ r.2.server ["b"] = some (.file [1]) := by
  refine ⟨oneFile_closed, ⟨⟨by decide, by decide, by decide⟩, ⟨by decide, by decide, by decide,
    by decide, by decide, fun _ => by decide, fun h => absurd h (by decide)⟩, trivial⟩, 8, ?_⟩
  decide

/-- A new file renamed before it was sent, and a file moved into a new folder, meet the
    conditions. -/
theorem offline_replay_preserves_moves :
    let ops : List UserOp := [.write ["n"] [5], .rename ["n"] ["m"], .mkdir ["d"],
      .rename ["a"] ["d", "a"]]
    let m := oneFileMount.steps ops
    m.tree ["m"] = some (.file [5]) ∧ m.tree ["d", "a"] = some (.file [1]) ∧
    ∃ n, ∀ fuel, n ≤ fuel →
      (m.replay oneFile (fun _ _ => none) {} (fun _ _ => "") (fun _ _ => 0) fuel).1 = true ∧
      (m.replay oneFile (fun _ _ => none) {} (fun _ _ => "") (fun _ _ => 0) fuel).2.journal.entries
        = [] ∧
      (m.replay oneFile (fun _ _ => none) {} (fun _ _ => "") (fun _ _ => 0) fuel).2.server
        = m.tree := by
  refine ⟨by decide, by decide,
    offline_replay_preserves_tree oneFile_closed _ _ _ _ _ _ _ ?_ ?_ _ _ _ _⟩
  · exact ⟨⟨by decide, by decide, by decide⟩, ⟨by decide, by decide, by decide, by decide,
      by decide, fun _ => by decide, fun h => absurd h (by decide)⟩,
      ⟨by decide, by decide, by decide⟩, ⟨by decide, by decide, by decide, by decide,
      by decide, fun _ => by decide, fun h => absurd h (by decide)⟩, trivial⟩
  · refine ⟨?_, ?_, trivial, ?_, trivial⟩
    · exact List.Pairwise.nil
    · simp only [UserOp.Clear]
      split
      · decide
      · rename_i hret
        exact absurd (by decide) hret
    · simp only [UserOp.Clear]
      split
      · rename_i hret
        exact absurd hret (by decide)
      · decide

end Ncrs
