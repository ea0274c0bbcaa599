import Ncrs.ForStd.List
import Ncrs.Native.MutationJournal

/-!
# What the journal's operations do

One lemma for each operation of the journal: the entries it leaves and the local files it
leaves alone. Later proofs use these and do not unfold the operations.
-/

namespace Ncrs

/-! ## Local files -/

@[simp] theorem CacheDir.removeFiles_nil (d : CacheDir) : d.removeFiles [] = d := rfl

@[simp] theorem CacheDir.removeFiles_singleton (d : CacheDir) (p : PathBuf) :
    d.removeFiles [p] = d.removeFile p := rfl

/-- Removing a file leaves the others. -/
theorem CacheDir.removeFile_of_ne {d : CacheDir} {p q : PathBuf} (h : q ≠ p) :
    (d.removeFile p).files q = d.files q := by
  simp only [CacheDir.removeFile, if_neg h]

/-- So does removing several. -/
theorem CacheDir.removeFiles_of_notMem {d : CacheDir} {ps : List PathBuf} {q : PathBuf}
    (h : q ∉ ps) : (d.removeFiles ps).files q = d.files q := by
  induction ps generalizing d with
  | nil => rfl
  | cons p ps ih =>
    rw [List.mem_cons, not_or] at h
    show ((d.removeFile p).removeFiles ps).files q = _
    rw [ih h.2, removeFile_of_ne h.1]

/-- A move only changes the two files it names. -/
theorem CacheDir.moveFile_of_ne {d : CacheDir} {p q x : PathBuf} (hp : x ≠ p) (hq : x ≠ q) :
    (d.moveFile p q).files x = d.files x := by
  unfold CacheDir.moveFile
  split
  · simp only [CacheDir.writeFile, if_neg hq, removeFile_of_ne hp]
  · rfl

/-! ## Entries up to the version they are conditional on -/

namespace MutationOp

/-- The operation without the version it is conditional on. -/
def uncond : MutationOp → MutationOp
  | put p s _ => put p s none
  | rename src dst s _ => rename src dst s none
  | finishChunked p u n b l t _ sp h w => finishChunked p u n b l t none sp h w
  | op => op

/-- Stripping the condition leaves the staging file. -/
@[simp] theorem stagingPath_uncond (op : MutationOp) : op.uncond.stagingPath = op.stagingPath := by
  cases op <;> rfl

/-- The remote paths an operation names. -/
def names : MutationOp → List PathBuf
  | rename src dst _ _ => [src, dst]
  | op => [op.path]

end MutationOp

/-- The entry without the version it is conditional on. -/
def JournalEntry.uncond (e : JournalEntry) : JournalEntry := { e with op := e.op.uncond }

@[simp] theorem JournalEntry.uncond_op (e : JournalEntry) : e.uncond.op = e.op.uncond := rfl

@[simp] theorem JournalEntry.uncond_seq (e : JournalEntry) : e.uncond.seq = e.seq := rfl

@[simp] theorem JournalEntry.uncond_retargeted (e : JournalEntry) :
    e.uncond.retargeted = e.retargeted := rfl

@[simp] theorem JournalEntry.uncond_inFlight (e : JournalEntry) :
    e.uncond.inFlight = e.inFlight := rfl

@[simp] theorem JournalEntry.uncond_attempts (e : JournalEntry) :
    e.uncond.attempts = e.attempts := rfl

/-! ## Operations -/

namespace MutationJournal

@[simp] theorem saveJournal_entries (j : MutationJournal) : j.saveJournal.entries = j.entries := rfl

@[simp] theorem saveJournal_nextSeq (j : MutationJournal) : j.saveJournal.nextSeq = j.nextSeq := rfl

@[simp] theorem saveJournal_files (j : MutationJournal) :
    j.saveJournal.disk.files = j.disk.files := rfl

@[simp] theorem removeStaging_entries (j : MutationJournal) (ps : List PathBuf) :
    (j.removeStaging ps).entries = j.entries := rfl

@[simp] theorem removeStaging_nextSeq (j : MutationJournal) (ps : List PathBuf) :
    (j.removeStaging ps).nextSeq = j.nextSeq := rfl

/-- Staging files that are not removed stay. -/
theorem removeStaging_files {j : MutationJournal} {ps : List PathBuf} {x : PathBuf}
    (h : x ∉ ps) : (j.removeStaging ps).disk.files x = j.disk.files x :=
  CacheDir.removeFiles_of_notMem h

@[simp] theorem addConflict_entries (j : MutationJournal) (kind : ConflictKind) :
    (j.addConflict kind).entries = j.entries := rfl

@[simp] theorem addConflict_files (j : MutationJournal) (kind : ConflictKind) :
    (j.addConflict kind).disk.files = j.disk.files := rfl

/-- Rebasing only changes the condition. -/
@[simp] theorem rebaseEntry_uncond (new : Option String) (e : JournalEntry) :
    (rebaseEntry new e).uncond = e.uncond := by
  unfold rebaseEntry
  split <;> rename_i h <;> simp only [JournalEntry.uncond, h, MutationOp.uncond]

/-- A rebase only replaces conditions. -/
theorem rebase_entries (j : MutationJournal) (path : PathBuf) (sent new : Option String) :
    (j.rebase path sent new).entries.map JournalEntry.uncond =
      j.entries.map JournalEntry.uncond := by
  cases sent with
  | none => rfl
  | some sent =>
    simp only [rebase]
    split
    · simp only [saveJournal, List.map_map]
      refine List.map_congr_left fun e _ => ?_
      simp only [Function.comp_apply]
      split
      · exact rebaseEntry_uncond new e
      · rfl
    · rfl

/-- Rebasing touches no file. -/
@[simp] theorem rebase_files (j : MutationJournal) (path : PathBuf) (sent new : Option String) :
    (j.rebase path sent new).disk.files = j.disk.files := by
  cases sent with
  | none => rfl
  | some sent =>
    simp only [rebase]
    split <;> rfl

/-- Changing the entry in front. -/
theorem modify_front {j : MutationJournal} {e : JournalEntry} {rest : List JournalEntry}
    (h : j.entries = e :: rest) (f : JournalEntry → JournalEntry) :
    j.modify e.seq f = { j with entries := f e :: rest } := by
  unfold modify
  have hidx : j.entries.findIdx? (fun x => x.seq = e.seq) = some 0 := by
    rw [h, List.findIdx?_cons]
    simp
  rw [hidx]
  simp [h]

/-- Marking an entry keeps the queue's seqs. -/
theorem modify_seqs (j : MutationJournal) (seq : SeqId) {f : JournalEntry → JournalEntry}
    (hf : ∀ e, (f e).seq = e.seq) :
    (j.modify seq f).entries.map (·.seq) = j.entries.map (·.seq) := by
  unfold modify
  split
  · exact List.map_modify_of_eq hf _ _
  · rfl

/-- Changing an entry touches no file. -/
@[simp] theorem modify_disk (j : MutationJournal) (seq : SeqId)
    (f : JournalEntry → JournalEntry) : (j.modify seq f).disk = j.disk := by
  unfold modify
  split <;> rfl

/-- Marking an entry keeps the queue's operations. -/
theorem modify_ops (j : MutationJournal) (seq : SeqId) {f : JournalEntry → JournalEntry}
    (hf : ∀ e, (f e).op = e.op) :
    (j.modify seq f).entries.map (·.op) = j.entries.map (·.op) := by
  unfold modify
  split
  · exact List.map_modify_of_eq hf _ _
  · rfl

/-- A claim moves no entry. -/
theorem claim_seqs (j : MutationJournal) (seq : SeqId) :
    (j.claim seq).2.entries.map (·.seq) = j.entries.map (·.seq) := by
  unfold claim
  split
  · split
    · rfl
    · exact j.modify_seqs seq fun _ => rfl
  · rfl

/-- A failure that is noted moves none. -/
theorem markFailed_seqs (j : MutationJournal) (seq : SeqId) (error : String) :
    (j.markFailed seq error).entries.map (·.seq) = j.entries.map (·.seq) :=
  j.modify_seqs seq (f := fun e => { e with
    attempts := e.attempts + 1, lastError := some error, inFlight := false, destFixed := false })
    fun _ => rfl

/-- Nor does a deferral. -/
theorem markDeferred_seqs (j : MutationJournal) (seq : SeqId) (error : String) :
    (j.markDeferred seq error).entries.map (·.seq) = j.entries.map (·.seq) :=
  j.modify_seqs seq (f := fun e => { e with
    lastError := some error, inFlight := false, destFixed := false }) fun _ => rfl

/-- The bytes a give-up keeps go to `unsynced/`, never onto a staging file. -/
theorem recoverStaging_files {j : MutationJournal} {cacheDir s p x : PathBuf} {fh : Nat}
    (hx : x = PathBuf.writePath cacheDir fh) (hs : x ≠ s) :
    (j.recoverStaging cacheDir s p).2.disk.files x = j.disk.files x := by
  unfold recoverStaging
  split
  · rfl
  · apply CacheDir.moveFile_of_ne hs
    intro h
    -- `unsynced/<name>` is one component longer than `write_<fh>`.
    have hlen := congrArg List.length h
    rw [hx] at hlen
    simp only [PathBuf.writePath, recoveryPath, List.length_append, List.length_singleton] at hlen
    split at hlen
    · split at hlen <;> simp at hlen
    · simp at hlen

/-- Recovering a staging file takes no entry away. -/
@[simp] theorem recoverStaging_entries (j : MutationJournal) (cacheDir s p : PathBuf) :
    (j.recoverStaging cacheDir s p).2.entries = j.entries := by
  unfold recoverStaging
  split <;> rfl

/-- Taking the front entry leaves the others. -/
@[simp] theorem dequeueFront_entries (j : MutationJournal) :
    j.dequeueFront.2.entries = j.entries.tail := by
  unfold dequeueFront
  cases hj : j.entries with
  | nil => simp [hj]
  | cons e rest => rfl

/-- And touches no file. -/
@[simp] theorem dequeueFront_files (j : MutationJournal) :
    j.dequeueFront.2.disk.files = j.disk.files := by
  unfold dequeueFront
  split <;> rfl

/-- Coalescing hands out no number. -/
theorem coalesceBeforeEnqueue_nextSeq (j : MutationJournal) (op : MutationOp) :
    (j.coalesceBeforeEnqueue op).nextSeq = j.nextSeq := by
  unfold coalesceBeforeEnqueue
  split
  · split
    · rfl
    · dsimp only
      split <;> rfl
  · rfl
  · rfl

/-- The entry gets the next number. -/
@[simp] theorem enqueue_seq (j : MutationJournal) (op : MutationOp) :
    (j.enqueue op).1 = j.nextSeq := j.coalesceBeforeEnqueue_nextSeq op

/-- And the number after it is next. -/
@[simp] theorem enqueue_nextSeq (j : MutationJournal) (op : MutationOp) :
    (j.enqueue op).2.nextSeq = j.nextSeq + 1 :=
  congrArg (· + 1) (j.coalesceBeforeEnqueue_nextSeq op)

/-- Queueing appends the operation to the entries that are left, renamed along. -/
theorem enqueue_entries (j : MutationJournal) (op : MutationOp) :
    (j.enqueue op).2.entries = (j.coalesceBeforeEnqueue op).entries.map (followRename op) ++
      [{ seq := j.nextSeq, op := op }] := by
  rw [← j.coalesceBeforeEnqueue_nextSeq op]
  rfl

/-- Only a rename changes the entries queued before it. -/
theorem map_followRename {op : MutationOp} (h : ∀ src dst s m, op ≠ .rename src dst s m)
    (l : List JournalEntry) : l.map (followRename op) = l := by
  conv_rhs => rw [← List.map_id l]
  refine List.map_congr_left fun e _ => ?_
  unfold followRename
  split
  · exact absurd rfl (h _ _ _ _)
  · rfl

/-- The local files of the uploads an unlink drops. -/
def unlinkDrops (j : MutationJournal) (path : PathBuf) : List PathBuf :=
  (j.entries.filter fun e => e.op.isUploadOf path).filterMap fun e => e.op.stagingPath

/-- An unlink drops the uploads of its path, unless one of them replaces a server version. -/
theorem coalesce_unlink_entries (j : MutationJournal) (path : PathBuf) :
    (j.coalesceBeforeEnqueue (.unlink path)).entries =
      if j.entries.any (fun e => e.op.hasPriorEtag path) then j.entries
      else j.entries.filter fun e => !e.op.isUploadOf path && !e.op.isMkDirOf path := by
  simp only [coalesceBeforeEnqueue]
  split
  · rfl
  · split <;> rfl

/-- Coalescing an unlink removes the staging files of the uploads that it drops. -/
theorem coalesce_unlink_files {j : MutationJournal} {path x : PathBuf}
    (h : (j.entries.any fun e => e.op.hasPriorEtag path) = false → x ∉ j.unlinkDrops path) :
    (j.coalesceBeforeEnqueue (.unlink path)).disk.files x = j.disk.files x := by
  simp only [coalesceBeforeEnqueue]
  split
  · rfl
  · rename_i hprior
    split
    · exact removeStaging_files (h (by simpa using hprior))
    · rfl

/-- Superseding leaves what is not stale. -/
theorem supersedeUploads_entries (j : MutationJournal) (path : PathBuf) (newest : SeqId) :
    (j.supersedeUploads path newest).entries = j.entries.filter fun e => !stale path newest e := by
  unfold supersedeUploads
  dsimp only
  split
  · rename_i hempty
    symm
    rw [List.filter_eq_self]
    rw [List.isEmpty_iff, List.filter_eq_nil_iff] at hempty
    intro e he
    simpa using hempty e he
  · rfl

/-- Superseding uploads hands out no number. -/
@[simp] theorem supersedeUploads_nextSeq (j : MutationJournal) (path : PathBuf) (newest : SeqId) :
    (j.supersedeUploads path newest).nextSeq = j.nextSeq := by
  unfold supersedeUploads
  dsimp only
  split <;> rfl

/-- It removes the staging files of the older uploads only. -/
theorem supersedeUploads_files {j : MutationJournal} {path x : PathBuf} {newest : SeqId}
    (h : x ∉ (j.entries.filter (stale path newest)).filterMap fun e => e.op.stagingPath) :
    (j.supersedeUploads path newest).disk.files x = j.disk.files x := by
  unfold supersedeUploads
  dsimp only
  split
  · rfl
  · exact removeStaging_files h

/-- A re-pointed upload: the only one of its file, unconditional and not yet on its way, with
    nothing else queued for the old name; it goes behind everything queued so far. -/
theorem retargetUpload_true {j : MutationJournal} {src dst : PathBuf} {base : Option String}
    (h : (j.retargetUpload src dst base).1 = true) :
    ∃ e staging, j.entries.filter (fun e => e.op.isUploadOf src) = [e] ∧
      e.op = .put src staging none ∧ e.destFixed = false ∧
      (∀ x ∈ j.entries.filter (fun e => !e.op.isUploadOf src), x.op.touches src = false) ∧
      (j.retargetUpload src dst base).2 = saveJournal { j with
        entries := j.entries.filter (fun e => !e.op.isUploadOf src) ++
          [{ e with op := .put dst staging base, retargeted := true }] } := by
  -- the only upload, its destination free, and nothing else in the way
  unfold retargetUpload at h ⊢
  split at h
  · rename_i e hone
    have hupload : e.op.isUploadOf src = true := by
      have hmem : e ∈ j.entries.filter (fun e => e.op.isUploadOf src) := by
        rw [hone]
        exact List.mem_singleton_self e
      exact (List.mem_filter.mp hmem).2
    split at h
    · rename_i p staging hop
      split at h
      · cases h
      · rename_i hfixed
        split at h
        · cases h
        · rename_i htouch
          obtain rfl : p = src := by
            rw [hop] at hupload
            simpa [MutationOp.isUploadOf] using hupload
          refine ⟨e, staging, hone, hop, by simpa using hfixed, ?_, ?_⟩
          · -- what else stands in the queue does not touch the source
            intro x hx
            by_contra hx'
            exact htouch (List.any_eq_true.mpr ⟨x, hx, by simpa using hx'⟩)
          · simp only [if_neg hfixed, if_neg htouch]
    · cases h
  · cases h

/-- An upload that is not re-pointed leaves the queue as it is. -/
theorem retargetUpload_false {j : MutationJournal} {src dst : PathBuf} {base : Option String}
    (h : (j.retargetUpload src dst base).1 = false) : (j.retargetUpload src dst base).2 = j := by
  unfold retargetUpload at h ⊢
  split
  · rename_i e hone
    simp only [hone] at h
    split
    · rename_i p staging hop
      simp only [hop] at h
      split
      · rfl
      · rename_i hfixed
        simp only [if_neg hfixed] at h
        split
        · rfl
        · rename_i htouch
          simp only [if_neg htouch] at h
          cases h
    · rfl
  · rfl

/-- Settling an upload takes it out of the queue, leaves the queue alone, defers the upload or
    fixes its destination. -/
theorem settleUpload_cases (j : MutationJournal) (seq : SeqId) (startedAs : PathBuf)
    (ifMatch : Option String) :
    (∃ i e, j.entries.findIdx? (fun e => e.seq = seq) = some i ∧ j.entries[i]? = some e ∧
      e.retargeted = true ∧ j.settleUpload seq startedAs ifMatch = (.withdrawn, saveJournal
        (removeStaging { j with entries := j.entries.eraseIdx i } e.op.stagingPath.toList))) ∨
    (j.settleUpload seq startedAs ifMatch).2 = j ∨
    (∃ msg, j.settleUpload seq startedAs ifMatch = (.deferred, j.markDeferred seq msg)) ∨
    ∃ i path etag, j.settleUpload seq startedAs ifMatch = (.go path etag,
      { j with entries := j.entries.modify i fun e => { e with destFixed := true } }) := by
  unfold settleUpload
  split
  · exact Or.inr (Or.inl rfl)
  · rename_i i hidx
    split
    · exact Or.inr (Or.inl rfl)
    · rename_i e hget
      split
      · -- an upload that was not re-pointed goes to the path that it was started with
        exact Or.inr (Or.inr (Or.inr ⟨i, _, _, rfl⟩))
      · rename_i hret
        dsimp only
        split
        · -- a destination that must not be overwritten: the upload is withdrawn
          exact Or.inl ⟨i, e, hidx, hget, by simpa using hret, rfl⟩
        · split
          · split
            · exact Or.inr (Or.inl rfl)
            · exact Or.inr (Or.inr (Or.inl ⟨_, rfl⟩))
          · exact Or.inr (Or.inr (Or.inr ⟨i, _, _, rfl⟩))

/-- A rename leaves the names of entries that lie outside its source alone. -/
theorem updatePathPrefix_of_outside {old new : PathBuf} {op : MutationOp}
    (h : ∀ p ∈ op.names, ¬ old <+: p) : op.updatePathPrefix old new = op := by
  have hkeep : ∀ p, ¬ old <+: p → MutationOp.rewritePath old new p = p := by
    intro p hp
    simp only [MutationOp.rewritePath, (PathBuf.stripPrefix_eq_none_iff p old).mpr hp]
  cases op with
  | rename src dst s m =>
    simp only [MutationOp.updatePathPrefix]
    rw [hkeep src (h src (by simp [MutationOp.names])), hkeep dst (h dst (by simp [MutationOp.names]))]
  | put p s m => simp only [MutationOp.updatePathPrefix, hkeep p (h p List.mem_cons_self)]
  | mkDir p => simp only [MutationOp.updatePathPrefix, hkeep p (h p List.mem_cons_self)]
  | unlink p => simp only [MutationOp.updatePathPrefix, hkeep p (h p List.mem_cons_self)]
  | rmDir p => simp only [MutationOp.updatePathPrefix, hkeep p (h p List.mem_cons_self)]
  | finishChunked p =>
    simp only [MutationOp.updatePathPrefix, hkeep p (h p List.mem_cons_self)]

/-- A condition that is added is stripped again. -/
@[simp] theorem condition_uncond (op : MutationOp) (dst : PathBuf) (m : Option String) :
    (op.condition dst m).uncond = op.uncond := by
  unfold MutationOp.condition
  split
  · split <;> rfl
  · split <;> rfl
  · rfl

/-- Queueing a rename rewrites nothing when the entries it may rewrite lie outside its source. -/
theorem followRename_uncond {src dst : PathBuf} {s : Option PathBuf} {m : Option String}
    {e : JournalEntry} (h : e.retargeted = false → ∀ p ∈ e.op.names, ¬ src <+: p) :
    (followRename (.rename src dst s m) e).uncond = e.uncond := by
  simp only [followRename]
  split
  · rename_i hfree
    rw [Bool.and_eq_true, Bool.not_eq_true', Bool.not_eq_true'] at hfree
    simp only [JournalEntry.uncond, condition_uncond,
      updatePathPrefix_of_outside (h hfree.2)]
  · rfl

/-! ## What an edit of the queue keeps -/

/-- Following a rename keeps an entry's number. -/
theorem followRename_seq (op : MutationOp) (e : JournalEntry) : (followRename op e).seq = e.seq := by
  unfold followRename
  split
  · split <;> rfl
  · rfl

/-- So does rebasing. -/
theorem rebaseEntry_seq (new : Option String) (e : JournalEntry) : (rebaseEntry new e).seq = e.seq := by
  unfold rebaseEntry
  split <;> rfl

/-- Removing files leaves what was saved. -/
theorem removeFiles_saved (d : CacheDir) (ps : List PathBuf) :
    (d.removeFiles ps).journalFile = d.journalFile ∧ (d.removeFiles ps).conflictsFile = d.conflictsFile := by
  induction ps generalizing d with
  | nil => exact ⟨rfl, rfl⟩
  | cons p ps ih => exact ih (d.removeFile p)

end MutationJournal

end Ncrs
