import Ncrs.Native.ReplayLoop
import Ncrs.Spec.ReplayCorrect

/-!
# The local files a journal refers to

`Within P j` says that every staging file the queue of `j` refers to, in memory and as saved,
satisfies `P`; `Refers P Q j` asks for `P` of the queue in memory and only for the weaker `Q` of
the saved one. Apart from the operations that bring a file in, nothing the journal does enlarges
the set of files it refers to: each operation keeps `Refers P Q`, for every `P` and `Q`.

## Key results

- `Refers.live`: a live operation that brings no new file keeps `Refers`
- `Refers.replayRound`: so does a round of the replay
- `Refers.replayStep`: and each section of one
-/

namespace Ncrs

variable {P Q : PathBuf → Prop} {j : MutationJournal}

/-- Every staging file a list of entries refers to satisfies `P`. -/
def EntriesWithin (P : PathBuf → Prop) (l : List JournalEntry) : Prop :=
  ∀ e ∈ l, ∀ s, e.op.stagingPath = some s → P s

/-- So for the queue, in memory and as saved. -/
structure Within (P : PathBuf → Prop) (j : MutationJournal) : Prop where
  queued : EntriesWithin P j.entries
  saved : EntriesWithin P (j.disk.journalFile.getD [])

/-- The queue in memory refers to files in `P`, the saved one to files in `Q`. -/
structure Refers (P Q : PathBuf → Prop) (j : MutationJournal) : Prop where
  sub : ∀ s, P s → Q s
  queued : EntriesWithin P j.entries
  saved : EntriesWithin Q (j.disk.journalFile.getD [])

/-- A journal whose staging files have a property refers to those only. -/
theorem Within.refers (h : Within P j) : Refers P P j := ⟨fun _ hs => hs, h.queued, h.saved⟩

theorem Refers.within (h : Refers P P j) : Within P j := ⟨h.queued, h.saved⟩

namespace EntriesWithin

variable {l l' : List JournalEntry}

/-- Some of the entries have it too. -/
theorem subset (h : EntriesWithin P l) (hsub : ∀ e ∈ l', e ∈ l) : EntriesWithin P l' :=
  fun e he => h e (hsub e he)

theorem filter (h : EntriesWithin P l) (p : JournalEntry → Bool) : EntriesWithin P (l.filter p) :=
  h.subset fun _ he => List.mem_of_mem_filter he

/-- And entries one after the other. -/
theorem append (h : EntriesWithin P l) (h' : EntriesWithin P l') : EntriesWithin P (l ++ l') := by
  intro e he
  rcases List.mem_append.mp he with he | he
  · exact h e he
  · exact h' e he

/-- A single entry has it when its staging file does. -/
theorem singleton {e : JournalEntry} (h : ∀ s, e.op.stagingPath = some s → P s) :
    EntriesWithin P [e] := by
  intro x hx
  rw [List.mem_singleton.mp hx]
  exact h

/-- Changing entries other than in their files. -/
theorem map (h : EntriesWithin P l) {f : JournalEntry → JournalEntry}
    (hf : ∀ e, (f e).op.stagingPath = e.op.stagingPath) : EntriesWithin P (l.map f) := by
  intro e he s hs
  obtain ⟨x, hx, rfl⟩ := List.mem_map.mp he
  rw [hf] at hs
  exact h x hx s hs

/-- Changing entries without giving them other files. -/
theorem modify (h : EntriesWithin P l) (i : Nat) {f : JournalEntry → JournalEntry}
    (hf : ∀ e ∈ l, ∀ s, (f e).op.stagingPath = some s → P s) :
    EntriesWithin P (l.modify i f) := by
  intro e he s hs
  rw [List.mem_iff_getElem?] at he
  obtain ⟨k, hk⟩ := he
  rw [List.getElem?_modify] at hk
  cases hx : l[k]? with
  | none => rw [hx] at hk; simp at hk
  | some x =>
    rw [hx] at hk
    have hmem : x ∈ l := List.mem_iff_getElem?.mpr ⟨k, hx⟩
    rw [Option.map_eq_map, Option.map_some, Option.some.injEq] at hk
    split at hk
    · exact hf x hmem s (hk ▸ hs)
    · rw [← hk] at hs
      exact h x hmem s hs

end EntriesWithin

namespace Refers

/-- Local files may change under the journal. -/
theorem of_files (h : Refers P Q j) (files : PathBuf → Option LocalFile) :
    Refers P Q { j with disk := { j.disk with files := files } } := ⟨h.sub, h.queued, h.saved⟩

/-- Other entries that have the property. -/
theorem entries (h : Refers P Q j) {l : List JournalEntry} (hl : EntriesWithin P l) :
    Refers P Q { j with entries := l } := ⟨h.sub, hl, h.saved⟩

/-- Saving writes the queue as it is in memory. -/
theorem saveJournal (h : Refers P Q j) : Refers P Q j.saveJournal := by
  refine ⟨h.sub, h.queued, ?_⟩
  show EntriesWithin Q (j.entries.map MutationJournal.persisted)
  have hqueue : EntriesWithin P (j.entries.map MutationJournal.persisted) :=
    h.queued.map fun _ => rfl
  exact fun e he s hs => h.sub s (hqueue e he s hs)

/-- Removing files takes none of the entries' files into account. -/
theorem removeFiles (h : Refers P Q j) (ps : List PathBuf) : Refers P Q (j.removeStaging ps) := by
  refine ⟨h.sub, h.queued, ?_⟩
  show EntriesWithin Q ((j.disk.removeFiles ps).journalFile.getD [])
  rw [(MutationJournal.removeFiles_saved j.disk ps).1]
  exact h.saved

/-- An entry that keeps its operation keeps its file. -/
theorem modify (h : Refers P Q j) (seq : SeqId) {f : JournalEntry → JournalEntry}
    (hf : ∀ e, (f e).op = e.op) : Refers P Q (j.modify seq f) := by
  unfold MutationJournal.modify
  split
  · refine h.entries (h.queued.modify _ fun e he s hs => ?_)
    rw [hf] at hs
    exact h.queued e he s hs
  · exact h

/-- Coalescing only drops entries. -/
theorem coalesce (h : Refers P Q j) (op : MutationOp) : Refers P Q (j.coalesceBeforeEnqueue op) := by
  unfold MutationJournal.coalesceBeforeEnqueue
  split
  · split
    · exact h
    · dsimp only
      split
      · exact (h.entries (h.queued.filter _)).removeFiles _
      · exact h.entries (h.queued.filter _)
  · exact h.entries (h.queued.filter _)
  · exact h

end Refers

/-- Moving an operation to another path keeps its staging file. -/
theorem stagingPath_updatePathPrefix (op : MutationOp) (old new : PathBuf) :
    (op.updatePathPrefix old new).stagingPath = op.stagingPath := by
  cases op <;> rfl

/-- So does a condition. -/
theorem stagingPath_condition (op : MutationOp) (dst : PathBuf) (m : Option String) :
    (op.condition dst m).stagingPath = op.stagingPath := by
  rw [← MutationOp.stagingPath_uncond, MutationJournal.condition_uncond,
    MutationOp.stagingPath_uncond]

/-- And following a rename. -/
theorem stagingPath_followRename (op : MutationOp) (e : JournalEntry) :
    (MutationJournal.followRename op e).op.stagingPath = e.op.stagingPath := by
  unfold MutationJournal.followRename
  split
  · split
    · rw [stagingPath_condition, stagingPath_updatePathPrefix]
    · rfl
  · rfl

/-- And a rebase. -/
theorem stagingPath_rebaseEntry (new : Option String) (e : JournalEntry) :
    (MutationJournal.rebaseEntry new e).op.stagingPath = e.op.stagingPath := by
  have h := congrArg JournalEntry.op (MutationJournal.rebaseEntry_uncond new e)
  rw [JournalEntry.uncond_op, JournalEntry.uncond_op] at h
  rw [← MutationOp.stagingPath_uncond, h, MutationOp.stagingPath_uncond]

namespace Refers

/-- Queueing refers to the new operation's file besides. -/
theorem enqueue (h : Refers P Q j) {op : MutationOp} (hop : ∀ s, op.stagingPath = some s → P s) :
    Refers P Q (j.enqueue op).2 := by
  have hc := h.coalesce op
  refine saveJournal (j := { j.coalesceBeforeEnqueue op with
    entries := _, nextSeq := _ }) ⟨h.sub, ?_, hc.saved⟩
  exact (hc.queued.map (stagingPath_followRename op)).append (.singleton hop)

/-- The front entry is taken off. -/
theorem dequeueFront (h : Refers P Q j) : Refers P Q j.dequeueFront.2 := by
  unfold MutationJournal.dequeueFront
  split
  · rename_i e rest hj
    refine (h.entries (h.queued.subset fun x hx => ?_)).saveJournal
    rw [hj]
    exact List.mem_cons_of_mem _ hx
  · exact h

/-- A re-pointed upload keeps its staging file. -/
theorem retargetUpload (h : Refers P Q j) (src dst : PathBuf) (base : Option String) :
    Refers P Q (j.retargetUpload src dst base).2 := by
  by_cases hret : (j.retargetUpload src dst base).1 = true
  · obtain ⟨e, staging, hone, hop, -, -, hj⟩ := MutationJournal.retargetUpload_true hret
    rw [hj]
    have hmem : e ∈ j.entries.filter fun e => e.op.isUploadOf src := by
      rw [hone]
      exact List.mem_singleton_self e
    refine (h.entries ((h.queued.filter _).append (.singleton fun s hs => ?_))).saveJournal
    refine h.queued e (List.mem_of_mem_filter hmem) s ?_
    rw [hop]
    exact hs
  · rw [MutationJournal.retargetUpload_false (by simpa using hret)]
    exact h

/-- Older uploads are dropped. -/
theorem supersedeUploads (h : Refers P Q j) (path : PathBuf) (newest : SeqId) :
    Refers P Q (j.supersedeUploads path newest) := by
  unfold MutationJournal.supersedeUploads
  dsimp only
  split
  · exact h
  · exact ((h.entries (h.queued.filter _)).removeFiles _).saveJournal

/-- A failure is noted. -/
theorem markFailed (h : Refers P Q j) (seq : SeqId) (error : String) :
    Refers P Q (j.markFailed seq error) := by
  apply saveJournal
  exact h.modify seq fun _ => rfl

/-- A deferral is noted. -/
theorem markDeferred (h : Refers P Q j) (seq : SeqId) (error : String) :
    Refers P Q (j.markDeferred seq error) := by
  apply saveJournal
  exact h.modify seq fun _ => rfl

/-- An upload that is settled goes on with its own file. -/
theorem settleUpload (h : Refers P Q j) (seq : SeqId) (startedAs : PathBuf)
    (ifMatch : Option String) : Refers P Q (j.settleUpload seq startedAs ifMatch).2 := by
  obtain ⟨i, e, -, -, -, heq⟩ | heq | ⟨msg, heq⟩ | ⟨i, path, etag, heq⟩ :=
    j.settleUpload_cases seq startedAs ifMatch
  · rw [heq]
    exact ((h.entries (h.queued.subset fun _ hx => List.mem_of_mem_eraseIdx hx)).removeFiles
      _).saveJournal
  · rw [heq]
    exact h
  · rw [heq]
    exact h.markDeferred seq msg
  · rw [heq]
    exact h.entries (h.queued.modify i fun e he s hs => h.queued e he s hs)

/-- An entry is claimed. -/
theorem claim (h : Refers P Q j) (seq : SeqId) : Refers P Q (j.claim seq).2 := by
  unfold MutationJournal.claim
  split
  · split
    · exact h
    · exact h.modify seq fun _ => rfl
  · exact h

/-- An entry is removed. -/
theorem remove (h : Refers P Q j) (seq : SeqId) : Refers P Q (j.remove seq) :=
  (h.entries (h.queued.filter _)).saveJournal

/-- The staging file is handed to an entry behind. -/
theorem handStagingToRename (h : Refers P Q j) (uploadedAs : PathBuf) {staging : PathBuf}
    (hs : P staging) : Refers P Q (j.handStagingToRename uploadedAs staging).2 := by
  unfold MutationJournal.handStagingToRename
  split
  · exact h
  · refine (h.entries (h.queued.modify _ fun e he s hes => ?_)).saveJournal
    split at hes
    · obtain rfl : staging = s := by simpa [MutationOp.stagingPath] using hes
      exact hs
    · exact h.queued e he s hes

/-- Conditions are rebased. -/
theorem rebase (h : Refers P Q j) (path : PathBuf) (sent new : Option String) :
    Refers P Q (j.rebase path sent new) := by
  unfold MutationJournal.rebase
  split
  · exact h
  · split
    · refine (h.entries (h.queued.map fun e => ?_)).saveJournal
      split
      · exact stagingPath_rebaseEntry new e
      · rfl
    · exact h

/-- A conflict is noted. -/
theorem addConflict (h : Refers P Q j) (kind : ConflictKind) : Refers P Q (j.addConflict kind) :=
  ⟨h.sub, h.queued, h.saved⟩

/-- A staging file is recovered, which no entry has then. -/
theorem recoverStaging (h : Refers P Q j) (cacheDir staging path : PathBuf) :
    Refers P Q (j.recoverStaging cacheDir staging path).2 := by
  unfold MutationJournal.recoverStaging
  split
  · exact h
  · refine ⟨h.sub, h.queued, ?_⟩
    unfold CacheDir.moveFile
    dsimp only
    split
    · exact h.saved
    · exact h.saved

/-- A live operation that brings no local file in. -/
theorem live (h : Refers P Q j) (op : LiveOp)
    (hop : ∀ o, op = .enqueue o → ∀ s, o.stagingPath = some s → P s)
    (hhand : ∀ p s, op = .handStagingToRename p s → P s) : Refers P Q (op.apply j) := by
  cases op with
  | enqueue o => exact h.enqueue (hop o rfl)
  | retargetUpload src dst base => exact h.retargetUpload src dst base
  | supersedeUploads path newest => exact h.supersedeUploads path newest
  | settleUpload seq startedAs ifMatch => exact h.settleUpload seq startedAs ifMatch
  | claim seq => exact h.claim seq
  | markFailed seq error => exact h.markFailed seq error
  | markDeferred seq error => exact h.markDeferred seq error
  | remove seq => exact h.remove seq
  | handStagingToRename p s => exact h.handStagingToRename p (hhand p s rfl)
  | rebase path sent new => exact h.rebase path sent new

/-! ## The replay -/

/-- The front entry is claimed by the replayer. -/
theorem claimFront (h : Refers P Q j) : Refers P Q (Ncrs.claimFront j).2 := by
  unfold Ncrs.claimFront
  split
  · exact h
  · split
    · exact h
    · exact h.claim _

/-- What landed is noted. -/
theorem noteLanded (h : Refers P Q j) (op : MutationOp) (r : ReplayResult) :
    Refers P Q (Ncrs.noteLanded j op r) := by
  unfold Ncrs.noteLanded
  split
  · exact h.rebase ..
  · exact h.rebase ..
  · exact h.rebase ..
  · exact h

/-- The bytes of an upload are settled. -/
theorem settleBytes (h : Refers P Q j) (cacheDir : PathBuf) (e : JournalEntry) (r : ReplayResult) :
    Refers P Q (Ncrs.settleBytes j cacheDir e r) := by
  unfold Ncrs.settleBytes settleConflictStaging
  split
  · split
    · exact h.removeFiles _
    · exact h.recoverStaging ..
    · exact h.removeFiles _
    · exact h.recoverStaging ..
    · exact h.removeFiles _
    · exact h.removeFiles _
    · exact h
  · exact h

/-- An entry is settled. -/
theorem settleEntry (h : Refers P Q j) (c : FsCache) (e : JournalEntry) (r : ReplayResult) :
    Refers P Q (Ncrs.settleEntry j c e r).2.1 := by
  cases r with
  | ok => exact h.dequeueFront.removeFiles _
  | uploaded etag => exact h.dequeueFront.removeFiles _
  | conflict kind => exact (h.addConflict kind).dequeueFront
  | idempotent => exact h.dequeueFront.removeFiles _
  | retryable msg => exact h.markDeferred e.seq msg
  | serverError msg => exact h.markFailed e.seq msg

/-- Or recovered. -/
theorem recoverEntry (h : Refers P Q j) (cacheDir : PathBuf) (e : JournalEntry) :
    Refers P Q (Ncrs.recoverEntry j cacheDir e).2 := by
  unfold Ncrs.recoverEntry
  split
  · exact h.recoverStaging ..
  · split
    · exact h.recoverStaging ..
    · exact h.removeFiles _
  · exact h

/-- A round of the replay refers to no file that was not referred to before. -/
theorem replayRound {σ : Type} (ctx : ReplayContext σ) {w : ReplayState σ}
    (h : Refers P Q w.journal) : Refers P Q (Ncrs.replayRound ctx w).2.journal := by
  unfold Ncrs.replayRound
  dsimp only
  split
  · exact h
  · exact h
  · split
    · exact ((h.claimFront.recoverEntry _ _).addConflict _).dequeueFront
    · exact ((h.claimFront.noteLanded _ _).settleBytes _ _ _).settleEntry _ _ _

/-- Every step of the replayer refers to the same files. -/
theorem replayStep {l : ReplayLoop} (h : Refers P Q l.journal) (step : ReplayStep) :
    Refers P Q (l.replayStep step).journal := by
  unfold ReplayLoop.replayStep
  split
  · dsimp only
    split
    · exact h
    · exact h
    · exact h.claimFront
  · split
    · exact h
    · exact h
  · exact h.noteLanded _ _
  · exact h.settleBytes _ _ _
  · exact h.settleEntry _ _ _
  · split
    · exact h.recoverEntry _ _
    · exact h
  · exact (h.addConflict _).dequeueFront
  · exact h

end Refers

end Ncrs
