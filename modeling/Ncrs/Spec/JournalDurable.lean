import Ncrs.Spec.JournalCorrect

/-!
# The journal's files hold what the journal holds

Every operation of the journal either changes marks that are not persisted, or ends in one of the two
save functions. `Saves` says this once for each operation; what the files hold, how the version counts
and what a reload finds follow from it.

## Key results

- `MutationJournal.apply_saves`: which save function each operation goes through
- `MutationJournal.Durable.apply`: the files hold the queue and the conflicts after each operation
- `MutationJournal.Durable.reload`: what `load_or_create` makes of those files
- `MutationJournal.journal_is_durable`: over every history of operations
-/

namespace Ncrs

namespace MutationJournal

variable {j k : MutationJournal}

/-! ## What an operation can do -/

/-- `k` has the conflicts, files and version of `j`; its entries are entries of `j`, perhaps changed. -/
structure Requeued (j k : MutationJournal) : Prop where
  conflicts : k.conflicts = j.conflicts
  nextConflictId : k.nextConflictId = j.nextConflictId
  nextSeq : k.nextSeq = j.nextSeq
  version : k.dirtyVersion = j.dirtyVersion
  journalFile : k.disk.journalFile = j.disk.journalFile
  conflictsFile : k.disk.conflictsFile = j.disk.conflictsFile
  seqs : ∀ seq ∈ k.entries.map (·.seq), seq ∈ j.entries.map (·.seq)

/-- An operation changes no more than marks, or saves a changed queue, or saves changed conflicts. -/
inductive Saves (j : MutationJournal) : MutationJournal → Prop
  | marks {k : MutationJournal} (h : Requeued j k)
    (hsame : k.entries.map persisted = j.entries.map persisted) : Saves j k
  | queue {k : MutationJournal} (h : Requeued j k) : Saves j k.saveJournal
  | queued {k : MutationJournal} (h : Requeued j k) (e : JournalEntry) (hseq : e.seq = j.nextSeq) :
    Saves j (saveJournal { k with entries := k.entries ++ [e], nextSeq := j.nextSeq + 1 })
  | conflicts (cs : List ConflictRecord) (n : Nat) (hle : j.nextConflictId ≤ n)
      (hids : (∀ c ∈ j.conflicts, c.id < j.nextConflictId) → ∀ c ∈ cs, c.id < n) :
    Saves j (saveConflicts { j with conflicts := cs, nextConflictId := n })

/-- Nothing is queued anew. -/
theorem Requeued.refl (j : MutationJournal) : Requeued j j := ⟨rfl, rfl, rfl, rfl, rfl, rfl, fun _ h => h⟩

/-- Other entries under numbers that were there. -/
theorem Requeued.entries (h : Requeued j k) {l : List JournalEntry}
    (hl : ∀ seq ∈ l.map (·.seq), seq ∈ k.entries.map (·.seq)) : Requeued j { k with entries := l } :=
  ⟨h.conflicts, h.nextConflictId, h.nextSeq, h.version, h.journalFile, h.conflictsFile,
    fun seq hseq => h.seqs seq (hl seq hseq)⟩

/-- Removing staging files. -/
theorem Requeued.removeStaging (h : Requeued j k) (ps : List PathBuf) : Requeued j (k.removeStaging ps) :=
  ⟨h.conflicts, h.nextConflictId, h.nextSeq, h.version, (removeFiles_saved k.disk ps).1.trans h.journalFile,
    (removeFiles_saved k.disk ps).2.trans h.conflictsFile, h.seqs⟩

/-- Entries left out. -/
theorem seqs_sublist {l l' : List JournalEntry} (h : l.Sublist l') :
    ∀ seq ∈ l.map (·.seq), seq ∈ l'.map (·.seq) := fun _ hseq => (h.map _).subset hseq

/-- Changing an entry that keeps its number. -/
theorem Requeued.modifyAt (h : Requeued j k) (i : Nat) {f : JournalEntry → JournalEntry}
    (hf : ∀ e, (f e).seq = e.seq) : Requeued j { k with entries := k.entries.modify i f } := by
  have hseqs : (k.entries.modify i f).map (·.seq) = k.entries.map (·.seq) := List.map_modify_of_eq hf _ _
  exact h.entries fun _ hs => hseqs ▸ hs

/-- The same of an entry found by its number. -/
theorem Requeued.modify (h : Requeued j k) (seq : SeqId) {f : JournalEntry → JournalEntry}
    (hf : ∀ e, (f e).seq = e.seq) : Requeued j (k.modify seq f) := by
  unfold MutationJournal.modify
  split
  · exact h.modifyAt _ hf
  · exact h

/-- Coalescing queues nothing. -/
theorem Requeued.coalesce (h : Requeued j k) (op : MutationOp) : Requeued j (k.coalesceBeforeEnqueue op) := by
  unfold coalesceBeforeEnqueue
  split
  · split
    · exact h
    · dsimp only
      split
      · exact (h.entries (seqs_sublist List.filter_sublist)).removeStaging _
      · exact h.entries (seqs_sublist List.filter_sublist)
  · exact h.entries (seqs_sublist List.filter_sublist)
  · exact h

/-- An enqueue saves the queue with the new entry. -/
theorem saves_enqueue (j : MutationJournal) (op : MutationOp) : Saves j (j.enqueue op).2 := by
  have hcoalesced := (Requeued.refl j).coalesce op
  have hnext := hcoalesced.nextSeq
  have hrenamed : Requeued j { j.coalesceBeforeEnqueue op with
      entries := (j.coalesceBeforeEnqueue op).entries.map (followRename op) } := by
    refine hcoalesced.entries fun seq hseq => ?_
    rw [List.map_map] at hseq
    exact (List.map_congr_left fun e _ => followRename_seq op e) ▸ hseq
  have hsaves := Saves.queued hrenamed { seq := j.nextSeq, op := op } rfl
  unfold enqueue
  dsimp only
  rw [hnext]
  exact hsaves

/-- Re-pointing an upload saves the queue. -/
theorem saves_retargetUpload (j : MutationJournal) (src dst : PathBuf) (base : Option String) :
    Saves j (j.retargetUpload src dst base).2 := by
  have hkept : Saves j j := .marks (.refl j) rfl
  unfold retargetUpload
  split
  · rename_i e he
    split
    · split
      · exact hkept
      · split
        · exact hkept
        · refine .queue ((Requeued.refl j).entries fun seq hseq => ?_)
          rw [List.map_append, List.mem_append] at hseq
          obtain hseq | hseq := hseq
          · exact seqs_sublist List.filter_sublist seq hseq
          · -- the upload itself goes to the end
            have hmem : e ∈ j.entries := List.mem_of_mem_filter (he ▸ List.mem_singleton_self e)
            rw [List.map_singleton, List.mem_singleton] at hseq
            rw [hseq]
            exact List.mem_map.mpr ⟨e, hmem, rfl⟩
    · exact hkept
  · exact hkept

/-- Changing what is not saved changes nothing in the file. -/
theorem map_persisted_modify (l : List JournalEntry) (i : Nat) {f : JournalEntry → JournalEntry}
    (hf : ∀ e, persisted (f e) = persisted e) : (l.modify i f).map persisted = l.map persisted :=
  List.map_modify_of_eq hf _ _

/-- Settling an upload saves the queue, or changes a mark only. -/
theorem saves_settleUpload (j : MutationJournal) (seq : SeqId) (startedAs : PathBuf)
    (ifMatch : Option String) : Saves j (j.settleUpload seq startedAs ifMatch).2 := by
  obtain ⟨i, e, -, -, -, heq⟩ | hkept | ⟨msg, heq⟩ | ⟨i, path, etag, heq⟩ :=
    j.settleUpload_cases seq startedAs ifMatch
  · rw [heq]
    exact .queue (((Requeued.refl j).entries (seqs_sublist (List.eraseIdx_sublist _ _))).removeStaging _)
  · rw [hkept]
    exact .marks (.refl j) rfl
  · rw [heq]
    exact .queue ((Requeued.refl j).modify seq fun _ => rfl)
  · rw [heq]
    exact .marks ((Requeued.refl j).modifyAt i fun _ => rfl) (map_persisted_modify _ _ fun _ => rfl)

/-- Handing over a staging file saves it. -/
theorem saves_handStagingToRename (j : MutationJournal) (uploadedAs staging : PathBuf) :
    Saves j (j.handStagingToRename uploadedAs staging).2 := by
  unfold handStagingToRename
  split
  · exact .marks (.refl j) rfl
  · refine .queue ((Requeued.refl j).modifyAt _ fun e => ?_)
    split <;> rfl

/-- So does a rebase. -/
theorem saves_rebase (j : MutationJournal) (path : PathBuf) (sent new : Option String) :
    Saves j (j.rebase path sent new) := by
  unfold rebase
  split
  · exact .marks (.refl j) rfl
  · rename_i sent
    split
    · refine .queue ((Requeued.refl j).entries fun s hs => ?_)
      obtain ⟨e', he', rfl⟩ := List.mem_map.mp hs
      obtain ⟨e, he, rfl⟩ := List.mem_map.mp he'
      have hsame : (if basedOn path sent e then rebaseEntry new e else e).seq = e.seq := by
        split
        · exact rebaseEntry_seq new e
        · rfl
      rw [hsame]
      exact List.mem_map_of_mem he
    · exact .marks (.refl j) rfl

/-- A claim changes a mark only. -/
theorem saves_claim (j : MutationJournal) (seq : SeqId) : Saves j (j.claim seq).2 := by
  have hkept : Saves j j := .marks (.refl j) rfl
  unfold claim
  split
  · split
    · exact hkept
    · refine .marks ((Requeued.refl j).modify seq fun _ => rfl) ?_
      show (j.modify seq _).entries.map persisted = _
      unfold MutationJournal.modify
      split
      · exact map_persisted_modify _ _ fun _ => rfl
      · rfl
  · exact hkept

/-- Superseding uploads saves the queue. -/
theorem saves_supersedeUploads (j : MutationJournal) (path : PathBuf) (newest : SeqId) :
    Saves j (j.supersedeUploads path newest) := by
  unfold supersedeUploads
  dsimp only
  split
  · exact .marks (.refl j) rfl
  · exact .queue (((Requeued.refl j).entries (seqs_sublist List.filter_sublist)).removeStaging _)

/-- Resolving a conflict saves the conflicts. -/
theorem saves_resolveConflict (j : MutationJournal) (id : Nat) : Saves j (j.resolveConflict id) := by
  unfold resolveConflict
  split
  · rename_i i hi
    refine .conflicts (j.conflicts.modify i fun c => { c with resolved := true }) _ (Nat.le_refl _)
      fun h c hc => ?_
    have hids : (j.conflicts.modify i fun c => { c with resolved := true }).map (·.id) =
        j.conflicts.map (·.id) := by
      apply List.map_modify_of_eq
      exact fun _ => rfl
    have hid : c.id ∈ j.conflicts.map (·.id) := hids ▸ List.mem_map_of_mem hc
    obtain ⟨c', hc', heq⟩ := List.mem_map.mp hid
    exact heq ▸ h c' hc'
  · exact .conflicts j.conflicts _ (Nat.le_refl _) fun h => h

/-- Every operation saves what it changes. -/
theorem apply_saves (j : MutationJournal) (op : JournalOp) : Saves j (j.apply op) := by
  cases op with
  | enqueue op => exact saves_enqueue j op
  | dequeueFront =>
    show Saves j j.dequeueFront.2
    unfold dequeueFront
    split
    · rename_i e rest hj
      exact .queue ((Requeued.refl j).entries (hj ▸ seqs_sublist (List.sublist_cons_self e rest)))
    · exact .marks (.refl j) rfl
  | retargetUpload src dst base => exact saves_retargetUpload j src dst base
  | settleUpload seq startedAs ifMatch => exact saves_settleUpload j seq startedAs ifMatch
  | handStagingToRename uploadedAs staging => exact saves_handStagingToRename j uploadedAs staging
  | rebase path sent new => exact saves_rebase j path sent new
  | supersedeUploads path newest => exact saves_supersedeUploads j path newest
  | claim seq => exact saves_claim j seq
  | markFailed seq error => exact .queue ((Requeued.refl j).modify seq fun _ => rfl)
  | markDeferred seq error => exact .queue ((Requeued.refl j).modify seq fun _ => rfl)
  | remove seq => exact .queue ((Requeued.refl j).entries (seqs_sublist List.filter_sublist))
  | addConflict kind =>
    refine .conflicts _ _ (Nat.le_succ _) fun h c hc => ?_
    obtain hc | hc := List.mem_append.mp hc
    · exact Nat.lt_succ_of_lt (h c hc)
    · rw [List.mem_singleton.mp hc]
      exact Nat.lt_succ_self _
  | resolveConflict id => exact saves_resolveConflict j id
  | resolveAllConflicts =>
    refine .conflicts _ _ (Nat.le_refl _) fun h c hc => ?_
    obtain ⟨c', hc', rfl⟩ := List.mem_map.mp hc
    exact h c' hc'

/-! ## The files -/

/-- The files hold what the journal holds, a file that does not exist counting as the empty list, as
`load_or_create` reads it; every id in use is below the next one. -/
structure Durable (j : MutationJournal) : Prop where
  journal : j.disk.journalFile.getD [] = j.entries.map persisted
  conflicts : j.disk.conflictsFile.getD [] = j.conflicts
  seqs : ∀ e ∈ j.entries, e.seq < j.nextSeq
  ids : ∀ c ∈ j.conflicts, c.id < j.nextConflictId

/-- The entries that are queued have numbers below the next. -/
theorem Durable.requeued_seqs (h : Durable j) (hk : Requeued j k) : ∀ e ∈ k.entries, e.seq < j.nextSeq := by
  intro e he
  obtain ⟨e', he', heq⟩ := List.mem_map.mp (hk.seqs e.seq (List.mem_map_of_mem he))
  exact heq ▸ h.seqs e' he'

/-- What is saved is what is held. -/
theorem Durable.saves (h : Durable j) (hk : Saves j k) : Durable k := by
  cases hk with
  | marks hq hsame =>
    -- marks are not saved: the file has the entries all the same
    constructor
    · rw [hq.journalFile, hsame]
      exact h.journal
    · rw [hq.conflictsFile, hq.conflicts]
      exact h.conflicts
    · rw [hq.nextSeq]
      exact h.requeued_seqs hq
    · rw [hq.conflicts, hq.nextConflictId]
      exact h.ids
  | @queue k hq =>
    -- the queue is written whole
    constructor
    · rfl
    · show k.disk.conflictsFile.getD [] = k.conflicts
      rw [hq.conflictsFile, hq.conflicts]
      exact h.conflicts
    · show ∀ e ∈ k.entries, e.seq < k.nextSeq
      rw [hq.nextSeq]
      exact h.requeued_seqs hq
    · show ∀ c ∈ k.conflicts, c.id < k.nextConflictId
      rw [hq.conflicts, hq.nextConflictId]
      exact h.ids
  | @queued k hq e hseq =>
    -- with an entry more, under the next number
    constructor
    · rfl
    · show k.disk.conflictsFile.getD [] = k.conflicts
      rw [hq.conflictsFile, hq.conflicts]
      exact h.conflicts
    · intro e' he'
      show e'.seq < j.nextSeq + 1
      obtain he' | he' := List.mem_append.mp he'
      · exact Nat.lt_succ_of_lt (h.requeued_seqs hq e' he')
      · rw [List.mem_singleton.mp he', hseq]
        exact Nat.lt_succ_self _
    · show ∀ c ∈ k.conflicts, c.id < k.nextConflictId
      rw [hq.conflicts, hq.nextConflictId]
      exact h.ids
  | conflicts cs n hle hids =>
    exact ⟨h.journal, rfl, h.seqs, hids h.ids⟩

/-- And so after every run of operations. -/
theorem Durable.applyAll (ops : List JournalOp) : ∀ {j : MutationJournal}, Durable j →
    Durable (j.applyAll ops) := by
  induction ops with
  | nil => exact fun h => h
  | cons op ops ih => exact fun h => ih (h.saves (apply_saves _ op))

/-- The version has grown wherever a file, the queue (without its marks) or the conflicts changed. -/
def Counted (j k : MutationJournal) : Prop :=
  (k.disk.journalFile ≠ j.disk.journalFile ∨ k.disk.conflictsFile ≠ j.disk.conflictsFile ∨
    k.entries.map persisted ≠ j.entries.map persisted ∨ k.conflicts ≠ j.conflicts) →
      j.dirtyVersion < k.dirtyVersion

/-- No number is handed out twice. -/
theorem Saves.counted (h : Saves j k) : Counted j k := by
  intro hchanged
  cases h with
  | marks hq hsame =>
    obtain hne | hne | hne | hne := hchanged
    · exact absurd hq.journalFile hne
    · exact absurd hq.conflictsFile hne
    · exact absurd hsame hne
    · exact absurd hq.conflicts hne
  | @queue k hq =>
    show j.dirtyVersion < k.dirtyVersion + 1
    rw [hq.version]
    exact Nat.lt_succ_self _
  | @queued k hq e hseq =>
    show j.dirtyVersion < k.dirtyVersion + 1
    rw [hq.version]
    exact Nat.lt_succ_self _
  | conflicts cs n hle hids => exact Nat.lt_succ_self _

/-! ## Loading -/

/-- A number is below the largest plus one. -/
theorem lt_maxOf_succ {n : Nat} {ns : List Nat} (h : n ∈ ns) : n < maxOf ns + 1 := by
  have hge : ∀ (ns : List Nat) (m : Nat), m ≤ ns.foldl max m ∧ ∀ n ∈ ns, n ≤ ns.foldl max m := by
    intro ns
    induction ns with
    | nil => exact fun m => ⟨Nat.le_refl m, fun n hn => absurd hn List.not_mem_nil⟩
    | cons a ns ih =>
      intro m
      obtain ⟨hstart, hall⟩ := ih (max m a)
      refine ⟨Nat.le_trans (Nat.le_max_left m a) hstart, fun n hn => ?_⟩
      obtain rfl | hn := List.mem_cons.mp hn
      · exact Nat.le_trans (Nat.le_max_right m n) hstart
      · exact hall n hn
  exact Nat.lt_succ_of_le ((hge ns 0).2 n h)

/-- Every staging file the entries need is there. -/
def StagingPresent (files : PathBuf → Option LocalFile) (entries : List JournalEntry) : Prop :=
  ∀ e ∈ entries, ∀ s, e.op.stagingPath = some s → (files s).isSome = true

/-- An entry whose staging file is there is loaded. -/
theorem loadEntry_of_present {files : PathBuf → Option LocalFile} {e : JournalEntry}
    (h : ∀ s, e.op.stagingPath = some s → (files s).isSome = true) : loadEntry files e = some e := by
  unfold loadEntry
  split
  · rename_i src dst s m hop
    have hs : (files s).isSome = true := h s (by rw [hop]; rfl)
    rw [if_pos hs]
  · rfl
  · split
    · rename_i s hs
      rw [if_pos (h s hs)]
    · rfl

/-- What loading makes of a directory in which no staging file is missing. -/
theorem loadOrCreate_of_present {d : CacheDir} (h : StagingPresent d.files (d.journalFile.getD [])) :
    (loadOrCreate d).entries = d.journalFile.getD [] ∧
      (loadOrCreate d).conflicts = d.conflictsFile.getD [] ∧
      (loadOrCreate d).nextSeq = maxOf ((d.journalFile.getD []).map (·.seq)) + 1 ∧
      (loadOrCreate d).nextConflictId = maxOf ((d.conflictsFile.getD []).map (·.id)) + 1 ∧
      (loadOrCreate d).disk.journalFile = d.journalFile ∧
      (loadOrCreate d).disk.conflictsFile.getD [] = d.conflictsFile.getD [] := by
  have hload : ∀ e ∈ d.journalFile.getD [], loadEntry d.files e = some e :=
    fun e he => loadEntry_of_present (h e he)
  have horphans : (d.journalFile.getD []).filter (fun e => (loadEntry d.files e).isNone) = [] := by
    rw [List.filter_eq_nil_iff]
    intro e he
    rw [hload e he]
    exact Bool.false_ne_true
  have hall : (d.journalFile.getD []).filterMap (loadEntry d.files) = d.journalFile.getD [] := by
    conv_rhs => rw [← List.filterMap_some (l := d.journalFile.getD [])]
    exact List.filterMap_congr hload
  unfold loadOrCreate
  simp only [horphans, hall, List.foldl_nil, List.map_nil, List.not_mem_nil, not_false_eq_true, decide_true,
    List.filter_true]
  split
  · exact ⟨rfl, rfl, rfl, rfl, rfl, rfl⟩
  · exact ⟨rfl, rfl, rfl, rfl, rfl, rfl⟩

/-- The cache directory an earlier session left: the marks of its entries were not written. -/
def leftDir (files : PathBuf → Option LocalFile) (journal : Option (List JournalEntry))
    (conflicts : Option (List ConflictRecord)) : CacheDir :=
  { files := files, journalFile := journal.map (·.map persisted), conflictsFile := conflicts }

/-- A journal that is loaded with its staging files is as it was saved. -/
theorem Durable.load {files : PathBuf → Option LocalFile} {journal : Option (List JournalEntry)}
    {conflicts : Option (List ConflictRecord)} (h : StagingPresent files (journal.getD [])) :
    Durable (loadOrCreate (leftDir files journal conflicts)) := by
  have hfile : (leftDir files journal conflicts).journalFile.getD [] = (journal.getD []).map persisted := by
    cases journal <;> rfl
  have hpresent : StagingPresent files ((leftDir files journal conflicts).journalFile.getD []) := by
    rw [hfile]
    intro e he s hs
    obtain ⟨e', he', rfl⟩ := List.mem_map.mp he
    exact h e' he' s hs
  obtain ⟨hentries, hconflicts, hseq, hid, hj, hc⟩ := loadOrCreate_of_present hpresent
  constructor
  · rw [hj, hentries, hfile, List.map_map]
    rfl
  · rw [hc, hconflicts]
  · rw [hentries, hseq]
    exact fun e he => lt_maxOf_succ (List.mem_map_of_mem he)
  · rw [hconflicts, hid]
    exact fun c hc => lt_maxOf_succ (List.mem_map_of_mem hc)

/-- What the next session finds in the journal's files. -/
structure Reloads (j r : MutationJournal) : Prop where
  entries : r.entries = j.entries.map persisted
  conflicts : r.conflicts = j.conflicts
  seqs : ∀ e ∈ j.entries, e.seq < r.nextSeq
  ids : ∀ c ∈ j.conflicts, c.id < r.nextConflictId

/-- What was saved is loaded again. -/
theorem Durable.reload (h : Durable j) {files : PathBuf → Option LocalFile}
    (hpresent : StagingPresent files j.entries) :
    Reloads j (loadOrCreate { j.disk with files := files }) := by
  have hloads : StagingPresent files (j.disk.journalFile.getD []) := by
    rw [h.journal]
    intro e he s hs
    obtain ⟨e', he', rfl⟩ := List.mem_map.mp he
    exact hpresent e' he' s hs
  obtain ⟨hentries, hconflicts, hseq, hid, -, -⟩ :=
    loadOrCreate_of_present (d := { j.disk with files := files }) hloads
  have hseq : _ = maxOf ((j.disk.journalFile.getD []).map (·.seq)) + 1 := hseq
  have hid : _ = maxOf ((j.disk.conflictsFile.getD []).map (·.id)) + 1 := hid
  constructor
  · exact hentries.trans h.journal
  · exact hconflicts.trans h.conflicts
  · intro e he
    rw [hseq, h.journal, List.map_map]
    exact lt_maxOf_succ (List.mem_map_of_mem he)
  · intro c hc
    rw [hid, h.conflicts]
    exact lt_maxOf_succ (List.mem_map_of_mem hc)

/-- From a journal loaded with its staging files in place, after every history of operations: the two
files hold the queue (without its marks) and the conflicts, the next operation counts the version up
if it changes either of them, and loading the files, staging files in place, gives the same queue and
conflicts with counters past every id in use. -/
theorem journal_is_durable (files : PathBuf → Option LocalFile) (journal : Option (List JournalEntry))
    (conflicts : Option (List ConflictRecord)) (hpresent : StagingPresent files (journal.getD []))
    (ops : List JournalOp) :
    let j := (loadOrCreate (leftDir files journal conflicts)).applyAll ops
    j.disk.journalFile.getD [] = j.entries.map persisted ∧
      j.disk.conflictsFile.getD [] = j.conflicts ∧
      (∀ op, Counted j (j.apply op)) ∧
      ∀ files', StagingPresent files' j.entries →
        Reloads j (loadOrCreate { j.disk with files := files' }) := by
  intro j
  have h : Durable j := (Durable.load hpresent).applyAll ops
  exact ⟨h.journal, h.conflicts, fun op => (apply_saves j op).counted, fun _ hfiles => h.reload hfiles⟩

/-- A queued upload that is claimed and fails, and a conflict that is resolved. -/
def savedOps : List JournalOp :=
  [.enqueue (.put ["a"] ["write_1"] none), .claim 1, .markFailed 1 "busy",
   .addConflict (.permanentFailure "gone"), .resolveConflict 1]

/-- A failed upload is saved with its attempts. -/
theorem failed_upload_is_saved :
    ((loadOrCreate (leftDir (fun _ => none) none none)).applyAll savedOps).disk.journalFile =
        some [{ seq := 1, op := .put ["a"] ["write_1"] none, attempts := 1, lastError := some "busy" }] ∧
      ((loadOrCreate (leftDir (fun _ => none) none none)).applyAll savedOps).disk.journalFile.getD [] =
        ((loadOrCreate (leftDir (fun _ => none) none none)).applyAll savedOps).entries.map persisted ∧
      ((loadOrCreate (leftDir (fun _ => none) none none)).applyAll savedOps).disk.conflictsFile.getD [] =
        ((loadOrCreate (leftDir (fun _ => none) none none)).applyAll savedOps).conflicts :=
  have h := journal_is_durable (fun _ => none) none none (fun _ he => absurd he List.not_mem_nil) savedOps
  ⟨by decide, h.1, h.2.1⟩

/-- An upload whose staging file is gone. -/
def orphanedUpload : JournalEntry := { seq := 1, op := .put ["a"] ["write_1"] none }

/-- Loading drops an orphan from the queue and reports it, and saves the conflicts only: the journal
file keeps the entry until an operation saves the queue. -/
theorem orphan_stays_in_file :
    let j := (loadOrCreate (leftDir (fun _ => none) (some [orphanedUpload]) none)).applyAll
      [.addConflict (.permanentFailure "gone")]
    j.disk.journalFile.getD [] = [orphanedUpload] ∧ j.entries.map persisted = [] ∧
      j.disk.journalFile.getD [] ≠ j.entries.map persisted := by
  decide

/-! ## Loading twice -/

/-- Reporting orphaned entries appends one conflict each and touches nothing else. -/
theorem foldl_addConflict (report : JournalEntry → ConflictKind) (orphaned : List JournalEntry)
    (j : MutationJournal) (hsaved : j.disk.conflictsFile.getD [] = j.conflicts) :
    let j' := orphaned.foldl (fun j e => j.addConflict (report e)) j
    j'.entries = j.entries ∧ j'.disk.journalFile = j.disk.journalFile ∧ j'.disk.files = j.disk.files ∧
      j'.conflicts.length = j.conflicts.length + orphaned.length ∧
      j'.disk.conflictsFile.getD [] = j'.conflicts := by
  induction orphaned generalizing j with
  | nil => exact ⟨rfl, rfl, rfl, rfl, hsaved⟩
  | cons e orphaned ih =>
    obtain ⟨hentries, hjournal, hfiles, hlen, hdisk⟩ := ih (j.addConflict (report e)) rfl
    have hone : (j.addConflict (report e)).conflicts.length = j.conflicts.length + 1 := by
      simp [addConflict, saveConflicts]
    refine ⟨hentries, hjournal, hfiles, ?_, hdisk⟩
    rw [List.length_cons, Nat.add_comm orphaned.length 1, ← Nat.add_assoc, ← hone]
    exact hlen

/-- The entries of a journal file whose upload has lost its staging file. -/
def orphansOf (d : CacheDir) : List JournalEntry :=
  (d.journalFile.getD []).filter fun e => (loadEntry d.files e).isNone

/-- Loading leaves the journal file and the staging files as they are, and adds to the stored
conflicts one for each orphan. -/
theorem loadOrCreate_saved (d : CacheDir) :
    (loadOrCreate d).entries =
        ((d.journalFile.getD []).filterMap (loadEntry d.files)).filter
          (fun e => decide (e.seq ∉ (orphansOf d).map (·.seq))) ∧
      (loadOrCreate d).disk.journalFile = d.journalFile ∧ (loadOrCreate d).disk.files = d.files ∧
      (loadOrCreate d).conflicts.length = (d.conflictsFile.getD []).length + (orphansOf d).length ∧
      (loadOrCreate d).disk.conflictsFile.getD [] = (loadOrCreate d).conflicts := by
  have hfold := foldl_addConflict
    (fun e => .permanentFailure s!"staging file missing for journal entry seq={e.seq}") (orphansOf d)
    { entries := ((d.journalFile.getD []).filterMap (loadEntry d.files)).filter
        fun e => decide (e.seq ∉ (orphansOf d).map (·.seq))
      nextSeq := maxOf ((d.journalFile.getD []).map (·.seq)) + 1
      conflicts := d.conflictsFile.getD []
      nextConflictId := maxOf ((d.conflictsFile.getD []).map (·.id)) + 1
      disk := d } rfl
  generalize hj : (orphansOf d).foldl _ _ = j at hfold
  have hload : loadOrCreate d = if j.conflicts.isEmpty then j else j.saveConflicts := by
    rw [← hj]
    rfl
  rw [hload]
  split
  · exact hfold
  · exact ⟨hfold.1, hfold.2.1, hfold.2.2.1, hfold.2.2.2.1, rfl⟩

/-- Every upload still has its staging file; a MOVE may have lost its copy. -/
def UploadsPresent (files : PathBuf → Option LocalFile) (entries : List JournalEntry) : Prop :=
  ∀ e ∈ entries, (∀ src dst s m, e.op ≠ .rename src dst s m) →
    ∀ s, e.op.stagingPath = some s → (files s).isSome

/-- An entry is loaded when its staging file is there, or when it is a rename, which can do
    without. -/
theorem loadEntry_isSome_iff {files : PathBuf → Option LocalFile} {e : JournalEntry} :
    (loadEntry files e).isSome ↔ ((∀ src dst s m, e.op ≠ .rename src dst s m) →
      ∀ s, e.op.stagingPath = some s → (files s).isSome) := by
  unfold loadEntry
  cases hop : e.op with
  | rename src dst s m =>
    cases s with
    | none => simp
    | some s => cases hs : files s <;> simp [hs]
  | put p s m => cases hs : files s <;> simp [MutationOp.stagingPath, hs]
  | finishChunked p u i b t s m sp h w => cases hs : files s <;> simp [MutationOp.stagingPath, hs]
  | mkDir p => simp [MutationOp.stagingPath]
  | unlink p => simp [MutationOp.stagingPath]
  | rmDir p => simp [MutationOp.stagingPath]

/-- The entries come back the same from a second load of the same directory; the conflicts do exactly
when the journal file lists no upload whose staging file is gone, since every load reports each of
these and none takes it out of the file. -/
theorem loading_twice_repeats_orphans (d : CacheDir) :
    ((loadOrCreate (loadOrCreate d).disk).entries = (loadOrCreate d).entries ∧
        (loadOrCreate (loadOrCreate d).disk).conflicts = (loadOrCreate d).conflicts) ↔
      UploadsPresent d.files (d.journalFile.getD []) := by
  obtain ⟨hentries, hjournal, hfiles, -, hdisk⟩ := loadOrCreate_saved d
  obtain ⟨hentries', -, -, hlen', -⟩ := loadOrCreate_saved (loadOrCreate d).disk
  have horphans : orphansOf (loadOrCreate d).disk = orphansOf d := by
    unfold orphansOf
    rw [hjournal, hfiles]
  rw [hjournal, hfiles, horphans, ← hentries] at hentries'
  rw [hdisk, horphans] at hlen'
  -- the second load would add the orphans once more
  constructor
  · rintro ⟨-, hsame⟩ e he
    apply loadEntry_isSome_iff.mp
    rw [hsame] at hlen'
    have hnil : orphansOf d = [] := List.length_eq_zero_iff.mp (by omega)
    have hnot := List.filter_eq_nil_iff.mp hnil e he
    rw [Bool.not_eq_true, Option.isNone_eq_false_iff] at hnot
    exact hnot
  · intro hall
    -- nothing is orphaned, so the second load reads back the conflicts the first one stored
    have hnil : orphansOf d = [] := by
      refine List.filter_eq_nil_iff.mpr fun e he => ?_
      rw [Bool.not_eq_true, Option.isNone_eq_false_iff]
      exact loadEntry_isSome_iff.mpr (hall e he)
    refine ⟨hentries', ?_⟩
    have hconf : (loadOrCreate (loadOrCreate d).disk).conflicts =
        (loadOrCreate d).disk.conflictsFile.getD [] := by
      have hnone : ((loadOrCreate d).disk.journalFile.getD []).filter
          (fun e => (loadEntry (loadOrCreate d).disk.files e).isNone) = [] := horphans.trans hnil
      rw [loadOrCreate, hnone, List.foldl_nil]
      split
      · rfl
      · rfl
    rw [hconf, hdisk]

/-- A streamed upload whose tail is gone is reported again by the second load. -/
theorem missing_tail_is_reported_twice :
    let d : CacheDir := leftDir (fun _ => none)
      (some [{ seq := 1, op := .finishChunked ["big.bin"] "u" 1 10 12 ["gone"] none false 0 false }]) none
    (loadOrCreate d).conflicts.length = 1 ∧
      (loadOrCreate (loadOrCreate d).disk).conflicts.length = 2 := by
  decide

end MutationJournal

end Ncrs
