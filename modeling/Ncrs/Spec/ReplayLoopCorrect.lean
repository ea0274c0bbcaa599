import Ncrs.Native.ReplayLoop
import Ncrs.Spec.ReplayCorrect

/-!
# What the replay loop removes

`dequeue_front` pops whatever stands at the front. The loop's claimed entry is still there if
no live operation took it out or moved it in the meantime; `LiveOp.Spares` says when one
does not. Under that condition the front is the claimed entry at every point of every run, so
the loop removes the entry it executed and no other.

## Key results

- `LiveOp.Spares.head`: a live operation that spares an entry leaves it at the front
- `replay_removes_only_executed`: the loop only removes the entry it claimed
- `replay_removes_unexecuted`: without the condition it removes another one
-/

namespace Ncrs

/-- The live operation, done on the journal `j`, neither drops nor moves the entry `n`. -/
def LiveOp.Spares (j : MutationJournal) (n : SeqId) : LiveOp → Prop
  | enqueue (.unlink path) =>
    (j.entries.any fun e => e.op.hasPriorEtag path) = true ∨
    ∀ e ∈ j.entries, e.seq = n → e.op.isUploadOf path = false ∧ e.op.isMkDirOf path = false
  | enqueue (.rmDir path) => ∀ e ∈ j.entries, e.seq = n → e.op.isMkDirOf path = false
  | retargetUpload src dst base =>
    (j.retargetUpload src dst base).1 = true →
      ∀ e ∈ j.entries, e.seq = n → e.op.isUploadOf src = false
  | supersedeUploads path newest =>
    ∀ e ∈ j.entries, e.seq = n → MutationJournal.stale path newest e = false
  | settleUpload seq startedAs ifMatch =>
    seq = n → (j.settleUpload seq startedAs ifMatch).1 ≠ .withdrawn
  | remove seq => seq ≠ n
  | _ => True

/-- The entry `n` stands at the front. -/
def AtFront (l : List JournalEntry) (n : SeqId) : Prop := (l.map (·.seq)).head? = some n

theorem atFront_iff {l : List JournalEntry} {n : SeqId} :
    AtFront l n ↔ ∃ e rest, l = e :: rest ∧ e.seq = n := by
  unfold AtFront
  cases l with
  | nil => simp
  | cons e rest => simp

/-! ## Operations that keep the front -/

namespace AtFront

variable {l : List JournalEntry} {n : SeqId}

/-- Changing entries other than in their seq keeps the front. -/
theorem map (h : AtFront l n) {f : JournalEntry → JournalEntry} (hf : ∀ e, (f e).seq = e.seq) :
    AtFront (l.map f) n := by
  unfold AtFront at h ⊢
  rw [List.map_map]
  simpa [Function.comp_def, hf] using h

/-- Dropping other entries keeps the front. -/
theorem filter (h : AtFront l n) {p : JournalEntry → Bool}
    (hp : ∀ e ∈ l, e.seq = n → p e = true) : AtFront (l.filter p) n := by
  obtain ⟨e, rest, rfl, rfl⟩ := atFront_iff.mp h
  rw [List.filter_cons_of_pos (hp e List.mem_cons_self rfl)]
  rfl

theorem append (h : AtFront l n) (l' : List JournalEntry) : AtFront (l ++ l') n := by
  obtain ⟨e, rest, rfl, rfl⟩ := atFront_iff.mp h
  rfl

theorem modify (h : AtFront l n) (i : Nat) {f : JournalEntry → JournalEntry}
    (hf : ∀ e, (f e).seq = e.seq) : AtFront (l.modify i f) n := by
  obtain ⟨e, rest, rfl, rfl⟩ := atFront_iff.mp h
  cases i with
  | zero => simp [AtFront, hf]
  | succ i => simp [AtFront]

/-- Taking out another entry keeps the front. -/
theorem eraseIdx (h : AtFront l n) {i : Nat} (hi : i ≠ 0) : AtFront (l.eraseIdx i) n := by
  obtain ⟨e, rest, rfl, rfl⟩ := atFront_iff.mp h
  cases i with
  | zero => exact absurd rfl hi
  | succ i => rfl

end AtFront

theorem AtFront.journal_modify {j : MutationJournal} {n : SeqId} (h : AtFront j.entries n)
    (seq : SeqId) {f : JournalEntry → JournalEntry} (hf : ∀ e, (f e).seq = e.seq) :
    AtFront (j.modify seq f).entries n := by
  unfold MutationJournal.modify
  split
  · exact h.modify _ hf
  · exact h

theorem AtFront.rebase {j : MutationJournal} {n : SeqId} (h : AtFront j.entries n)
    (path : PathBuf) (sent new : Option String) : AtFront (j.rebase path sent new).entries n := by
  unfold MutationJournal.rebase
  split
  · exact h
  · split
    · refine h.map fun e => ?_
      split
      · exact MutationJournal.rebaseEntry_seq new e
      · rfl
    · exact h

theorem AtFront.enqueue {j : MutationJournal} {n : SeqId} (h : AtFront j.entries n)
    {op : MutationOp} (hs : (LiveOp.enqueue op).Spares j n) : AtFront (j.enqueue op).2.entries n := by
  rw [MutationJournal.enqueue_entries]
  apply AtFront.append
  refine AtFront.map ?_ (MutationJournal.followRename_seq op)
  cases op with
  | unlink path =>
    rw [MutationJournal.coalesce_unlink_entries]
    split
    · exact h
    · rename_i hprior
      -- The claimed entry is neither an upload of the path nor its creation.
      have hkeep := hs.resolve_left hprior
      refine h.filter fun e he hn => ?_
      rw [(hkeep e he hn).1, (hkeep e he hn).2]
      rfl
  | rmDir path =>
    refine h.filter fun e he hn => ?_
    rw [hs e he hn]
    rfl
  | put => exact h
  | mkDir => exact h
  | rename => exact h
  | finishChunked => exact h

theorem AtFront.retargetUpload {j : MutationJournal} {n : SeqId} (h : AtFront j.entries n)
    {src dst : PathBuf} {base : Option String}
    (hs : (LiveOp.retargetUpload src dst base).Spares j n) :
    AtFront (j.retargetUpload src dst base).2.entries n := by
  by_cases hret : (j.retargetUpload src dst base).1 = true
  · obtain ⟨e, staging, -, -, -, -, hj⟩ := MutationJournal.retargetUpload_true hret
    rw [hj]
    apply AtFront.append
    refine h.filter fun x hx hn => ?_
    rw [hs hret x hx hn]
    rfl
  · rw [MutationJournal.retargetUpload_false (by simpa using hret)]
    exact h

theorem AtFront.settleUpload {j : MutationJournal} {n : SeqId} (h : AtFront j.entries n)
    {seq : SeqId} {startedAs : PathBuf} {ifMatch : Option String}
    (hs : (LiveOp.settleUpload seq startedAs ifMatch).Spares j n) :
    AtFront (j.settleUpload seq startedAs ifMatch).2.entries n := by
  obtain ⟨i, e, hidx, -, -, heq⟩ | heq | ⟨msg, heq⟩ | ⟨i, path, etag, heq⟩ :=
    j.settleUpload_cases seq startedAs ifMatch
  · -- Withdrawn: the entry taken out is another one, so it does not stand at the front.
    have hne : seq ≠ n := fun hn => hs hn (by rw [heq])
    rw [heq]
    refine h.eraseIdx fun hi => ?_
    obtain ⟨x, rest, hxs, hxn⟩ := atFront_iff.mp h
    rw [hxs, hi, List.findIdx?_cons] at hidx
    split at hidx
    · rename_i hx
      rw [decide_eq_true_eq] at hx
      exact hne (hx.symm.trans hxn)
    · simp at hidx
  · rw [heq]
    exact h
  · rw [heq]
    exact h.journal_modify seq fun _ => rfl
  · rw [heq]
    exact h.modify i fun _ => rfl

/-- A live operation that spares the front entry leaves it at the front. -/
theorem LiveOp.Spares.head {j : MutationJournal} {n : SeqId} {op : LiveOp} (hs : op.Spares j n)
    (h : AtFront j.entries n) : AtFront (op.apply j).entries n := by
  cases op with
  | enqueue op => exact h.enqueue hs
  | retargetUpload src dst base => exact h.retargetUpload hs
  | supersedeUploads path newest =>
    simp only [LiveOp.apply, MutationJournal.supersedeUploads_entries]
    refine h.filter fun e he hn => ?_
    rw [hs e he hn]
    rfl
  | settleUpload seq startedAs ifMatch => exact h.settleUpload hs
  | claim seq =>
    simp only [LiveOp.apply, MutationJournal.claim]
    split
    · split
      · exact h
      · exact h.journal_modify seq fun _ => rfl
    · exact h
  | markFailed seq error => exact h.journal_modify seq fun _ => rfl
  | markDeferred seq error => exact h.journal_modify seq fun _ => rfl
  | remove seq =>
    refine h.filter fun e _ hn => ?_
    simp only [ne_eq, decide_not, Bool.not_eq_true', decide_eq_false_iff_not]
    intro heq
    exact hs (heq.symm.trans hn)
  | handStagingToRename uploadedAs staging =>
    simp only [LiveOp.apply, MutationJournal.handStagingToRename]
    split
    · exact h
    · refine h.modify _ fun e => ?_
      split <;> rfl
  | rebase path sent new => exact h.rebase path sent new

/-! ## The loop -/

/-- Claiming marks the front entry and leaves it there. -/
theorem claimFront_atFront {j : MutationJournal} {e : JournalEntry}
    (h : (claimFront j).1 = .entry e) : AtFront (claimFront j).2.entries e.seq := by
  unfold claimFront at h ⊢
  cases hj : j.entries with
  | nil => simp [MutationJournal.peekFront, hj] at h
  | cons x rest =>
    have hfront : AtFront j.entries x.seq := by
      rw [hj]
      rfl
    simp only [MutationJournal.peekFront, hj, List.head?_cons] at h ⊢
    split at h
    · cases h
    · rename_i hidle
      obtain rfl : x = e := by simpa using h
      rw [if_neg hidle]
      have hspares : (LiveOp.claim x.seq).Spares j x.seq := trivial
      exact hspares.head hfront

namespace ReplayLoop

/-- While the loop works on an entry, that entry stands at the front. -/
def FrontIsClaimed (l : ReplayLoop) : Prop :=
  ∀ n, l.phase.seq = some n → AtFront l.journal.entries n

/-- Every live operation done while the loop works on an entry spares that entry. -/
def Spared (l : ReplayLoop) : LoopEvent → Prop
  | .live op => ∀ n, l.phase.seq = some n → op.Spares l.journal n
  | .replay _ => True

/-- Every event of the run does. -/
def SparedRun : ReplayLoop → List LoopEvent → Prop
  | _, [] => True
  | l, ev :: evs => l.Spared ev ∧ SparedRun (l.step ev) evs

/-- The sections that keep the loop on its entry keep the entry at the front. -/
theorem FrontIsClaimed.replayStep {l : ReplayLoop} (h : l.FrontIsClaimed) (s : ReplayStep) :
    (l.replayStep s).FrontIsClaimed := by
  unfold ReplayLoop.replayStep
  split
  · -- The claim itself.
    dsimp only
    split
    · exact h
    · exact h
    · rename_i e he
      intro n hn
      obtain rfl : e.seq = n := by simpa [ReplayPhase.seq] using hn
      exact claimFront_atFront he
  · rename_i e result hphase
    split
    · exact h
    · intro n hn
      exact h n (by rw [hphase]; exact hn)
  · rename_i e result hphase
    intro n hn
    have hfront := h n (by rw [hphase]; exact hn)
    simp only [noteLanded]
    split
    · exact hfront.rebase ..
    · exact hfront.rebase ..
    · exact hfront.rebase ..
    · exact hfront
  · rename_i e result hphase
    intro n hn
    rw [settleBytes_entries]
    exact h n (by rw [hphase]; exact hn)
  · intro n hn
    cases hn
  · rename_i e hphase
    split
    · intro n hn
      show AtFront (recoverEntry l.journal l.cacheDir e).2.entries n
      rw [recoverEntry_entries]
      exact h n (by rw [hphase]; exact hn)
    · exact h
  · intro n hn
    cases hn
  · exact h

theorem FrontIsClaimed.step {l : ReplayLoop} (h : l.FrontIsClaimed) {ev : LoopEvent}
    (hs : l.Spared ev) : (l.step ev).FrontIsClaimed := by
  cases ev with
  | live op =>
    intro n hn
    exact (hs n hn).head (h n hn)
  | replay s => exact h.replayStep s

theorem FrontIsClaimed.steps {l : ReplayLoop} (h : l.FrontIsClaimed) {evs : List LoopEvent}
    (hs : l.SparedRun evs) : (l.steps evs).FrontIsClaimed := by
  induction evs generalizing l with
  | nil => exact h
  | cons ev evs ih => exact ih (h.step hs.1) hs.2

theorem sparedRun_append {l : ReplayLoop} {evs evs' : List LoopEvent} :
    l.SparedRun (evs ++ evs') ↔ l.SparedRun evs ∧ (l.steps evs).SparedRun evs' := by
  induction evs generalizing l with
  | nil => simp [SparedRun, steps]
  | cons ev evs ih =>
    show l.Spared ev ∧ (l.step ev).SparedRun (evs ++ evs') ↔
      (l.Spared ev ∧ (l.step ev).SparedRun evs) ∧ ((l.step ev).steps evs).SparedRun evs'
    rw [ih, and_assoc]

/-- A section that leaves the queue's seqs alone removes nothing. -/
theorem removedBy_of_seqs {l : ReplayLoop} {s : ReplayStep}
    (h : l.journal.entries.map (·.seq) = (l.replayStep s).journal.entries.map (·.seq)) :
    l.removedBy s = [] := by
  unfold removedBy
  rw [h, List.filter_eq_nil_iff]
  intro n hn
  simpa using hn

/-- A section that pops the front removes at most the front. -/
theorem mem_removedBy_of_tail {l : ReplayLoop} {s : ReplayStep} {n m : SeqId}
    (h : (l.replayStep s).journal.entries = l.journal.entries.tail)
    (hfront : AtFront l.journal.entries m) (hn : n ∈ l.removedBy s) : n = m := by
  obtain ⟨e, rest, hes, rfl⟩ := atFront_iff.mp hfront
  unfold removedBy at hn
  rw [h, hes, List.mem_filter, List.map_cons, List.mem_cons, decide_eq_true_eq] at hn
  exact hn.1.resolve_right hn.2

/-- What a section does to the queue: its seqs stay, or the front is popped while the loop
    works on an entry. -/
theorem replayStep_entries (l : ReplayLoop) (s : ReplayStep) :
    l.journal.entries.map (·.seq) = (l.replayStep s).journal.entries.map (·.seq) ∨
    (∃ n, l.phase.seq = some n) ∧
      (l.replayStep s).journal.entries = l.journal.entries.tail := by
  have hseqs : ∀ l' l'' : List JournalEntry,
      l'.map JournalEntry.uncond = l''.map JournalEntry.uncond →
      l''.map (·.seq) = l'.map (·.seq) := by
    intro l' l'' h
    have := congrArg (List.map (·.seq)) h
    simpa [Function.comp_def] using this.symm
  unfold ReplayLoop.replayStep
  split
  · left
    dsimp only
    split
    · rfl
    · rfl
    · unfold claimFront
      split
      · rfl
      · split
        · rfl
        · exact (l.journal.claim_seqs _).symm
  · left
    split <;> rfl
  · left
    exact hseqs _ _ (noteLanded_entries ..)
  · left
    show _ = (settleBytes ..).entries.map (·.seq)
    rw [settleBytes_entries]
  · rename_i e result hphase
    cases result with
    | ok => exact Or.inr ⟨⟨_, by rw [hphase]; rfl⟩, l.journal.dequeueFront_entries⟩
    | uploaded etag => exact Or.inr ⟨⟨_, by rw [hphase]; rfl⟩, l.journal.dequeueFront_entries⟩
    | conflict kind =>
      exact Or.inr ⟨⟨_, by rw [hphase]; rfl⟩, (l.journal.addConflict kind).dequeueFront_entries⟩
    | idempotent => exact Or.inr ⟨⟨_, by rw [hphase]; rfl⟩, l.journal.dequeueFront_entries⟩
    | retryable msg => exact Or.inl (l.journal.markDeferred_seqs e.seq msg).symm
    | serverError msg => exact Or.inl (l.journal.markFailed_seqs e.seq msg).symm
  · left
    split
    · show _ = (recoverEntry ..).2.entries.map (·.seq)
      rw [recoverEntry_entries]
    · rfl
  · rename_i e kept hphase
    exact Or.inr ⟨⟨_, by rw [hphase]; rfl⟩, MutationJournal.dequeueFront_entries _⟩
  · exact Or.inl rfl

end ReplayLoop

/-- In every run, from any journal, in which each live operation spares the entry the loop is
    working on: what a section of the loop removes is the entry the loop works on. -/
theorem replay_removes_only_executed (j : MutationJournal) (cacheDir : PathBuf)
    (before after : List LoopEvent) (s : ReplayStep)
    (hs : ReplayLoop.SparedRun { journal := j, cacheDir := cacheDir }
      (before ++ .replay s :: after)) :
    let l := ReplayLoop.steps { journal := j, cacheDir := cacheDir } before
    ∀ n ∈ l.removedBy s, l.phase.seq = some n := by
  intro l n hn
  have hstart : ReplayLoop.FrontIsClaimed { journal := j, cacheDir := cacheDir } := by
    intro n hn
    cases hn
  have hfront : l.FrontIsClaimed := hstart.steps (ReplayLoop.sparedRun_append.mp hs).1
  rcases l.replayStep_entries s with hsame | ⟨⟨m, hm⟩, htail⟩
  · rw [ReplayLoop.removedBy_of_seqs hsame] at hn
    cases hn
  · rw [ReplayLoop.mem_removedBy_of_tail htail (hfront m hm) hn]
    exact hm

/-- A new file queued for upload and a folder queued behind it. -/
def newFileAndFolder : MutationJournal :=
  { entries := [{ seq := 1, op := .put ["f"] ["cache", "write_1"] none },
      { seq := 2, op := .mkDir ["d"] }]
    nextSeq := 3
    disk := { files := fun p => if p = ["cache", "write_1"] then some { data := [1] } else none } }

/-- The file is deleted while the loop uploads it: its entry is coalesced away, and the loop
    then pops the folder's creation, which was never sent. -/
theorem replay_removes_unexecuted :
    let events : List LoopEvent := [.replay .claim, .live (.enqueue (.unlink ["f"])),
      .replay (.execute (.uploaded none)), .replay .land, .replay .settleBytes]
    let l := ReplayLoop.steps { journal := newFileAndFolder, cacheDir := ["cache"] } events
    l.phase.seq = some 1 ∧ l.removedBy .finish = [2] := by
  decide

/-- A live worker queues another file and fails its own entry meanwhile: the loop removes the
    entry it uploaded. -/
theorem replay_removes_executed_upload :
    let before : List LoopEvent := [.replay .claim,
      .live (.enqueue (.put ["g"] ["cache", "write_2"] none)), .live (.markFailed 2 "offline"),
      .replay (.execute (.uploaded none)), .replay .land, .replay .settleBytes]
    let l := ReplayLoop.steps { journal := newFileAndFolder, cacheDir := ["cache"] } before
    l.removedBy .finish = [1] ∧ ∀ n ∈ l.removedBy .finish, l.phase.seq = some n := by
  refine ⟨by decide, replay_removes_only_executed newFileAndFolder ["cache"] _ [] .finish ?_⟩
  refine ⟨trivial, ?_, ?_, trivial, trivial, trivial, trivial, trivial⟩
  · intro n _
    trivial
  · intro n _
    trivial

end Ncrs
