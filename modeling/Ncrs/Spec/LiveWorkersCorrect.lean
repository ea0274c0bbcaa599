import Ncrs.Spec.JournalMarks

/-!
# Live workers and the replay keep the order of changes

The mount of `LiveWorkers.lean` seen through `View`: every event is one of the steps that keep
`View.Ordered`, provided the events that no mechanism of the code orders do not happen
(`LiveMount.Clear`). In every such run each request goes out in its turn. A failed DELETE that
stays queued behind the save that follows it is what goes wrong otherwise.

## Key results

- `LiveMount.Sound.step`: a clear event keeps the invariant
- `requests_go_out_in_turn`: in a clear run no request overtakes another or is sent twice
- `deferred_delete_follows_save`: a deferred DELETE reaches the server after the new file
-/

namespace Ncrs

open View Relation

/-- Whether the request the replay sent for its entry was successful. -/
def ReplayPhase.hasLanded : ReplayPhase → Bool
  | executed _ r | landed _ r | settled _ r =>
    match r with
    | .ok | .uploaded _ => true
    | _ => false
  | _ => false

/-- The answers that end the entry. -/
def LiveAnswer.ends (op : MutationOp) : LiveAnswer → Bool
  | landed _ => true
  | settled =>
    match op with
    | .mkDir _ => false
    | _ => true
  | _ => false

namespace LiveMount

/-- What the order of requests depends on. -/
def view (s : LiveMount) : View :=
  { queue := s.journal.marks
    nextSeq := s.journal.nextSeq
    replaying := s.loop.phase.seq
    replaySent := s.replaySent
    replayLanded := s.loop.phase.hasLanded
    workers := s.workers
    order := s.order
    asked := s.asked
    requests := s.requests }

/-- The invariant: `View.Ordered`, and the replay's request is out only while it executes. -/
structure Sound (s : LiveMount) : Prop where
  ordered : s.view.Ordered
  sending : s.replaySent = true → ∃ e, s.loop.phase = .executing e ∧ e.attempts < MAX_ATTEMPTS

/-- A worker that returns with its entry still queued leaves no later worker on a common
    path behind. -/
def GivesBack (s : LiveMount) (seq : SeqId) : Prop :=
  s.view.Queued seq → ∀ x ∈ s.workers, seq < x.seq → x.committed ∨ s.view.Queued x.seq →
    ¬ s.view.Touching seq x.seq

/-- An online operation `op` is ordered by its ticket: what may still be sent on a common path
    has a live worker that the ticket waits for, directly or through other waiting workers,
    and the replay is not at it. -/
def TicketCovers (s : LiveMount) (op : MutationOp) : Prop :=
  let v := (s.record op).view
  (∀ c, v.replaying = some c → ¬ v.Touching c s.journal.nextSeq) ∧
  ∀ b < s.journal.nextSeq, v.MaySend b → v.Touching b s.journal.nextSeq →
    ∃ u ∈ v.workers, u.ticket.Conflicts (s.order.ticket op.ticketPaths).1 ∧
      ReflTransGen v.Behind u.seq b

/-- The front entry is the replay's alone: no live worker that may send touches it, other than
    its own upload's before it has claimed it. -/
def FrontFree (s : LiveMount) : Prop :=
  ∀ e, s.journal.peekFront = some e → e.inFlight = false →
    ∀ w ∈ s.workers, s.view.Touching e.seq w.seq → w.committed ∨ s.view.Queued w.seq →
      w.seq = e.seq ∧ ¬ w.committed

/-- The events that keep the order. -/
def Clear (s : LiveMount) : LiveEvent → Prop
  | .user op sourceOnServer =>
    s.repoints op sourceOnServer = false ∧ (s.offline = false → s.TicketCovers op)
  | .send seq etag =>
    ∀ w path staging m, s.worker seq = some w → w.op = .put path staging m →
      (s.journal.settleUpload seq path etag).1 = .deferred → s.GivesBack seq
  | .expire seq => s.GivesBack seq
  | .answer seq a => ∀ w, s.worker seq = some w → a.ends w.op = false → s.GivesBack seq
  | .replay .claim => s.loop.phase = .idle → s.FrontFree
  | _ => True

end LiveMount

/-! ## The journal -/

namespace MutationJournal

variable {j : MutationJournal}

/-- Changing an entry hands out no number. -/
theorem modify_nextSeq (j : MutationJournal) (seq : SeqId) (f : JournalEntry → JournalEntry) :
    (j.modify seq f).nextSeq = j.nextSeq := by
  unfold modify
  split <;> rfl

/-- Nor does rebasing. -/
theorem rebase_nextSeq (j : MutationJournal) (path : PathBuf) (sent new : Option String) :
    (j.rebase path sent new).nextSeq = j.nextSeq := by
  unfold rebase
  split
  · rfl
  · split <;> rfl

/-- Nor settling an upload. -/
theorem settleUpload_nextSeq (j : MutationJournal) (seq : SeqId) (startedAs : PathBuf)
    (ifMatch : Option String) : (j.settleUpload seq startedAs ifMatch).2.nextSeq = j.nextSeq := by
  obtain ⟨i, e, -, -, -, heq⟩ | heq | ⟨msg, heq⟩ | ⟨i, path, etag, heq⟩ :=
    j.settleUpload_cases seq startedAs ifMatch
  · rw [heq]
    rfl
  · rw [heq]
  · rw [heq]
    exact j.modify_nextSeq ..
  · rw [heq]

/-- Nor taking the front. -/
theorem dequeueFront_nextSeq (j : MutationJournal) : j.dequeueFront.2.nextSeq = j.nextSeq := by
  unfold dequeueFront
  split <;> rfl

/-- Nor recovering a staging file. -/
theorem recoverStaging_nextSeq (j : MutationJournal) (cacheDir staging path : PathBuf) :
    (j.recoverStaging cacheDir staging path).2.nextSeq = j.nextSeq := by
  unfold recoverStaging
  split <;> rfl

end MutationJournal

/-- Noting what landed changes no marks. -/
theorem noteLanded_marks (j : MutationJournal) (op : MutationOp) (r : ReplayResult) :
    (noteLanded j op r).marks = j.marks ∧ (noteLanded j op r).nextSeq = j.nextSeq := by
  unfold noteLanded
  split
  · exact ⟨j.rebase_marks .., j.rebase_nextSeq ..⟩
  · exact ⟨j.rebase_marks .., j.rebase_nextSeq ..⟩
  · exact ⟨j.rebase_marks .., j.rebase_nextSeq ..⟩
  · exact ⟨rfl, rfl⟩

/-- Settling the bytes hands out no number. -/
theorem settleBytes_nextSeq (j : MutationJournal) (cacheDir : PathBuf) (e : JournalEntry)
    (r : ReplayResult) : (settleBytes j cacheDir e r).nextSeq = j.nextSeq := by
  unfold settleBytes settleConflictStaging
  split
  · split <;> simp [MutationJournal.recoverStaging_nextSeq]
  · rfl

/-- Nor does recovering an entry. -/
theorem recoverEntry_nextSeq (j : MutationJournal) (cacheDir : PathBuf) (e : JournalEntry) :
    (recoverEntry j cacheDir e).2.nextSeq = j.nextSeq := by
  unfold recoverEntry
  split
  · exact j.recoverStaging_nextSeq ..
  · split
    · exact j.recoverStaging_nextSeq ..
    · rfl
  · rfl

/-- The last section takes the front entry out, or frees the executed one. -/
theorem settleEntry_marks {j : MutationJournal} (hj : j.Distinct) (c : FsCache) (e : JournalEntry)
    (r : ReplayResult) :
    (settleEntry j c e r).2.1.nextSeq = j.nextSeq ∧
      ((settleEntry j c e r).2.1.marks = j.marks.tail ∨
        ((settleEntry j c e r).2.1.marks = j.marks.map (setMark e.seq false) ∧
          ReplayPhase.hasLanded (.settled e r) = false)) := by
  cases r with
  | ok => exact ⟨j.dequeueFront_nextSeq, Or.inl j.dequeueFront_marks⟩
  | uploaded etag => exact ⟨j.dequeueFront_nextSeq, Or.inl j.dequeueFront_marks⟩
  | conflict kind =>
    exact ⟨(j.addConflict kind).dequeueFront_nextSeq,
      Or.inl (j.addConflict kind).dequeueFront_marks⟩
  | idempotent => exact ⟨j.dequeueFront_nextSeq, Or.inl j.dequeueFront_marks⟩
  | retryable msg =>
    exact ⟨j.modify_nextSeq .., Or.inr ⟨MutationJournal.markDeferred_marks hj e.seq msg, rfl⟩⟩
  | serverError msg =>
    exact ⟨j.modify_nextSeq .., Or.inr ⟨MutationJournal.markFailed_marks hj e.seq msg, rfl⟩⟩

/-- Only an enqueue hands one out. -/
theorem LiveOp.nextSeq (op : LiveOp) (hop : ∀ o, op ≠ .enqueue o) (j : MutationJournal) :
    (op.apply j).nextSeq = j.nextSeq := by
  cases op with
  | enqueue o => exact absurd rfl (hop o)
  | retargetUpload src dst base =>
    by_cases hret : (j.retargetUpload src dst base).1 = true
    · obtain ⟨e, staging, -, -, -, -, hj⟩ := MutationJournal.retargetUpload_true hret
      show (j.retargetUpload src dst base).2.nextSeq = _
      rw [hj]
      rfl
    · show (j.retargetUpload src dst base).2.nextSeq = _
      rw [MutationJournal.retargetUpload_false (by simpa using hret)]
  | supersedeUploads path newest => exact j.supersedeUploads_nextSeq path newest
  | settleUpload seq startedAs ifMatch => exact j.settleUpload_nextSeq seq startedAs ifMatch
  | claim seq =>
    show (j.claim seq).2.nextSeq = _
    unfold MutationJournal.claim
    split
    · split
      · rfl
      · exact j.modify_nextSeq ..
    · rfl
  | markFailed seq error => exact j.modify_nextSeq ..
  | markDeferred seq error => exact j.modify_nextSeq ..
  | remove seq => rfl
  | handStagingToRename uploadedAs staging =>
    show (j.handStagingToRename uploadedAs staging).2.nextSeq = _
    unfold MutationJournal.handStagingToRename
    split <;> rfl
  | rebase path sent new => exact j.rebase_nextSeq path sent new

/-- What an answer does to the journal: the entry goes, or it is free again. -/
theorem LiveAnswer.liveOps_marks {j : MutationJournal} (hj : j.Distinct) (a : LiveAnswer)
    (seq : SeqId) (op : MutationOp) (dest : PathBuf) (m : Option String) :
    let j' := (a.liveOps seq op dest m).foldl LiveOp.apply j
    j'.nextSeq = j.nextSeq ∧
      j'.marks = if a.ends op then j.marks.filter fun x => x.1 ≠ seq
        else j.marks.map (setMark seq false) := by
  -- a failure gives the claim back
  have hfailed : ∀ error, (j.markFailed seq error).nextSeq = j.nextSeq ∧
      (j.markFailed seq error).marks = j.marks.map (setMark seq false) :=
    fun error => ⟨j.modify_nextSeq .., MutationJournal.markFailed_marks hj seq error⟩
  cases a with
  | landed etag =>
    -- what landed is taken from the queue, after its bytes were handed on
    cases op with
    | put path staging m' =>
      refine ⟨?_, ?_⟩
      · show (((j.handStagingToRename dest staging).2.remove seq).rebase dest m etag).nextSeq = _
        rw [MutationJournal.rebase_nextSeq]
        exact LiveOp.nextSeq (.handStagingToRename dest staging) (fun _ => nofun) j
      · show (((j.handStagingToRename dest staging).2.remove seq).rebase dest m etag).marks = _
        rw [MutationJournal.rebase_marks, MutationJournal.remove_marks,
          MutationJournal.handStagingToRename_marks]
        rfl
    | finishChunked path u n b l tail m' sp hd whole =>
      cases whole with
      | true =>
        refine ⟨?_, ?_⟩
        · show (((j.rebase dest m etag).handStagingToRename dest tail).2.remove seq).nextSeq = _
          have h := LiveOp.nextSeq (.handStagingToRename dest tail) (fun _ => nofun)
            (j.rebase dest m etag)
          exact h.trans (j.rebase_nextSeq ..)
        · show (((j.rebase dest m etag).handStagingToRename dest tail).2.remove seq).marks = _
          rw [MutationJournal.remove_marks, MutationJournal.handStagingToRename_marks,
            MutationJournal.rebase_marks]
          rfl
      | false =>
        refine ⟨j.rebase_nextSeq .., ?_⟩
        show ((j.rebase dest m etag).remove seq).marks = _
        rw [MutationJournal.remove_marks, MutationJournal.rebase_marks]
        rfl
    | rename src dst staging base =>
      refine ⟨?_, ?_⟩
      · show ((j.remove seq).rebase dst base none).nextSeq = _
        rw [MutationJournal.rebase_nextSeq]
        rfl
      · show ((j.remove seq).rebase dst base none).marks = _
        rw [MutationJournal.rebase_marks, MutationJournal.remove_marks]
        rfl
    | _ => exact ⟨rfl, j.remove_marks seq⟩
  | settled =>
    -- a settled request is done, except for a directory that could not be made
    cases op with
    | mkDir path => exact hfailed ""
    | _ => exact ⟨rfl, j.remove_marks seq⟩
  | deferred error =>
    have hdeferred : (j.markDeferred seq error).nextSeq = j.nextSeq ∧
        (j.markDeferred seq error).marks = j.marks.map (setMark seq false) :=
      ⟨j.modify_nextSeq .., MutationJournal.markDeferred_marks hj seq error⟩
    cases op with
    | mkDir path => exact hfailed error
    | _ => exact hdeferred
  | failed error => exact hfailed error

/-! ## User operations -/

namespace LiveMount

variable {s : LiveMount}

/-- In a sound mount no entry has the number of another. -/
theorem Sound.distinct (h : s.Sound) : s.journal.Distinct :=
  h.ordered.sorted.imp fun hlt => Nat.ne_of_lt hlt

/-- Recording an operation: entries are dropped, the new one is queued, and an upload drops
    the ones before it. -/
theorem Sound.record (h : s.Sound) (op : MutationOp) : (s.record op).view.Ordered := by
  have hrecord := (h.ordered.shrink (s.journal.coalesce_marks op)).record op
  have hn : (s.journal.enqueue op).1 = s.journal.nextSeq := s.journal.enqueue_seq op
  have hview : ∀ j' : MutationJournal, j'.nextSeq = s.journal.nextSeq + 1 →
      j'.marks.Sublist (s.journal.enqueue op).2.marks →
      View.Ordered { s.view with
        queue := j'.marks
        nextSeq := j'.nextSeq
        asked := fun n => if n = (s.journal.enqueue op).1 then some op else s.asked n } := by
    intro j' hnext hsub
    rw [hnext, hn]
    rw [MutationJournal.enqueue_marks] at hsub
    exact hrecord.shrink hsub
  unfold LiveMount.record
  dsimp only
  split
  · refine hview _ ?_ (MutationJournal.supersedeUploads_marks _ _ _)
    show (MutationJournal.supersedeUploads _ _ _).nextSeq = _
    rw [MutationJournal.supersedeUploads_nextSeq, MutationJournal.enqueue_nextSeq]
  · exact hview _ (MutationJournal.enqueue_nextSeq _ _) (List.Sublist.refl _)

/-- A record takes the next number. -/
theorem record_nextSeq (s : LiveMount) (op : MutationOp) :
    (s.record op).view.nextSeq = s.journal.nextSeq + 1 := by
  show (s.record op).journal.nextSeq = _
  unfold LiveMount.record
  dsimp only
  split
  · show (MutationJournal.supersedeUploads _ _ _).nextSeq = _
    rw [MutationJournal.supersedeUploads_nextSeq, MutationJournal.enqueue_nextSeq]
  · exact MutationJournal.enqueue_nextSeq _ _

/-- Queueing an operation keeps the mount sound, if its ticket covers it. -/
theorem Sound.queueOp (h : s.Sound) (op : MutationOp)
    (hcover : s.offline = false → s.TicketCovers op) : (s.queueOp op).Sound := by
  have hrecord := h.record op
  unfold LiveMount.queueOp
  dsimp only
  split
  · exact ⟨hrecord, h.sending⟩
  · rename_i honline
    obtain ⟨halone, hwaits⟩ := hcover (by simpa using honline)
    refine ⟨?_, h.sending⟩
    refine View.Ordered.submit hrecord ?_ h.ordered.workers_lt h.ordered.requests_lt hwaits halone
    rw [record_nextSeq]
    exact Nat.lt_succ_self _

/-- So does an operation of the user. -/
theorem Sound.user (h : s.Sound) (op : MutationOp) (sourceOnServer : Bool)
    (hclear : s.Clear (.user op sourceOnServer)) : (s.user op sourceOnServer).Sound := by
  obtain ⟨hrep, hcover⟩ := hclear
  unfold LiveMount.user
  split
  · rw [if_neg (by rw [hrep]; exact Bool.false_ne_true)]
    exact h.queueOp _ hcover
  · exact h.queueOp _ hcover

/-! ## Workers -/

/-- A worker that is found works on the entry. -/
theorem worker_some {seq : SeqId} {w : Worker} (hw : s.worker seq = some w) :
    w ∈ s.workers ∧ w.seq = seq := by
  have hseq := List.find?_some hw
  exact ⟨List.mem_of_find?_eq_some hw, of_decide_eq_true hseq⟩

/-- A worker gets its turn. -/
theorem Sound.getTurn (h : s.Sound) {w : Worker} (hw : w ∈ s.workers) : (s.getTurn w).Sound := by
  unfold LiveMount.getTurn
  split
  · rename_i hcond
    rw [Bool.and_eq_true, decide_eq_true_eq] at hcond
    refine ⟨h.ordered.setPhase hw (Or.inr hcond.2) ?_ ?_, h.sending⟩
    · unfold Worker.committed
      rw [hcond.1]
      simp
    · intro dest m hsent
      rw [hcond.1] at hsent
      cases hsent
  · exact h

/-- The view of a mount whose worker has returned, leaving the journal as `j`. -/
theorem view_endWorker {j : MutationJournal} (hnext : j.nextSeq = s.journal.nextSeq) (w : Worker)
    (rs : List Request) :
    LiveMount.view { (s.setJournal j).endWorker w with requests := rs } =
      s.view.endWorker w j.marks rs := by
  show View.mk j.marks j.nextSeq _ _ _ _ _ _ _ = View.mk j.marks s.journal.nextSeq _ _ _ _ _ _ _
  rw [hnext]
  rfl

/-- A worker returns with its entry gone from the queue or given back to it. -/
theorem Sound.endWorker (h : s.Sound) {w : Worker} (hw : w ∈ s.workers) (hcom : w.committed)
    (hphase : w.phase ≠ .queued) {j : MutationJournal} (hnext : j.nextSeq = s.journal.nextSeq)
    (hmarks : (j.marks.Sublist s.journal.marks ∧ ∀ f, (w.seq, f) ∉ j.marks) ∨
      (j.marks = s.journal.marks.map (setMark w.seq false) ∧ s.GivesBack w.seq))
    (rs : List Request)
    (hrs : ∀ r ∈ rs, (r ∈ s.requests ∧ (r.seq = w.seq → r.success ≠ none)) ∨
      (r.seq = w.seq ∧ (∃ r' ∈ s.requests, r'.seq = w.seq) ∧ (r.success = some false ∨
        r.success = some true ∧ ∀ f, (w.seq, f) ∉ j.marks))) :
    Sound { (s.setJournal j).endWorker w with requests := rs } := by
  refine ⟨?_, h.sending⟩
  rw [view_endWorker hnext]
  -- The replay is not at the entry of a committed worker.
  have hrep : s.view.replaying ≠ some w.seq :=
    fun hc => (h.ordered.alone _ hc w hw (Touching.refl _ _)).1 hcom
  -- the queue, its marks, the entry that is given back, and the requests
  refine h.ordered.endWorker hw hphase ?_ ?_ ?_ ?_
  · rcases hmarks with ⟨hsub, -⟩ | ⟨heq, -⟩
    · exact hsub.map _
    · rw [heq, map_fst_setMark]
      exact List.Sublist.refl _
  · intro x hx
    rcases hmarks with ⟨hsub, hgone⟩ | ⟨heq, -⟩
    · exact Or.inl ⟨hsub.subset hx, fun hxw => absurd (hxw ▸ hx) (hgone x.2)⟩
    · rw [heq] at hx
      rcases mem_setMark hx with ⟨hx, hne⟩ | ⟨hx, -⟩
      · exact Or.inl ⟨hx, fun hxw => absurd hxw hne⟩
      · exact Or.inr ⟨hx, hrep⟩
  · rintro ⟨f, hf⟩ -
    rcases hmarks with ⟨-, hgone⟩ | ⟨heq, hback⟩
    · exact absurd hf (hgone f)
    · refine hback ?_
      rw [heq] at hf
      rcases mem_setMark hf with ⟨hf, -⟩ | ⟨-, hg⟩
      · exact ⟨f, hf⟩
      · exact hg
  · intro r hr
    rcases hrs r hr with ⟨hr, hne⟩ | ⟨hseq, hex, hok | ⟨hok, hgone⟩⟩
    · exact Or.inl ⟨hr, fun hseq hnone => absurd hnone (hne hseq)⟩
    · exact Or.inr ⟨hseq, hex, Or.inl hok⟩
    · exact Or.inr ⟨hseq, hex, Or.inr ⟨hok, fun ⟨f, hf⟩ => hgone f hf, hrep⟩⟩

/-- A claimed worker has no request out. -/
theorem Sound.no_request (h : s.Sound) {w : Worker} (hw : w ∈ s.workers)
    (hphase : w.phase = .claimed) {r : Request} (hr : r ∈ s.requests) (hseq : r.seq = w.seq) :
    r.success ≠ none := by
  rw [(h.ordered.send_inTurn hw hphase).1 r hr hseq]
  exact Option.some_ne_none _

/-- A worker that has claimed is committed. -/
theorem committed_of_claimed {w : Worker} (hphase : w.phase = .claimed) : w.committed := by
  unfold Worker.committed
  rw [hphase]
  exact Or.inr ⟨WorkerPhase.noConfusion, WorkerPhase.noConfusion⟩

/-- A worker claims its entry, or finds it taken. -/
theorem Sound.claim (h : s.Sound) {w : Worker} (hw : w ∈ s.workers) : (s.claim w).Sound := by
  unfold LiveMount.claim
  split
  · exact h
  · rename_i hphase
    have hphase : w.phase = .admitted := not_not.mp hphase
    have hqueued : w.phase ≠ .queued := by
      rw [hphase]
      exact WorkerPhase.noConfusion
    -- only an upload has to be claimed
    split
    · rename_i hup
      dsimp only
      split
      · rename_i hclaim
        obtain ⟨hfree, hmarks⟩ := MutationJournal.claim_true h.distinct hclaim
        refine ⟨?_, h.sending⟩
        have hview : LiveMount.view ((s.setJournal (s.journal.claim w.seq).2).setPhase w.seq .claimed)
            = { s.view.setPhase w.seq .claimed with
                queue := s.view.queue.map (setMark w.seq true) } := by
          have hnext := LiveOp.nextSeq (.claim w.seq) (fun _ => nofun) s.journal
          show View.mk (s.journal.claim w.seq).2.marks (s.journal.claim w.seq).2.nextSeq
            _ _ _ _ _ _ _ = _
          rw [hmarks]
          show View.mk _ (LiveOp.apply s.journal (.claim w.seq)).nextSeq _ _ _ _ _ _ _ = _
          rw [hnext]
          rfl
        rw [hview]
        exact h.ordered.claimUpload hw hphase hup hfree
      · -- Superseded, or the replay has it.
        rename_i hclaim
        refine ⟨?_, h.sending⟩
        refine h.ordered.endWorker hw hqueued (List.Sublist.refl _) ?_ ?_ ?_
        · rintro ⟨a, f⟩ hx
          refine Or.inl ⟨hx, fun hxw => ?_⟩
          obtain rfl : a = w.seq := hxw
          have hx2 := MutationJournal.claim_false h.distinct (by simpa using hclaim) hx
          rw [hx2] at hx
          exact h.ordered.held_by_replay hw hup (Or.inr hphase) hx
        · rintro ⟨f, hf⟩ hrep
          exfalso
          have hf2 := MutationJournal.claim_false h.distinct (by simpa using hclaim) hf
          rw [hf2] at hf
          exact hrep (h.ordered.held_by_replay hw hup (Or.inr hphase) hf)
        · intro r hr
          refine Or.inl ⟨hr, fun hseq hnone => ?_⟩
          rcases h.ordered.wire r hr hnone with ⟨x, hx, hxr, dest, m, hp⟩ | hrep
          · rw [h.ordered.worker_inj hx hw (hxr.trans hseq), hphase] at hp
            cases hp
          · rw [← hseq]
            exact hrep
    · rename_i hup
      refine ⟨h.ordered.setPhase hw (Or.inl hqueued) ?_ ?_, h.sending⟩
      · have hup : w.op.isUpload = false := by simpa using hup
        exact iff_of_true (Or.inl hup) (Or.inl hup)
      · intro dest m hsent
        rw [hphase] at hsent
        cases hsent

/-- The request of a claimed worker goes out. -/
theorem Sound.sendRequest (h : s.Sound) {w : Worker} (hw : w ∈ s.workers)
    (hphase : w.phase = .claimed) (dest : PathBuf) (m : Option String) :
    ((s.setPhase w.seq (.sent dest m)).sendRequest w.seq).Sound := by
  have hcom := committed_of_claimed hphase
  have hqueued : w.phase ≠ .queued := by
    rw [hphase]
    exact WorkerPhase.noConfusion
  have hsent : (s.view.setPhase w.seq (.sent dest m)).Ordered := by
    refine h.ordered.setPhase hw (Or.inl hqueued) ?_ fun _ _ _ => ⟨dest, m, rfl⟩
    refine iff_of_true (Or.inr ⟨?_, ?_⟩) hcom <;> exact WorkerPhase.noConfusion
  have hmem : { w with phase := .sent dest m } ∈ (s.view.setPhase w.seq (.sent dest m)).workers :=
    (h.ordered.mem_setPhase hw).mpr (Or.inr rfl)
  refine ⟨hsent.sendRequest (h.ordered.workers_lt w hw) ?_ (Or.inl ⟨_, hmem, rfl, dest, m, rfl⟩),
    h.sending⟩
  intro b hb hmay
  refine hsent.nothing_before hmem WorkerPhase.noConfusion (Or.inl (Or.inr ⟨?_, ?_⟩)) hb hmay <;>
    exact WorkerPhase.noConfusion

/-- The journal changes in what the order of requests does not depend on. -/
theorem Sound.setJournal (h : s.Sound) {j : MutationJournal} (hmarks : j.marks = s.journal.marks)
    (hnext : j.nextSeq = s.journal.nextSeq) : (s.setJournal j).Sound := by
  refine ⟨?_, h.sending⟩
  show View.Ordered (View.mk j.marks j.nextSeq _ _ _ _ _ _ _)
  rw [hmarks, hnext]
  exact h.ordered

theorem Sound.send (h : s.Sound) {w : Worker} (hw : w ∈ s.workers) (etag : Option String)
    (hclear : ∀ path staging m, w.op = .put path staging m →
      (s.journal.settleUpload w.seq path etag).1 = .deferred → s.GivesBack w.seq) :
    (s.send w etag).Sound := by
  unfold LiveMount.send
  split
  · exact h
  · rename_i hphase
    have hphase : w.phase = .claimed := not_not.mp hphase
    have hcom := committed_of_claimed hphase
    have hqueued : w.phase ≠ .queued := by
      rw [hphase]
      exact WorkerPhase.noConfusion
    split
    · rename_i path staging m hop
      dsimp only
      have hnext := s.journal.settleUpload_nextSeq w.seq path etag
      -- sent, refused for now, deferred or withdrawn
      obtain ⟨dest, m', hr, hmarks⟩ | ⟨hr, hmarks⟩ | ⟨hr, hmarks⟩ | ⟨hr, hsub, hgone⟩ :=
        MutationJournal.settleUpload_marks h.distinct w.seq path etag
      · rw [hr]
        exact (h.setJournal hmarks hnext).sendRequest hw hphase dest m'
      · rw [hr]
        exact h.setJournal hmarks hnext
      · rw [hr]
        refine h.endWorker hw hcom hqueued hnext
          (Or.inr ⟨hmarks, hclear path staging m hop hr⟩) s.requests fun r hr => ?_
        exact Or.inl ⟨hr, h.no_request hw hphase hr⟩
      · rw [hr]
        refine h.endWorker hw hcom hqueued hnext (Or.inl ⟨hsub, hgone⟩) s.requests fun r hr => ?_
        exact Or.inl ⟨hr, h.no_request hw hphase hr⟩
    · exact h.sendRequest hw hphase _ etag

/-- A worker whose turn has expired goes away. -/
theorem Sound.expire (h : s.Sound) {w : Worker} (hw : w ∈ s.workers)
    (hclear : s.GivesBack w.seq) : (s.expire w).Sound := by
  unfold LiveMount.expire
  split
  · rename_i path staging etag hphase hop
    split
    · have hqueued : w.phase ≠ .queued := by
        rw [hphase]
        exact WorkerPhase.noConfusion
      have hnext : ∀ error, (s.journal.markDeferred w.seq error).nextSeq = s.journal.nextSeq :=
        fun error => s.journal.modify_nextSeq ..
      refine h.endWorker hw (committed_of_claimed hphase) hqueued (hnext _)
        (Or.inr ⟨MutationJournal.markDeferred_marks h.distinct _ _, hclear⟩) s.requests
        fun r hr => ?_
      exact Or.inl ⟨hr, h.no_request hw hphase hr⟩
    · exact h
  · exact h

/-- An answer ends the worker that asked. -/
theorem Sound.answer (h : s.Sound) {w : Worker} (hw : w ∈ s.workers) (a : LiveAnswer)
    (hclear : a.ends w.op = false → s.GivesBack w.seq) : (s.answer w a).Sound := by
  unfold LiveMount.answer
  split
  · rename_i dest m hphase
    have hcom : w.committed := by
      unfold Worker.committed
      rw [hphase]
      exact Or.inr ⟨WorkerPhase.noConfusion, WorkerPhase.noConfusion⟩
    have hqueued : w.phase ≠ .queued := by
      rw [hphase]
      exact WorkerPhase.noConfusion
    obtain ⟨hnext, hmarks⟩ := a.liveOps_marks h.distinct w.seq w.op dest m
    dsimp only
    refine h.endWorker hw hcom hqueued hnext ?_ _ fun r hr => ?_
    · -- the answer takes the entry away or gives it back
      cases hends : a.ends w.op with
      | true =>
        rw [hends, if_pos rfl] at hmarks
        rw [hmarks]
        refine Or.inl ⟨List.filter_sublist, fun f hf => ?_⟩
        simpa using (List.mem_filter.mp hf).2
      | false =>
        rw [hends, if_neg Bool.false_ne_true] at hmarks
        exact Or.inr ⟨hmarks, hclear hends⟩
    · obtain ⟨r', hr', rfl⟩ := List.mem_map.mp hr
      split
      · rename_i hcond
        refine Or.inr ⟨hcond.1, ⟨r', hr', hcond.1⟩, ?_⟩
        cases a with
        | landed etag =>
          -- A request that landed takes its entry out of the queue.
          refine Or.inr ⟨rfl, fun f hf => ?_⟩
          rw [hmarks] at hf
          simpa using (List.mem_filter.mp hf).2
        | _ => exact Or.inl rfl
      · rename_i hcond
        exact Or.inl ⟨hr', fun hseq hnone => hcond ⟨hseq, hnone⟩⟩
  · exact h

/-! ## The replay -/

/-- The replay sends its request. -/
theorem Sound.replaySend (h : s.Sound) : s.replaySend.Sound := by
  unfold LiveMount.replaySend
  split
  · rename_i e hphase
    split
    · exact h
    · rename_i hcond
      have hrep : s.view.replaying = some e.seq := by
        show s.loop.phase.seq = _
        rw [hphase]
        rfl
      have hlt : e.attempts < MAX_ATTEMPTS := by
        simp only [Bool.or_eq_true, decide_eq_true_eq, not_or, Nat.not_le] at hcond
        exact hcond.2
      refine ⟨?_, fun _ => ⟨e, hphase, hlt⟩⟩
      exact h.ordered.markSent.sendRequest (h.ordered.replaying_lt _ hrep)
        (fun b hb hmay => h.ordered.nothing_before_replay hrep hb hmay) (Or.inr ⟨hrep, rfl⟩)
  · exact h

/-- The loop goes on with the same entry. -/
theorem Sound.setLoop (h : s.Sound) {l : ReplayLoop} (hmarks : l.journal.marks = s.journal.marks)
    (hnext : l.journal.nextSeq = s.journal.nextSeq) (hseq : l.phase.seq = s.loop.phase.seq)
    (hlanded : l.phase.hasLanded = s.loop.phase.hasLanded) (hsent : s.replaySent = false) :
    Sound { s with loop := l } := by
  refine ⟨?_, fun hs => ?_⟩
  · show View.Ordered (View.mk l.journal.marks l.journal.nextSeq l.phase.seq _ l.phase.hasLanded
      _ _ _ _)
    rw [hmarks, hnext, hseq, hlanded]
    exact h.ordered
  · rw [hsent] at hs
    cases hs

/-- The loop is done with its entry. -/
theorem Sound.doneLoop (h : s.Sound) {l : ReplayLoop} {c : SeqId}
    (hrep : s.loop.phase.seq = some c) (hsent : s.replaySent = false) (hidle : l.phase = .idle)
    (hnext : l.journal.nextSeq = s.journal.nextSeq)
    (hmarks : l.journal.marks = s.journal.marks.tail ∨
      (l.journal.marks = s.journal.marks.map (setMark c false) ∧
        s.loop.phase.hasLanded = false)) :
    Sound { s with loop := l } := by
  have hc : s.view.replaying = some c := hrep
  refine ⟨?_, fun hs => ?_⟩
  · show View.Ordered (View.mk l.journal.marks l.journal.nextSeq l.phase.seq _ l.phase.hasLanded
      _ _ _ _)
    rw [hnext, hidle]
    refine h.ordered.replayDone hc hsent ?_ fun x hx => ?_
    · rcases hmarks with hmarks | ⟨hmarks, -⟩
      · rw [hmarks]
        exact (List.tail_sublist _).map _
      · rw [hmarks, map_fst_setMark]
        exact List.Sublist.refl _
    · rcases hmarks with hmarks | ⟨hmarks, hl⟩
      · -- The front of a sorted queue is the least; the replay's entry is no larger than any.
        rw [hmarks] at hx
        have hmem : x ∈ s.view.queue := List.mem_of_mem_tail hx
        refine Or.inl ⟨hmem, ?_⟩
        cases hq : s.journal.marks with
        | nil =>
          rw [hq] at hx
          cases hx
        | cons y rest =>
          rw [hq] at hx
          have hs := h.ordered.sorted
          change (s.journal.marks.map (·.1)).Pairwise (· < ·) at hs
          rw [hq, List.map_cons, List.pairwise_cons] at hs
          have hlt := hs.1 x.1 (List.mem_map_of_mem hx)
          have hle := h.ordered.front c hc y (by
            show y ∈ s.journal.marks
            rw [hq]
            exact List.mem_cons_self)
          exact Nat.ne_of_gt (Nat.lt_of_le_of_lt hle hlt)
      · rw [hmarks] at hx
        rcases mem_setMark hx with hx | ⟨hx, -⟩
        · exact Or.inl hx
        · exact Or.inr ⟨hx, hl⟩
  · rw [hsent] at hs
    cases hs

/-- No request of the replay is out in a phase other than executing. -/
theorem Sound.not_sent (h : s.Sound) (hphase : ∀ e, s.loop.phase ≠ .executing e) :
    s.replaySent = false := by
  cases hs : s.replaySent with
  | false => rfl
  | true =>
    obtain ⟨e, he, -⟩ := h.sending hs
    exact absurd he (hphase e)

/-- The replay claims the front entry. -/
theorem Sound.replayClaim (h : s.Sound) (hidle : s.loop.phase = .idle) (hfree : s.FrontFree)
    {e : JournalEntry} (he : (claimFront s.journal).1 = .entry e) :
    Sound { s with loop := { s.loop with
      journal := (claimFront s.journal).2, phase := .executing e } } := by
  have hsent := h.not_sent (by rw [hidle]; exact fun _ => ReplayPhase.noConfusion)
  refine ⟨?_, fun hs => by rw [hsent] at hs; cases hs⟩
  unfold claimFront at he ⊢
  cases hq : s.journal.entries with
  | nil => simp [MutationJournal.peekFront, hq] at he
  | cons x rest =>
    have hpeek : s.journal.peekFront = some x := by
      rw [MutationJournal.peekFront, hq]
      rfl
    rw [hpeek] at he ⊢
    dsimp only at he ⊢
    split at he
    · cases he
    · rename_i hfl
      have hfl : x.inFlight = false := by simpa using hfl
      obtain rfl : x = e := by simpa using he
      rw [if_neg (by rw [hfl]; exact Bool.false_ne_true)]
      -- The claim finds the front entry itself.
      have hclaim : (s.journal.claim x.seq).2 =
          s.journal.modify x.seq fun e => { e with inFlight := true } := by
        unfold MutationJournal.claim
        rw [hq, List.find?_cons_of_pos (by simp)]
        simp [hfl]
      have hview : s.view.queue = (x.seq, false) :: rest.map JournalEntry.mark := by
        show s.journal.marks = _
        rw [MutationJournal.marks, hq, List.map_cons, JournalEntry.mark, hfl]
      have hnew : (s.journal.claim x.seq).2.marks =
          (x.seq, true) :: rest.map JournalEntry.mark := by
        rw [hclaim, MutationJournal.modify_front hq]
        rfl
      have hnext : (s.journal.claim x.seq).2.nextSeq = s.journal.nextSeq :=
        LiveOp.nextSeq (.claim x.seq) (fun _ h => by cases h) s.journal
      show View.Ordered (View.mk (s.journal.claim x.seq).2.marks
        (s.journal.claim x.seq).2.nextSeq _ _ _ _ _ _ _)
      rw [hnew, hnext]
      refine h.ordered.replayClaim ?_ hview fun w hw ht hlive => ?_
      · show s.loop.phase.seq = none
        rw [hidle]
        rfl
      · exact hfree x hpeek hfl w hw ht hlive

theorem Sound.replay (h : s.Sound) (st : ReplayStep)
    (hclear : st = .claim → s.loop.phase = .idle → s.FrontFree) : (s.replay st).Sound := by
  unfold LiveMount.replay
  split
  · -- the replay's request is answered
    rename_i e result hphase
    split
    · rename_i hsent
      obtain ⟨e', he', hlt⟩ := h.sending hsent
      obtain rfl : e = e' := by
        rw [hphase] at he'
        exact ReplayPhase.executing.inj he'
      have hstep : s.loop.replayStep (.execute result) = { s.loop with phase := .executed e result } := by
        unfold ReplayLoop.replayStep
        rw [hphase]
        exact if_neg (Nat.not_le.mpr hlt)
      rw [hstep]
      refine ⟨?_, fun hs => by cases hs⟩
      have hrep : s.view.replaying = some e.seq := by
        show s.loop.phase.seq = _
        rw [hphase]
        rfl
      have hland : s.view.replayLanded = false := by
        show s.loop.phase.hasLanded = _
        rw [hphase]
        rfl
      have hanswer := h.ordered.replayAnswer hrep hland (ReplayPhase.executed e result).hasLanded
      rw [hrep] at hanswer
      cases result <;> exact hanswer
    · exact h
  · -- the other steps of the loop send nothing
    rename_i hnot
    unfold ReplayLoop.replayStep
    split
    · rename_i hphase
      dsimp only
      split
      · exact h
      · exact h
      · rename_i e he
        exact h.replayClaim hphase (hclear rfl hphase) he
    · rename_i e result hphase
      exact absurd rfl (hnot e result hphase)
    · rename_i e result hphase
      have hsent := h.not_sent (by rw [hphase]; exact fun _ => ReplayPhase.noConfusion)
      obtain ⟨hm, hn⟩ := noteLanded_marks s.journal e.op result
      refine h.setLoop hm hn ?_ ?_ hsent <;> rw [hphase] <;> rfl
    · rename_i e result hphase
      have hsent := h.not_sent (by rw [hphase]; exact fun _ => ReplayPhase.noConfusion)
      refine h.setLoop ?_ (settleBytes_nextSeq ..) ?_ ?_ hsent
      · exact congrArg (List.map JournalEntry.mark) (settleBytes_entries ..)
      · rw [hphase]
        rfl
      · rw [hphase]
        rfl
    · rename_i e result hphase
      have hsent := h.not_sent (by rw [hphase]; exact fun _ => ReplayPhase.noConfusion)
      obtain ⟨hn, hm⟩ := settleEntry_marks h.distinct {} e result
      refine h.doneLoop (c := e.seq) ?_ hsent rfl hn ?_
      · rw [hphase]
        rfl
      · rw [hphase]
        exact hm
    · -- a request that was never sent may be given up after its attempts
      rename_i e hphase
      split
      · rename_i hmax
        have hsent : s.replaySent = false := by
          cases hs : s.replaySent with
          | false => rfl
          | true =>
            obtain ⟨e', he', hlt⟩ := h.sending hs
            rw [hphase] at he'
            obtain rfl := ReplayPhase.executing.inj he'
            exact absurd hmax (Nat.not_le.mpr hlt)
        refine h.setLoop ?_ (recoverEntry_nextSeq ..) ?_ ?_ hsent
        · exact congrArg (List.map JournalEntry.mark) (recoverEntry_entries ..)
        · rw [hphase]
          rfl
        · rw [hphase]
          rfl
      · exact h
    · rename_i e kept hphase
      have hsent := h.not_sent (by rw [hphase]; exact fun _ => ReplayPhase.noConfusion)
      refine h.doneLoop (c := e.seq) ?_ hsent rfl ?_ (Or.inl ?_)
      · rw [hphase]
        rfl
      · exact MutationJournal.dequeueFront_nextSeq _
      · exact MutationJournal.dequeueFront_marks _
    · exact h

/-! ## Main results -/

/-- A clear event keeps the invariant. -/
theorem Sound.step (h : s.Sound) {ev : LiveEvent} (hclear : s.Clear ev) : (s.step ev).Sound := by
  have hon : ∀ {seq : SeqId} {f : Worker → LiveMount},
      (∀ w, s.worker seq = some w → (f w).Sound) → (s.onWorker seq f).Sound := by
    intro seq f hf
    unfold LiveMount.onWorker
    split
    · rename_i w hw
      exact hf w hw
    · exact h
  -- what a worker does is done by the worker of that entry
  cases ev with
  | user op sourceOnServer => exact h.user op sourceOnServer hclear
  | setOffline b => exact ⟨h.ordered, h.sending⟩
  | getTurn seq => exact hon fun w hw => h.getTurn (worker_some hw).1
  | claim seq => exact hon fun w hw => h.claim (worker_some hw).1
  | send seq etag =>
    refine hon fun w hw => h.send (worker_some hw).1 etag fun path staging m hop hdef => ?_
    rw [(worker_some hw).2] at hdef ⊢
    exact hclear w path staging m hw hop hdef
  | expire seq =>
    refine hon fun w hw => h.expire (worker_some hw).1 ?_
    rw [(worker_some hw).2]
    exact hclear
  | answer seq a =>
    refine hon fun w hw => h.answer (worker_some hw).1 a fun hends => ?_
    rw [(worker_some hw).2]
    exact hclear w hw hends
  | replay st =>
    refine h.replay st ?_
    rintro rfl
    exact hclear
  | replaySend => exact h.replaySend

/-- Every event of a run is clear in the state it happens in. -/
def ClearRun : LiveMount → List LiveEvent → Prop
  | _, [] => True
  | s, ev :: rest => s.Clear ev ∧ (s.step ev).ClearRun rest

/-- And so does a whole run. -/
theorem Sound.steps (h : s.Sound) {events : List LiveEvent} (hclear : s.ClearRun events) :
    (s.steps events).Sound := by
  induction events generalizing s with
  | nil => exact h
  | cons ev rest ih => exact ih (h.step hclear.1) hclear.2

/-- A run, and one event more. -/
theorem clearRun_append {events : List LiveEvent} {ev : LiveEvent}
    (h : s.ClearRun (events ++ [ev])) : s.ClearRun events ∧ (s.steps events).Clear ev := by
  induction events generalizing s with
  | nil => exact ⟨trivial, h.1⟩
  | cons x rest ih =>
    obtain ⟨hrest, hev⟩ := ih h.2
    exact ⟨⟨h.1, hrest⟩, hev⟩

end LiveMount

/-- A journal as it is loaded when no upload in it was re-pointed: in the order of its numbers,
    with nothing in flight. -/
structure MutationJournal.Loaded (j : MutationJournal) : Prop where
  sorted : (j.entries.map (·.seq)).Pairwise (· < ·)
  bounded : ∀ e ∈ j.entries, e.seq < j.nextSeq
  idle : ∀ e ∈ j.entries, e.inFlight = false

/-- A mount is sound at the start. -/
theorem LiveMount.Sound.start {j : MutationJournal} (hj : j.Loaded) (cacheDir : PathBuf) :
    (LiveMount.start j cacheDir).Sound := by
  refine ⟨?_, fun hs => by cases hs⟩
  constructor
  · -- the marks are those of the journal's entries
    show (j.marks.map (·.1)).Pairwise (· < ·)
    rw [MutationJournal.marks_fst]
    exact hj.sorted
  · intro x hx
    obtain ⟨e, he, rfl⟩ := List.mem_map.mp hx
    exact hj.bounded e he
  · exact fun w hw => nomatch hw
  · exact fun c hc => nomatch hc
  · exact fun r hr => nomatch hr
  · exact List.nodup_nil
  · exact PathSeq.Holds.empty
  · exact fun c hc => nomatch hc
  · exact fun w hw => nomatch hw
  · exact fun c hc => nomatch hc
  · intro a ha
    obtain ⟨e, he, heq⟩ := List.mem_map.mp ha
    have hidle := hj.idle e he
    rw [(Prod.mk.inj heq).2] at hidle
    cases hidle
  · exact fun c f hc => nomatch hc
  · exact fun w hw => nomatch hw
  · exact fun b hb r hr => nomatch hr
  · exact fun r hr => nomatch hr
  · exact fun r hr => nomatch hr

namespace LiveMount

variable {s : LiveMount}

/-- The user sends nothing. -/
theorem user_requests (s : LiveMount) (op : MutationOp) (sourceOnServer : Bool) :
    (s.user op sourceOnServer).requests = s.requests := by
  have hqueue : ∀ op, (s.queueOp op).requests = s.requests := by
    intro op
    unfold LiveMount.queueOp
    dsimp only
    split <;> rfl
  unfold LiveMount.user
  split
  · split
    · rfl
    · exact hqueue _
  · exact hqueue _

/-- Only a claimed worker sends. -/
theorem send_requests (s : LiveMount) (w : Worker) (etag : Option String) :
    (s.send w etag).requests = s.requests ∨
      (w.phase = .claimed ∧ (s.send w etag).requests = s.requests ++ [{ seq := w.seq }]) := by
  unfold LiveMount.send
  split
  · exact Or.inl rfl
  · rename_i hphase
    have hphase : w.phase = .claimed := not_not.mp hphase
    split
    · dsimp only
      split
      · exact Or.inr ⟨hphase, rfl⟩
      · exact Or.inl rfl
      · exact Or.inl rfl
      · exact Or.inl rfl
    · exact Or.inr ⟨hphase, rfl⟩

/-- The request an event sends goes out in its turn. -/
theorem Sound.inTurn (h : s.Sound) {ev : LiveEvent} {b : SeqId}
    (hsend : (s.step ev).requests = s.requests ++ [{ seq := b }]) : s.view.InTurn b := by
  have hlen : (s.step ev).requests.length ≠ s.requests.length := by
    rw [hsend, List.length_append]
    exact Nat.succ_ne_self _
  have hsame : (s.step ev).requests ≠ s.requests := fun heq => hlen (by rw [heq])
  -- only the worker's send and the replay's send add a request
  cases ev with
  | user op sourceOnServer => exact absurd (s.user_requests op sourceOnServer) hsame
  | setOffline b => exact absurd rfl hsame
  | getTurn seq =>
    refine absurd ?_ hsame
    unfold LiveMount.step LiveMount.onWorker LiveMount.getTurn
    dsimp only
    split
    · split <;> rfl
    · rfl
  | claim seq =>
    refine absurd ?_ hsame
    unfold LiveMount.step LiveMount.onWorker LiveMount.claim
    dsimp only
    split
    · split
      · rfl
      · split
        · split <;> rfl
        · rfl
    · rfl
  | send seq etag =>
    revert hsend hsame
    unfold LiveMount.step LiveMount.onWorker
    dsimp only
    split
    · rename_i w hw
      intro hsend hsame
      rcases s.send_requests w etag with heq | ⟨hphase, heq⟩
      · exact absurd heq hsame
      · have hlast : ({ seq := w.seq } : Request) = { seq := b } := by
          rw [hsend] at heq
          simpa using heq.symm
        obtain rfl : w.seq = b := congrArg Request.seq hlast
        exact h.ordered.send_inTurn (worker_some hw).1 hphase
    · exact fun _ hsame => absurd rfl hsame
  | expire seq =>
    refine absurd ?_ hsame
    unfold LiveMount.step LiveMount.onWorker LiveMount.expire
    dsimp only
    split
    · split
      · split <;> rfl
      · rfl
    · rfl
  | answer seq a =>
    refine absurd ?_ hlen
    unfold LiveMount.step LiveMount.onWorker LiveMount.answer
    dsimp only
    split
    · split
      · exact List.length_map _
      · rfl
    · rfl
  | replay st =>
    refine absurd ?_ hlen
    unfold LiveMount.step LiveMount.replay
    dsimp only
    split
    · split
      · exact List.length_map _
      · rfl
    · rfl
  | replaySend =>
    revert hsend hsame
    unfold LiveMount.step LiveMount.replaySend
    dsimp only
    split
    · rename_i e hphase
      split
      · exact fun _ hsame => absurd rfl hsame
      · rename_i hcond
        intro hsend _
        have hlast : ({ seq := e.seq } : Request) = { seq := b } := by
          simpa [LiveMount.sendRequest] using hsend
        obtain rfl : e.seq = b := congrArg Request.seq hlast
        have hsent : s.replaySent = false := by
          simp only [Bool.or_eq_true, not_or] at hcond
          simpa using hcond.1
        refine h.ordered.replaySend_inTurn ?_ hsent ?_
        · show s.loop.phase.seq = _
          rw [hphase]
          rfl
        · show s.loop.phase.hasLanded = _
          rw [hphase]
          rfl
    · exact fun _ hsame => absurd rfl hsame

end LiveMount

/-- In every interleaving of user operations, live workers and replays whose events are all
    clear, every request goes out in its turn: no request of its entry was successful or is
    out, and every request sent before it for another entry on a common path belongs to an
    earlier entry and has been answered. -/
theorem requests_go_out_in_turn (j : MutationJournal) (hj : j.Loaded) (cacheDir : PathBuf)
    (events : List LiveEvent) (ev : LiveEvent)
    (hclear : (LiveMount.start j cacheDir).ClearRun (events ++ [ev])) (b : SeqId) :
    let s := (LiveMount.start j cacheDir).steps events
    (s.step ev).requests = s.requests ++ [{ seq := b }] → s.view.InTurn b := by
  intro s hsend
  have hsound := (LiveMount.Sound.start hj cacheDir).steps (LiveMount.clearRun_append hclear).1
  exact hsound.inTurn hsend

/-- An empty journal. -/
def emptyJournal : MutationJournal := { entries := [], nextSeq := 1, disk := { files := fun _ => none } }

/-- The server answers the DELETE of `/f` with 423, a new `/f` is saved and uploaded, and the
    replay starts on what is left. -/
def deferredDelete : List LiveEvent :=
  [.user (.unlink ["f"]) true, .getTurn 1, .claim 1, .send 1 none, .answer 1 (.deferred "locked"),
    .user (.put ["f"] ["cache", "write_1"] none) true, .getTurn 2, .claim 2, .send 2 none,
    .answer 2 (.landed none), .replay .claim]

/-- The DELETE that was queued first reaches the server after the upload. -/
theorem deferred_delete_follows_save :
    let s := (LiveMount.start emptyJournal ["cache"]).steps deferredDelete
    s.asked 1 = some (.unlink ["f"]) ∧ s.asked 2 = some (.put ["f"] ["cache", "write_1"] none) ∧
    s.requests = [{ seq := 1, success := some false }, { seq := 2, success := some true }] ∧
    (s.step .replaySend).requests = s.requests ++ [{ seq := 1 }] ∧ ¬ s.view.InTurn 1 := by
  intro s
  refine ⟨by decide, by decide, by decide, by decide, fun hturn => ?_⟩
  have htouch : s.view.Touching 2 1 :=
    Or.inr ⟨.put ["f"] ["cache", "write_1"] none, .unlink ["f"], ["f"], by decide, by decide,
      by decide, by decide⟩
  have hmem : ({ seq := 2, success := some true } : Request) ∈ s.view.requests := by decide
  exact absurd (hturn.2 _ hmem (by decide) htouch).1 (by decide)

/-- A DELETE with a save of the same name behind it, both live. -/
def deleteThenSave : List LiveEvent :=
  [.user (.unlink ["f"]) true, .user (.put ["f"] ["cache", "write_1"] none) true, .getTurn 1,
    .claim 1, .send 1 none, .answer 1 (.landed none), .getTurn 2, .claim 2]

/-- Each of its events is clear: the save's ticket waits for the DELETE's. -/
theorem deleteThenSave_clear :
    (LiveMount.start emptyJournal ["cache"]).ClearRun (deleteThenSave ++ [.send 2 none]) := by
  refine And.intro ⟨rfl, fun _ => ⟨fun c hc => (nomatch hc), fun b hb hmay _ => ?_⟩⟩
    (And.intro ⟨rfl, fun _ => ⟨fun c hc => (nomatch hc), fun b hb hmay _ => ?_⟩⟩
    (And.intro trivial (And.intro trivial (And.intro ?_ (And.intro ?_ (And.intro trivial
    (And.intro trivial (And.intro ?_ trivial))))))))
  · -- Nothing else is queued, and there is no worker yet.
    exfalso
    rcases hmay with ⟨f, hf⟩ | hrep | ⟨w, hw, -⟩
    · have hf : (b, f) ∈ [(1, false)] := hf
      simp only [List.mem_singleton, Prod.mk.injEq] at hf
      rw [hf.1] at hb
      exact absurd hb (by decide)
    · cases hrep
    · cases hw
  · -- The DELETE's worker holds `/f`.
    have hb1 : b = 1 := by
      rcases hmay with ⟨f, hf⟩ | hrep | ⟨w, hw, hseq, -⟩
      · have hf : (b, f) ∈ [(1, false), (2, false)] := hf
        simp only [List.mem_cons, List.not_mem_nil, Prod.mk.injEq, or_false] at hf
        rcases hf with ⟨hf, -⟩ | ⟨hf, -⟩
        · exact hf
        · rw [hf] at hb
          exact absurd hb (by decide)
      · cases hrep
      · rw [← hseq, List.mem_singleton.mp hw]
        rfl
    refine ⟨_, List.mem_singleton_self _, ⟨["f"], .exclusive, .exclusive, by decide, by decide,
      Or.inl rfl⟩, ?_⟩
    rw [hb1]
    exact ReflTransGen.refl
  · -- The DELETE settles nothing.
    intro w path staging m hw hop
    obtain rfl : _ = w := Option.some.inj hw
    cases hop
  · intro w hw hends
    cases hends
  · intro w path staging m hw hop hdef
    obtain rfl : _ = w := Option.some.inj hw
    obtain rfl : ["f"] = path := (MutationOp.put.inj hop).1
    exact absurd hdef (by decide)

/-- The upload goes out after the DELETE has been answered. -/
theorem save_follows_delete :
    let s := (LiveMount.start emptyJournal ["cache"]).steps deleteThenSave
    s.requests = [{ seq := 1, success := some true }] ∧ s.view.InTurn 2 := by
  intro s
  have hj : emptyJournal.Loaded :=
    ⟨List.Pairwise.nil, fun e he => (by cases he), fun e he => (by cases he)⟩
  refine ⟨by decide, ?_⟩
  exact requests_go_out_in_turn emptyJournal hj ["cache"] deleteThenSave (.send 2 none)
    deleteThenSave_clear 2 (by decide)

end Ncrs
