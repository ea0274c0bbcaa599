import Ncrs.Native.DeleteGuard
import Ncrs.Spec.LiveWorkersCorrect

/-!
# When the delete guard is exact

`FsCache::deleting` is keyed by path and so are the deletes it stands for, but nothing ties a
guard to one delete: a folder rename re-paths a queued DELETE, a second delete of the path
shares its guard, and a failed DELETE gives its guard up while it stays queued. A run in which
none of this happens (`GuardMount.Meets`) keeps `Guarded`: at most one delete of each path, its
guard in the set, and no guard without a delete.

## Key results

- `GuardMount.Exact.step`: an event that meets its condition keeps the invariant
- `delete_guard_is_exact`: in such a run a path is guarded exactly while a delete of it is queued
  or running, and refreshes list exactly the unguarded files of the server
- `failed_delete_is_listed_again`: a DELETE refused for good stays queued without its guard
-/

namespace Ncrs

/-! ## The sections of the replay -/

/-- Whether the section is one that comes next in the phase. -/
def ReplayPhase.awaits : ReplayPhase → ReplayStep → Bool
  | .idle, .claim | .executing _, .execute _ | .executing _, .recover | .executed .., .land
  | .landed .., .settleBytes | .settled .., .finish | .recovered .., .giveUp => true
  | _, _ => false

/-- A section that does not come next leaves the loop as it is. -/
theorem ReplayLoop.replayStep_of_not_awaits {l : ReplayLoop} {st : ReplayStep}
    (h : l.phase.awaits st = false) : l.replayStep st = l := by
  cases hphase : l.phase <;> rw [hphase] at h <;> cases st <;>
    first
    | (cases h; done)
    | simp only [replayStep, hphase]

/-- Nor does it touch the cache. -/
theorem GuardMount.replayCache_of_not_awaits {s : GuardMount} {st : ReplayStep}
    (h : s.live.loop.phase.awaits st = false) : s.replayCache st = s.cache := by
  cases hphase : s.live.loop.phase <;> rw [hphase] at h <;> cases st <;>
    first
    | (cases h; done)
    | simp only [replayCache, hphase]

/-! ## The queued deletes -/

/-- The entry's place in `deletions`. -/
def JournalEntry.deletion (e : JournalEntry) : Option (SeqId × PathBuf) :=
  e.op.deletes.map fun p => (e.seq, p)

/-- An entry that deletes, with its number. -/
theorem JournalEntry.deletion_eq_some {e : JournalEntry} {n : SeqId} {p : PathBuf} :
    e.deletion = some (n, p) ↔ e.seq = n ∧ e.op.deletes = some p := by
  simp only [deletion, Option.map_eq_some_iff, Prod.mk.injEq]
  constructor
  · rintro ⟨q, hq, hn, rfl⟩
    exact ⟨hn, hq⟩
  · rintro ⟨hn, hp⟩
    exact ⟨p, hp, hn, rfl⟩

theorem JournalEntry.deletion_eq_none {e : JournalEntry} :
    e.deletion = none ↔ e.op.deletes = none := by
  simp [deletion]

namespace MutationJournal

/-- The queued deletes with their sequence numbers. -/
def deletions (j : MutationJournal) : List (SeqId × PathBuf) :=
  j.entries.filterMap JournalEntry.deletion

variable {j : MutationJournal}

/-- The deletes of a queue, read off its entries. -/
theorem mem_deletions {n : SeqId} {p : PathBuf} :
    (n, p) ∈ j.deletions ↔ ∃ e ∈ j.entries, e.seq = n ∧ e.op.deletes = some p := by
  simp only [deletions, List.mem_filterMap, JournalEntry.deletion_eq_some]

/-- Taking out entries that delete nothing keeps the deletes. -/
theorem filterMap_deletion_filter {q : JournalEntry → Bool} {l : List JournalEntry}
    (h : ∀ e ∈ l, q e = false → e.op.deletes = none) :
    (l.filter q).filterMap JournalEntry.deletion = l.filterMap JournalEntry.deletion := by
  induction l with
  | nil => rfl
  | cons e l ih =>
    have ih := ih fun x hx => h x (List.mem_cons_of_mem _ hx)
    cases hq : q e with
    | true => simp only [List.filter_cons_of_pos hq, List.filterMap_cons, ih]
    | false =>
      have he := JournalEntry.deletion_eq_none.mpr (h e List.mem_cons_self hq)
      rw [List.filter_cons_of_neg (by simp [hq]), List.filterMap_cons_none he, ih]

/-- Changing entries without their deletes keeps them. -/
theorem filterMap_deletion_map {f : JournalEntry → JournalEntry} {l : List JournalEntry}
    (h : ∀ e ∈ l, (f e).deletion = e.deletion) :
    (l.map f).filterMap JournalEntry.deletion = l.filterMap JournalEntry.deletion := by
  rw [List.filterMap_map]
  exact List.filterMap_congr h

/-- Changing one entry keeps the deletes queued, if the change keeps each entry's. -/
theorem filterMap_deletion_modify {f : JournalEntry → JournalEntry}
    (h : ∀ e, (f e).deletion = e.deletion) (l : List JournalEntry) (i : Nat) :
    (l.modify i f).filterMap JournalEntry.deletion = l.filterMap JournalEntry.deletion := by
  have hmap := List.map_modify_of_eq h l i
  have hid : ∀ l : List JournalEntry,
      l.filterMap JournalEntry.deletion = (l.map JournalEntry.deletion).filterMap id := by
    intro l
    rw [List.filterMap_map]
    rfl
  rw [hid, hmap, ← hid]

/-- The same for a change in place. -/
theorem modify_deletions {f : JournalEntry → JournalEntry} (h : ∀ e, (f e).deletion = e.deletion)
    (j : MutationJournal) (seq : SeqId) : (j.modify seq f).deletions = j.deletions := by
  unfold modify
  split
  · exact filterMap_deletion_modify h _ _
  · rfl

/-- A failure that is noted deletes nothing new. -/
theorem markFailed_deletions (j : MutationJournal) (seq : SeqId) (error : String) :
    (j.markFailed seq error).deletions = j.deletions := by
  show (j.modify seq _).deletions = _
  apply modify_deletions
  exact fun _ => rfl

/-- Deferring an entry keeps the deletes queued. -/
theorem markDeferred_deletions (j : MutationJournal) (seq : SeqId) (error : String) :
    (j.markDeferred seq error).deletions = j.deletions := by
  show (j.modify seq _).deletions = _
  apply modify_deletions
  exact fun _ => rfl

/-- Nor does claiming. -/
theorem claim_deletions (j : MutationJournal) (seq : SeqId) :
    (j.claim seq).2.deletions = j.deletions := by
  unfold claim
  split
  · split
    · rfl
    · apply modify_deletions
      exact fun _ => rfl
  · rfl

/-- Nor does a new base etag. -/
theorem rebase_deletions (j : MutationJournal) (path : PathBuf) (sent new : Option String) :
    (j.rebase path sent new).deletions = j.deletions := by
  unfold rebase
  split
  · rfl
  · split
    · refine filterMap_deletion_map fun e _ => ?_
      split
      · unfold rebaseEntry
        split <;> simp_all [JournalEntry.deletion, MutationOp.deletes]
      · rfl
    · rfl

/-- Handing a staging copy to a rename keeps the deletes queued. -/
theorem handStagingToRename_deletions (j : MutationJournal) (uploadedAs staging : PathBuf) :
    (j.handStagingToRename uploadedAs staging).2.deletions = j.deletions := by
  unfold handStagingToRename
  split
  · rfl
  · refine filterMap_deletion_modify (fun e => ?_) _ _
    split
    · simp_all [JournalEntry.deletion, MutationOp.deletes]
    · rfl

/-- Removing an entry takes its delete out. -/
theorem mem_remove_deletions {seq n : SeqId} {p : PathBuf} :
    (n, p) ∈ (j.remove seq).deletions ↔ (n, p) ∈ j.deletions ∧ n ≠ seq := by
  simp only [mem_deletions, remove, saveJournal, List.mem_filter, decide_eq_true_eq]
  constructor
  · rintro ⟨e, ⟨he, hne⟩, rfl, hp⟩
    exact ⟨⟨e, he, rfl, hp⟩, hne⟩
  · rintro ⟨⟨e, he, rfl, hp⟩, hne⟩
    exact ⟨e, ⟨he, hne⟩, rfl, hp⟩

theorem remove_deletions_sublist (j : MutationJournal) (seq : SeqId) :
    (j.remove seq).deletions.Sublist j.deletions :=
  List.filter_sublist.filterMap _

/-- Taking out an entry that is no delete. -/
theorem remove_deletions (h : ∀ p, (seq, p) ∉ j.deletions) :
    (j.remove seq).deletions = j.deletions := by
  refine filterMap_deletion_filter fun e he hq => ?_
  have hseq : e.seq = seq := by simpa using hq
  cases hp : e.op.deletes with
  | none => rfl
  | some p => exact absurd (mem_deletions.mpr ⟨e, he, hseq, hp⟩) (h p)

/-- Only uploads are superseded. -/
theorem supersedeUploads_deletions (j : MutationJournal) (path : PathBuf) (newest : SeqId) :
    (j.supersedeUploads path newest).deletions = j.deletions := by
  rw [deletions, supersedeUploads_entries]
  refine filterMap_deletion_filter fun e _ hq => ?_
  have hup : e.op.isUploadOf path = true := by
    simp only [stale, Bool.not_eq_false', Bool.and_eq_true] at hq
    exact hq.2
  cases hop : e.op <;> simp_all [MutationOp.isUploadOf, MutationOp.deletes]

/-- An upload deletes nothing. -/
theorem isUploadOf_deletes {op : MutationOp} {path : PathBuf} (h : op.isUploadOf path = true) :
    op.deletes = none := by
  cases op <;> simp_all [MutationOp.isUploadOf, MutationOp.deletes]

/-- A queued `mkdir` that a rename folds into itself is no delete. -/
theorem isMkDirOf_deletes {op : MutationOp} {path : PathBuf} (h : op.isMkDirOf path = true) :
    op.deletes = none := by
  cases op <;> simp_all [MutationOp.isMkDirOf, MutationOp.deletes]

/-- Queueing an operation merges uploads and folder creations, no deletes. -/
theorem coalesce_deletions (j : MutationJournal) (op : MutationOp) :
    (j.coalesceBeforeEnqueue op).deletions = j.deletions := by
  have hunlink : ∀ path, (j.entries.filter fun e =>
      !e.op.isUploadOf path && !e.op.isMkDirOf path).filterMap JournalEntry.deletion
        = j.deletions := by
    intro path
    refine filterMap_deletion_filter fun e _ hq => ?_
    cases hup : e.op.isUploadOf path with
    | true => exact isUploadOf_deletes hup
    | false => exact isMkDirOf_deletes (by simpa [hup] using hq)
  unfold coalesceBeforeEnqueue
  split
  · split
    · rfl
    · dsimp only
      split
      · exact hunlink _
      · exact hunlink _
  · refine filterMap_deletion_filter fun e _ hq => ?_
    exact isMkDirOf_deletes (by simpa using hq)
  · rfl

/-- Pointing an upload at another name touches no delete. -/
theorem retargetUpload_deletions (j : MutationJournal) (src dst : PathBuf)
    (base : Option String) : (j.retargetUpload src dst base).2.deletions = j.deletions := by
  by_cases hret : (j.retargetUpload src dst base).1 = true
  · obtain ⟨e, staging, -, -, -, -, hj⟩ := retargetUpload_true hret
    rw [hj]
    show (_ ++ [_]).filterMap JournalEntry.deletion = _
    rw [List.filterMap_append, filterMap_deletion_filter]
    · exact List.append_nil _
    · intro x _ hq
      exact isUploadOf_deletes (by simpa using hq)
  · rw [retargetUpload_false (by simpa using hret)]

/-- Settling an upload takes out no delete. -/
theorem settleUpload_deletions {seq : SeqId} (h : ∀ p, (seq, p) ∉ j.deletions)
    (startedAs : PathBuf) (ifMatch : Option String) :
    (j.settleUpload seq startedAs ifMatch).2.deletions = j.deletions := by
  obtain ⟨i, e, hidx, hget, -, heq⟩ | heq | ⟨msg, heq⟩ | ⟨i, path, etag, heq⟩ :=
    j.settleUpload_cases seq startedAs ifMatch
  · -- The upload's own entry is taken out; the number is no delete's, so no delete goes with it.
    rw [heq]
    show (j.entries.eraseIdx i).filterMap JournalEntry.deletion = _
    have he : e.deletion = none := by
      refine JournalEntry.deletion_eq_none.mpr ?_
      obtain ⟨hlt, hp, -⟩ := List.findIdx?_eq_some_iff_getElem.mp hidx
      have hei : j.entries[i] = e := by
        rw [List.getElem?_eq_getElem hlt] at hget
        exact Option.some.inj hget
      have hseq : e.seq = seq := by
        rw [← hei]
        simpa using hp
      cases hd : e.op.deletes with
      | none => rfl
      | some p =>
        exact absurd (mem_deletions.mpr ⟨e, List.mem_of_getElem? hget, hseq, hd⟩) (h p)
    have hsplit := List.eraseIdx_eq_take_drop_succ j.entries i
    have hwhole : j.entries = j.entries.take i ++ e :: j.entries.drop (i + 1) := by
      obtain ⟨hlt, -⟩ := List.findIdx?_eq_some_iff_getElem.mp hidx
      rw [List.getElem?_eq_getElem hlt] at hget
      rw [← Option.some.inj hget, List.cons_getElem_drop_succ, List.take_append_drop]
    rw [hsplit, deletions]
    conv_rhs => rw [hwhole]
    rw [List.filterMap_append, List.filterMap_append, List.filterMap_cons_none he]
  · -- Nothing was queued under the number.
    rw [heq]
  · rw [heq]
    exact j.markDeferred_deletions seq msg
  · rw [heq]
    -- A re-targeted upload is given its etag and stays.
    apply filterMap_deletion_modify
    exact fun _ => rfl

/-- A rename with no re-pathable delete at or below its source leaves the deletes alone. -/
theorem followRename_deletion {op : MutationOp} {e : JournalEntry}
    (h : ∀ src dst s m, op = .rename src dst s m → ∀ p, e.op.deletes = some p →
      e.inFlight = false → e.retargeted = false → ¬ src <+: p) :
    (followRename op e).deletion = e.deletion := by
  unfold followRename
  split
  · -- Only a rename changes the entries behind it, and of these only those it may re-point.
    rename_i src dst s m
    split
    · rename_i hfree
      rw [Bool.and_eq_true, Bool.not_eq_true', Bool.not_eq_true'] at hfree
      have hkeep : ∀ p, e.op.deletes = some p → MutationOp.rewritePath src dst p = p := by
        intro p hp
        have hout := h src dst s m rfl p hp hfree.1 hfree.2
        simp only [MutationOp.rewritePath, (PathBuf.stripPrefix_eq_none_iff p src).mpr hout]
      have hop : ((e.op.updatePathPrefix src dst).condition dst m).deletes = e.op.deletes := by
        cases hop : e.op with
        | unlink p =>
          -- `RENAME src → dst` leaves a delete outside `src` on its path.
          rw [MutationOp.updatePathPrefix, hkeep p (by rw [hop]; rfl)]
          rfl
        | rmDir p =>
          rw [MutationOp.updatePathPrefix, hkeep p (by rw [hop]; rfl)]
          rfl
        | mkDir p => rfl
        | rename => rfl
        | put p st t =>
          cases t with
          | none =>
            simp only [MutationOp.updatePathPrefix, MutationOp.condition]
            split <;> rfl
          | some t => rfl
        | finishChunked p u n b l t c =>
          cases c with
          | none =>
            simp only [MutationOp.updatePathPrefix, MutationOp.condition]
            split <;> rfl
          | some c => rfl
      simp only [JournalEntry.deletion, hop]
    · rfl
  · rfl

/-- Queueing an operation adds its own delete, if it is one. -/
theorem enqueue_deletions {op : MutationOp}
    (h : ∀ src dst s m, op = .rename src dst s m → ∀ e ∈ j.entries, ∀ p, e.op.deletes = some p →
      e.inFlight = false → e.retargeted = false → ¬ src <+: p) :
    (j.enqueue op).2.deletions = j.deletions ++ (op.deletes.map fun p => (j.nextSeq, p)).toList := by
  have hmem : ∀ e ∈ (j.coalesceBeforeEnqueue op).entries, e ∈ j.entries := by
    intro e he
    unfold coalesceBeforeEnqueue at he
    split at he
    · split at he
      · exact he
      · dsimp only at he
        split at he
        · exact List.mem_of_mem_filter he
        · exact List.mem_of_mem_filter he
    · exact List.mem_of_mem_filter he
    · exact he
  -- The queue without the coalesced entries, each re-pointed, then the new one.
  rw [deletions, enqueue_entries, List.filterMap_append, filterMap_deletion_map]
  · show (j.coalesceBeforeEnqueue op).deletions ++ _ = _
    rw [coalesce_deletions]
    refine congrArg (_ ++ ·) ?_
    cases hd : op.deletes with
    | none => rw [List.filterMap_cons_none (by simp [JournalEntry.deletion, hd])]; rfl
    | some p =>
      rw [List.filterMap_cons_some (b := (j.nextSeq, p)) (by simp [JournalEntry.deletion, hd])]
      rfl
  · intro e he
    exact followRename_deletion fun src dst s m hop p hp =>
      h src dst s m hop e (hmem e he) p hp

end MutationJournal

/-! ## The invariant -/

/-- The guard set, the queued deletes, the workers and the replay agree. `replaying` is the path
    of the delete the replay works on. -/
structure Guarded (deleting : Finset PathBuf) (queue : List (SeqId × PathBuf)) (nextSeq : SeqId)
    (workers : List Worker) (clearing : List PathBuf) (replaying : Option PathBuf) : Prop where
  fresh : ∀ x ∈ queue, x.1 < nextSeq
  young : ∀ w ∈ workers, w.seq < nextSeq
  /-- One delete of each path at a time. -/
  once : (queue.map (·.2) ++ clearing).Nodup
  /-- A live delete's entry is queued, under its own path. -/
  own : ∀ w ∈ workers, ∀ p, w.op.deletes = some p ↔ (w.seq, p) ∈ queue
  guard : ∀ p, p ∈ deleting ↔ p ∈ queue.map (·.2) ++ clearing
  /-- The replay and the live workers do not share a delete. -/
  alone : ∀ p, replaying = some p → p ∈ queue.map (·.2) ∧ ∀ w ∈ workers, w.op.deletes ≠ some p

namespace Guarded

variable {deleting : Finset PathBuf} {queue : List (SeqId × PathBuf)} {nextSeq : SeqId}
  {workers workers' : List Worker} {clearing : List PathBuf} {replaying : Option PathBuf}

/-- Workers may return or go on. -/
theorem fewer (h : Guarded deleting queue nextSeq workers clearing replaying)
    (hw : ∀ w' ∈ workers', ∃ w ∈ workers, w.seq = w'.seq ∧ w.op = w'.op) :
    Guarded deleting queue nextSeq workers' clearing replaying where
  fresh := h.fresh
  young w' hw' := by
    obtain ⟨w, hmem, hseq, -⟩ := hw w' hw'
    rw [← hseq]
    exact h.young w hmem
  once := h.once
  own w' hw' p := by
    obtain ⟨w, hmem, hseq, hop⟩ := hw w' hw'
    rw [← hseq, ← hop]
    exact h.own w hmem p
  guard := h.guard
  alone p hp := by
    refine ⟨(h.alone p hp).1, fun w' hw' => ?_⟩
    obtain ⟨w, hmem, -, hop⟩ := hw w' hw'
    rw [← hop]
    exact (h.alone p hp).2 w hmem

/-- The replay is done with its entry, or at one that is no delete. -/
theorem unclaimed (h : Guarded deleting queue nextSeq workers clearing replaying) :
    Guarded deleting queue nextSeq workers clearing none :=
  { h with alone := fun _ hp => nomatch hp }

/-- The replay claims a delete that no worker is at. -/
theorem claimed (h : Guarded deleting queue nextSeq workers clearing replaying) {p : PathBuf}
    (hp : p ∈ queue.map (·.2)) (hw : ∀ w ∈ workers, w.op.deletes ≠ some p) :
    Guarded deleting queue nextSeq workers clearing (some p) := by
  refine { h with alone := fun q hq => ?_ }
  obtain rfl := Option.some.inj hq
  exact ⟨hp, hw⟩

/-- An operation that is no delete gets its worker. -/
theorem submit (h : Guarded deleting queue nextSeq workers clearing replaying) {op : MutationOp}
    (hop : op.deletes = none) (t : Ticket) :
    Guarded deleting queue (nextSeq + 1) (workers ++ [{ seq := nextSeq, op := op, ticket := t }])
      clearing replaying where
  fresh x hx := Nat.lt_succ_of_lt (h.fresh x hx)
  young w hw := by
    rcases List.mem_append.mp hw with hw | hw
    · exact Nat.lt_succ_of_lt (h.young w hw)
    · rw [List.mem_singleton.mp hw]
      exact Nat.lt_succ_self nextSeq
  once := h.once
  own w hw p := by
    rcases List.mem_append.mp hw with hw | hw
    · exact h.own w hw p
    · rw [List.mem_singleton.mp hw]
      -- The new number is on no queued delete, and the new worker has none.
      show op.deletes = some p ↔ (nextSeq, p) ∈ queue
      rw [hop]
      exact ⟨nofun, fun hx => absurd (h.fresh _ hx) (Nat.lt_irrefl nextSeq)⟩
  guard := h.guard
  alone p hp := by
    refine ⟨(h.alone p hp).1, fun w hw => ?_⟩
    rcases List.mem_append.mp hw with hw | hw
    · -- The replay's delete has no live worker, and the new one is none.
      exact (h.alone p hp).2 w hw
    · rw [List.mem_singleton.mp hw]
      show op.deletes ≠ some p
      rw [hop]
      exact nofun

/-- A first delete of `p` is queued and gets its worker. -/
theorem submitDelete (h : Guarded deleting queue nextSeq workers clearing replaying)
    {op : MutationOp} {p : PathBuf} (hop : op.deletes = some p)
    (hp : p ∉ queue.map (·.2) ++ clearing) (t : Ticket) :
    Guarded (insert p deleting) (queue ++ [(nextSeq, p)]) (nextSeq + 1)
      (workers ++ [{ seq := nextSeq, op := op, ticket := t }]) clearing replaying where
  fresh x hx := by
    rcases List.mem_append.mp hx with hx | hx
    · exact Nat.lt_succ_of_lt (h.fresh x hx)
    · rw [List.mem_singleton.mp hx]
      exact Nat.lt_succ_self nextSeq
  young w hw := by
    rcases List.mem_append.mp hw with hw | hw
    · exact Nat.lt_succ_of_lt (h.young w hw)
    · rw [List.mem_singleton.mp hw]
      exact Nat.lt_succ_self nextSeq
  once := by
    have hperm : (queue.map (·.2) ++ [p] ++ clearing).Perm (p :: (queue.map (·.2) ++ clearing)) := by
      rw [List.append_assoc]
      exact List.perm_middle
    rw [List.map_append]
    exact hperm.nodup_iff.mpr (List.nodup_cons.mpr ⟨hp, h.once⟩)
  own w hw q := by
    rw [List.mem_append, List.mem_singleton]
    rcases List.mem_append.mp hw with hw | hw
    · -- An earlier worker has a lower number, so the new entry is not its own.
      have hne : w.seq ≠ nextSeq := Nat.ne_of_lt (h.young w hw)
      rw [h.own w hw q, Prod.mk.injEq]
      exact ⟨Or.inl, fun hx => hx.resolve_right fun hx => hne hx.1⟩
    · rw [List.mem_singleton.mp hw]
      show op.deletes = some q ↔ _
      -- The new worker's entry is the new one: any other of its number would not be fresh.
      rw [hop]
      constructor
      · intro hq
        rw [Option.some.inj hq]
        exact Or.inr rfl
      · rintro (hx | hx)
        · exact absurd (h.fresh _ hx) (Nat.lt_irrefl nextSeq)
        · rw [(Prod.mk.inj hx).2]
  guard q := by
    -- The path joins the guard and the queue at once.
    have hq := h.guard q
    simp only [List.mem_append, List.map_append, List.map_cons, List.map_nil, List.mem_singleton,
      Finset.mem_insert] at hq ⊢
    tauto
  alone q hq := by
    obtain ⟨hqueued, hw⟩ := h.alone q hq
    refine ⟨?_, fun w hmem => ?_⟩
    · rw [List.map_append]
      exact List.mem_append_left _ hqueued
    · rcases List.mem_append.mp hmem with hmem | hmem
      · exact hw w hmem
      · rw [List.mem_singleton.mp hmem]
        -- The replay's path was queued before, so it is not the one submitted.
        show op.deletes ≠ some q
        rw [hop]
        rintro hpq
        rw [Option.some.inj hpq] at hp
        exact hp (List.mem_append_left _ hqueued)

/-- A delete with path `p` is the only one of `p`. -/
theorem only (h : Guarded deleting queue nextSeq workers clearing replaying) {p : PathBuf}
    {n m : SeqId} (hn : (n, p) ∈ queue) (hm : (m, p) ∈ queue) : n = m := by
  have hnodup := (List.nodup_append.mp h.once).1
  exact (Prod.mk.inj (List.inj_on_of_nodup_map hnodup hn hm rfl)).1

/-- A worker's delete of `p` is over: its entry is gone and its guard is still to be taken out. -/
theorem settle (h : Guarded deleting queue nextSeq workers clearing replaying) {w : Worker}
    (hw : w ∈ workers) {p : PathBuf} (hp : w.op.deletes = some p)
    {queue' : List (SeqId × PathBuf)} (hsub : queue'.Sublist queue)
    (hqueue : ∀ n q, (n, q) ∈ queue' ↔ (n, q) ∈ queue ∧ n ≠ w.seq) :
    Guarded deleting queue' nextSeq (workers.filter fun x => x.seq ≠ w.seq) (clearing ++ [p])
      replaying := by
  have hown := (h.own w hw p).mp hp
  obtain ⟨-, hclear, hdisj⟩ := List.nodup_append.mp h.once
  -- The worker's entry was the only one for its path.
  have hpq : p ∉ queue'.map (·.2) := by
    intro hmem
    obtain ⟨⟨n, q⟩, hx, rfl⟩ := List.mem_map.mp hmem
    obtain ⟨hx, hne⟩ := (hqueue n q).mp hx
    exact hne (h.only hx hown)
  have hpc : p ∉ clearing := fun hmem => hdisj p (List.mem_map.mpr ⟨_, hown, rfl⟩) p hmem rfl
  -- Any other path keeps its delete, since the worker's entry is its own alone.
  have hkeep : ∀ q, q ≠ p → (q ∈ queue'.map (·.2) ↔ q ∈ queue.map (·.2)) := by
    intro q hq
    constructor
    · exact fun hmem => (hsub.map _).subset hmem
    · intro hmem
      obtain ⟨⟨n, r⟩, hx, rfl⟩ := List.mem_map.mp hmem
      refine List.mem_map.mpr ⟨(n, r), (hqueue n r).mpr ⟨hx, fun hn => hq ?_⟩, rfl⟩
      rw [hn] at hx
      have hr := (h.own w hw r).mpr hx
      exact Option.some.inj (hr.symm.trans hp)
  refine ⟨fun x hx => h.fresh x (hsub.subset hx), fun x hx => h.young x (List.mem_of_mem_filter hx),
    ?_, fun x hx q => ?_, fun q => ?_, fun q hq => ?_⟩
  · rw [← List.append_assoc]
    -- The path moves from the queue to the paths waiting to be cleared: still once.
    refine List.nodup_append.mpr ⟨?_, List.nodup_singleton p, ?_⟩
    · exact h.once.sublist ((hsub.map _).append (List.Sublist.refl _))
    · intro q hmem r hr
      rw [List.mem_singleton.mp hr]
      rintro rfl
      exact (List.mem_append.mp hmem).elim hpq hpc
  · -- Another worker keeps its entry.
    have hne : x.seq ≠ w.seq := by simpa using (List.mem_filter.mp hx).2
    rw [h.own x (List.mem_of_mem_filter hx) q, hqueue]
    exact ⟨fun hx => ⟨hx, hne⟩, And.left⟩
  · rw [h.guard q]
    -- The guard holds the same paths as before, this one as waiting to be cleared.
    by_cases hqp : q = p
    · subst hqp
      have : q ∈ queue.map (·.2) := List.mem_map.mpr ⟨_, hown, rfl⟩
      simp only [List.mem_append, List.mem_singleton, this, true_or, or_true]
    · simp only [List.mem_append, List.mem_singleton, hkeep q hqp, hqp, or_false]
  · -- The replay's delete is not the worker's, which the replay leaves alone.
    obtain ⟨hqueued, halone⟩ := h.alone q hq
    have hqp : q ≠ p := fun hqp => halone w hw (hqp ▸ hp)
    exact ⟨(hkeep q hqp).mpr hqueued, fun x hx => halone x (List.mem_of_mem_filter hx)⟩

/-- A worker takes its guard out. -/
theorem clear (h : Guarded deleting queue nextSeq workers clearing replaying) {p : PathBuf}
    (hp : p ∈ clearing) :
    Guarded (deleting.erase p) queue nextSeq workers (clearing.erase p) replaying := by
  obtain ⟨hqueue, hclear, hdisj⟩ := List.nodup_append.mp h.once
  have hpq : p ∉ queue.map (·.2) := fun hmem => hdisj p hmem p hp rfl
  refine { h with once := ?_, guard := fun q => ?_ }
  · exact h.once.sublist ((List.Sublist.refl _).append List.erase_sublist)
  · rw [Finset.mem_erase, h.guard q, List.mem_append, List.mem_append, hclear.mem_erase_iff]
    constructor
    · rintro ⟨hne, hq | hq⟩
      · exact Or.inl hq
      · exact Or.inr ⟨hne, hq⟩
    · rintro (hq | ⟨hne, hq⟩)
      · exact ⟨fun hqp => hpq (hqp ▸ hq), Or.inl hq⟩
      · exact ⟨hne, Or.inr hq⟩

/-- The replay takes out its own delete with its guard. -/
theorem popped {n : SeqId} {p : PathBuf}
    (h : Guarded deleting ((n, p) :: queue) nextSeq workers clearing (some p)) :
    Guarded (deleting.erase p) queue nextSeq workers clearing none := by
  have honce := h.once
  rw [List.map_cons, List.cons_append, List.nodup_cons] at honce
  obtain ⟨hp, honce⟩ := honce
  refine ⟨fun x hx => h.fresh x (List.mem_cons_of_mem _ hx), h.young, honce, fun w hw q => ?_,
    fun q => ?_, nofun⟩
  · rw [h.own w hw q, List.mem_cons, Prod.mk.injEq]
    refine ⟨fun hx => hx.resolve_left fun hx => ?_, Or.inr⟩
    -- The worker would be deleting the replay's path.
    refine (h.alone p rfl).2 w hw ((h.own w hw p).mpr ?_)
    rw [hx.1]
    exact List.mem_cons_self
  · rw [Finset.mem_erase, h.guard q, List.map_cons, List.cons_append, List.mem_cons]
    refine ⟨fun hq => hq.2.resolve_left hq.1, fun hq => ⟨fun hqp => hp (hqp ▸ hq), Or.inr hq⟩⟩

end Guarded

/-! ## Live workers -/

namespace LiveMount

/-- Nothing about deletes changes, except that workers may return. -/
structure Quiet (s s' : LiveMount) : Prop where
  deletions : s'.journal.deletions = s.journal.deletions
  nextSeq : s'.journal.nextSeq = s.journal.nextSeq
  phase : s'.loop.phase = s.loop.phase
  offline : s'.offline = s.offline
  workers : ∀ w' ∈ s'.workers, ∃ w ∈ s.workers, w.seq = w'.seq ∧ w.op = w'.op

namespace Quiet

variable {s s' s'' : LiveMount}

theorem refl (s : LiveMount) : Quiet s s :=
  ⟨rfl, rfl, rfl, rfl, fun w hw => ⟨w, hw, rfl, rfl⟩⟩

/-- Quiet steps, one after the other. -/
theorem trans (h : Quiet s s') (h' : Quiet s' s'') : Quiet s s'' where
  deletions := h'.deletions.trans h.deletions
  nextSeq := h'.nextSeq.trans h.nextSeq
  phase := h'.phase.trans h.phase
  offline := h'.offline.trans h.offline
  workers w'' hw'' := by
    obtain ⟨w', hw', hseq', hop'⟩ := h'.workers w'' hw''
    obtain ⟨w, hw, hseq, hop⟩ := h.workers w' hw'
    exact ⟨w, hw, hseq.trans hseq', hop.trans hop'⟩

/-- A new queue with the same deletes is quiet. -/
theorem setJournal (s : LiveMount) {j : MutationJournal}
    (hd : j.deletions = s.journal.deletions) (hn : j.nextSeq = s.journal.nextSeq) :
    Quiet s (s.setJournal j) :=
  ⟨hd, hn, rfl, rfl, fun w hw => ⟨w, hw, rfl, rfl⟩⟩

/-- A worker that goes on is quiet. -/
theorem setPhase (s : LiveMount) (seq : SeqId) (phase : WorkerPhase) :
    Quiet s (s.setPhase seq phase) := by
  refine ⟨rfl, rfl, rfl, rfl, fun w' hw' => ?_⟩
  obtain ⟨w, hw, rfl⟩ := List.mem_map.mp hw'
  refine ⟨w, hw, ?_⟩
  split <;> exact ⟨rfl, rfl⟩

theorem endWorker (s : LiveMount) (w : Worker) : Quiet s (s.endWorker w) :=
  ⟨rfl, rfl, rfl, rfl, fun x hx => ⟨x, List.mem_of_mem_filter hx, rfl, rfl⟩⟩

theorem sendRequest (s : LiveMount) (seq : SeqId) : Quiet s (s.sendRequest seq) :=
  ⟨rfl, rfl, rfl, rfl, fun w hw => ⟨w, hw, rfl, rfl⟩⟩

theorem answerRequest (s : LiveMount) (seq : SeqId) (success : Bool) :
    Quiet s (s.answerRequest seq success) :=
  ⟨rfl, rfl, rfl, rfl, fun w hw => ⟨w, hw, rfl, rfl⟩⟩

/-- A worker whose answer concerns no delete's entry returns. -/
theorem returns (s : LiveMount) {j : MutationJournal} (hd : j.deletions = s.journal.deletions)
    (hn : j.nextSeq = s.journal.nextSeq) (w : Worker) (success : Bool) :
    Quiet s (((s.setJournal j).answerRequest w.seq success).endWorker w) :=
  ((setJournal s hd hn).trans (answerRequest _ w.seq success)).trans (endWorker _ w)

/-- A step of one worker is quiet if it is quiet for that worker. -/
theorem onWorker {f : Worker → LiveMount} {seq : SeqId}
    (h : ∀ w ∈ s.workers, w.seq = seq → Quiet s (f w)) : Quiet s (s.onWorker seq f) := by
  unfold LiveMount.onWorker
  split
  · rename_i w hw
    have hseq : w.seq = seq := by simpa using List.find?_some hw
    exact h w (List.mem_of_find?_eq_some hw) hseq
  · exact refl s

theorem getTurn (s : LiveMount) (w : Worker) : Quiet s (s.getTurn w) := by
  unfold LiveMount.getTurn
  split
  · exact setPhase ..
  · exact refl s

theorem claim (s : LiveMount) (w : Worker) : Quiet s (s.claim w) := by
  unfold LiveMount.claim
  split
  · exact refl s
  · split
    · dsimp only
      split
      · exact (setJournal s (s.journal.claim_deletions w.seq)
          (LiveOp.nextSeq (.claim w.seq) (fun _ => nofun) s.journal)).trans (setPhase ..)
      · exact endWorker ..
    · exact setPhase ..

/-- The condition under which an upload's worker is at no delete's entry. -/
theorem settle (s : LiveMount) {w : Worker} (h : ∀ p, (w.seq, p) ∉ s.journal.deletions)
    (path : PathBuf) (etag : Option String) :
    Quiet s (s.setJournal (s.journal.settleUpload w.seq path etag).2) :=
  setJournal s (MutationJournal.settleUpload_deletions h path etag)
    (s.journal.settleUpload_nextSeq w.seq path etag)

/-- A request is quiet where it is not a delete's. -/
theorem send (s : LiveMount) {w : Worker}
    (h : w.op.deletes = none → ∀ p, (w.seq, p) ∉ s.journal.deletions) (etag : Option String) :
    Quiet s (s.send w etag) := by
  unfold LiveMount.send
  split
  · exact refl s
  · split
    · rename_i path staging m hop
      have hs := settle s (h (by rw [hop]; rfl)) path etag
      dsimp only
      split
      · exact (hs.trans (setPhase ..)).trans (sendRequest ..)
      · exact hs
      · exact hs.trans (endWorker ..)
      · exact hs.trans (endWorker ..)
    · exact (setPhase ..).trans (sendRequest ..)

theorem expire (s : LiveMount) (w : Worker) : Quiet s (s.expire w) := by
  unfold LiveMount.expire
  split
  · split
    · exact (setJournal s (s.journal.markDeferred_deletions ..) (s.journal.modify_nextSeq ..)).trans
        (endWorker ..)
    · exact refl s
  · exact refl s

theorem replaySend (s : LiveMount) : Quiet s s.replaySend := by
  unfold LiveMount.replaySend
  split
  · split
    · exact refl s
    · exact ⟨rfl, rfl, rfl, rfl, fun w hw => ⟨w, hw, rfl, rfl⟩⟩
  · exact refl s

end Quiet

end LiveMount

/-- The sections of an answered worker that take out no entry. -/
theorem LiveOp.deletions {op : LiveOp} {j : MutationJournal}
    (h : match op with
      | .enqueue _ | .settleUpload .. => False
      | .remove seq => ∀ p, (seq, p) ∉ j.deletions
      | _ => True) : (op.apply j).deletions = j.deletions := by
  cases op with
  | enqueue op => exact absurd h id
  | settleUpload => exact absurd h id
  | retargetUpload src dst base => exact j.retargetUpload_deletions src dst base
  | supersedeUploads path newest => exact j.supersedeUploads_deletions path newest
  | claim seq => exact j.claim_deletions seq
  | markFailed seq error => exact j.markFailed_deletions seq error
  | markDeferred seq error => exact j.markDeferred_deletions seq error
  | remove seq => exact MutationJournal.remove_deletions h
  | handStagingToRename uploadedAs staging =>
    exact j.handStagingToRename_deletions uploadedAs staging
  | rebase path sent new => exact j.rebase_deletions path sent new

/-- The answer of a request that is no DELETE leaves the deletes alone. -/
theorem LiveAnswer.liveOps_deletions {j : MutationJournal} {seq : SeqId}
    (h : ∀ p, (seq, p) ∉ j.deletions) (a : LiveAnswer) (op : MutationOp) (dest : PathBuf)
    (m : Option String) :
    ((a.liveOps seq op dest m).foldl LiveOp.apply j).deletions = j.deletions := by
  -- Each change a live answer makes to the journal is one of these, and none touches a delete.
  have hrun : ∀ (ops : List LiveOp) (j' : MutationJournal), j'.deletions = j.deletions →
      (∀ o ∈ ops, (∃ e, o = .markFailed seq e) ∨ (∃ e, o = .markDeferred seq e) ∨
        o = .remove seq ∨ (∃ p s, o = .handStagingToRename p s) ∨ ∃ p s n, o = .rebase p s n) →
      (ops.foldl LiveOp.apply j').deletions = j.deletions := by
    intro ops
    induction ops with
    | nil => exact fun j' hj' _ => hj'
    | cons o ops ih =>
      intro j' hj' hops
      refine ih _ ?_ fun o' ho' => hops o' (List.mem_cons_of_mem _ ho')
      rw [← hj'] at h ⊢
      apply LiveOp.deletions
      rcases hops o List.mem_cons_self with ⟨e, rfl⟩ | ⟨e, rfl⟩ | rfl | ⟨p, s, rfl⟩ | ⟨p, s, n, rfl⟩
      · trivial
      · trivial
      · exact h
      · trivial
      · trivial
  -- What is left is to read the changes off, answer by answer.
  refine hrun _ j rfl fun o ho => ?_
  cases a with
  | landed etag =>
    cases op with
    | finishChunked p u n b l tail c sp hd whole =>
      cases whole <;> simp [LiveAnswer.liveOps] at ho <;> grind
    | _ =>
      simp [LiveAnswer.liveOps] at ho
      grind
  | settled => cases op <;> simp [LiveAnswer.liveOps] at ho <;> grind
  | deferred error => cases op <;> simp [LiveAnswer.liveOps] at ho <;> grind
  | failed error => simp [LiveAnswer.liveOps] at ho; grind

/-- What a worker's answer does to the queue gives out no number. -/
theorem LiveAnswer.liveOps_nextSeq (a : LiveAnswer) (seq : SeqId) (op : MutationOp)
    (dest : PathBuf) (m : Option String) (j : MutationJournal) :
    ((a.liveOps seq op dest m).foldl LiveOp.apply j).nextSeq = j.nextSeq := by
  have hrun : ∀ (ops : List LiveOp) (j : MutationJournal), (∀ o ∈ ops, ∀ x, o ≠ .enqueue x) →
      (ops.foldl LiveOp.apply j).nextSeq = j.nextSeq := by
    intro ops
    induction ops with
    | nil => exact fun _ _ => rfl
    | cons o ops ih =>
      intro j hops
      rw [List.foldl_cons, ih _ fun o' ho' => hops o' (List.mem_cons_of_mem _ ho')]
      exact LiveOp.nextSeq o (hops o List.mem_cons_self) j
  refine hrun _ j fun o ho x => ?_
  cases a with
  | landed etag =>
    cases op with
    | finishChunked p u n b l tail c sp hd whole =>
      cases whole <;> simp [LiveAnswer.liveOps] at ho <;> grind
    | _ =>
      simp [LiveAnswer.liveOps] at ho
      grind
  | settled => cases op <;> simp [LiveAnswer.liveOps] at ho <;> grind
  | deferred error => cases op <;> simp [LiveAnswer.liveOps] at ho <;> grind
  | failed error => simp [LiveAnswer.liveOps] at ho; grind

/-- What the answer of a DELETE does to the journal. -/
theorem LiveAnswer.liveOps_delete (a : LiveAnswer) (seq : SeqId) {op : MutationOp} {p : PathBuf}
    (hop : op.deletes = some p) (dest : PathBuf) (m : Option String) :
    a.liveOps seq op dest m =
      match a with
      | .landed _ | .settled => [.remove seq]
      | .deferred error => [.markDeferred seq error]
      | .failed error => [.markFailed seq error] := by
  cases op with
  | unlink q => cases a <;> rfl
  | rmDir q => cases a <;> rfl
  | _ => cases hop

/-! ## The mount -/

/-- The path of the delete the replay works on. -/
def ReplayPhase.deletes : ReplayPhase → Option PathBuf
  | idle => none
  | executing e | executed e _ | landed e _ | settled e _ | recovered e _ => e.op.deletes

/-- The results after which the replay takes the front entry out. -/
def ReplayResult.takesOut : ReplayResult → Bool
  | ok | uploaded _ | conflict _ | idempotent => true
  | retryable _ | serverError _ => false

/-- A DELETE whose answer is known was not refused for good. -/
def ReplayPhase.NotRefused : ReplayPhase → Prop
  | executed e r | landed e r | settled e r =>
    e.op.deletes.isSome → r = .ok ∨ r = .idempotent ∨ ∃ msg, r = .retryable msg
  | _ => True

namespace GuardMount

/-- The guard set is what the queue, the workers and the replay delete, and nothing is refused for
    good. -/
structure Exact (s : GuardMount) : Prop where
  guarded : Guarded s.cache.deleting s.journal.deletions s.journal.nextSeq s.live.workers
    s.clearing s.live.loop.phase.deletes
  notRefused : s.live.loop.phase.NotRefused
  online : s.live.offline = false

/-- The replay takes out the delete it executed and no other. -/
def PopsOwn (s : GuardMount) (e : JournalEntry) : Prop :=
  ∀ f, s.journal.peekFront = some f → f.op.deletes = e.op.deletes

/-- The sections of the replay that keep the guard exact. -/
def ReplayMeets (s : GuardMount) (st : ReplayStep) : Prop :=
  match s.live.loop.phase, st with
  | .idle, .claim =>
    ∀ e p, s.journal.peekFront = some e → e.op.deletes = some p →
      ∀ w ∈ s.live.workers, w.op.deletes ≠ some p
  | .executing e, .execute (.serverError _) => e.op.deletes = none
  | .settled e r, .finish => r.takesOut = true → s.PopsOwn e
  | .recovered e _, .giveUp => s.PopsOwn e
  | _, _ => True

/-- The events that keep the guard exact: no second delete of a path, no folder rename over a
    queued delete, no DELETE refused for good. -/
def Meets (s : GuardMount) : GuardEvent → Prop
  | .live (.user op sourceOnServer) =>
    (∀ p, op.deletes = some p → ¬ s.Queued p ∧ ¬ s.Running p) ∧
    ∀ src dst st m, op = .rename src dst st m → s.live.repoints op sourceOnServer = false →
      ∀ e ∈ s.journal.entries, ∀ p, e.op.deletes = some p → e.inFlight = false →
        e.retargeted = false → ¬ src <+: p
  | .live (.answer seq a) =>
    ∀ w error, s.live.worker seq = some w → w.op.deletes.isSome → a ≠ .failed error
  | .live (.replay st) => s.ReplayMeets st
  | _ => True

/-- Every event of a run meets its condition. -/
def AllMeet (s : GuardMount) : List GuardEvent → Prop
  | [] => True
  | ev :: evs =>
    s.Meets ev ∧
      match s.step ev with
      | some s' => s'.AllMeet evs
      | none => True

variable {s s' : GuardMount}

/-- A quiet change of the live part. -/
theorem Exact.quiet (h : s.Exact) {l : LiveMount} (hq : s.live.Quiet l) :
    Exact { s with live := l } where
  guarded := by
    show Guarded s.cache.deleting l.journal.deletions l.journal.nextSeq l.workers s.clearing
      l.loop.phase.deletes
    rw [hq.deletions, hq.nextSeq, hq.phase]
    exact h.guarded.fewer hq.workers
  notRefused := by
    show l.loop.phase.NotRefused
    rw [hq.phase]
    exact h.notRefused
  online := hq.offline.trans h.online

/-- A change of the cache that leaves the guards alone. -/
theorem Exact.cache (h : s.Exact) {c : FsCache} (hc : c.deleting = s.cache.deleting) :
    Exact { s with cache := c } where
  guarded := by
    show Guarded c.deleting _ _ _ _ _
    rw [hc]
    exact h.guarded
  notRefused := h.notRefused
  online := h.online

theorem modifyFiles_deleting (c : FsCache) (path : PathBuf)
    (f : List RemoteEntry → List RemoteEntry) : (c.modifyFiles path f).deleting = c.deleting := by
  unfold FsCache.modifyFiles FsCache.modifyDir
  split <;> rfl

/-- A delete is guarded as soon as it is queued. -/
theorem startDelete_deleting (c : FsCache) (op : MutationOp) :
    (c.startDelete op).deleting =
      match op.deletes with
      | some p => insert p c.deleting
      | none => c.deleting := by
  cases op with
  | unlink p => exact congrArg (insert p) (modifyFiles_deleting ..)
  | rmDir p => exact congrArg (insert p) (modifyFiles_deleting ..)
  | _ => rfl

theorem foldl_removeDir_deleting (l : List (Nat × PathBuf)) (c : FsCache) :
    (l.foldl (fun c x => c.removeDir x.2) c).deleting = c.deleting := by
  induction l generalizing c with
  | nil => rfl
  | cons x l ih => exact ih (c.removeDir x.2)

/-- Storing a listing leaves the delete guards alone. -/
theorem putDirCache_deleting (c : FsCache) (path : PathBuf) (etag : Option String)
    (selfEntry : Option RemoteEntry) (files : List RemoteEntry) (now : Nat) :
    (c.putDirCache path etag selfEntry files now).deleting = c.deleting := by
  unfold FsCache.putDirCache
  split
  · rfl
  · unfold FsCache.evictDirCache
    dsimp only
    split
    · rfl
    · exact foldl_removeDir_deleting ..

/-- The paths that queued entries delete. -/
theorem mem_map_deletions {j : MutationJournal} {p : PathBuf} :
    p ∈ j.deletions.map (·.2) ↔ ∃ e ∈ j.entries, e.op.deletes = some p := by
  constructor
  · intro hp
    obtain ⟨⟨n, q⟩, hx, rfl⟩ := List.mem_map.mp hp
    obtain ⟨e, he, -, hd⟩ := MutationJournal.mem_deletions.mp hx
    exact ⟨e, he, hd⟩
  · rintro ⟨e, he, hd⟩
    exact List.mem_map.mpr ⟨(e.seq, p), MutationJournal.mem_deletions.mpr ⟨e, he, rfl, hd⟩, rfl⟩

/-- What an operation that is queued does to the deletes. -/
theorem record_deletions {l : LiveMount} {op : MutationOp}
    (h : ∀ src dst s m, op = .rename src dst s m → ∀ e ∈ l.journal.entries, ∀ p,
      e.op.deletes = some p → e.inFlight = false → e.retargeted = false → ¬ src <+: p) :
    (l.record op).journal.deletions =
        l.journal.deletions ++ (op.deletes.map fun p => (l.journal.nextSeq, p)).toList ∧
      (l.record op).journal.nextSeq = l.journal.nextSeq + 1 := by
  have hd := MutationJournal.enqueue_deletions h
  have hn := l.journal.enqueue_nextSeq op
  unfold LiveMount.record
  dsimp only
  split
  · constructor
    · show (MutationJournal.supersedeUploads ..).deletions = _
      rw [MutationJournal.supersedeUploads_deletions, hd]
    · show (MutationJournal.supersedeUploads ..).nextSeq = _
      rw [MutationJournal.supersedeUploads_nextSeq, hn]
  · exact ⟨hd, hn⟩

/-- A user operation is queued with its worker. -/
theorem Exact.queueOp (h : s.Exact) {op : MutationOp}
    (hnew : ∀ p, op.deletes = some p → ¬ s.Queued p ∧ ¬ s.Running p)
    (hrename : ∀ src dst st m, op = .rename src dst st m → ∀ e ∈ s.journal.entries, ∀ p,
      e.op.deletes = some p → e.inFlight = false → e.retargeted = false → ¬ src <+: p) :
    Exact { s with live := s.live.queueOp op, cache := s.cache.startDelete op } := by
  obtain ⟨hd, hn⟩ := record_deletions (l := s.live) hrename
  have hlive : s.live.queueOp op = (s.live.record op).submit s.live.journal.nextSeq op := by
    show (if s.live.offline then _ else _) = _
    rw [h.online]
    rfl
  rw [hlive]
  refine ⟨?_, h.notRefused, h.online⟩
  show Guarded (s.cache.startDelete op).deleting (s.live.record op).journal.deletions
    (s.live.record op).journal.nextSeq (s.live.workers ++ [_]) s.clearing
    s.live.loop.phase.deletes
  -- The record: the guard set gains the path, the journal the entry, the pool the worker.
  rw [hd, hn, startDelete_deleting]
  cases hop : op.deletes with
  | none =>
    rw [Option.map_none, Option.toList_none, List.append_nil]
    exact h.guarded.submit hop (s.live.order.ticket op.ticketPaths).1
  | some p =>
    obtain ⟨hq, hr⟩ := hnew p hop
    -- No delete of the path was queued and none ran, so its entry is the only one.
    refine h.guarded.submitDelete hop ?_ (s.live.order.ticket op.ticketPaths).1
    intro hmem
    rcases List.mem_append.mp hmem with hmem | hmem
    · exact hq (mem_map_deletions.mp hmem)
    · exact hr (Or.inr hmem)

/-- A delete that is queued gets its guard and its worker at once. -/
theorem Exact.user (h : s.Exact) {op : MutationOp} {b : Bool}
    (hm : s.Meets (.live (.user op b))) :
    Exact { s with live := s.live.user op b, cache := s.cache.startDelete op } := by
  obtain ⟨hnew, hrename⟩ := hm
  cases op with
  | rename src dst st m =>
    by_cases hre : s.live.repoints (.rename src dst st m) b = true
    · have hlive : s.live.user (.rename src dst st m) b =
          s.live.setJournal (s.journal.retargetUpload src dst m).2 := if_pos hre
      rw [hlive]
      exact h.quiet (LiveMount.Quiet.setJournal _ (s.journal.retargetUpload_deletions src dst m)
        (LiveOp.nextSeq (.retargetUpload src dst m) (fun _ => nofun) s.journal))
    · have hlive : s.live.user (.rename src dst st m) b =
          s.live.queueOp (.rename src dst st m) := if_neg hre
      rw [hlive]
      exact h.queueOp hnew fun src' dst' st' m' hop => hrename src' dst' st' m' hop (by simpa using hre)
  | unlink p => exact h.queueOp hnew fun _ _ _ _ hop => nomatch hop
  | rmDir p => exact h.queueOp hnew fun _ _ _ _ hop => nomatch hop
  | put p t m => exact h.queueOp hnew fun _ _ _ _ hop => nomatch hop
  | mkDir p => exact h.queueOp hnew fun _ _ _ _ hop => nomatch hop
  | finishChunked => exact h.queueOp hnew fun _ _ _ _ hop => nomatch hop

/-- The worker of a DELETE that succeeded or found nothing is at its last section. -/
theorem Exact.deleted (h : s.Exact) {w : Worker} (hw : w ∈ s.live.workers) {p : PathBuf}
    (hp : w.op.deletes = some p) (success : Bool) :
    Exact { s with
      live := ((s.live.setJournal (s.journal.remove w.seq)).answerRequest w.seq success).endWorker w
      clearing := s.clearing ++ [p] } :=
  ⟨h.guarded.settle hw hp (s.journal.remove_deletions_sublist w.seq)
    fun _ _ => MutationJournal.mem_remove_deletions, h.notRefused, h.online⟩

/-- An answer hands the guard over to what is still to be cleared. -/
theorem Exact.answer (h : s.Exact) {seq : SeqId} {a : LiveAnswer}
    (hm : s.Meets (.live (.answer seq a))) :
    Exact { s with
      live := s.live.step (.answer seq a), clearing := s.clearing ++ s.freedBy seq a } := by
  -- An answer that finds nobody waiting changes neither the guards nor the queue.
  have hstay : ∀ l : LiveMount, s.live.Quiet l →
      Exact { s with live := l, clearing := s.clearing ++ [] } := by
    intro l hl
    rw [List.append_nil]
    exact h.quiet hl
  unfold freedBy LiveMount.step LiveMount.onWorker
  dsimp only
  cases hfind : s.live.worker seq with
  | none => exact hstay _ (LiveMount.Quiet.refl _)
  | some w =>
    have hw : w ∈ s.live.workers := List.mem_of_find?_eq_some hfind
    have hseq : w.seq = seq := by simpa using List.find?_some hfind
    unfold LiveMount.answer
    dsimp only
    cases hphase : w.phase with
    | queued => exact hstay _ (LiveMount.Quiet.refl _)
    | admitted => exact hstay _ (LiveMount.Quiet.refl _)
    | claimed => exact hstay _ (LiveMount.Quiet.refl _)
    | sent dest m =>
      dsimp only
      -- Only a request that was sent is answered; then it matters whether it was a DELETE.
      cases hop : w.op.deletes with
      | none =>
        -- A request that is no DELETE settles no delete's entry.
        have hno : ∀ p, (w.seq, p) ∉ s.journal.deletions := by
          intro p hx
          have := (h.guarded.own w hw p).mpr hx
          rw [hop] at this
          cases this
        have hq : ∀ success, _ := fun success => hstay _ (LiveMount.Quiet.returns s.live
          (a.liveOps_deletions hno w.op dest m) (a.liveOps_nextSeq w.seq w.op dest m _) w success)
        cases a <;> exact hq _
      | some p =>
        -- The DELETE landed, or found nothing to delete: its entry goes and its guard is to be cleared.
        rw [a.liveOps_delete w.seq hop dest m]
        cases a with
        | landed etag => exact h.deleted hw hop _
        | settled => exact h.deleted hw hop _
        | deferred error =>
          -- The entry stays queued, and the guard with it.
          exact hstay _ (LiveMount.Quiet.returns s.live
            (s.journal.markDeferred_deletions w.seq error) (s.journal.modify_nextSeq ..) w false)
        | failed error =>
          -- A refused DELETE would leave its guard: the condition excludes it.
          exact absurd rfl (hm w error hfind (by rw [hop]; rfl))

/-! ### The replay's sections -/

/-- The guard goes with the delete. -/
theorem clearDeleting_deleting (c : FsCache) (op : MutationOp) :
    (clearDeleting c op).deleting =
      match op.deletes with
      | some p => c.deleting.erase p
      | none => c.deleting := by
  cases op <;> rfl

/-- The guard of an upload is another set. -/
theorem releaseUploadGuard_deleting (j : MutationJournal) (c : FsCache) (op : MutationOp) :
    (releaseUploadGuard j c op).deleting = c.deleting := by
  unfold releaseUploadGuard
  split
  · split <;> rfl
  · split <;> rfl
  · split <;> rfl
  · rfl

/-- The front entry takes its delete along. -/
theorem dequeueFront_deletions (j : MutationJournal) :
    j.dequeueFront.2.deletions = j.entries.tail.filterMap JournalEntry.deletion := by
  rw [MutationJournal.deletions, MutationJournal.dequeueFront_entries]

/-- The front entry leaves the queue together with the guard of its delete. -/
theorem Exact.pop (h : s.Exact) {e : JournalEntry} (he : s.live.loop.phase.deletes = e.op.deletes)
    (hown : s.PopsOwn e) {c : FsCache} {j : MutationJournal}
    (hc : c.deleting =
      match e.op.deletes with
      | some p => s.cache.deleting.erase p
      | none => s.cache.deleting)
    (hd : j.deletions = s.journal.entries.tail.filterMap JournalEntry.deletion)
    (hn : j.nextSeq = s.journal.nextSeq) :
    Guarded c.deleting j.deletions j.nextSeq s.live.workers s.clearing none := by
  have hg := h.guarded
  rw [he] at hg
  rw [hc, hd, hn]
  unfold PopsOwn MutationJournal.peekFront at hown
  unfold MutationJournal.deletions at hg
  -- Popped is the front, which by the condition is the replay's own entry.
  cases hentries : s.journal.entries with
  | nil =>
    rw [hentries] at hg
    cases hop : e.op.deletes with
    | none => exact hg.unclaimed
    | some p =>
      -- The replay's delete is queued, so the queue is not empty.
      rw [hop] at hg
      cases (hg.alone p rfl).1
  | cons f rest =>
    rw [hentries] at hg hown
    have hf := hown f rfl
    -- The front is no delete: it only goes out of the queue.
    cases hop : e.op.deletes with
    | none =>
      rw [hop] at hf
      rw [List.filterMap_cons_none (JournalEntry.deletion_eq_none.mpr hf)] at hg
      exact hg.unclaimed
    | some p =>
      -- The front is the replay's delete: its guard is cleared as it goes out.
      rw [hop] at hf hg
      have hdel : f.deletion = some (f.seq, p) := JournalEntry.deletion_eq_some.mpr ⟨rfl, hf⟩
      rw [List.filterMap_cons_some hdel] at hg
      exact hg.popped

/-- The replay claims the front entry. -/
theorem Exact.claimFront (h : s.Exact) (hidle : s.live.loop.phase = .idle)
    (hm : s.ReplayMeets .claim) :
    Exact { s with live := { s.live with loop := s.live.loop.replayStep .claim } } := by
  unfold ReplayMeets at hm
  rw [hidle] at hm
  unfold ReplayLoop.replayStep
  rw [hidle]
  dsimp only
  unfold Ncrs.claimFront
  have hfront : s.live.loop.journal.peekFront = s.journal.peekFront := rfl
  cases hpeek : s.live.loop.journal.peekFront with
  | none => exact h
  | some e =>
    -- An entry some worker has claimed is left to it.
    dsimp only
    cases hfl : e.inFlight with
    | true =>
      simp only [if_true]
      exact h
    | false =>
      simp only [Bool.false_eq_true, if_false]
      -- Claiming changes no delete, and from here on the replay owns the front's.
      have hg := h.guarded.unclaimed
      have hd := s.journal.claim_deletions e.seq
      have hn := LiveOp.nextSeq (.claim e.seq) (fun _ => nofun) s.journal
      refine ⟨?_, trivial, h.online⟩
      show Guarded s.cache.deleting (s.journal.claim e.seq).2.deletions
        (s.journal.claim e.seq).2.nextSeq s.live.workers s.clearing e.op.deletes
      rw [hd, show (s.journal.claim e.seq).2.nextSeq = _ from hn]
      cases hop : e.op.deletes with
      | none => exact hg
      | some p =>
        refine hg.claimed (mem_map_deletions.mpr ⟨e, ?_, hop⟩) (hm e p (hfront ▸ hpeek) hop)
        exact List.mem_of_head? hpeek

/-- The last section of an entry that was executed. -/
theorem Exact.finish (h : s.Exact) {e : JournalEntry} {r : ReplayResult}
    (hphase : s.live.loop.phase = .settled e r) (hm : s.ReplayMeets .finish) :
    let settled := settleEntry s.live.loop.journal s.cache e r
    Guarded settled.2.2.deleting settled.2.1.deletions settled.2.1.nextSeq s.live.workers
      s.clearing none := by
  have hown : r.takesOut = true → s.PopsOwn e := by
    unfold ReplayMeets at hm
    rw [hphase] at hm
    exact hm
  have href := h.notRefused
  rw [hphase] at href
  have he : s.live.loop.phase.deletes = e.op.deletes := by
    rw [hphase]
    rfl
  have hmark : ∀ j : MutationJournal, j.deletions = s.journal.deletions →
      j.nextSeq = s.journal.nextSeq →
      Guarded s.cache.deleting j.deletions j.nextSeq s.live.workers s.clearing none := by
    intro j hd hn
    rw [hd, hn]
    exact h.guarded.unclaimed
  -- Results that take the front out go through `pop`; the two that mark it keep every guard.
  cases r with
  | ok =>
    refine h.pop he (hown rfl) ?_ (dequeueFront_deletions _) (s.journal.dequeueFront_nextSeq)
    rw [← releaseUploadGuard_deleting s.live.loop.journal.dequeueFront.2 s.cache e.op]
    exact clearDeleting_deleting _ e.op
  | idempotent =>
    exact h.pop he (hown rfl) (clearDeleting_deleting _ e.op) (dequeueFront_deletions _)
      (s.journal.dequeueFront_nextSeq)
  | uploaded etag =>
    refine h.pop he (hown rfl) ?_ (dequeueFront_deletions _) (s.journal.dequeueFront_nextSeq)
    rw [← releaseUploadGuard_deleting s.live.loop.journal.dequeueFront.2 s.cache e.op]
    exact clearDeleting_deleting _ e.op
  | conflict kind =>
    -- No DELETE ends in a conflict, so no guard is left behind.
    have hop : e.op.deletes = none := by
      cases hop : e.op.deletes with
      | none => rfl
      | some p => simpa using href (by rw [hop]; rfl)
    refine h.pop he (hown rfl) ?_ (dequeueFront_deletions _)
      ((s.journal.addConflict kind).dequeueFront_nextSeq)
    rw [hop]
    exact releaseUploadGuard_deleting _ s.cache e.op
  | retryable msg =>
    -- Still queued, still guarded.
    exact hmark _ (s.journal.markDeferred_deletions e.seq msg) (s.journal.modify_nextSeq ..)
  | serverError msg =>
    -- No DELETE ends here either: the guard the code clears is none.
    have hop : e.op.deletes = none := by
      cases hop : e.op.deletes with
      | none => rfl
      | some p => simpa using href (by rw [hop]; rfl)
    have hc := clearDeleting_deleting s.cache e.op
    rw [hop] at hc
    show Guarded (clearDeleting s.cache e.op).deleting _ _ _ _ _
    rw [hc]
    exact hmark _ (s.journal.markFailed_deletions e.seq msg) (s.journal.modify_nextSeq ..)

/-- The mount after a section of the replay, with what it does to the cache. -/
def replaySection (s : GuardMount) (st : ReplayStep) : GuardMount :=
  { s with live := { s.live with loop := s.live.loop.replayStep st }, cache := s.replayCache st }

/-- A section that changes nothing. -/
theorem Exact.section_idle (h : s.Exact) {st : ReplayStep} (hl : s.live.loop.replayStep st = s.live.loop)
    (hc : s.replayCache st = s.cache) : (s.replaySection st).Exact := by
  unfold replaySection
  rw [hl, hc]
  exact h

/-- A section that does not come next changes nothing. -/
theorem Exact.section_other (h : s.Exact) {st : ReplayStep}
    (hn : s.live.loop.phase.awaits st = false) : (s.replaySection st).Exact :=
  h.section_idle (ReplayLoop.replayStep_of_not_awaits hn) (replayCache_of_not_awaits hn)

/-- A section that moves the phase on and leaves the deletes and the guards alone. -/
theorem Exact.section_on (h : s.Exact) {st : ReplayStep} (j : MutationJournal) (phase : ReplayPhase)
    (hl : s.live.loop.replayStep st = { s.live.loop with journal := j, phase := phase })
    (hc : s.replayCache st = s.cache) (hd : j.deletions = s.journal.deletions)
    (hn : j.nextSeq = s.journal.nextSeq) (hp : phase.deletes = s.live.loop.phase.deletes)
    (hr : phase.NotRefused) : (s.replaySection st).Exact := by
  unfold replaySection
  rw [hl, hc]
  refine ⟨?_, hr, h.online⟩
  show Guarded s.cache.deleting j.deletions j.nextSeq s.live.workers s.clearing phase.deletes
  rw [hd, hn, hp]
  exact h.guarded

/-- A delete that is executed may have gone through or fail for now; it is not refused for good. -/
theorem Exact.execute (h : s.Exact) {e : JournalEntry} {r : ReplayResult}
    (hphase : s.live.loop.phase = .executing e) (hm : s.ReplayMeets (.execute r))
    (hpos : s.possible (.execute r) = true) : (s.replaySection (.execute r)).Exact := by
  have hc : s.replayCache (.execute r) = s.cache := by simp only [replayCache, hphase]
  by_cases hmax : MAX_ATTEMPTS ≤ e.attempts
  · exact h.section_idle (by simp only [ReplayLoop.replayStep, hphase, if_pos hmax]) hc
  refine h.section_on s.live.loop.journal (.executed e r) ?_ hc rfl rfl
    (by rw [hphase]; rfl) fun hdel => ?_
  · simp only [ReplayLoop.replayStep, hphase, if_neg hmax]
  · simp only [possible, hphase, Bool.or_eq_true, Option.isNone_iff_eq_none] at hpos
    obtain ⟨p, hp⟩ := Option.isSome_iff_exists.mp hdel
    rcases hpos with hnone | hans
    · rw [hp] at hnone
      cases hnone
    · cases r with
      | ok => exact Or.inl rfl
      | idempotent => exact Or.inr (Or.inl rfl)
      | retryable msg => exact Or.inr (Or.inr ⟨msg, rfl⟩)
      | uploaded etag => cases hans
      | conflict kind => cases hans
      | serverError msg =>
        simp only [ReplayMeets, hphase] at hm
        rw [hp] at hm
        cases hm

/-- A recovered entry stays at the front until it is given up. -/
theorem Exact.recover (h : s.Exact) {e : JournalEntry} (hphase : s.live.loop.phase = .executing e) :
    (s.replaySection .recover).Exact := by
  have hc : s.replayCache .recover = s.cache := by simp only [replayCache, hphase]
  by_cases hmax : MAX_ATTEMPTS ≤ e.attempts
  · refine h.section_on (recoverEntry s.live.loop.journal s.live.loop.cacheDir e).2
      (.recovered e (recoverEntry s.live.loop.journal s.live.loop.cacheDir e).1) ?_ hc ?_
      (recoverEntry_nextSeq ..) (by rw [hphase]; rfl) trivial
    · simp only [ReplayLoop.replayStep, hphase, if_pos hmax]
    · rw [MutationJournal.deletions, recoverEntry_entries]
      rfl
  · exact h.section_idle (by simp only [ReplayLoop.replayStep, hphase, if_neg hmax]) hc

/-- What landed is noted in the conditions of the queue, not in its deletes. -/
theorem Exact.land (h : s.Exact) {e : JournalEntry} {r : ReplayResult}
    (hphase : s.live.loop.phase = .executed e r) : (s.replaySection .land).Exact := by
  have href := h.notRefused
  rw [hphase] at href
  refine h.section_on (noteLanded s.live.loop.journal e.op r) (.landed e r)
    (by simp only [ReplayLoop.replayStep, hphase]) (by simp only [replayCache, hphase]) ?_
    (noteLanded_marks ..).2 (by rw [hphase]; rfl) href
  unfold noteLanded
  split
  · exact s.journal.rebase_deletions ..
  · exact s.journal.rebase_deletions ..
  · exact s.journal.rebase_deletions ..
  · rfl

/-- Settling the bytes moves files, not entries. -/
theorem Exact.settleBytes (h : s.Exact) {e : JournalEntry} {r : ReplayResult}
    (hphase : s.live.loop.phase = .landed e r) : (s.replaySection .settleBytes).Exact := by
  have href := h.notRefused
  rw [hphase] at href
  refine h.section_on (Ncrs.settleBytes s.live.loop.journal s.live.loop.cacheDir e r)
    (.settled e r) (by simp only [ReplayLoop.replayStep, hphase])
    (by simp only [replayCache, hphase]) ?_ (settleBytes_nextSeq ..) (by rw [hphase]; rfl) href
  rw [MutationJournal.deletions, settleBytes_entries]
  rfl

/-- A replayed delete that is done takes its guard and its entry out together. -/
theorem Exact.finishSection (h : s.Exact) {e : JournalEntry} {r : ReplayResult}
    (hphase : s.live.loop.phase = .settled e r) (hm : s.ReplayMeets .finish) :
    (s.replaySection .finish).Exact := by
  have hfin := h.finish hphase hm
  -- what the section does to the journal does not depend on the cache
  have hj : (settleEntry s.live.loop.journal {} e r).2.1 =
      (settleEntry s.live.loop.journal s.cache e r).2.1 := by
    cases r <;> rfl
  have hl : s.live.loop.replayStep .finish =
      { s.live.loop with
        journal := (settleEntry s.live.loop.journal s.cache e r).2.1, phase := .idle } := by
    simp only [ReplayLoop.replayStep, hphase, hj]
  have hc : s.replayCache .finish = (settleEntry s.live.loop.journal s.cache e r).2.2 := by
    simp only [replayCache, hphase]
  unfold replaySection
  rw [hl, hc]
  exact ⟨hfin, trivial, h.online⟩

/-- So does one that is given up. -/
theorem Exact.giveUp (h : s.Exact) {e : JournalEntry} {kept : Option PathBuf}
    (hphase : s.live.loop.phase = .recovered e kept) (hm : s.ReplayMeets .giveUp) :
    (s.replaySection .giveUp).Exact := by
  have hown : s.PopsOwn e := by simpa only [ReplayMeets, hphase] using hm
  have hl : s.live.loop.replayStep .giveUp =
      { s.live.loop with
        journal := (dropEntry s.live.loop.journal s.cache e kept).1, phase := .idle } := by
    simp only [ReplayLoop.replayStep, hphase]
    rfl
  have hc : s.replayCache .giveUp = clearDeleting s.cache e.op := by
    simp only [replayCache, hphase]
    rfl
  unfold replaySection
  rw [hl, hc]
  refine ⟨?_, trivial, h.online⟩
  exact h.pop (by rw [hphase]; rfl) hown (clearDeleting_deleting _ e.op)
    (dequeueFront_deletions _) (MutationJournal.dequeueFront_nextSeq _)

/-- Each section of the replay, in the phase it comes in, keeps the guard exact. -/
theorem Exact.replayStep (h : s.Exact) {st : ReplayStep} (hm : s.ReplayMeets st)
    (hpos : s.possible st = true) : (s.replaySection st).Exact := by
  -- Each section takes the loop from the phase before it; in any other phase it does nothing.
  cases hphase : s.live.loop.phase with
  | idle =>
    cases st with
    | claim =>
      have hc : s.replayCache .claim = s.cache := by simp only [replayCache, hphase]
      unfold replaySection
      rw [hc]
      exact h.claimFront hphase hm
    | _ => exact h.section_other (by rw [hphase]; rfl)
  | executing e =>
    cases st with
    | execute r => exact h.execute hphase hm hpos
    | recover => exact h.recover hphase
    | _ => exact h.section_other (by rw [hphase]; rfl)
  | executed e r =>
    cases st with
    | land => exact h.land hphase
    | _ => exact h.section_other (by rw [hphase]; rfl)
  | landed e r =>
    cases st with
    | settleBytes => exact h.settleBytes hphase
    | _ => exact h.section_other (by rw [hphase]; rfl)
  | settled e r =>
    cases st with
    | finish => exact h.finishSection hphase hm
    | _ => exact h.section_other (by rw [hphase]; rfl)
  | recovered e kept =>
    cases st with
    | giveUp => exact h.giveUp hphase hm
    | _ => exact h.section_other (by rw [hphase]; rfl)

/-- A section whose request is still out waits for it. -/
theorem Exact.replay (h : s.Exact) {st : ReplayStep} (hm : s.ReplayMeets st)
    (hpos : s.possible st = true) :
    Exact { s with live := s.live.replay st, cache := s.replayCache st } := by
  have hstep := h.replayStep hm hpos
  unfold LiveMount.replay
  split
  · rename_i e r hphase
    have hc : s.replayCache (.execute r) = s.cache := by simp only [replayCache, hphase]
    split
    · exact ⟨hstep.guarded, hstep.notRefused, hstep.online⟩
    · rw [hc]
      exact h
  · exact hstep

/-- Each event that meets its condition keeps the guard exact. -/
theorem Exact.step (h : s.Exact) {ev : GuardEvent} (hm : s.Meets ev) (hs : s.step ev = some s') :
    s'.Exact := by
  cases ev with
  | live ev =>
    -- The sections of the live pool and of the replay.
    cases ev with
    | user op b =>
      -- A call the mount refuses leaves everything as it was.
      simp only [GuardMount.step] at hs
      split at hs
      · cases hs
      · cases hs
        exact h.user hm
    | setOffline b => cases hs
    | getTurn seq =>
      cases hs
      exact h.quiet (LiveMount.Quiet.onWorker fun w _ _ => LiveMount.Quiet.getTurn _ w)
    | claim seq =>
      cases hs
      exact h.quiet (LiveMount.Quiet.onWorker fun w _ _ => LiveMount.Quiet.claim _ w)
    | send seq etag =>
      cases hs
      refine h.quiet (LiveMount.Quiet.onWorker fun w hw _ => LiveMount.Quiet.send _ ?_ etag)
      -- Only an upload's worker settles another number, so no delete's.
      intro hop p hx
      have := (h.guarded.own w hw p).mpr hx
      rw [hop] at this
      cases this
    | expire seq =>
      cases hs
      exact h.quiet (LiveMount.Quiet.onWorker fun w _ _ => LiveMount.Quiet.expire _ w)
    | answer seq a =>
      cases hs
      exact h.answer hm
    | replay st =>
      simp only [GuardMount.step] at hs
      split at hs
      · rename_i hpos
        cases hs
        exact h.replay hm hpos
      · cases hs
    | replaySend =>
      cases hs
      exact h.quiet (LiveMount.Quiet.replaySend _)
  | clear path =>
    -- The guard of a DELETE that landed is cleared, its path waiting for nothing else.
    simp only [GuardMount.step] at hs
    split at hs
    · rename_i hp
      cases hs
      exact ⟨h.guarded.clear hp, h.notRefused, h.online⟩
    · cases hs
  | refresh path etag selfEntry files now =>
    -- A refresh writes the listing and no guard.
    cases hs
    exact h.cache (putDirCache_deleting ..)
  | other c =>
    cases hs
    exact h.cache rfl

/-- A run whose events all meet their condition keeps the invariant. -/
theorem Exact.steps (h : s.Exact) {evs : List GuardEvent} (hm : s.AllMeet evs)
    (hs : s.steps evs = some s') : s'.Exact := by
  induction evs generalizing s with
  | nil =>
    cases hs
    exact h
  | cons ev evs ih =>
    obtain ⟨hev, hrest⟩ := hm
    obtain ⟨s₁, hs₁, hs⟩ := Option.bind_eq_some_iff.mp hs
    rw [hs₁] at hrest
    exact ih (h.step hev hs₁) hrest hs

/-- A mount that loads a journal without deletes. -/
theorem Exact.start {j : MutationJournal} (hj : ∀ e ∈ j.entries, e.op.deletes = none)
    (cacheDir : PathBuf) (c : FsCache) : (GuardMount.start j cacheDir c).Exact := by
  have hd : j.deletions = [] := by
    rw [MutationJournal.deletions, List.filterMap_eq_nil_iff]
    exact fun e he => JournalEntry.deletion_eq_none.mpr (hj e he)
  refine ⟨?_, trivial, rfl⟩
  show Guarded ∅ j.deletions j.nextSeq [] [] none
  rw [hd]
  refine ⟨nofun, nofun, List.nodup_nil, nofun, fun p => ?_, nofun⟩
  simp

/-- A path is guarded exactly while a delete of it is queued or running. -/
theorem Exact.mem_deleting (h : s.Exact) (p : PathBuf) :
    p ∈ s.cache.deleting ↔ s.Queued p ∨ s.Running p := by
  rw [h.guarded.guard p, List.mem_append, mem_map_deletions]
  constructor
  · rintro (hp | hp)
    · exact Or.inl hp
    · exact Or.inr (Or.inr hp)
  · rintro (hp | ⟨w, hw, hp⟩ | hp)
    · exact Or.inl hp
    · have hx := (h.guarded.own w hw p).mp hp
      exact Or.inl (mem_map_deletions.mp (List.mem_map.mpr ⟨_, hx, rfl⟩))
    · exact Or.inr hp

end GuardMount

/-! ## What a refresh lists -/

namespace FsCache

/-- Changing an entry keeps the paths of a listing. -/
theorem modifyEntry_paths {path : PathBuf} {f : RemoteEntry → RemoteEntry}
    (hf : ∀ e, (f e).path = e.path) (l : List RemoteEntry) :
    (modifyEntry path f l).map (·.path) = l.map (·.path) := by
  induction l with
  | nil => rfl
  | cons e l ih =>
    unfold modifyEntry
    split
    · simp only [List.map_cons, hf]
    · simp only [List.map_cons, ih]

/-- Merging keeps every path of the answer. -/
theorem mergeUploading_paths (files : List RemoteEntry) (old : RemoteEntry) :
    files.map (·.path) ⊆ (mergeUploading files old).map (·.path) := by
  unfold mergeUploading
  split
  · rw [modifyEntry_paths]
    · exact fun _ hp => hp
    · exact fun _ => rfl
  · rw [List.map_append]
    exact List.subset_append_left _ _

theorem foldl_mergeUploading_paths (olds files : List RemoteEntry) :
    files.map (·.path) ⊆ (olds.foldl mergeUploading files).map (·.path) := by
  induction olds generalizing files with
  | nil => exact fun _ hp => hp
  | cons old olds ih => exact fun _ hp => ih _ (mergeUploading_paths files old hp)

/-- A fresh listing is the server's with the uploads merged in and the guarded paths taken out,
    and perhaps the synthetic marker. -/
theorem mergedFiles_cases (c : FsCache) (path : PathBuf) (files : List RemoteEntry) :
    ∃ merged : List RemoteEntry, files.map (·.path) ⊆ merged.map (·.path) ∧
      let kept := merged.filter fun f => decide (f.path ∉ c.deleting)
      (c.mergedFiles path files = kept ∨ c.mergedFiles path files = kept ++ [trackerignoreEntry]) := by
  unfold mergedFiles
  cases c.dir path with
  | none =>
    refine ⟨files, fun _ hp => hp, ?_⟩
    dsimp only
    split
    · exact Or.inr rfl
    · exact Or.inl rfl
  | some old =>
    refine ⟨_, foldl_mergeUploading_paths
      (old.files.filter fun (e : RemoteEntry) => decide (e.path ∈ c.uploading)) files, ?_⟩
    dsimp only
    split
    · exact Or.inr rfl
    · exact Or.inl rfl

/-- A guarded path is not in a fresh listing, but for the synthetic marker of the root. -/
theorem mergedFiles_guarded {c : FsCache} {path : PathBuf} {files : List RemoteEntry}
    {f : RemoteEntry} (hf : f ∈ c.mergedFiles path files) (hg : f.path ∈ c.deleting) :
    f = trackerignoreEntry := by
  obtain ⟨merged, -, heq⟩ := c.mergedFiles_cases path files
  have hkept : f ∉ merged.filter fun f => decide (f.path ∉ c.deleting) := by
    intro hmem
    exact of_decide_eq_true (List.mem_filter.mp hmem).2 hg
  rcases heq with heq | heq
  · rw [heq] at hf
    exact absurd hf hkept
  · rw [heq] at hf
    exact List.mem_singleton.mp ((List.mem_append.mp hf).resolve_left hkept)

/-- A path of the server's listing that is not guarded is in the fresh listing. -/
theorem mergedFiles_unguarded {c : FsCache} {path p : PathBuf} {files : List RemoteEntry}
    (hp : p ∈ files.map (·.path)) (hg : p ∉ c.deleting) :
    p ∈ (c.mergedFiles path files).map (·.path) := by
  obtain ⟨merged, hsub, heq⟩ := c.mergedFiles_cases path files
  have hkept : p ∈ (merged.filter fun f => decide (f.path ∉ c.deleting)).map (·.path) := by
    obtain ⟨f, hf, rfl⟩ := List.mem_map.mp (hsub hp)
    exact List.mem_map.mpr ⟨f, List.mem_filter.mpr ⟨hf, decide_eq_true hg⟩, rfl⟩
  rcases heq with heq | heq
  · rw [heq]
    exact hkept
  · rw [heq, List.map_append]
    exact List.mem_append_left _ hkept

/-- What is left after listings were dropped was there before. -/
theorem foldl_removeDir_dir {l : List (Nat × PathBuf)} {c : FsCache} {path : PathBuf}
    {d : DirCacheEntry} (h : (l.foldl (fun c x => c.removeDir x.2) c).dir path = some d) :
    c.dir path = some d := by
  induction l generalizing c with
  | nil => exact h
  | cons x l ih =>
    have hstep : (c.dirCache.erase x.2).lookup path = some d := ih h
    by_cases hx : path = x.2
    · rw [hx, AList.lookup_erase] at hstep
      cases hstep
    · rwa [AList.lookup_erase_ne hx] at hstep

/-- The listing `put_dir_cache` stores, if it is still there after the eviction. -/
theorem putDirCache_files {c : FsCache} {path : PathBuf} {etag : Option String}
    {selfEntry : Option RemoteEntry} {files : List RemoteEntry} {now : Nat} {d : DirCacheEntry}
    (h : (c.putDirCache path etag selfEntry files now).dir path = some d) :
    d.files = c.mergedFiles path files := by
  unfold putDirCache at h
  split at h
  · have hnone : (c.dirCache.erase path).lookup path = some d := h
    rw [AList.lookup_erase] at hnone
    cases hnone
  · unfold evictDirCache at h
    dsimp only at h
    split at h
    · have hd := (AList.lookup_insert c.dirCache).symm.trans h
      rw [← Option.some.inj hd]
    · have hd := (AList.lookup_insert c.dirCache).symm.trans (foldl_removeDir_dir h)
      rw [← Option.some.inj hd]

end FsCache

/-- In a run with no second delete of a path, no folder rename over a queued delete, no DELETE
    refused for good and no entry taken out or executed twice, a path is guarded exactly while
    a delete of it is queued or running; and a refresh lists what the server has at a path
    exactly when it is not guarded. -/
theorem delete_guard_is_exact (j : MutationJournal) (hj : ∀ e ∈ j.entries, e.op.deletes = none)
    (cacheDir : PathBuf) (c : FsCache) (evs : List GuardEvent) (s : GuardMount)
    (hm : (GuardMount.start j cacheDir c).AllMeet evs)
    (hs : (GuardMount.start j cacheDir c).steps evs = some s) (p : PathBuf) :
    (p ∈ s.cache.deleting ↔ s.Queued p ∨ s.Running p) ∧
    ∀ path etag selfEntry files now d,
      (s.cache.putDirCache path etag selfEntry files now).dir path = some d →
      (s.Queued p ∨ s.Running p → ∀ f ∈ d.files, f.path = p → f = trackerignoreEntry) ∧
      (¬ (s.Queued p ∨ s.Running p) → p ∈ files.map (·.path) → p ∈ d.files.map (·.path)) := by
  have h := (GuardMount.Exact.start hj cacheDir c).steps hm hs
  refine ⟨h.mem_deleting p, fun path etag selfEntry files now d hd => ?_⟩
  rw [FsCache.putDirCache_files hd, ← h.mem_deleting p]
  constructor
  · rintro hp f hf rfl
    exact FsCache.mergedFiles_guarded hf hp
  · exact fun hp hmem => FsCache.mergedFiles_unguarded hmem hp

/-- Deleting `/a` while it is online, up to the request. -/
def deleteRun : List GuardEvent :=
  [.live (.user (.unlink ["a"]) false), .live (.getTurn 1), .live (.claim 1),
    .live (.send 1 none)]

/-- While the DELETE is out its path is guarded. -/
theorem running_delete_is_guarded :
    ∃ s, (GuardMount.start emptyJournal [] {}).steps deleteRun = some s ∧
      s.Queued ["a"] ∧ ["a"] ∈ s.cache.deleting := by
  obtain ⟨s, hs, hq⟩ : ∃ s, (GuardMount.start emptyJournal [] {}).steps deleteRun = some s ∧
      s.Queued ["a"] := ⟨_, rfl, ⟨_, List.mem_cons_self, rfl⟩⟩
  have hm : (GuardMount.start emptyJournal [] {}).AllMeet deleteRun := by
    refine ⟨⟨fun p _ => ⟨?_, ?_⟩, fun _ _ _ _ hop => nomatch hop⟩, trivial, trivial, trivial,
      trivial⟩
    · rintro ⟨e, he, -⟩
      cases he
    · rintro (⟨w, hw, -⟩ | hp)
      · cases hw
      · cases hp
  have h := delete_guard_is_exact emptyJournal (by intro e he; cases he) [] {} deleteRun s hm hs ["a"]
  exact ⟨s, hs, hq, h.1.mpr (Or.inl hq)⟩

/-- A DELETE the server refuses for good stays queued, but its guard is gone: the next listing
    brings the file back. -/
theorem failed_delete_is_listed_again :
    ∃ s, (GuardMount.start emptyJournal [] {}).steps (deleteRun ++
        [.live (.answer 1 (.failed "403 Forbidden")), .clear ["a"]]) = some s ∧
      s.Queued ["a"] ∧ ["a"] ∉ s.cache.deleting ∧
      ∃ d, (s.cache.putDirCache [] none none [{ path := ["a"], isDir := false, size := 1 }] 0).dir []
        = some d ∧ ["a"] ∈ d.files.map (·.path) := by
  refine ⟨_, rfl, ⟨_, List.mem_cons_self, rfl⟩, by decide, _, rfl, by decide⟩

end Ncrs
