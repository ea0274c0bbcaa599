import Ncrs.Spec.LiveOrder
import Ncrs.Spec.ReplayCorrect

/-!
# Which entries are queued and which are in flight

`MutationJournal.marks` is what the order of requests needs of the journal. Each lemma says
what one operation does to it, for a journal whose entries have distinct sequence numbers.
-/

namespace Ncrs

open View

def JournalEntry.mark (e : JournalEntry) : SeqId × Bool := (e.seq, e.inFlight)

namespace MutationJournal

/-- The queue's sequence numbers with their in-flight marks. -/
def marks (j : MutationJournal) : List (SeqId × Bool) := j.entries.map JournalEntry.mark

theorem marks_fst (j : MutationJournal) : j.marks.map (·.1) = j.entries.map (·.seq) := by
  rw [marks, List.map_map]
  rfl

/-- No two entries have one sequence number. -/
def Distinct (j : MutationJournal) : Prop := (j.marks.map (·.1)).Nodup

variable {j : MutationJournal}

theorem Distinct.atMostOne (hj : j.Distinct) (seq : SeqId) :
    j.entries.AtMostOne fun e => e.seq = seq := by
  refine List.atMostOne_of_nodup (g := JournalEntry.seq) ?_
  rw [← marks_fst]
  exact hj

theorem Distinct.inj (hj : j.Distinct) {e e' : JournalEntry} (he : e ∈ j.entries)
    (he' : e' ∈ j.entries) (hseq : e.seq = e'.seq) : e = e' := by
  unfold Distinct at hj
  rw [marks_fst] at hj
  exact List.inj_on_of_nodup_map hj he he' hseq

/-- Changing the first entry with a sequence number is changing the entry with it. -/
theorem modify_marks (hj : j.Distinct) {seq : SeqId} {b : Bool} {f : JournalEntry → JournalEntry}
    (hf : ∀ e, (f e).mark = (e.seq, b)) :
    (j.modify seq f).marks = j.marks.map (setMark seq b) := by
  have hentries : (j.modify seq f).entries =
      j.entries.map fun e => if e.seq = seq then f e else e := by
    have h := List.modify_findIdx? (hj.atMostOne seq) f
    unfold modify
    split
    · rename_i i hi
      rw [hi] at h
      simpa using h
    · rename_i hi
      rw [hi] at h
      simpa using h
  rw [marks, hentries, marks, List.map_map, List.map_map]
  refine List.map_congr_left fun e _ => ?_
  show (if e.seq = seq then f e else e).mark = if e.seq = seq then (seq, b) else e.mark
  split
  · rename_i he
    rw [← he]
    exact hf e
  · rfl

theorem markFailed_marks (hj : j.Distinct) (seq : SeqId) (error : String) :
    (j.markFailed seq error).marks = j.marks.map (setMark seq false) :=
  modify_marks hj (f := fun e => { e with
    attempts := e.attempts + 1, lastError := some error, inFlight := false, destFixed := false })
    fun _ => rfl

theorem markDeferred_marks (hj : j.Distinct) (seq : SeqId) (error : String) :
    (j.markDeferred seq error).marks = j.marks.map (setMark seq false) :=
  modify_marks hj (f := fun e => { e with
    lastError := some error, inFlight := false, destFixed := false })
    fun _ => rfl

theorem remove_marks (j : MutationJournal) (seq : SeqId) :
    (j.remove seq).marks = j.marks.filter fun x => x.1 ≠ seq := by
  show (j.entries.filter fun e => e.seq ≠ seq).map JournalEntry.mark = _
  rw [marks, List.filter_map]
  rfl

theorem rebase_marks (j : MutationJournal) (path : PathBuf) (sent new : Option String) :
    (j.rebase path sent new).marks = j.marks := by
  have h := congrArg (List.map JournalEntry.mark) (j.rebase_entries path sent new)
  rw [List.map_map, List.map_map] at h
  exact h

theorem handStagingToRename_marks (j : MutationJournal) (uploadedAs staging : PathBuf) :
    (j.handStagingToRename uploadedAs staging).2.marks = j.marks := by
  unfold handStagingToRename
  split
  · rfl
  · refine List.map_modify_of_eq (fun e => ?_) _ _
    split <;> rfl

theorem coalesce_marks (j : MutationJournal) (op : MutationOp) :
    (j.coalesceBeforeEnqueue op).marks.Sublist j.marks := by
  unfold coalesceBeforeEnqueue
  split
  · split
    · exact List.Sublist.refl _
    · dsimp only
      split
      · exact List.filter_sublist.map _
      · exact List.filter_sublist.map _
  · exact List.filter_sublist.map _
  · exact List.Sublist.refl _

/-- Queueing an operation: what coalescing leaves, and the new entry. -/
theorem enqueue_marks (j : MutationJournal) (op : MutationOp) :
    (j.enqueue op).2.marks = (j.coalesceBeforeEnqueue op).marks ++ [(j.nextSeq, false)] := by
  have hfollow : ∀ e, (followRename op e).mark = e.mark := by
    intro e
    unfold followRename
    split
    · split <;> rfl
    · rfl
  rw [marks, enqueue_entries, List.map_append, List.map_map]
  refine congrArg (· ++ _) (List.map_congr_left fun e _ => ?_)
  exact hfollow e

theorem supersedeUploads_marks (j : MutationJournal) (path : PathBuf) (newest : SeqId) :
    (j.supersedeUploads path newest).marks.Sublist j.marks := by
  rw [marks, supersedeUploads_entries]
  exact List.filter_sublist.map _

theorem dequeueFront_marks (j : MutationJournal) : j.dequeueFront.2.marks = j.marks.tail := by
  rw [marks, dequeueFront_entries, List.map_tail]
  rfl

/-- A claim that succeeds finds the entry queued and free. -/
theorem claim_true (hj : j.Distinct) {seq : SeqId} (h : (j.claim seq).1 = true) :
    (seq, false) ∈ j.marks ∧ (j.claim seq).2.marks = j.marks.map (setMark seq true) := by
  unfold claim at h ⊢
  cases hfind : j.entries.find? (fun e => e.seq = seq) with
  | none =>
    rw [hfind] at h
    cases h
  | some e =>
    rw [hfind] at h
    dsimp only at h ⊢
    split at h
    · cases h
    · rename_i hfree
      rw [if_neg hfree]
      have hmem := List.mem_of_find?_eq_some hfind
      have hseq : e.seq = seq := by simpa using List.find?_some hfind
      refine ⟨?_, modify_marks hj fun _ => rfl⟩
      refine List.mem_map.mpr ⟨e, hmem, ?_⟩
      rw [JournalEntry.mark, hseq, Bool.eq_false_iff.mpr hfree]

/-- A claim that fails finds the entry gone or in flight. -/
theorem claim_false (hj : j.Distinct) {seq : SeqId} (h : (j.claim seq).1 = false) {f : Bool}
    (hf : (seq, f) ∈ j.marks) : f = true := by
  unfold claim at h
  obtain ⟨e, he, heq⟩ := List.mem_map.mp hf
  obtain ⟨hseq, hfl⟩ := Prod.mk.inj heq
  split at h
  · rename_i e' hfind
    have hseq' : e'.seq = seq := by simpa using List.find?_some hfind
    obtain rfl := hj.inj (List.mem_of_find?_eq_some hfind) he (hseq'.trans hseq.symm)
    split at h
    · rename_i hin
      rw [← hfl]
      exact hin
    · cases h
  · rename_i hfind
    have := List.find?_eq_none.mp hfind e he
    exact absurd (decide_eq_true hseq) this

/-- Settling an upload: its destination is fixed, it waits, it goes back to the queue, or it is
    no longer queued. -/
theorem settleUpload_marks (hj : j.Distinct) (seq : SeqId) (startedAs : PathBuf)
    (ifMatch : Option String) :
    let r := j.settleUpload seq startedAs ifMatch
    (∃ dest m, r.1 = .go dest m ∧ r.2.marks = j.marks) ∨
    (r.1 = .wait ∧ r.2.marks = j.marks) ∨
    (r.1 = .deferred ∧ r.2.marks = j.marks.map (setMark seq false)) ∨
    (r.1 = .withdrawn ∧ r.2.marks.Sublist j.marks ∧ ∀ f, (seq, f) ∉ r.2.marks) := by
  have hgo : ∀ i, (j.entries.modify i fun e => { e with destFixed := true }).map
      JournalEntry.mark = j.marks := by
    intro i
    apply List.map_modify_of_eq
    exact fun _ => rfl
  unfold settleUpload
  dsimp only
  split
  · rename_i hidx
    refine Or.inr (Or.inr (Or.inr ⟨rfl, List.Sublist.refl _, fun f hf => ?_⟩))
    obtain ⟨e, he, heq⟩ := List.mem_map.mp hf
    have := List.findIdx?_eq_none_iff.mp hidx e he
    exact absurd (Prod.mk.inj heq).1 (of_decide_eq_false this)
  · rename_i i hidx
    split
    · rename_i hget
      -- The index found is in range.
      have hlt : i < j.entries.length := (List.findIdx?_eq_some_iff_getElem.mp hidx).1
      rw [List.getElem?_eq_getElem hlt] at hget
      cases hget
    · split
      · exact Or.inl ⟨_, _, rfl, hgo i⟩
      · split
        · -- The entry is erased, and there is no other with its number.
          refine Or.inr (Or.inr (Or.inr ⟨rfl, ?_⟩))
          show (((j.entries.eraseIdx i).map JournalEntry.mark).Sublist j.marks) ∧
            ∀ f, (seq, f) ∉ (j.entries.eraseIdx i).map JournalEntry.mark
          rw [List.eraseIdx_findIdx? (hj.atMostOne seq) hidx]
          refine ⟨List.filter_sublist.map _, fun f hf => ?_⟩
          obtain ⟨e, he, heq⟩ := List.mem_map.mp hf
          have hne := (List.mem_filter.mp he).2
          have hseq : e.seq = seq := (Prod.mk.inj heq).1
          simp [hseq] at hne
        · split
          · split
            · exact Or.inr (Or.inl ⟨rfl, rfl⟩)
            · exact Or.inr (Or.inr (Or.inl ⟨rfl, markDeferred_marks hj seq _⟩))
          · exact Or.inl ⟨_, _, rfl, hgo i⟩

end MutationJournal

end Ncrs
