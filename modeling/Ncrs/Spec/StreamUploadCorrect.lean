import Ncrs.Spec.StagingFileCorrect

/-!
# A file uploaded while it is written reaches the server as written

The invariant of a streamed upload: what its progress says about the chunks on the server, the
holes in the staging file and the one run of its uploader, and where the request being served
may still change the file. Every step keeps it, so it holds in every state of every
interleaving, and with it the bytes a release commits are those of the accepted writes.

## Key results

- `StreamSession.Sound.jobStep`: the uploader keeps a session sound
- `StreamFile.Inv.step`: every step of a request, the uploader or a hand-over keeps the invariant
- `streamed_file_as_written`: what holds in every state of every run
-/

namespace Ncrs

namespace StreamSession

variable {c : ChunkSize} {s t : StreamSession} {staging staging' file : Bytes} {total i : Nat}
  {e : JobEvent}

/-! ## The uploader -/

/-- What one step of run `i` can do: the session and the staging file afterwards. -/
inductive Ran (c : ChunkSize) (s : StreamSession) (staging : Bytes) (i : Nat) :
    StreamSession → Bytes → Prop
  | ended {ph} (h : s.phaseOf i = some ph) : Ran c s staging i (s.endJob i) staging
  | looked (h : s.phaseOf i = some .queued) (hs : s.pump.nothingToSend = false) :
    Ran c s staging i (s.setJob i (.reading s.pump.nextIndex s.pump.bytesConfirmed)) staging
  | read {index start} (h : s.phaseOf i = some (.reading index start)) :
    Ran c s staging i (s.setJob i (.sending index start (staging.slice start c.bytes) false)) staging
  | unread {index start error} (h : s.phaseOf i = some (.reading index start)) :
    Ran c s staging i (s.setJob i (.answered start (some error))) staging
  | stored {index start chunk before} (h : s.phaseOf i = some (.sending index start chunk before)) :
    Ran c s staging i { s.setJob i (.sending index start chunk true) with
      chunks := Function.update s.chunks index (some chunk) } staging
  | answered {index start chunk stored error}
      (h : s.phaseOf i = some (.sending index start chunk stored))
      (hok : error = none → stored = true) :
    Ran c s staging i (s.setJob i (.answered start error)) staging
  | failed {start error} (h : s.phaseOf i = some (.answered start (some error))) :
    Ran c s staging i { s.setJob i .reported with pump := { s.pump with failed := some error } }
      staging
  | late {start} (h : s.phaseOf i = some (.answered start none)) (hc : s.pump.closed = true) :
    Ran c s staging i (s.setJob i .reported) staging
  | confirmed {start} (freed : Bool) (h : s.phaseOf i = some (.answered start none))
      (hc : s.pump.closed = false) :
    Ran c s staging i { s.setJob i .reported with pump := { s.pump with
        nextIndex := s.pump.nextIndex + 1
        bytesConfirmed := s.pump.bytesConfirmed + c.bytes } }
      (if s.pump.punching && freed then staging.punchHole start c.bytes else staging)
  | kicked (h : s.phaseOf i = some .reported) :
    Ran c s staging i { s.setJob i .submitting with pump := { s.pump with busy := true } } staging
  | submitted (h : s.phaseOf i = some .submitting) :
    Ran c s staging i
      { s with jobs := s.jobs.eraseIdx i ++ [{ inline := false, phase := .queued }] } staging
  | refused (h : s.phaseOf i = some .submitting) : Ran c s staging i (s.setJob i .refused) staging

/-- Each step of a job is one of the cases of `Ran`. -/
theorem jobStep_ran (h : s.jobStep c staging i e = some (t, staging')) :
    Ran c s staging i t staging' := by
  unfold jobStep at h
  split at h <;> rename_i hph
  · -- one case of `Ran` for each phase a run can be in, and each way it goes on
    split at h <;> cases h
    · exact .ended hph
    · rename_i hn
      exact .looked hph (by simpa using hn)
  · split at h <;> cases h
    · -- the chunk was read whole
      rename_i chunk hread
      rw [Option.filter_eq_some_iff] at hread
      unfold Bytes.readExactAt at hread
      split at hread
      · cases hread.1
        exact .read hph
      · exact absurd hread.1 (by simp)
    · exact .unread hph
  · cases h
    exact .stored hph
  · split at h <;> cases h
    rename_i hn
    refine .answered hph fun herr => ?_
    simpa [herr] using hn
  · -- the section after the PUT: failed, too late, or confirmed
    split at h
    · cases h
      exact .failed hph
    · split at h <;> cases h
      · exact .late hph ‹_›
      · rename_i freed _ hc
        exact .confirmed freed hph (by simpa using hc)
  · split at h <;> cases h
    · exact .ended hph
    · exact .kicked hph
  · split at h <;> cases h
    · exact .submitted hph
    · exact .refused hph
  · cases h
    exact .ended hph
  · cases h

/-- A step of the uploader leaves the session open or closed as it was, and moves the progress
    of an open one only. -/
structure Frame (s t : StreamSession) : Prop where
  head : t.head = s.head
  uploadsBase : t.uploadsBase = s.uploadsBase
  punching : t.pump.punching = s.pump.punching
  closed : t.pump.closed = s.pump.closed
  claimed : t.pump.claimed = s.pump.claimed
  nextIndex : s.pump.closed = true → t.pump.nextIndex = s.pump.nextIndex
  bytesConfirmed : s.pump.closed = true → t.pump.bytesConfirmed = s.pump.bytesConfirmed

/-- A job's step leaves what was written before it alone. -/
theorem Ran.frame (h : Ran c s staging i t staging') : Frame s t := by
  cases h with
  | confirmed freed h hc => constructor <;> simp [setJob, hc]
  | _ => constructor <;> simp [endJob, setJob]

/-- Only an open session that punches its chunks out changes the staging file. -/
theorem Ran.staging_eq (h : Ran c s staging i t staging')
    (hp : s.pump.punching = true → s.pump.closed = true) : staging' = staging := by
  cases h with
  | confirmed freed h hc => simp_all
  | _ => rfl

/-- A job that has a phase is one of the session's. -/
theorem phaseOf_some {ph : JobPhase} (h : s.phaseOf i = some ph) : i < s.jobs.length := by
  unfold phaseOf at h
  rw [Option.map_eq_some_iff] at h
  obtain ⟨j, hj, -⟩ := h
  exact (List.getElem?_eq_some_iff.mp hj).1

/-- Where a job took a step, there is one. -/
theorem Ran.running (h : Ran c s staging i t staging') : s.jobs ≠ [] := by
  have hi : i < s.jobs.length := by
    cases h <;> exact phaseOf_some (by assumption)
  intro hnil
  simp [hnil] at hi

/-- A run that ends makes room for the one it submits. -/
theorem Ran.jobs_length (h : Ran c s staging i t staging') : t.jobs.length ≤ s.jobs.length := by
  cases h with
  | ended h =>
    simp only [endJob, List.length_eraseIdx]
    split <;> omega
  | submitted h =>
    have hi := phaseOf_some h
    simp only [List.length_append, List.length_eraseIdx, if_pos hi, List.length_singleton]
    omega
  | _ => simp [setJob]

/-! ## Sound sessions -/

/-- What a run of the uploader knows about the file: it works on the first unconfirmed chunk, and
    the bytes it holds are the file's. -/
def JobSound (c : ChunkSize) (s : StreamSession) (file : Bytes) : JobPhase → Prop
  | .reading index start =>
    index = s.pump.nextIndex ∧ start = s.pump.bytesConfirmed ∧ s.pump.bytesConfirmed < s.pump.claimed
  | .sending index start chunk stored =>
    index = s.pump.nextIndex ∧ start = s.pump.bytesConfirmed ∧
      s.pump.bytesConfirmed < s.pump.claimed ∧
      chunk = file.slice s.pump.bytesConfirmed c.bytes ∧
      (stored = true → s.chunks s.pump.nextIndex = some chunk)
  | .answered start error =>
    start = s.pump.bytesConfirmed ∧ s.pump.bytesConfirmed < s.pump.claimed ∧
      (error = none →
        s.chunks s.pump.nextIndex = some (file.slice s.pump.bytesConfirmed c.bytes))
  | _ => True

/-- What the progress of a session says: of `file`, of which `total` bytes are written, the first
    `bytesConfirmed` are the head and the chunks on the server, and those up to `claimed` are
    not written any more. -/
structure Sound (c : ChunkSize) (s : StreamSession) (file : Bytes) (total : Nat) : Prop where
  head : s.head = c.bytes
  first : 1 ≤ s.pump.nextIndex
  progress : s.pump.bytesConfirmed = s.head + (s.pump.nextIndex - 1) * c.bytes
  unsent : ∃ k, s.pump.claimed = s.pump.bytesConfirmed + k * c.bytes
  written : s.pump.claimed ≤ total
  chunks : ∀ i, 1 ≤ i → i < s.pump.nextIndex →
    s.chunks i = some (file.slice (s.head + (i - 1) * c.bytes) c.bytes)
  single : s.jobs.length ≤ 1
  busy : s.jobs ≠ [] → s.pump.busy = true
  jobs : ∀ j ∈ s.jobs, s.JobSound c file j.phase

/-- Where the staging file still holds the file: all of it, unless sent chunks are punched out. -/
structure Holds (s : StreamSession) (staging file : Bytes) : Prop where
  length : staging.length = file.length
  bytes : ∀ i, i < s.head ∨ (if s.pump.punching then s.pump.bytesConfirmed else s.head) ≤ i →
    staging[i]? = file[i]?

/-- A session with one run at most, in the phase that takes a step. -/
theorem jobs_of_phaseOf {ph : JobPhase} (hs : s.jobs.length ≤ 1) (h : s.phaseOf i = some ph) :
    i = 0 ∧ ∃ b, s.jobs = [⟨b, ph⟩] := by
  have hi := phaseOf_some h
  match hj : s.jobs with
  | [] => simp [hj] at hi
  | [⟨b, ph'⟩] =>
    have h0 : i = 0 := by
      simp [hj] at hi
      exact hi
    subst h0
    simp [phaseOf, hj] at h
    exact ⟨rfl, b, by rw [h]⟩
  | _ :: _ :: _ => simp [hj] at hs

namespace Sound

/-- The progress of a session with a chunk left to send has room for it. -/
theorem chunk_le_claimed (hs : s.Sound c file total)
    (hlt : s.pump.bytesConfirmed < s.pump.claimed) :
    s.pump.bytesConfirmed + c.bytes ≤ s.pump.claimed := by
  obtain ⟨k, hk⟩ := hs.unsent
  cases k with
  | zero => omega
  | succ k =>
    rw [Nat.succ_mul] at hk
    omega

/-- The head is part of what was confirmed when the stream started. -/
theorem head_le_confirmed (hs : s.Sound c file total) : s.head ≤ s.pump.bytesConfirmed := by
  rw [hs.progress]
  omega

/-- Bytes are confirmed only after they were claimed. -/
theorem confirmed_le_claimed (hs : s.Sound c file total) :
    s.pump.bytesConfirmed ≤ s.pump.claimed := by
  obtain ⟨k, hk⟩ := hs.unsent
  omega

/-- A chunk on the server lies before the confirmed end. -/
theorem chunk_le_confirmed (hs : s.Sound c file total) {k : Nat} (hk : 1 ≤ k)
    (hlt : k < s.pump.nextIndex) :
    s.head + (k - 1) * c.bytes + c.bytes ≤ s.pump.bytesConfirmed := by
  rw [hs.progress, Nat.add_assoc, ← Nat.succ_mul]
  exact Nat.add_le_add_left (Nat.mul_le_mul_right _ (by omega)) _

/-- The runs of a session and its marks may change as long as they stay sound. -/
theorem congr (hs : s.Sound c file total) (hhead : t.head = s.head)
    (hnext : t.pump.nextIndex = s.pump.nextIndex)
    (hconf : t.pump.bytesConfirmed = s.pump.bytesConfirmed)
    (hclaim : t.pump.claimed = s.pump.claimed)
    (hchunks : ∀ k, k < s.pump.nextIndex → t.chunks k = s.chunks k)
    (hsingle : t.jobs.length ≤ 1) (hbusy : t.jobs ≠ [] → t.pump.busy = true)
    (hjobs : ∀ j ∈ t.jobs, t.JobSound c file j.phase) : t.Sound c file total where
  head := by rw [hhead, hs.head]
  first := by rw [hnext]; exact hs.first
  progress := by rw [hhead, hnext, hconf]; exact hs.progress
  unsent := by rw [hclaim, hconf]; exact hs.unsent
  written := by rw [hclaim]; exact hs.written
  chunks k hk hlt := by
    rw [hnext] at hlt
    rw [hchunks k hlt, hhead]
    exact hs.chunks k hk hlt
  single := hsingle
  busy := hbusy
  jobs := hjobs

/-- A run moves on within the session's progress. -/
theorem setJob {ph : JobPhase} (hs : s.Sound c file total) (h : s.phaseOf i = some ph)
    (ph' : JobPhase) (hph : s.JobSound c file ph') : (s.setJob i ph').Sound c file total := by
  obtain ⟨rfl, b, hj⟩ := jobs_of_phaseOf hs.single h
  refine hs.congr rfl rfl rfl rfl (fun _ _ => rfl) ?_ (fun _ => ?_) ?_
  · simp [StreamSession.setJob, hj]
  · exact hs.busy (by simp [hj])
  · intro j hmem
    simp only [StreamSession.setJob, hj, List.modify_zero_cons, List.mem_singleton] at hmem
    rw [hmem]
    exact hph

/-- A job that ends owes nothing more. -/
theorem endJob {ph : JobPhase} (hs : s.Sound c file total) (h : s.phaseOf i = some ph) :
    (s.endJob i).Sound c file total := by
  obtain ⟨rfl, b, hj⟩ := jobs_of_phaseOf hs.single h
  have hnil : (s.endJob 0).jobs = [] := by simp [StreamSession.endJob, hj]
  refine hs.congr rfl rfl rfl rfl (fun _ _ => rfl) ?_ (fun hne => absurd hnil hne) ?_
  · simp [hnil]
  · simp [hnil]

/-- What each job has read or sent is right as long as the session is. -/
theorem jobSound {ph : JobPhase} (hs : s.Sound c file total) (h : s.phaseOf i = some ph) :
    s.JobSound c file ph := by
  obtain ⟨-, b, hj⟩ := jobs_of_phaseOf hs.single h
  exact hs.jobs ⟨b, ph⟩ (by simp [hj])

end Sound

/-- The slice of the staging file a run reads is the file's. -/
theorem Holds.slice (hh : s.Holds staging file) (hle : s.head ≤ s.pump.bytesConfirmed) (n : Nat) :
    staging.slice s.pump.bytesConfirmed n = file.slice s.pump.bytesConfirmed n := by
  refine Bytes.slice_congr fun k hlo _ => hh.bytes k (.inr ?_)
  split <;> omega

theorem Holds.congr (hh : s.Holds staging file) (hhead : t.head = s.head)
    (hp : t.pump.punching = s.pump.punching)
    (hc : t.pump.bytesConfirmed = s.pump.bytesConfirmed) : t.Holds staging file where
  length := hh.length
  bytes := by
    rw [hhead, hp, hc]
    exact hh.bytes

/-- A chunk that landed counts, and joins the chunks on the server. -/
theorem Sound.confirm {start : Nat} (hs : s.Sound c file total)
    (h : s.phaseOf i = some (.answered start none)) :
    ({ s.setJob i .reported with pump := { s.pump with
      nextIndex := s.pump.nextIndex + 1
      bytesConfirmed := s.pump.bytesConfirmed + c.bytes } } : StreamSession).Sound c file total := by
  obtain ⟨-, hlt, hchunk⟩ := hs.jobSound h
  have ht := hs.setJob h .reported trivial
  have hfirst := hs.first
  obtain ⟨n, hn⟩ : ∃ n, s.pump.nextIndex = n + 1 := ⟨_, (Nat.sub_add_cancel hfirst).symm⟩
  refine { head := hs.head, first := by simp, progress := ?_, unsent := ?_, written := hs.written
           chunks := ?_, single := ht.single, busy := ht.busy, jobs := ?_ }
  · -- the confirmed bytes are the head and one chunk more
    have hprog := hs.progress
    rw [hn] at hprog
    simp only [hn, Nat.add_sub_cancel] at hprog ⊢
    rw [Nat.succ_mul, hprog, Nat.add_assoc]
    rfl
  · -- one chunk less is left to send
    obtain ⟨k, hk⟩ := hs.unsent
    cases k with
    | zero => omega
    | succ k =>
      rw [Nat.succ_mul] at hk
      exact ⟨k, by dsimp only; omega⟩
  · intro k hk hlt'
    by_cases hkn : k = s.pump.nextIndex
    · -- The new one is the chunk the run has just stored.
      have hstart : s.head + (k - 1) * c.bytes = s.pump.bytesConfirmed := by
        rw [hkn, hs.progress]
      show s.chunks k = some (file.slice (s.head + (k - 1) * c.bytes) c.bytes)
      rw [hstart, hkn]
      exact hchunk rfl
    · exact hs.chunks k hk (by dsimp only at hlt'; omega)
  · -- the run is done with its chunk
    intro j hmem
    obtain ⟨rfl, b, hj⟩ := jobs_of_phaseOf hs.single h
    simp only [StreamSession.setJob, hj, List.modify_zero_cons, List.mem_singleton] at hmem
    rw [hmem]
    trivial

/-- Punching out the chunk that was confirmed last. -/
theorem Holds.confirm {freed : Bool} (hh : s.Holds staging file)
    (hhead : t.head = s.head) (hpunch : t.pump.punching = s.pump.punching)
    (hconf : t.pump.bytesConfirmed = s.pump.bytesConfirmed + c.bytes)
    (hle : s.head ≤ s.pump.bytesConfirmed)
    (hin : s.pump.bytesConfirmed + c.bytes ≤ file.length) :
    t.Holds (if s.pump.punching && freed then staging.punchHole s.pump.bytesConfirmed c.bytes
      else staging) file := by
  -- the chunk lies in the file, so also in the staging file
  have hin' : s.pump.bytesConfirmed + c.bytes ≤ staging.length := by rw [hh.length]; exact hin
  constructor
  · -- a punched hole keeps the length
    split
    · rw [Bytes.length_punchHole hin', hh.length]
    · exact hh.length
  · -- what is still held was held before, and the hole is not part of it
    intro k hk
    rw [hhead, hpunch, hconf] at hk
    have hold : staging[k]? = file[k]? := by
      apply hh.bytes k
      cases hp : s.pump.punching <;> simp only [hp, if_true, Bool.false_eq_true, if_false] at hk ⊢ <;>
        omega
    rw [← hold]
    split
    · rename_i hp
      simp only [Bool.and_eq_true] at hp
      rw [hp.1, if_pos rfl] at hk
      exact Bytes.getElem?_punchHole hin' (by omega)
    · rfl

/-- The uploader keeps a session sound, and punches out only chunks that are on the server. -/
theorem Sound.ran (h : Ran c s staging i t staging') (hs : s.Sound c file total)
    (hlen : total ≤ file.length) (hh : s.Holds staging file) :
    t.Sound c file total ∧ t.Holds staging' file := by
  cases h with
  | ended h => exact ⟨hs.endJob h, hh.congr rfl rfl rfl⟩
  | looked h hn =>
    refine ⟨hs.setJob h _ ⟨rfl, rfl, ?_⟩, hh.congr rfl rfl rfl⟩
    -- there was something to send, so the next chunk was handed over
    simp only [PumpState.nothingToSend, Bool.or_eq_false_iff, decide_eq_false_iff_not] at hn
    omega
  | read h =>
    -- the next chunk was read where the last one ended
    obtain ⟨rfl, rfl, hlt⟩ := hs.jobSound h
    exact ⟨hs.setJob h _ ⟨rfl, rfl, hlt, hh.slice hs.head_le_confirmed _, by simp⟩,
      hh.congr rfl rfl rfl⟩
  | unread h =>
    obtain ⟨rfl, rfl, hlt⟩ := hs.jobSound h
    exact ⟨hs.setJob h _ ⟨rfl, hlt, by simp⟩, hh.congr rfl rfl rfl⟩
  | stored h =>
    obtain ⟨rfl, rfl, hlt, rfl, -⟩ := hs.jobSound h
    obtain ⟨rfl, b, hj⟩ := jobs_of_phaseOf hs.single h
    refine ⟨hs.congr rfl rfl rfl rfl (fun k hk => ?_) ?_ (fun _ => ?_) ?_, hh.congr rfl rfl rfl⟩
    · -- an earlier chunk stays as the server had it
      exact Function.update_of_ne (by omega) _ _
    · simp [StreamSession.setJob, hj]
    · exact hs.busy (by simp [hj])
    · intro j hmem
      simp only [StreamSession.setJob, hj, List.modify_zero_cons, List.mem_singleton] at hmem
      rw [hmem]
      -- and this one is the slice that was read
      exact ⟨rfl, rfl, hlt, rfl, fun _ => Function.update_self _ _ _⟩
  | answered h hok =>
    obtain ⟨rfl, rfl, hlt, rfl, hstored⟩ := hs.jobSound h
    exact ⟨hs.setJob h _ ⟨rfl, hlt, fun herr => hstored (hok herr)⟩, hh.congr rfl rfl rfl⟩
  | failed h =>
    have ht := hs.setJob h .reported trivial
    exact ⟨ht.congr rfl rfl rfl rfl (fun _ _ => rfl) ht.single ht.busy ht.jobs,
      hh.congr rfl rfl rfl⟩
  | late h hc => exact ⟨hs.setJob h _ trivial, hh.congr rfl rfl rfl⟩
  | confirmed freed h hc =>
    obtain ⟨rfl, hlt, -⟩ := hs.jobSound h
    have hroom := hs.chunk_le_claimed hlt
    -- the chunk was handed over, so it was written
    have hwritten := hs.written
    exact ⟨hs.confirm h, hh.confirm rfl rfl rfl hs.head_le_confirmed (by omega)⟩
  | kicked h =>
    have ht := hs.setJob h .submitting trivial
    exact ⟨ht.congr rfl rfl rfl rfl (fun _ _ => rfl) ht.single (fun _ => rfl) ht.jobs,
      hh.congr rfl rfl rfl⟩
  | submitted h =>
    -- the next run takes the place of this one
    obtain ⟨rfl, b, hj⟩ := jobs_of_phaseOf hs.single h
    refine ⟨hs.congr rfl rfl rfl rfl (fun _ _ => rfl) ?_ (fun _ => ?_) ?_, hh.congr rfl rfl rfl⟩
    · simp [hj]
    · exact hs.busy (by simp [hj])
    · simp [hj, JobSound]
  | refused h => exact ⟨hs.setJob h _ trivial, hh.congr rfl rfl rfl⟩

/-! ## Writes -/

/-- A write that keeps the bytes in flight keeps what a job has of them. -/
theorem JobSound.place {append : Bool} {off : Nat} {data : Bytes} {ph : JobPhase}
    (hj : s.JobSound c file ph)
    (hkeep : s.pump.bytesConfirmed < s.pump.claimed →
      (placeBytes append file off data).slice s.pump.bytesConfirmed c.bytes =
        file.slice s.pump.bytesConfirmed c.bytes) :
    s.JobSound c (placeBytes append file off data) ph := by
  cases ph with
  | sending index start chunk stored =>
    obtain ⟨hi, hst, hlt, hchunk, hstored⟩ := hj
    exact ⟨hi, hst, hlt, by rw [hkeep hlt, hchunk], hstored⟩
  | answered start error =>
    obtain ⟨hst, hlt, hchunk⟩ := hj
    exact ⟨hst, hlt, by rw [hkeep hlt]; exact hchunk⟩
  | _ => exact hj

/-- A write outside the bytes handed to the uploader leaves the session sound. -/
theorem Sound.place {append : Bool} {off : Nat} {data : Bytes} (hs : s.Sound c file total)
    (hlen : total ≤ file.length)
    (hout : off + data.length ≤ s.head ∨ s.pump.claimed ≤ off) :
    s.Sound c (placeBytes append file off data) total := by
  have hwritten := hs.written
  have hhead := hs.head_le_confirmed
  have hclaimed := hs.confirmed_le_claimed
  refine { hs with chunks := fun k hk hlt => ?_, jobs := fun j hj => ?_ }
  · have hin := hs.chunk_le_confirmed hk hlt
    rw [hs.chunks k hk hlt, Bytes.slice_placeBytes (by omega) (by omega)]
  · refine (hs.jobs j hj).place fun hlt => ?_
    have hin := hs.chunk_le_claimed hlt
    exact Bytes.slice_placeBytes (by omega) (by omega)

/-- More may be written behind a session. -/
theorem Sound.mono {total' : Nat} (hs : s.Sound c file total) (hle : total ≤ total') :
    s.Sound c file total' := { hs with written := Nat.le_trans hs.written hle }

/-- The same write to the file and to its staging file keeps them equal where the session reads. -/
theorem Holds.place {append : Bool} {off : Nat} {data : Bytes} (hh : s.Holds staging file) :
    s.Holds (placeBytes append staging off data) (placeBytes append file off data) where
  length := Bytes.length_placeBytes_congr hh.length
  bytes k hk := Bytes.getElem?_placeBytes_congr hh.length (hh.bytes k hk)

/-- A staging file nothing was punched out of is the file. -/
theorem Holds.eq (hh : s.Holds staging file) (hp : s.pump.punching = false) : staging = file := by
  apply List.ext_getElem?
  intro k
  apply hh.bytes
  rw [hp, if_neg (by simp)]
  omega

theorem holds_self (s : StreamSession) (file : Bytes) : s.Holds file file := ⟨rfl, fun _ _ => rfl⟩

/-- The session `start_stream` opens. -/
theorem sound_start {base : String} {low : Bool} (hle : c.bytes ≤ total) :
    ({ uploadsBase := base, head := c.streamHead, pump := {
      nextIndex := 1, bytesConfirmed := c.streamHead, claimed := c.streamHead
      punching := low } } : StreamSession).Sound c file total where
  head := rfl
  first := Nat.le_refl _
  progress := by simp
  unsent := ⟨0, by simp⟩
  written := hle
  chunks k hk hlt := absurd hlt (by dsimp only; omega)
  single := by simp
  busy h := absurd rfl h
  jobs := by simp

/-- Closing, freezing or thawing a session, and the marks on it, leave its progress. -/
theorem Sound.mark {p : PumpState} (hs : s.Sound c file total)
    (hnext : p.nextIndex = s.pump.nextIndex) (hconf : p.bytesConfirmed = s.pump.bytesConfirmed)
    (hclaim : p.claimed = s.pump.claimed) (hbusy : s.jobs ≠ [] → p.busy = true) :
    ({ s with pump := p } : StreamSession).Sound c file total := by
  refine hs.congr rfl hnext hconf hclaim (fun _ _ => rfl) hs.single hbusy fun j hj => ?_
  have hjs := hs.jobs j hj
  revert hjs
  cases j.phase <;> simp only [JobSound, hnext, hconf, hclaim] <;> exact id

/-- A run is added to a session that has none. -/
theorem Sound.addJob (hs : s.Sound c file total) (hjobs : s.jobs = []) (inline : Bool) {p : PumpState}
    (hnext : p.nextIndex = s.pump.nextIndex) (hconf : p.bytesConfirmed = s.pump.bytesConfirmed)
    (hclaim : p.claimed = s.pump.claimed) (hbusy : p.busy = true) :
    ({ s with pump := p, jobs := s.jobs ++ [{ inline := inline, phase := .queued }] } :
      StreamSession).Sound c file total := by
  refine hs.congr rfl hnext hconf hclaim (fun _ _ => rfl) ?_ (fun _ => hbusy) ?_
  · simp [hjobs]
  · simp [hjobs, JobSound]

end StreamSession

/-! ## The handle -/

namespace StreamFile

variable {c : ChunkSize} {f g : StreamFile} {s t : StreamSession} {edit : Edit} {again : Bool}

/-- What holds between any two steps, whatever the request being served. -/
structure Body (c : ChunkSize) (f : StreamFile) : Prop where
  sound : ∀ s, f.session = some s → s.Sound c f.file f.totalWritten
  holds : ∀ s, f.session = some s → s.Holds f.staging f.file
  plain : f.session = none → f.staging = f.file
  written : f.totalWritten ≤ f.file.length
  -- A dropped session is closed before its chunks could be punched out.
  dropped : ∀ s ∈ f.dropped, s.jobs.length ≤ 1 ∧ (s.pump.punching = true → s.pump.closed = true)
  alone : f.session.isSome = true → f.dropped = []
  few : f.dropped.length ≤ 1
  eligible : f.streamEligible = true → f.dropped = []

/-- What the request being served relies on. -/
def PhaseInv (c : ChunkSize) (f : StreamFile) : Prop :=
  match f.phase with
  | .dropping _ => f.session = none ∧ f.streamEligible = false
  | .placing off data (some append) =>
    off ≤ f.totalWritten ∧ append = decide (off = f.totalWritten) ∧
      (f.session = none → f.streamEligible = true) ∧
      ∀ s, f.session = some s → off + data.length ≤ s.head ∨ s.pump.claimed ≤ off
  | .placing _ _ none => f.session = none ∧ f.streamEligible = false
  | .accounting off data =>
    off + data.length ≤ f.file.length ∧ (f.session = none → f.streamEligible = true)
  | .opening _ => f.session = none ∧ f.streamEligible = true ∧ 2 * c.bytes ≤ f.totalWritten
  | .pressing _ due | .feeding _ due =>
    ∀ s, f.session = some s → due = true → s.pump.claimed + c.bytes ≤ f.totalWritten
  | .submitting _ _ | .refused _ _ => ∀ s, f.session = some s → s.jobs = [] ∧ s.pump.busy = true
  | .kicked _ _ false | .marking _ => ∀ s, f.session = some s → s.jobs = []
  | .resizing _ => f.session = none
  | _ => True

/-- What holds of a file between two sections of its requests and jobs. -/
structure Inv (c : ChunkSize) (f : StreamFile) : Prop where
  body : Body c f
  phase : PhaseInv c f

/-- The body of the invariant does not depend on replies, marks and the phase. -/
theorem Body.congr (h : Body c f) (hsession : g.session = f.session)
    (hstaging : g.staging = f.staging) (hfile : g.file = f.file)
    (htotal : g.totalWritten = f.totalWritten) (hdropped : g.dropped = f.dropped)
    (heligible : g.streamEligible = true → f.streamEligible = true) : Body c g where
  sound := by rw [hsession, hfile, htotal]; exact h.sound
  holds := by rw [hsession, hstaging, hfile]; exact h.holds
  plain := by rw [hsession, hstaging, hfile]; exact h.plain
  written := by rw [hfile, htotal]; exact h.written
  dropped := by rw [hdropped]; exact h.dropped
  alone := by rw [hsession, hdropped]; exact h.alone
  few := by rw [hdropped]; exact h.few
  eligible := by rw [hdropped]; exact fun he => h.eligible (heligible he)

/-- A change of the handle's session, and of what its staging file holds. -/
theorem Body.setSession (h : Body c f) (hs : f.session = some s)
    (hsession : g.session = some t) (hfile : g.file = f.file)
    (htotal : g.totalWritten = f.totalWritten) (hdropped : g.dropped = f.dropped)
    (hsound : t.Sound c f.file f.totalWritten) (hholds : t.Holds g.staging f.file) : Body c g where
  sound := by
    rw [hsession, hfile, htotal]
    rintro t' ⟨⟩
    exact hsound
  holds := by
    rw [hsession, hfile]
    rintro t' ⟨⟩
    exact hholds
  plain := by simp [hsession]
  written := by rw [hfile, htotal]; exact h.written
  dropped := by rw [hdropped]; exact h.dropped
  alone := by rw [hdropped]; exact fun _ => h.alone (by simp [hs])
  few := by rw [hdropped]; exact h.few
  eligible := by rw [hdropped]; exact fun _ => h.alone (by simp [hs])

/-- A request that is answered leaves nothing to rely on. -/
theorem Body.reply (h : Body c f) (r : Reply) : Inv c (f.reply r) :=
  ⟨h.congr rfl rfl rfl rfl rfl id, trivial⟩

/-- Taking the session off the handle: nothing was punched out, so the staging file is whole. -/
theorem Body.drop (h : Body c f) (hs : f.session = some s) (hp : s.pump.punching = false)
    (hsession : g.session = none) (hstaging : g.staging = f.staging) (hfile : g.file = f.file)
    (htotal : g.totalWritten = f.totalWritten) (hdropped : g.dropped = s :: f.dropped)
    (heligible : g.streamEligible = false) : Body c g where
  sound := by simp [hsession]
  holds := by simp [hsession]
  plain := by rw [hstaging, hfile]; exact fun _ => (h.holds s hs).eq hp
  written := by rw [hfile, htotal]; exact h.written
  dropped := by
    rw [hdropped, h.alone (by simp [hs])]
    intro d hd
    rw [List.mem_singleton] at hd
    subst hd
    exact ⟨(h.sound _ hs).single, by simp [hp]⟩
  alone := by simp [hsession]
  few := by simp [hdropped, h.alone (by simp [hs])]
  eligible := by simp [heligible]

/-- A write that keeps the session lies in the head or past everything claimed. -/
theorem streamWriteVerdict_keep {off len total head : Nat} {p : PumpState} {offline : Bool}
    (h : streamWriteVerdict off len total head p offline = .keep) :
    off + len ≤ head ∨ p.claimed ≤ off ∧ off ≤ total := by
  unfold streamWriteVerdict at h
  dsimp only at h
  split at h
  · rename_i hhealthy
    simp only [Bool.and_eq_true, Bool.or_eq_true, decide_eq_true_eq] at hhealthy
    exact hhealthy.1.1.1
  · cases h
  · cases h

/-- A session whose bytes were punched out is not given up. -/
theorem streamWriteVerdict_abandon {off len total head : Nat} {p : PumpState} {offline : Bool}
    (h : streamWriteVerdict off len total head p offline = .abandon) : p.punching = false := by
  unfold streamWriteVerdict at h
  dsimp only at h
  split at h
  · cases h
  · assumption
  · cases h

/-- The verdict on a write decides its phase, and may close the session. -/
theorem Inv.decideWrite (hi : Inv c f) (off : Nat) (data : Bytes) (offline : Bool) :
    Inv c (f.decideWrite off data offline) := by
  unfold StreamFile.decideWrite
  -- the handle was given up: an error at once
  split
  · exact hi.body.reply _
  dsimp only
  split
  · -- a session is open
    rename_i s hs
    have hsound := hi.body.sound s hs
    split
    · -- the write goes to the head or to the end, so past no gap
      rename_i hv
      have hwhere := streamWriteVerdict_keep hv
      have hhead := hsound.head_le_confirmed
      have hclaim := hsound.confirmed_le_claimed
      have hwritten := hsound.written
      refine ⟨hi.body.congr rfl rfl rfl rfl rfl id, ?_, rfl, ?_, ?_⟩
      · show off ≤ f.totalWritten
        omega
      · intro hnone
        exact absurd (hs.symm.trans hnone) (by simp)
      · intro t ht
        rw [show f.session = some t from ht] at hs
        cases hs
        exact hwhere.imp_right And.left
    · -- anywhere else the session is dropped, unless chunks are gone already
      rename_i hv
      exact ⟨hi.body.drop hs (streamWriteVerdict_abandon hv) rfl rfl rfl rfl rfl rfl, rfl, rfl⟩
    · exact (hi.body.congr rfl rfl rfl rfl rfl id : Body c { f with uploadFailed := true }).reply _
  · -- no session: at the end of the file the write keeps the handle able to stream, elsewhere it does
    -- not
    rename_i hnone
    split
    · rename_i hfast
      simp only [Bool.and_eq_true, decide_eq_true_eq] at hfast
      refine ⟨hi.body.congr rfl rfl rfl rfl rfl id, hfast.1.2, rfl, fun _ => hfast.1.1, ?_⟩
      intro t ht
      exact absurd (hnone.symm.trans ht) (by simp)
    · exact ⟨hi.body.congr rfl rfl rfl rfl rfl (by simp), hnone, rfl⟩

/-- Bytes placed outside what was handed to the uploader. -/
theorem Body.place (append : Bool) {off : Nat} {data : Bytes} (h : Body c f)
    (hout : ∀ s, f.session = some s → off + data.length ≤ s.head ∨ s.pump.claimed ≤ off)
    (hsession : g.session = f.session)
    (hstaging : g.staging = placeBytes append f.staging off data)
    (hfile : g.file = placeBytes append f.file off data)
    (htotal : g.totalWritten = f.totalWritten) (hdropped : g.dropped = f.dropped)
    (heligible : g.streamEligible = f.streamEligible) : Body c g where
  sound := by
    rw [hsession, hfile, htotal]
    exact fun s hs => (h.sound s hs).place h.written (hout s hs)
  holds := by
    rw [hsession, hfile, hstaging]
    exact fun s hs => (h.holds s hs).place
  plain := by
    rw [hsession, hfile, hstaging]
    exact fun hnone => by rw [h.plain hnone]
  written := by
    rw [hfile, htotal]
    exact Nat.le_trans h.written (Bytes.length_placeBytes _ _ _ _)
  dropped := by rw [hdropped]; exact h.dropped
  alone := by rw [hsession, hdropped]; exact h.alone
  few := by rw [hdropped]; exact h.few
  eligible := by rw [hdropped, heligible]; exact h.eligible

/-- The bytes reach the staging file and, as far as they were accepted, the file. -/
theorem Inv.place {off : Nat} {data : Bytes} {append : Option Bool} (hi : Inv c f)
    (hp : f.phase = .placing off data append) (io : StagingIo) :
    Inv c (f.place off data append io) := by
  have hph := hi.phase
  unfold PhaseInv at hph
  rw [hp] at hph
  -- an append, or a write into the head of a session
  cases append with
  | some append =>
    obtain ⟨hoff, -, heligible, hout⟩ := hph
    have hshort : ∀ n s, f.session = some s →
        off + (data.take n).length ≤ s.head ∨ s.pump.claimed ≤ off := by
      intro n s hs
      have hs := hout s hs
      rw [List.length_take]
      omega
    -- a write that stops early has placed a part at the same offset
    cases io with
    | complete =>
      refine ⟨hi.body.place append hout rfl rfl rfl rfl rfl rfl, ?_, heligible⟩
      exact Bytes.end_le_length_placeBytes data (Nat.le_trans hoff hi.body.written)
    | short n =>
      refine Body.reply ?_ _
      exact hi.body.place append (hshort n) rfl rfl rfl rfl rfl rfl
    | failed n =>
      refine Body.reply ?_ _
      exact hi.body.place append (hshort n) rfl rfl rfl rfl rfl rfl
  | none =>
    -- a plain write, for which there is no session
    have hout : ∀ (d : Bytes) s, f.session = some s →
        off + d.length ≤ s.head ∨ s.pump.claimed ≤ off :=
      fun d s hs => absurd (hs.symm.trans hph.1) (by simp)
    cases io with
    | complete =>
      refine Body.reply ?_ _
      exact hi.body.place false (hout data) rfl rfl rfl rfl rfl rfl
    | short n =>
      refine Body.reply ?_ _
      exact hi.body.place false (hout (data.take n)) rfl rfl rfl rfl rfl rfl
    | failed n => exact hi.body.reply _

/-- The end of the written bytes moves on. -/
theorem Body.account {total : Nat} (h : Body c f) (hsession : g.session = f.session)
    (hstaging : g.staging = f.staging) (hfile : g.file = f.file) (htotal : g.totalWritten = total)
    (hmono : f.totalWritten ≤ total) (hle : total ≤ f.file.length)
    (hdropped : g.dropped = f.dropped) (heligible : g.streamEligible = f.streamEligible) :
    Body c g where
  sound := by
    rw [hsession, hfile, htotal]
    exact fun s hs => (h.sound s hs).mono hmono
  holds := by rw [hsession, hstaging, hfile]; exact h.holds
  plain := by rw [hsession, hstaging, hfile]; exact h.plain
  written := by rw [hfile, htotal]; exact hle
  dropped := by rw [hdropped]; exact h.dropped
  alone := by rw [hsession, hdropped]; exact h.alone
  few := by rw [hdropped]; exact h.few
  eligible := by rw [hdropped, heligible]; exact h.eligible

/-- A chunk is due when a whole one is behind the writer. -/
theorem streamShouldGraduate_claimed {total threshold : Nat}
    (h : streamShouldGraduate c total (some s) threshold = true) :
    s.pump.claimed + c.bytes ≤ total := by
  unfold streamShouldGraduate at h
  simp only [Option.map_some, Option.getD_some, decide_eq_true_eq] at h
  have hpos := c.pos
  omega

/-- An upload starts to stream with at least two chunks written. -/
theorem streamShouldGraduate_head {total threshold : Nat}
    (h : streamShouldGraduate c total none threshold = true) : 2 * c.bytes ≤ total := by
  unfold streamShouldGraduate ChunkSize.streamHead at h
  simp only [Option.map_none, Option.getD_none, decide_eq_true_eq] at h
  have hpos := c.pos
  omega

/-- The account of a write moves the length, and may open a session. -/
theorem Inv.account {off : Nat} {data : Bytes} (hi : Inv c f)
    (hp : f.phase = .accounting off data) (threshold : Nat) :
    Inv c (f.account c off data threshold) := by
  have hph := hi.phase
  unfold PhaseInv at hph
  rw [hp] at hph
  obtain ⟨hend, heligible⟩ := hph
  have hmax : max f.totalWritten (off + data.length) ≤ f.file.length :=
    Nat.max_le.mpr ⟨hi.body.written, hend⟩
  have hbody : Body c { f with dirty := true, totalWritten := max f.totalWritten (off + data.length) } :=
    hi.body.account rfl rfl rfl rfl (Nat.le_max_left _ _) hmax rfl rfl
  unfold StreamFile.account
  dsimp only
  split
  · -- with a session: the next chunk may be due
    rename_i s hs
    refine ⟨hbody.congr rfl rfl rfl rfl rfl id, ?_⟩
    intro t ht hdue
    rw [show f.session = some t from ht] at hdue
    exact streamShouldGraduate_claimed hdue
  · -- without one: the first may be
    rename_i hnone
    split
    · rename_i hdue
      refine ⟨hbody.congr rfl rfl rfl rfl rfl id, hnone, heligible hnone, ?_⟩
      rw [show f.session = none from hnone] at hdue
      exact streamShouldGraduate_head hdue
    · exact hbody.reply _

/-- A session starts with what is staged as its head. -/
theorem Inv.startStream (hi : Inv c f) (hp : f.phase = .opening edit) (base : Option String)
    (low : Bool) : Inv c (f.startStream c edit base low) := by
  have hph := hi.phase
  unfold PhaseInv at hph
  rw [hp] at hph
  obtain ⟨hnone, heligible, hdue⟩ := hph
  unfold StreamFile.startStream
  -- no session could be opened: the handle does not stream
  cases base with
  | none =>
    refine Body.reply ?_ _
    exact hi.body.congr rfl rfl rfl rfl rfl (by simp)
  | some base =>
    -- the new session holds all of the file
    dsimp only
    rw [if_pos (by simp [heligible, hnone])]
    refine ⟨⟨?_, ?_, by simp, hi.body.written, hi.body.dropped,
      fun _ => hi.body.eligible heligible, hi.body.few, hi.body.eligible⟩, ?_⟩
    · -- nothing was sent yet, and the head is written
      rintro t ⟨⟩
      exact StreamSession.sound_start (by dsimp only; omega)
    · rintro t ⟨⟩
      rw [hi.body.plain hnone]
      exact StreamSession.holds_self _ _
    · -- the first chunk lies behind the head
      rintro t ⟨⟩ -
      show c.streamHead + c.bytes ≤ f.totalWritten
      unfold ChunkSize.streamHead
      omega

/-- Punching out the chunks sent so far. -/
theorem Body.startPunching (h : Body c f) (hs : f.session = some s) (freed : Bool) :
    Body c (f.startPunching s freed) := by
  unfold StreamFile.startPunching
  -- punching already, or failed, or closed: nothing to do
  split
  · exact h
  · have hsound := h.sound s hs
    have hholds := h.holds s hs
    have hhead := hsound.head_le_confirmed
    have hclaim := hsound.confirmed_le_claimed
    have hwritten := hsound.written
    have hlen := h.written
    rename_i hopen
    simp only [Bool.or_eq_true, not_or, Bool.not_eq_true] at hopen
    refine h.setSession hs rfl rfl rfl rfl (hsound.mark rfl rfl rfl hsound.busy) ?_
    -- the chunks sent so far lie behind the head and in the file
    have hin : s.head + (s.pump.bytesConfirmed - s.head) ≤ f.staging.length := by
      rw [hholds.length]
      omega
    refine ⟨?_, fun k hk => ?_⟩
    · -- the holes keep the length
      dsimp only
      split
      · rw [Bytes.length_punchHole hin, hholds.length]
      · exact hholds.length
    · -- what is still held is the head and what comes behind the chunks
      dsimp only at hk ⊢
      rw [if_pos rfl] at hk
      have hold : f.staging[k]? = f.file[k]? := by
        apply hholds.bytes
        rw [hopen.1.1, if_neg (by simp)]
        omega
      rw [← hold]
      split
      · exact Bytes.getElem?_punchHole hin (by omega)
      · rfl

/-- Punching starts where the disk is low and nothing is in flight. -/
theorem Inv.press {due : Bool} (hi : Inv c f) (hp : f.phase = .pressing edit due)
    (hs : f.session = some s) (low freed : Bool) : Inv c (f.press s edit due low freed) := by
  have hph := hi.phase
  unfold PhaseInv at hph
  rw [hp] at hph
  unfold StreamFile.press
  dsimp only
  split
  · refine ⟨(hi.body.startPunching hs freed).congr rfl rfl rfl rfl rfl id, ?_⟩
    show ∀ t, (f.startPunching s freed).session = some t → due = true →
      t.pump.claimed + c.bytes ≤ (f.startPunching s freed).totalWritten
    unfold StreamFile.startPunching
    split
    · exact hph
    · rintro t ⟨⟩ hdue
      exact hph s hs hdue
  · exact ⟨hi.body.congr rfl rfl rfl rfl rfl id, hph⟩

/-- The pump claims the next chunk for a job. -/
theorem Inv.claim {due : Bool} (hi : Inv c f) (hp : f.phase = .feeding edit due)
    (hs : f.session = some s) : Inv c (f.claim c s edit due) := by
  have hph := hi.phase
  unfold PhaseInv at hph
  rw [hp] at hph
  refine ⟨?_, trivial⟩
  -- no chunk is due, or the next one is handed over
  cases due with
  | false => exact hi.body.setSession hs rfl rfl rfl rfl (hi.body.sound s hs) (hi.body.holds s hs)
  | true =>
    have hsound := hi.body.sound s hs
    have hroom := hph s hs rfl
    refine hi.body.setSession hs rfl rfl rfl rfl ?_ ((hi.body.holds s hs).congr rfl rfl rfl)
    obtain ⟨k, hk⟩ := hsound.unsent
    refine { hsound with unsent := ⟨k + 1, ?_⟩, written := hroom, jobs := fun j hj => ?_ }
    · -- one chunk more is left to send
      simp only [if_true]
      rw [Nat.succ_mul]
      omega
    · -- A run that found a chunk to send still has it.
      have hjs := hsound.jobs j hj
      revert hjs
      cases j.phase with
      | reading index start =>
        rintro ⟨hi, hst, hlt⟩
        exact ⟨hi, hst, by simp only [if_true]; omega⟩
      | sending index start chunk stored =>
        rintro ⟨hi, hst, hlt, hrest⟩
        exact ⟨hi, hst, by simp only [if_true]; omega, hrest⟩
      | answered start error =>
        rintro ⟨hst, hlt, hrest⟩
        exact ⟨hst, by simp only [if_true]; omega, hrest⟩
      | _ => exact fun _ => trivial

/-- The kick of the pump looks at its state only. -/
theorem Inv.kick (hi : Inv c f) (hs : f.session = some s) : Inv c (f.kick s edit again) := by
  unfold StreamFile.kick
  have hsound := hi.body.sound s hs
  have hholds := hi.body.holds s hs
  split
  · exact ⟨hi.body.congr rfl rfl rfl rfl rfl id, trivial⟩
  · rename_i hidle
    -- An idle session has no run.
    have hjobs : s.jobs = [] := by
      by_contra hne
      exact hidle (hsound.busy hne)
    split
    · refine ⟨hi.body.setSession hs rfl rfl rfl rfl ?_ (hholds.congr rfl rfl rfl), trivial⟩
      exact hsound.mark rfl rfl rfl fun hne => absurd hjobs hne
    · refine ⟨hi.body.setSession hs rfl rfl rfl rfl ?_ (hholds.congr rfl rfl rfl), ?_⟩
      · exact hsound.mark rfl rfl rfl fun _ => rfl
      · rintro t ⟨⟩
        exact ⟨hjobs, rfl⟩

/-- A job is queued when the pool has room. -/
theorem Inv.submit (hi : Inv c f) (hp : f.phase = .submitting edit again)
    (hs : f.session = some s) (room : Bool) : Inv c (f.submit s edit again room) := by
  have hph := hi.phase
  unfold PhaseInv at hph
  rw [hp] at hph
  obtain ⟨hjobs, hbusy⟩ := hph s hs
  unfold StreamFile.submit
  split
  · refine ⟨hi.body.setSession hs rfl rfl rfl rfl ?_ ((hi.body.holds s hs).congr rfl rfl rfl),
      trivial⟩
    exact (hi.body.sound s hs).addJob hjobs false rfl rfl rfl hbusy
  · exact ⟨hi.body.congr rfl rfl rfl rfl rfl id, hph⟩

/-- A job that was refused gives its claim back. -/
theorem Inv.giveBack (hi : Inv c f) (hp : f.phase = .refused edit again)
    (hs : f.session = some s) : Inv c (f.giveBack s edit again) := by
  have hph := hi.phase
  unfold PhaseInv at hph
  rw [hp] at hph
  obtain ⟨hjobs, -⟩ := hph s hs
  refine ⟨hi.body.setSession hs rfl rfl rfl rfl ?_ ((hi.body.holds s hs).congr rfl rfl rfl), ?_⟩
  · exact (hi.body.sound s hs).mark rfl rfl rfl fun hne => absurd hjobs hne
  · rintro t ⟨⟩
    exact hjobs

/-- The write is answered, or waits for the pump. -/
theorem Inv.kicked {queued : Bool} (hi : Inv c f) (hp : f.phase = .kicked edit again queued) :
    Inv c (f.kicked s edit again queued) := by
  have hph := hi.phase
  unfold PhaseInv at hph
  rw [hp] at hph
  unfold StreamFile.kicked
  split
  · exact hi.body.reply _
  · cases queued with
    | true => exact ⟨hi.body.congr rfl rfl rfl rfl rfl id, trivial⟩
    | false => exact ⟨hi.body.congr rfl rfl rfl rfl rfl id, hph⟩

/-- The caller becomes the job itself. -/
theorem Inv.runInline (hi : Inv c f) (hp : f.phase = .marking edit) (hs : f.session = some s) :
    Inv c (f.runInline s edit) := by
  have hph := hi.phase
  unfold PhaseInv at hph
  rw [hp] at hph
  refine ⟨hi.body.setSession hs rfl rfl rfl rfl ?_ ((hi.body.holds s hs).congr rfl rfl rfl), trivial⟩
  exact (hi.body.sound s hs).addJob (hph s hs) true rfl rfl rfl rfl

theorem Inv.failWrite (hi : Inv c f) : Inv c f.failWrite := by
  refine Body.reply ?_ _
  exact hi.body.congr rfl rfl rfl rfl rfl id

/-- A resize closes the session or is refused. -/
theorem Inv.decideResize (hi : Inv c f) (size : Nat) : Inv c (f.decideResize size) := by
  unfold StreamFile.decideResize
  split
  · rename_i s hs
    split
    · refine Body.reply ?_ _
      exact hi.body.congr rfl rfl rfl rfl rfl id
    split
    · refine Body.reply ?_ _
      exact hi.body.congr rfl rfl rfl rfl rfl id
    · rename_i hp
      exact ⟨hi.body.drop hs (by simpa using hp) rfl rfl rfl rfl rfl rfl, rfl, rfl⟩
  · rename_i hnone
    exact ⟨hi.body.congr rfl rfl rfl rfl rfl (by simp), hnone⟩

/-- The dropped session is closed before the edit goes on. -/
theorem Inv.closeDropped (hi : Inv c f) (hp : f.phase = .dropping edit) :
    Inv c (f.closeDropped edit) := by
  have hph := hi.phase
  unfold PhaseInv at hph
  rw [hp] at hph
  -- the session is closed, the ones dropped before stay so
  have hdropped : ∀ d ∈ f.dropped.modifyHead StreamSession.close,
      d.jobs.length ≤ 1 ∧ (d.pump.punching = true → d.pump.closed = true) := by
    have hold := hi.body.dropped
    cases hcons : f.dropped with
    | nil => simp
    | cons d rest =>
      rw [hcons] at hold
      intro d' hd'
      rw [List.modifyHead_cons, List.mem_cons] at hd'
      obtain rfl | hd' := hd'
      · exact ⟨(hold d (by simp)).1, fun _ => rfl⟩
      · exact hold d' (by simp [hd'])
  have hbody : Body c (f.closeDropped edit) := by
    -- it is the only one, and the handle does not stream any more
    refine { hi.body.congr rfl rfl rfl rfl rfl id with
      dropped := hdropped, alone := ?_, few := ?_, eligible := ?_ }
    · simp [StreamFile.closeDropped, hph.1]
    · simpa [StreamFile.closeDropped] using hi.body.few
    · intro he
      have hnil := hi.body.eligible he
      simp [StreamFile.closeDropped, hnil]
  refine ⟨hbody, ?_⟩
  cases edit with
  | write off data => exact hph
  | resize size => exact hph.1

/-- The staging file is cut or extended, and the file with it. -/
theorem Inv.setLen {size : Nat} (hi : Inv c f) (hp : f.phase = .resizing size) (ok : Bool) :
    Inv c (f.setLen size ok) := by
  have hph := hi.phase
  unfold PhaseInv at hph
  rw [hp] at hph
  unfold StreamFile.setLen
  split
  · refine Body.reply ?_ _
    refine { sound := ?_, holds := ?_, plain := ?_, written := ?_, dropped := hi.body.dropped
             alone := hi.body.alone, few := hi.body.few, eligible := hi.body.eligible }
    · exact fun s hs => absurd (show f.session = some s from hs) (by simp [hph])
    · exact fun s hs => absurd (show f.session = some s from hs) (by simp [hph])
    · intro _
      dsimp only
      rw [hi.body.plain hph]
    · simp only [Bytes.setLen, List.length_append, List.length_take, List.length_replicate]
      omega
  · exact hi.body.reply _

theorem Inv.read (hi : Inv c f) (off sz : Nat) : Inv c (f.read off sz) := by
  unfold StreamFile.read
  split
  · exact hi.body.reply _
  split
  · exact hi
  split
  · exact hi.body.reply _
  · exact ⟨hi.body.congr rfl rfl rfl rfl rfl id, trivial⟩

/-- The bytes are read while nothing holds the session. -/
theorem Inv.readBytes (hi : Inv c f) (off sz : Nat) (ok : Bool) :
    Inv c (f.readBytes off sz ok) := by
  unfold StreamFile.readBytes
  split
  · exact ⟨hi.body.congr rfl rfl rfl rfl rfl id, trivial⟩
  · exact hi.body.reply _

theorem Inv.recheck (hi : Inv c f) (off sz : Nat) (bytes : Bytes) :
    Inv c (f.recheck off sz bytes) := by
  unfold StreamFile.recheck
  split <;> exact hi.body.reply _

theorem Inv.flush (hi : Inv c f) : Inv c f.flush := by
  unfold StreamFile.flush
  split <;> exact hi.body.reply _

/-- The wait for the pump looks at its state only. -/
theorem Inv.check (hi : Inv c f) (p : PumpState) : Inv c (f.check c p edit) := by
  unfold StreamFile.check
  split
  · exact hi.failWrite
  split
  · exact hi.body.reply _
  · exact ⟨hi.body.congr rfl rfl rfl rfl rfl id, trivial⟩

theorem Inv.pause (hi : Inv c f) (p : PumpState) (below : Bool) :
    Inv c (f.pause c p edit below) := by
  unfold StreamFile.pause
  split
  · exact hi.body.reply _
  split <;> exact ⟨hi.body.congr rfl rfl rfl rfl rfl id, trivial⟩

/-- Closing, freezing or thawing the handle's session. -/
theorem Body.mark (h : Body c f) (hs : f.session = some s) {p : PumpState}
    (hsession : g.session = some { s with pump := p }) (hstaging : g.staging = f.staging)
    (hfile : g.file = f.file) (htotal : g.totalWritten = f.totalWritten)
    (hdropped : g.dropped = f.dropped) (hnext : p.nextIndex = s.pump.nextIndex)
    (hconf : p.bytesConfirmed = s.pump.bytesConfirmed) (hclaim : p.claimed = s.pump.claimed)
    (hpunch : p.punching = s.pump.punching) (hbusy : p.busy = s.pump.busy) : Body c g := by
  have hsound := h.sound s hs
  refine h.setSession hs hsession hfile htotal hdropped ?_ ?_
  · exact hsound.mark hnext hconf hclaim fun hne => hbusy.trans (hsound.busy hne)
  · rw [hstaging]
    exact (h.holds s hs).congr rfl hpunch hconf

/-- A release ends the requests; what it queues is in the session's hands. -/
theorem Inv.release (hi : Inv c f) (offline : Bool) : Inv c (f.release offline) := by
  unfold StreamFile.release
  dsimp only
  split
  · refine ⟨?_, trivial⟩
    cases hs : f.session with
    | none => exact hi.body.congr (by simp [hs]) rfl rfl rfl rfl id
    | some s => exact hi.body.mark hs (p := s.pump.close) rfl rfl rfl rfl rfl rfl rfl rfl rfl rfl
  split
  · exact ⟨hi.body.congr rfl rfl rfl rfl rfl id, trivial⟩
  split
  · exact ⟨hi.body.congr rfl rfl rfl rfl rfl id, trivial⟩
  · rename_i s hs
    split <;> exact ⟨hi.body.mark hs rfl rfl rfl rfl rfl rfl rfl rfl rfl rfl, trivial⟩

/-- What a request relies on survives a step of the uploader. -/
theorem PhaseInv.congr (h : PhaseInv c f) (hs : f.session = some s)
    (hsession : g.session = some t) (hphase : g.phase = f.phase)
    (htotal : g.totalWritten = f.totalWritten) (hfile : g.file = f.file)
    (hhead : t.head = s.head) (hclaim : t.pump.claimed = s.pump.claimed)
    (hidle : s.jobs = [] → t.jobs = [] ∧ t.pump.busy = s.pump.busy) : PhaseInv c g := by
  have hnone : f.session ≠ none := by simp [hs]
  unfold PhaseInv at h ⊢
  rw [hphase]
  revert h
  -- a phase speaks of the session's head, claimed bytes and idleness, which stay
  cases hp : f.phase with
  | dropping edit => exact fun h => absurd h.1 hnone
  | placing off data append =>
    cases append with
    | none => exact fun h => absurd h.1 hnone
    | some append =>
      rintro ⟨hoff, happend, -, hout⟩
      refine ⟨by rw [htotal]; exact hoff, by rw [htotal]; exact happend, by simp [hsession], ?_⟩
      rw [hsession]
      rintro t' ⟨⟩
      rw [hhead, hclaim]
      exact hout s hs
  | accounting off data =>
    rintro ⟨hend, -⟩
    exact ⟨by rw [hfile]; exact hend, by simp [hsession]⟩
  | opening edit => exact fun h => absurd h.1 hnone
  | pressing edit due =>
    intro h
    rw [hsession, htotal]
    rintro t' ⟨⟩
    rw [hclaim]
    exact h s hs
  | feeding edit due =>
    intro h
    rw [hsession, htotal]
    rintro t' ⟨⟩
    rw [hclaim]
    exact h s hs
  | submitting edit again =>
    intro h
    rw [hsession]
    rintro t' ⟨⟩
    -- an idle session stays idle
    exact ⟨(hidle (h s hs).1).1, (hidle (h s hs).1).2.trans (h s hs).2⟩
  | refused edit again =>
    intro h
    rw [hsession]
    rintro t' ⟨⟩
    exact ⟨(hidle (h s hs).1).1, (hidle (h s hs).1).2.trans (h s hs).2⟩
  | kicked edit again queued =>
    cases queued with
    | true => exact fun _ => trivial
    | false =>
      intro h
      rw [hsession]
      rintro t' ⟨⟩
      exact (hidle (h s hs)).1
  | marking edit =>
    intro h
    rw [hsession]
    rintro t' ⟨⟩
    exact (hidle (h s hs)).1
  | resizing size => exact fun h => absurd h hnone
  | _ => exact fun _ => trivial

/-- A change of the pump's marks that keeps its counts keeps the invariant. -/
theorem Inv.mark (hi : Inv c f) {p : PumpState} (hs : f.session = some s)
    (hnext : p.nextIndex = s.pump.nextIndex) (hconf : p.bytesConfirmed = s.pump.bytesConfirmed)
    (hclaim : p.claimed = s.pump.claimed) (hpunch : p.punching = s.pump.punching)
    (hbusy : p.busy = s.pump.busy) : Inv c { f with session := some { s with pump := p } } :=
  ⟨hi.body.mark hs rfl rfl rfl rfl rfl hnext hconf hclaim hpunch hbusy,
    hi.phase.congr hs rfl rfl rfl rfl rfl hclaim fun hj => ⟨hj, hbusy⟩⟩

/-- Freezing stops the pump before the next chunk. -/
theorem Inv.freeze (hi : Inv c f) : Inv c f.freeze := by
  unfold StreamFile.freeze
  cases hs : f.session with
  | none => rw [Option.map_none, ← hs]; exact hi
  | some s =>
    cases hp : s.pump.punching with
    | false =>
      simp only [Option.map_some, hp, Bool.false_eq_true, if_false]
      exact hi.mark hs rfl rfl rfl rfl rfl
    | true =>
      simp only [Option.map_some, hp, if_true]
      exact hi.mark hs rfl rfl rfl rfl rfl

theorem Inv.thaw (hi : Inv c f) : Inv c f.thaw := by
  unfold StreamFile.thaw
  cases hs : f.session with
  | none => rw [Option.map_none, ← hs]; exact hi
  | some s =>
    simp only [Option.map_some, PumpState.thaw]
    split
    · exact hi.mark hs rfl rfl rfl rfl rfl
    · exact hi.mark hs rfl rfl rfl rfl rfl

/-- No step of a job breaks what holds between requests. -/
theorem Inv.jobStep (hi : Inv c f) {slot : SessionSlot} {i : Nat} {e : JobEvent}
    (h : f.jobStep c slot i e = some g) : Inv c g := by
  unfold StreamFile.jobStep at h
  cases slot with
  | current =>
    -- a run of the session on the handle
    dsimp only at h
    split at h
    · rename_i s hs
      rw [Option.map_eq_some_iff] at h
      obtain ⟨⟨t, staging'⟩, hran, rfl⟩ := h
      have hran := StreamSession.jobStep_ran hran
      have hnew := (hi.body.sound s hs).ran hran hi.body.written (hi.body.holds s hs)
      refine ⟨hi.body.setSession hs rfl rfl rfl rfl hnew.1 hnew.2,
        hi.phase.congr hs rfl rfl rfl rfl hran.frame.head hran.frame.claimed
          fun hj => absurd hj hran.running⟩
    · cases h
  | dropped k =>
    -- a run of a dropped session: none is on the handle then
    dsimp only at h
    split at h
    · rename_i s hs
      rw [Option.map_eq_some_iff] at h
      obtain ⟨⟨t, staging'⟩, hran, rfl⟩ := h
      have hran := StreamSession.jobStep_ran hran
      have hmem : s ∈ f.dropped := List.mem_of_getElem? hs
      obtain ⟨hsingle, hclosed⟩ := hi.body.dropped s hmem
      have hnone : f.session = none := by
        cases hsome : f.session with
        | none => rfl
        | some s' =>
          have hnil := hi.body.alone (by simp [hsome])
          rw [hnil] at hmem
          exact absurd hmem (by simp)
      -- it touches no staging file, since its session is closed
      have hkeep : staging' = f.staging := hran.staging_eq hclosed
      have hsome : ∀ s', f.session ≠ some s' := by simp [hnone]
      refine ⟨⟨fun s' hs' => absurd hs' (hsome s'), fun s' hs' => absurd hs' (hsome s'), ?_,
        hi.body.written, ?_, ?_, ?_, ?_⟩, hi.phase⟩
      · intro _
        exact hkeep.trans (hi.body.plain hnone)
      · intro d hd
        obtain hd | rfl := List.mem_or_eq_of_mem_set hd
        · exact hi.body.dropped d hd
        · rw [hran.frame.punching, hran.frame.closed]
          exact ⟨Nat.le_trans hran.jobs_length hsingle, hclosed⟩
      · -- nothing else of the handle has changed
        intro hs'
        exact absurd hs' (by simp [hnone])
      · simpa using hi.body.few
      · intro he
        rw [hi.body.eligible he] at hmem
        exact absurd hmem (by simp)
    · cases h

/-- Every step of a request, of the uploader or of a hand-over keeps the invariant. -/
theorem Inv.step {e : StreamEvent} (h : f.step c e = some g) (hi : Inv c f) : Inv c g := by
  cases e with
  -- one lemma for each section
  | job slot i e => exact hi.jobStep h
  | freeze =>
    simp only [StreamFile.step] at h
    split at h <;> cases h
    exact hi.freeze
  | thaw =>
    simp only [StreamFile.step] at h
    split at h <;> cases h
    exact hi.thaw
  | write off data offline =>
    simp only [StreamFile.step] at h
    split at h <;> cases h
    exact hi.decideWrite off data offline
  | resize size =>
    simp only [StreamFile.step] at h
    split at h <;> cases h
    exact hi.decideResize size
  | read off sz =>
    simp only [StreamFile.step] at h
    split at h <;> cases h
    exact hi.read off sz
  | flush =>
    simp only [StreamFile.step] at h
    split at h <;> cases h
    exact hi.flush
  | release offline =>
    simp only [StreamFile.step] at h
    split at h <;> cases h
    exact hi.release offline
  | closeDropped =>
    simp only [StreamFile.step] at h
    split at h <;> cases h
    exact hi.closeDropped ‹_›
  | place io =>
    simp only [StreamFile.step] at h
    split at h <;> cases h
    exact hi.place ‹_› io
  | account threshold =>
    simp only [StreamFile.step] at h
    split at h <;> cases h
    exact hi.account ‹_› threshold
  | opened base low =>
    simp only [StreamFile.step] at h
    split at h <;> cases h
    exact hi.startStream ‹_› base low
  | press low freed =>
    simp only [StreamFile.step] at h
    split at h <;> cases h
    exact hi.press ‹_› ‹_› low freed
  | claim =>
    simp only [StreamFile.step] at h
    split at h <;> cases h
    exact hi.claim ‹_› ‹_›
  | kick =>
    simp only [StreamFile.step] at h
    split at h <;> cases h
    exact hi.kick ‹_›
  | submit room =>
    simp only [StreamFile.step] at h
    split at h <;> cases h
    exact hi.submit ‹_› ‹_› room
  | giveBack =>
    simp only [StreamFile.step] at h
    split at h <;> cases h
    exact hi.giveBack ‹_› ‹_›
  | kicked =>
    simp only [StreamFile.step] at h
    split at h <;> cases h
    exact hi.kicked ‹_›
  | mark =>
    simp only [StreamFile.step] at h
    split at h <;> cases h
    exact hi.runInline ‹_› ‹_›
  | resume =>
    simp only [StreamFile.step] at h
    split at h
    · split at h <;> cases h
      exact ⟨hi.body.congr rfl rfl rfl rfl rfl id, trivial⟩
    · cases h
  | check =>
    simp only [StreamFile.step] at h
    split at h <;> cases h
    exact hi.check _
  | pause below =>
    simp only [StreamFile.step] at h
    split at h <;> cases h
    exact hi.pause _ below
  | setLen ok =>
    simp only [StreamFile.step] at h
    split at h <;> cases h
    exact hi.setLen ‹_› ok
  | readBytes ok =>
    simp only [StreamFile.step] at h
    split at h <;> cases h
    exact hi.readBytes _ _ ok
  | recheck =>
    simp only [StreamFile.step] at h
    split at h <;> cases h
    exact hi.recheck _ _ _

/-! ## What the replies promise -/

/-- The edit of the request being served, once it is in the staging file. -/
def placed : RequestPhase → Option Edit
  | .accounting off data => some (.write off data)
  | .opening e | .pressing e _ | .feeding e _ | .kicking e _ | .submitting e _ | .refused e _
  | .kicked e _ _ | .marking e | .inline e | .waiting e | .pausing e => some e
  | _ => none

/-- The file as the replies so far and the request being served describe it. -/
def promised (f : StreamFile) : Bytes :=
  match placed f.phase with
  | some edit => edit.apply (acceptedBytes f.replies)
  | none => acceptedBytes f.replies

/-- The end of the bytes written, with the write being accounted for. -/
def endOf (f : StreamFile) : Nat :=
  match f.phase with
  | .accounting off data => max f.totalWritten (off + data.length)
  | _ => f.totalWritten

/-- The request's edit is in the staging file and in the handle's end of file. -/
def accounted : RequestPhase → Bool
  | .accounting _ _ => false
  | p => (placed p).isSome

/-- While the handle is open: the file is what the replies promise, unless a write failed. -/
structure Kept (f : StreamFile) : Prop where
  told : Reply.writeFailed ∉ f.replies → f.file = f.promised
  length : Reply.writeFailed ∉ f.replies → f.session.isSome = true ∨ f.streamEligible = true →
    f.file.length = f.endOf
  failed : f.uploadFailed = true → Reply.writeFailed ∈ f.replies ∨ Reply.resizeFailed ∈ f.replies
  dirty : (∃ edit, Reply.accepted edit ∈ f.replies) ∨ accounted f.phase = true → f.dirty = true
  uncommitted : f.commit = none

/-- A step that changes neither the file nor what was promised. -/
theorem Kept.congr (h : Kept f) (hfile : g.file = f.file) (hreplies : g.replies = f.replies)
    (hplaced : placed g.phase = placed f.phase) (hend : g.endOf = f.endOf)
    (hlive : g.session.isSome = true ∨ g.streamEligible = true →
      f.session.isSome = true ∨ f.streamEligible = true)
    (hfailed : g.uploadFailed = f.uploadFailed) (hdirty : g.dirty = f.dirty)
    (hacc : accounted g.phase = accounted f.phase) (hcommit : g.commit = f.commit) : Kept g where
  told := by
    unfold promised
    rw [hreplies, hfile, hplaced]
    exact h.told
  length := by
    rw [hreplies, hfile, hend]
    exact fun hno hl => h.length hno (hlive hl)
  failed := by
    rw [hfailed, hreplies]
    exact h.failed
  dirty := by
    rw [hreplies, hacc, hdirty]
    exact h.dirty
  uncommitted := by
    rw [hcommit]
    exact h.uncommitted

/-- Only accepted edits change what was promised. -/
theorem acceptedBytes_append (replies : List Reply) (r : Reply) :
    acceptedBytes (replies ++ [r]) = match r with
      | .accepted edit => edit.apply (acceptedBytes replies)
      | _ => acceptedBytes replies := by
  cases r <;> simp [acceptedBytes, List.foldl_append]

/-- No request is being served once its reply is out. -/
theorem promised_reply (r : Reply) :
    (f.reply r).promised = match r with
      | .accepted edit => edit.apply (acceptedBytes f.replies)
      | _ => acceptedBytes f.replies :=
  acceptedBytes_append f.replies r

/-- An edit that is placed counts as promised. -/
theorem promised_of_placed (h : placed f.phase = some edit) :
    f.promised = edit.apply (acceptedBytes f.replies) := by
  rw [promised, h]

/-- Without one the promise is what was accepted. -/
theorem promised_of_not_placed (h : placed f.phase = none) : f.promised = acceptedBytes f.replies := by
  rw [promised, h]

theorem mem_replies_reply (r : Reply) {r' : Reply} (h : r' ∈ f.replies) : r' ∈ (f.reply r).replies :=
  List.mem_append_left _ h

theorem self_mem_replies_reply (r : Reply) : r ∈ (f.reply r).replies :=
  List.mem_append_right _ (List.mem_singleton_self r)

/-- Another answer does not accept an edit. -/
theorem accepted_mem_replies (hr : ∀ edit, r ≠ .accepted edit)
    (h : Reply.accepted edit ∈ (f.reply r).replies) : Reply.accepted edit ∈ f.replies :=
  (List.mem_append.mp h).resolve_right fun heq => hr edit (List.mem_singleton.mp heq).symm

/-- Between requests the end of the file is the length that was counted. -/
theorem endOf_of_accounted (h : accounted f.phase = true ∨ placed f.phase = none) :
    f.endOf = f.totalWritten := by
  unfold endOf
  split
  · rename_i hp
    rw [hp] at h
    simp [accounted, placed] at h
  · rfl

/-- A request that has its edit in the file is served on. -/
theorem Kept.serve (h : Kept f) (hacc : accounted f.phase = true) (hfile : g.file = f.file)
    (htotal : g.totalWritten = f.totalWritten) (hreplies : g.replies = f.replies)
    (hplaced : placed g.phase = placed f.phase) (hacc' : accounted g.phase = true)
    (hlive : g.session.isSome = true ∨ g.streamEligible = true →
      f.session.isSome = true ∨ f.streamEligible = true)
    (hfailed : g.uploadFailed = f.uploadFailed) (hdirty : g.dirty = f.dirty)
    (hcommit : g.commit = f.commit) : Kept g :=
  h.congr hfile hreplies hplaced
    (by rw [endOf_of_accounted (.inl hacc), endOf_of_accounted (.inl hacc'), htotal]) hlive hfailed
    hdirty (by rw [hacc, hacc']) hcommit

/-- The request is answered: its edit is accepted. -/
theorem Kept.accept (h : Kept f) (hplaced : placed f.phase = some edit)
    (hacc : accounted f.phase = true) : Kept (f.reply (.accepted edit)) where
  told hno := by
    rw [promised_reply]
    exact (h.told fun hmem => hno (mem_replies_reply _ hmem)).trans (promised_of_placed hplaced)
  length hno hl := by
    have hold := h.length (fun hmem => hno (mem_replies_reply _ hmem)) hl
    rw [endOf_of_accounted (.inl hacc)] at hold
    exact hold
  failed hf := (h.failed hf).imp (mem_replies_reply _) (mem_replies_reply _)
  dirty _ := h.dirty (.inr hacc)
  uncommitted := h.uncommitted

/-- The request is answered without an edit. -/
theorem Kept.answer (h : Kept f) (hplaced : placed f.phase = none) {r : Reply}
    (hr : ∀ edit, r ≠ .accepted edit) : Kept (f.reply r) where
  told hno := by
    have hold := (h.told fun hmem => hno (mem_replies_reply r hmem)).trans (promised_of_not_placed hplaced)
    rw [promised_reply]
    cases r with
    | accepted edit => exact absurd rfl (hr edit)
    | _ => exact hold
  length hno hl := by
    have hold := h.length (fun hmem => hno (mem_replies_reply r hmem)) hl
    rw [endOf_of_accounted (.inr hplaced)] at hold
    exact hold
  failed hf := (h.failed hf).imp (mem_replies_reply r) (mem_replies_reply r)
  dirty := by
    rintro (⟨edit, hmem⟩ | hacc)
    · exact h.dirty (.inl ⟨edit, accepted_mem_replies hr hmem⟩)
    · exact absurd hacc Bool.false_ne_true
  uncommitted := h.uncommitted

/-- A write that fails promises nothing. -/
theorem kept_fault (hdirty : (∃ edit, Reply.accepted edit ∈ f.replies) → f.dirty = true)
    (hcommit : f.commit = none) : Kept (f.reply .writeFailed) where
  told hno := absurd (self_mem_replies_reply _) hno
  length hno := absurd (self_mem_replies_reply _) hno
  failed _ := .inl (self_mem_replies_reply _)
  dirty := by
    rintro (⟨edit, hmem⟩ | hacc)
    · exact hdirty ⟨edit, accepted_mem_replies (by simp) hmem⟩
    · exact absurd hacc Bool.false_ne_true
  uncommitted := hcommit

theorem Kept.failWrite (h : Kept f) : Kept f.failWrite :=
  kept_fault (fun he => h.dirty (.inl he)) h.uncommitted

/-- A write that is refused promises nothing; one that goes on is not placed yet. -/
theorem Kept.decideWrite (h : Kept f) (hp : f.phase = .idle) (off : Nat) (data : Bytes)
    (offline : Bool) : Kept (f.decideWrite off data offline) := by
  have hend : f.endOf = f.totalWritten := by simp [endOf, hp]
  unfold StreamFile.decideWrite
  split
  · exact h.answer (by rw [hp]; rfl) (by simp)
  dsimp only
  split
  · rename_i s hs
    split
    · exact h.congr rfl rfl (by rw [hp]; rfl) hend.symm id rfl rfl (by rw [hp]; rfl) rfl
    · exact h.congr rfl rfl (by rw [hp]; rfl) hend.symm (by simp) rfl rfl (by rw [hp]; rfl) rfl
    · exact h.failWrite
  · split
    · exact h.congr rfl rfl (by rw [hp]; rfl) hend.symm id rfl rfl (by rw [hp]; rfl) rfl
    · exact h.congr rfl rfl (by rw [hp]; rfl) hend.symm (fun hl => .inl (by simpa using hl)) rfl rfl
        (by rw [hp]; rfl) rfl

/-- A write placed off the streaming path is answered at once. -/
theorem Kept.placeWhole (h : Kept f) {off : Nat} {data : Bytes} (hplaced : placed f.phase = none)
    (hidle : f.session = none ∧ f.streamEligible = false)
    (hfile : g.file = f.file.writeAt off data) (hreplies : g.replies = f.replies)
    (hsession : g.session = f.session) (heligible : g.streamEligible = f.streamEligible)
    (hfailed : g.uploadFailed = f.uploadFailed) (hdirty : g.dirty = true)
    (hcommit : g.commit = f.commit) : Kept (g.reply (.accepted (.write off data))) where
  told hno := by
    have hno' : Reply.writeFailed ∉ f.replies := fun hmem => hno (mem_replies_reply _ (hreplies ▸ hmem))
    have hold := (h.told hno').trans (promised_of_not_placed hplaced)
    rw [promised_reply, hreplies, ← hold]
    exact hfile
  length _ hl := by
    simp only [reply, hsession, heligible, hidle.1, hidle.2] at hl
    simp at hl
  failed hf := by
    simp only [reply, hfailed, hreplies] at hf ⊢
    exact (h.failed hf).imp (fun hm => by simp [hm]) fun hm => by simp [hm]
  dirty _ := hdirty
  uncommitted := hcommit.trans h.uncommitted

/-- The placed edit is what the file now holds. -/
theorem Kept.place {off : Nat} {data : Bytes} {append : Option Bool} (h : Kept f) (hi : Inv c f)
    (hp : f.phase = .placing off data append) (io : StagingIo) :
    Kept (f.place off data append io) := by
  have hph := hi.phase
  unfold PhaseInv at hph
  rw [hp] at hph
  have hplaced : placed f.phase = none := by rw [hp]; rfl
  cases append with
  | some append =>
    -- a session or a handle that may stream
    obtain ⟨hoff, happend, heligible, -⟩ := hph
    -- a write that fails tells nothing
    cases io with
    | short n => exact kept_fault (fun he => h.dirty (.inl he)) h.uncommitted
    | failed n => exact kept_fault (fun he => h.dirty (.inl he)) h.uncommitted
    | complete =>
      have hlive : f.session.isSome = true ∨ f.streamEligible = true := by
        cases hs : f.session with
        | none => exact .inr (heligible hs)
        | some s => exact .inl rfl
      have hlength : Reply.writeFailed ∉ f.replies → f.file.length = f.totalWritten := by
        intro hno
        rw [h.length hno hlive, endOf_of_accounted (.inr hplaced)]
      -- The append goes to the end of the file, which is the offset of the write.
      have hwrite : Reply.writeFailed ∉ f.replies →
          placeBytes append f.file off data = f.file.writeAt off data := by
        intro hno
        refine Bytes.placeBytes_eq_writeAt data fun ha => ?_
        rw [happend, decide_eq_true_eq] at ha
        rw [ha, hlength hno]
      refine ⟨fun hno => ?_, fun hno _ => ?_, h.failed, ?_, h.uncommitted⟩
      · -- the file is what was told, with the write
        have hold := h.told hno
        unfold promised at hold ⊢
        rw [hplaced] at hold
        show placeBytes append f.file off data = (acceptedBytes f.replies).writeAt off data
        rw [hwrite hno, hold]
      · -- its length is the larger end
        show (placeBytes append f.file off data).length = max f.totalWritten (off + data.length)
        rw [hwrite hno, Bytes.length_writeAt, hlength hno]
        split
        · rename_i hempty
          rw [List.isEmpty_iff] at hempty
          rw [hempty, List.length_nil]
          omega
        · rfl
      · -- the write is not accounted for yet
        rintro (he | hacc)
        · exact h.dirty (.inl he)
        · exact absurd hacc Bool.false_ne_true
  | none =>
    -- a plain write is placed where it belongs
    cases io with
    | complete => exact h.placeWhole hplaced hph rfl rfl rfl rfl rfl rfl rfl
    | short n => exact h.placeWhole hplaced hph rfl rfl rfl rfl rfl rfl rfl
    | failed n => exact h.answer hplaced (by simp)

/-- The length that is counted is the file's. -/
theorem Kept.account {off : Nat} {data : Bytes} (h : Kept f)
    (hp : f.phase = .accounting off data) (threshold : Nat) :
    Kept (f.account c off data threshold) := by
  have hplaced : placed f.phase = some (.write off data) := by rw [hp]; rfl
  have hend : f.endOf = max f.totalWritten (off + data.length) := by simp [endOf, hp]
  -- The handle with the write accounted for, in any phase that serves it on.
  have hnext : ∀ p, placed p = some (.write off data) → accounted p = true →
      Kept { f with dirty := true, totalWritten := max f.totalWritten (off + data.length)
                    phase := p } := by
    intro p hpp hacc
    refine ⟨fun hno => ?_, fun hno hl => ?_, h.failed, fun _ => rfl, h.uncommitted⟩
    · -- the file is what was told and what is placed
      have hold := h.told hno
      unfold promised at hold ⊢
      rw [hplaced] at hold
      rw [hpp]
      exact hold
    · -- and its length the accounted one
      rw [endOf_of_accounted (.inl hacc)]
      exact (h.length hno hl).trans hend
  -- to be pressed, to open a session, or done
  unfold StreamFile.account
  dsimp only
  split
  · exact hnext _ rfl rfl
  · split
    · exact hnext _ rfl rfl
    · exact (hnext (.waiting (.write off data)) rfl rfl).accept rfl rfl

/-- Opening a session answers the write or leaves it to the pump. -/
theorem Kept.startStream (h : Kept f) (hi : Inv c f) (hp : f.phase = .opening edit)
    (base : Option String) (low : Bool) : Kept (f.startStream c edit base low) := by
  have hph := hi.phase
  unfold PhaseInv at hph
  rw [hp] at hph
  have hacc : accounted f.phase = true := by rw [hp]; rfl
  have hplaced : placed f.phase = some edit := by rw [hp]; rfl
  unfold StreamFile.startStream
  cases base with
  | none =>
    have hserved : Kept { f with streamEligible := false } :=
      h.serve hacc rfl rfl rfl rfl hacc (fun hl => .inl (by simpa using hl)) rfl rfl rfl
    exact hserved.accept hplaced hacc
  | some base =>
    dsimp only
    rw [if_pos (by simp [hph.1, hph.2.1])]
    exact h.serve hacc rfl rfl rfl hplaced.symm rfl (fun _ => .inr hph.2.1) rfl rfl rfl

/-- The session goes from one state to another while a request is served on. -/
theorem Kept.session (h : Kept f) (hacc : accounted f.phase = true) (hs : f.session = some s)
    (hfile : g.file = f.file) (htotal : g.totalWritten = f.totalWritten)
    (hreplies : g.replies = f.replies) (hplaced : placed g.phase = placed f.phase)
    (hacc' : accounted g.phase = true) (hfailed : g.uploadFailed = f.uploadFailed)
    (hdirty : g.dirty = f.dirty) (hcommit : g.commit = f.commit) : Kept g :=
  h.serve hacc hfile htotal hreplies hplaced hacc' (fun _ => .inl (by simp [hs])) hfailed hdirty
    hcommit

/-- Starting to punch leaves the request alone. -/
theorem Kept.press {due : Bool} (h : Kept f) (hp : f.phase = .pressing edit due)
    (hs : f.session = some s) (low freed : Bool) : Kept (f.press s edit due low freed) := by
  have hacc : accounted f.phase = true := by rw [hp]; rfl
  have hplaced : placed f.phase = some edit := by rw [hp]; rfl
  unfold StreamFile.press StreamFile.startPunching
  dsimp only
  split
  · split <;> exact h.session hacc hs rfl rfl rfl hplaced.symm rfl rfl rfl rfl
  · exact h.session hacc hs rfl rfl rfl hplaced.symm rfl rfl rfl rfl

/-- The kick leaves the request alone. -/
theorem Kept.kick (h : Kept f) (hp : f.phase = .kicking edit again) (hs : f.session = some s) :
    Kept (f.kick s edit again) := by
  have hacc : accounted f.phase = true := by rw [hp]; rfl
  have hplaced : placed f.phase = some edit := by rw [hp]; rfl
  unfold StreamFile.kick
  split
  · exact h.session hacc hs rfl rfl rfl hplaced.symm rfl rfl rfl rfl
  · split <;> exact h.session hacc hs rfl rfl rfl hplaced.symm rfl rfl rfl rfl

theorem Kept.submit (h : Kept f) (hp : f.phase = .submitting edit again) (hs : f.session = some s)
    (room : Bool) : Kept (f.submit s edit again room) := by
  have hacc : accounted f.phase = true := by rw [hp]; rfl
  have hplaced : placed f.phase = some edit := by rw [hp]; rfl
  unfold StreamFile.submit
  split <;> exact h.session hacc hs rfl rfl rfl hplaced.symm rfl rfl rfl rfl

/-- The answer accepts what was placed. -/
theorem Kept.kicked {queued : Bool} (h : Kept f) (hp : f.phase = .kicked edit again queued)
    (hs : f.session = some s) : Kept (f.kicked s edit again queued) := by
  have hacc : accounted f.phase = true := by rw [hp]; rfl
  have hplaced : placed f.phase = some edit := by rw [hp]; rfl
  unfold StreamFile.kicked
  split
  · exact h.accept hplaced hacc
  · cases queued <;> exact h.session hacc hs rfl rfl rfl hplaced.symm rfl rfl rfl rfl

/-- The end of the wait accepts the edit or fails it. -/
theorem Kept.check (h : Kept f) (hp : f.phase = .waiting edit) (hs : f.session = some s)
    (p : PumpState) : Kept (f.check c p edit) := by
  have hacc : accounted f.phase = true := by rw [hp]; rfl
  have hplaced : placed f.phase = some edit := by rw [hp]; rfl
  unfold StreamFile.check
  split
  · exact h.failWrite
  split
  · exact h.accept hplaced hacc
  · exact h.session hacc hs rfl rfl rfl hplaced.symm rfl rfl rfl rfl

theorem Kept.pause (h : Kept f) (hp : f.phase = .pausing edit) (hs : f.session = some s)
    (p : PumpState) (below : Bool) : Kept (f.pause c p edit below) := by
  have hacc : accounted f.phase = true := by rw [hp]; rfl
  have hplaced : placed f.phase = some edit := by rw [hp]; rfl
  unfold StreamFile.pause
  split
  · exact h.accept hplaced hacc
  split <;> exact h.session hacc hs rfl rfl rfl hplaced.symm rfl rfl rfl rfl

/-- A resize that is refused promises nothing. -/
theorem Kept.decideResize (h : Kept f) (hp : f.phase = .idle) (size : Nat) :
    Kept (f.decideResize size) := by
  have hplaced : placed f.phase = none := by rw [hp]; rfl
  have hend : f.endOf = f.totalWritten := endOf_of_accounted (.inr hplaced)
  unfold StreamFile.decideResize
  split
  · rename_i s hs
    split
    · -- A resize to the end of the file as it is.
      rename_i hsize
      refine ⟨fun hno => ?_, fun hno hl => ?_, fun hf => ?_, fun _ => rfl, h.uncommitted⟩
      · -- the file as it is has the size already
        have hno' : Reply.writeFailed ∉ f.replies := fun hm => hno (mem_replies_reply _ hm)
        have hold : f.file = acceptedBytes f.replies := (h.told hno').trans (promised_of_not_placed hplaced)
        have hlen := h.length hno' (.inl (by simp [hs]))
        rw [promised_reply]
        show f.file = (acceptedBytes f.replies).setLen size
        rw [← hold, hsize, ← hend, ← hlen, Bytes.setLen_length]
      · -- and its length stays
        have hno' : Reply.writeFailed ∉ f.replies := fun hm => hno (mem_replies_reply _ hm)
        exact (h.length hno' hl).trans hend
      · -- an error stays told
        exact (h.failed hf).imp (mem_replies_reply _) (mem_replies_reply _)
    split
    · refine ⟨fun hno => ?_, fun hno hl => ?_, fun _ => .inr (self_mem_replies_reply _), ?_, h.uncommitted⟩
      · rw [promised_reply]
        exact (h.told fun hm => hno (mem_replies_reply _ hm)).trans (promised_of_not_placed hplaced)
      · exact (h.length (fun hm => hno (mem_replies_reply _ hm)) hl).trans hend
      · rintro (⟨e, hm⟩ | hacc)
        · exact h.dirty (.inl ⟨e, accepted_mem_replies (by simp) hm⟩)
        · exact absurd hacc Bool.false_ne_true
    · exact h.congr rfl rfl hplaced.symm hend.symm (by simp) rfl rfl (by rw [hp]; rfl) rfl
  · rename_i hnone
    exact h.congr rfl rfl hplaced.symm hend.symm (fun hl => .inl (by simpa using hl)) rfl rfl
      (by rw [hp]; rfl) rfl

theorem Kept.closeDropped (h : Kept f) (hp : f.phase = .dropping edit) :
    Kept (f.closeDropped edit) := by
  have hplaced : placed f.phase = none := by rw [hp]; rfl
  have hend : f.endOf = f.totalWritten := endOf_of_accounted (.inr hplaced)
  cases edit <;> exact h.congr rfl rfl hplaced.symm hend.symm id rfl rfl (by rw [hp]; rfl) rfl

/-- A resize that goes through is placed at once and accepted. -/
theorem Kept.setLen {size : Nat} (h : Kept f) (hp : f.phase = .resizing size) (ok : Bool) :
    Kept (f.setLen size ok) := by
  have hplaced : placed f.phase = none := by rw [hp]; rfl
  unfold StreamFile.setLen
  split
  · refine ⟨fun hno => ?_, fun _ _ => ?_, fun hf => ?_, fun _ => rfl, h.uncommitted⟩
    · have hold := (h.told fun hm => hno (mem_replies_reply _ hm)).trans (promised_of_not_placed hplaced)
      rw [promised_reply]
      exact congrArg (·.setLen size) hold
    · show (f.file.setLen size).length = size
      simp only [Bytes.setLen, List.length_append, List.length_take, List.length_replicate]
      omega
    · exact (h.failed hf).imp (mem_replies_reply _) (mem_replies_reply _)
  · exact h.answer hplaced (by simp)

/-- A read is answered from what is there, or goes on. -/
theorem Kept.read (h : Kept f) (hp : f.phase = .idle) (off sz : Nat) : Kept (f.read off sz) := by
  have hplaced : placed f.phase = none := by rw [hp]; rfl
  have hend : f.endOf = f.totalWritten := endOf_of_accounted (.inr hplaced)
  unfold StreamFile.read
  split
  · exact h.answer hplaced (by simp)
  split
  · exact h
  split
  · exact h.answer hplaced (by simp)
  · exact h.congr rfl rfl hplaced.symm hend.symm id rfl rfl (by rw [hp]; rfl) rfl

theorem Kept.readBytes {off sz : Nat} (h : Kept f) (hp : f.phase = .reading off sz) (ok : Bool) :
    Kept (f.readBytes off sz ok) := by
  have hplaced : placed f.phase = none := by rw [hp]; rfl
  have hend : f.endOf = f.totalWritten := endOf_of_accounted (.inr hplaced)
  unfold StreamFile.readBytes
  split
  · exact h.congr rfl rfl hplaced.symm hend.symm id rfl rfl (by rw [hp]; rfl) rfl
  · exact h.answer hplaced (by simp)

theorem Kept.recheck {off sz : Nat} {bytes : Bytes} (h : Kept f)
    (hp : f.phase = .readBack off sz bytes) : Kept (f.recheck off sz bytes) := by
  have hplaced : placed f.phase = none := by rw [hp]; rfl
  unfold StreamFile.recheck
  split <;> exact h.answer hplaced (by simp)

theorem Kept.flush (h : Kept f) (hp : f.phase = .idle) : Kept f.flush := by
  have hplaced : placed f.phase = none := by rw [hp]; rfl
  unfold StreamFile.flush
  split <;> exact h.answer hplaced (by simp)

/-- A step beside the request. -/
theorem Kept.beside (h : Kept f) (hfile : g.file = f.file) (htotal : g.totalWritten = f.totalWritten)
    (hreplies : g.replies = f.replies) (hphase : g.phase = f.phase)
    (hsession : g.session.isSome = f.session.isSome)
    (heligible : g.streamEligible = f.streamEligible) (hfailed : g.uploadFailed = f.uploadFailed)
    (hdirty : g.dirty = f.dirty) (hcommit : g.commit = f.commit) : Kept g := by
  refine h.congr hfile hreplies (by rw [hphase]) ?_ ?_ hfailed hdirty (by rw [hphase]) hcommit
  · simp only [endOf, hphase, htotal]
  · rw [hsession, heligible]
    exact id

/-- What a step of the uploader leaves of the handle. -/
structure Beside (f g : StreamFile) : Prop where
  file : g.file = f.file
  totalWritten : g.totalWritten = f.totalWritten
  replies : g.replies = f.replies
  phase : g.phase = f.phase
  isSome : g.session.isSome = f.session.isSome
  streamEligible : g.streamEligible = f.streamEligible
  uploadFailed : g.uploadFailed = f.uploadFailed
  dirty : g.dirty = f.dirty
  commit : g.commit = f.commit
  ops : g.putOp = f.putOp ∧ ∀ s p, g.finishOp s p = f.finishOp s p
  session : ∀ t, g.session = some t → ∃ s, f.session = some s ∧ StreamSession.Frame s t

/-- A job's step answers no request and writes no byte of the file. -/
theorem jobStep_beside {slot : SessionSlot} {i : Nat} {e : JobEvent}
    (h : f.jobStep c slot i e = some g) : Beside f g := by
  unfold StreamFile.jobStep at h
  cases slot with
  | current =>
    dsimp only at h
    split at h
    · rename_i s hs
      rw [Option.map_eq_some_iff] at h
      obtain ⟨⟨t, staging'⟩, hran, rfl⟩ := h
      refine ⟨rfl, rfl, rfl, rfl, by simp [hs], rfl, rfl, rfl, rfl, ⟨rfl, fun _ _ => rfl⟩, ?_⟩
      rintro t' ⟨⟩
      exact ⟨s, hs, (StreamSession.jobStep_ran hran).frame⟩
    · cases h
  | dropped k =>
    dsimp only at h
    split at h
    · rw [Option.map_eq_some_iff] at h
      obtain ⟨⟨t, staging'⟩, -, rfl⟩ := h
      refine ⟨rfl, rfl, rfl, rfl, rfl, rfl, rfl, rfl, rfl, ⟨rfl, fun _ _ => rfl⟩, fun s hs => ?_⟩
      exact ⟨s, hs, rfl, rfl, rfl, rfl, rfl, fun _ => rfl, fun _ => rfl⟩
    · cases h

theorem Kept.of_beside (h : Kept f) (hb : Beside f g) : Kept g :=
  h.beside hb.file hb.totalWritten hb.replies hb.phase hb.isSome hb.streamEligible hb.uploadFailed
    hb.dirty hb.commit

/-- Every release ends the handle. -/
@[simp] theorem release_phase (f : StreamFile) (offline : Bool) :
    (f.release offline).phase = .released := by
  unfold StreamFile.release
  dsimp only
  repeat' split
  all_goals rfl

/-- Only the release ends the handle. -/
theorem step_open {e : StreamEvent} (h : f.step c e = some g) (hp : f.phase ≠ .released)
    (he : ∀ offline, e ≠ .release offline) : g.phase ≠ .released := by
  cases e with
  | job slot i e =>
    rw [(jobStep_beside h).phase]
    exact hp
  | release offline => exact absurd rfl (he offline)
  | closeDropped =>
    simp only [StreamFile.step, closeDropped] at h
    split at h <;> cases h
    dsimp only
    split <;> simp
  | kicked =>
    simp only [StreamFile.step, kicked, reply] at h
    repeat' split at h
    all_goals cases h <;> simp
  | _ =>
    simp only [StreamFile.step, decideWrite, place, account, startStream, press, freeze, thaw,
      decideResize, read, flush, claim, kick, submit, giveBack, runInline, check, pause, setLen,
      readBytes, recheck, failWrite, reply] at h
    repeat' split at h
    all_goals cases h <;> simp [hp]

/-- Every step before the release keeps what the replies promise. -/
theorem Kept.step {e : StreamEvent} (h : f.step c e = some g) (hi : Inv c f) (hk : Kept f)
    (he : ∀ offline, e ≠ .release offline) : Kept g := by
  cases e with
  | job slot i e => exact hk.of_beside (jobStep_beside h)
  | freeze =>
    simp only [StreamFile.step] at h
    split at h <;> cases h
    exact hk.beside rfl rfl rfl rfl (by simp [StreamFile.freeze]) rfl rfl rfl rfl
  | thaw =>
    simp only [StreamFile.step] at h
    split at h <;> cases h
    exact hk.beside rfl rfl rfl rfl (by simp [StreamFile.thaw]) rfl rfl rfl rfl
  | write off data offline =>
    simp only [StreamFile.step] at h
    split at h <;> cases h
    exact hk.decideWrite ‹_› off data offline
  | resize size =>
    simp only [StreamFile.step] at h
    split at h <;> cases h
    exact hk.decideResize ‹_› size
  | read off sz =>
    simp only [StreamFile.step] at h
    split at h <;> cases h
    exact hk.read ‹_› off sz
  | flush =>
    simp only [StreamFile.step] at h
    split at h <;> cases h
    exact hk.flush ‹_›
  | release offline => exact absurd rfl (he offline)
  | closeDropped =>
    simp only [StreamFile.step] at h
    split at h <;> cases h
    exact hk.closeDropped ‹_›
  | place io =>
    simp only [StreamFile.step] at h
    split at h <;> cases h
    exact hk.place hi ‹_› io
  | account threshold =>
    simp only [StreamFile.step] at h
    split at h <;> cases h
    exact hk.account ‹_› threshold
  | opened base low =>
    simp only [StreamFile.step] at h
    split at h <;> cases h
    exact hk.startStream hi ‹_› base low
  | press low freed =>
    simp only [StreamFile.step] at h
    split at h <;> cases h
    exact hk.press ‹_› ‹_› low freed
  | claim =>
    simp only [StreamFile.step] at h
    split at h <;> cases h
    rename_i hp hs
    -- a section that is only about the session tells nothing
    exact hk.session (by rw [hp]; rfl) hs rfl rfl rfl (by rw [hp]; rfl) rfl rfl rfl rfl
  | kick =>
    simp only [StreamFile.step] at h
    split at h <;> cases h
    exact hk.kick ‹_› ‹_›
  | submit room =>
    simp only [StreamFile.step] at h
    split at h <;> cases h
    exact hk.submit ‹_› ‹_› room
  | giveBack =>
    simp only [StreamFile.step] at h
    split at h <;> cases h
    rename_i hp hs
    exact hk.session (by rw [hp]; rfl) hs rfl rfl rfl (by rw [hp]; rfl) rfl rfl rfl rfl
  | kicked =>
    simp only [StreamFile.step] at h
    split at h <;> cases h
    exact hk.kicked ‹_› ‹_›
  | mark =>
    simp only [StreamFile.step] at h
    split at h <;> cases h
    rename_i hp hs
    exact hk.session (by rw [hp]; rfl) hs rfl rfl rfl (by rw [hp]; rfl) rfl rfl rfl rfl
  | resume =>
    simp only [StreamFile.step] at h
    split at h
    · -- the writer goes on as it was
      rename_i hp hs
      split at h <;> cases h
      exact hk.session (by rw [hp]; rfl) hs rfl rfl rfl (by rw [hp]; rfl) rfl rfl rfl rfl
    · cases h
  | check =>
    simp only [StreamFile.step] at h
    split at h <;> cases h
    exact hk.check ‹_› ‹_› _
  | pause below =>
    simp only [StreamFile.step] at h
    split at h <;> cases h
    exact hk.pause ‹_› ‹_› _ below
  | setLen ok =>
    simp only [StreamFile.step] at h
    split at h <;> cases h
    exact hk.setLen ‹_› ok
  | readBytes ok =>
    simp only [StreamFile.step] at h
    split at h <;> cases h
    exact hk.readBytes ‹_› ok
  | recheck =>
    simp only [StreamFile.step] at h
    split at h <;> cases h
    exact hk.recheck ‹_›

/-! ## What the release commits -/

/-- After the release: what was committed, and that something was unless an error was returned. -/
structure Done (f : StreamFile) : Prop where
  told : Reply.writeFailed ∉ f.replies → f.file = acceptedBytes f.replies
  length : Reply.writeFailed ∉ f.replies → f.session.isSome = true →
    f.file.length = f.totalWritten
  commit : ∀ op, f.commit = some op →
    (op = f.putOp ∧ ∀ s, f.session = some s → s.pump.punching = false) ∨
      ∃ s, f.session = some s ∧ s.pump.closed = true ∧ op = f.finishOp s s.pump
  commits : (∃ edit, Reply.accepted edit ∈ f.replies) → Reply.writeFailed ∉ f.replies →
    Reply.resizeFailed ∉ f.replies → Reply.commitFailed ∉ f.replies → f.commit.isSome = true

/-- The release commits a handle whose replies promise its file. -/
theorem Kept.release (h : Kept f) (hp : f.phase = .idle) (offline : Bool) :
    Done (f.release offline) := by
  have hplaced : placed f.phase = none := by rw [hp]; rfl
  have hend : f.endOf = f.totalWritten := endOf_of_accounted (.inr hplaced)
  have htold : Reply.writeFailed ∉ f.replies → f.file = acceptedBytes f.replies := fun hno =>
    (h.told hno).trans (promised_of_not_placed hplaced)
  have hlength : Reply.writeFailed ∉ f.replies → f.session.isSome = true →
      f.file.length = f.totalWritten := fun hno hs => (h.length hno (.inl hs)).trans hend
  unfold StreamFile.release
  dsimp only
  split
  · -- an upload that failed commits nothing, and an error was told
    rename_i hfailed
    refine ⟨htold, fun hno hs => hlength hno (by simpa using hs), ?_, fun _ hno hnr _ => ?_⟩
    · intro op hop
      exact absurd (h.uncommitted.symm.trans hop) (by simp)
    · exact absurd (h.failed hfailed) (by simp [hno, hnr])
  split
  · -- nothing was written, so nothing is committed
    rename_i hclean
    refine ⟨htold, hlength, ?_, fun hacc _ _ _ => ?_⟩
    · intro op hop
      exact absurd (h.uncommitted.symm.trans hop) (by simp)
    · have hdirty := h.dirty (.inl hacc)
      simp [hdirty] at hclean
  split
  · -- no session: the whole file is queued
    rename_i hnone
    refine ⟨htold, hlength, ?_, fun _ _ _ _ => rfl⟩
    rintro op ⟨⟩
    exact .inl ⟨rfl, fun s hs => absurd (hnone.symm.trans hs) (by simp)⟩
  · rename_i s hs
    have hsome : Reply.writeFailed ∉ f.replies → f.file.length = f.totalWritten :=
      fun hno => hlength hno (by simp [hs])
    -- a session: its end is queued, or the whole file, or the commit fails
    split
    · refine ⟨htold, fun hno _ => hsome hno, ?_, fun _ _ _ _ => rfl⟩
      rintro op ⟨⟩
      exact .inr ⟨_, rfl, rfl, rfl⟩
    · refine ⟨htold, fun hno _ => hsome hno, ?_, fun _ _ _ _ => rfl⟩
      rintro op ⟨⟩
      exact .inr ⟨_, rfl, rfl, rfl⟩
    · rename_i hpunch
      refine ⟨htold, fun hno _ => hsome hno, ?_, fun _ _ _ _ => rfl⟩
      rintro op ⟨⟩
      refine .inl ⟨rfl, ?_⟩
      -- a session that is not punching leaves the staging file whole
      rintro t ⟨⟩
      assumption
    · refine ⟨fun hno => ?_, fun hno _ => ?_, ?_, fun _ _ _ hnc => ?_⟩
      · have hno' : Reply.writeFailed ∉ f.replies := fun hm => hno (by simp [hm])
        rw [acceptedBytes_append]
        exact htold hno'
      · exact hsome fun hm => hno (by simp [hm])
      · intro op hop
        exact absurd (h.uncommitted.symm.trans hop) (by simp)
      · -- the failure was told
        exact absurd (by simp) hnc

/-- The uploader may still be running, but moves a closed session no more. -/
theorem Done.of_beside (h : Done f) (hb : Beside f g) : Done g where
  told := by rw [hb.replies, hb.file]; exact h.told
  length := by rw [hb.replies, hb.file, hb.isSome, hb.totalWritten]; exact h.length
  commit op hop := by
    rw [hb.commit] at hop
    rw [hb.ops.1]
    obtain ⟨rfl, hpunch⟩ | ⟨s, hs, hclosed, rfl⟩ := h.commit op hop
    · refine .inl ⟨rfl, fun t ht => ?_⟩
      obtain ⟨s, hs, hframe⟩ := hb.session t ht
      rw [hframe.punching]
      exact hpunch s hs
    · have hsome : g.session.isSome = true := by rw [hb.isSome, hs]; rfl
      obtain ⟨t, ht⟩ := Option.isSome_iff_exists.mp hsome
      obtain ⟨s', hs', hframe⟩ := hb.session t ht
      rw [hs] at hs'
      cases hs'
      refine .inr ⟨t, ht, hframe.closed.trans hclosed, ?_⟩
      rw [hb.ops.2]
      simp [finishOp, hframe.nextIndex hclosed, hframe.bytesConfirmed hclosed, hframe.punching,
        hframe.uploadsBase, hframe.head]
  commits := by rw [hb.replies, hb.commit]; exact h.commits

/-- After the release only the uploader moves. -/
theorem Done.step {e : StreamEvent} (h : f.step c e = some g) (hd : Done f)
    (hp : f.phase = .released) : Done g ∧ g.phase = .released := by
  cases e with
  | job slot i e =>
    have hb := jobStep_beside h
    exact ⟨hd.of_beside hb, hb.phase.trans hp⟩
  | _ => simp [StreamFile.step, hp] at h

/-- The queued upload stands for the bytes `b`. A finish is sent only when the staging file ends
    with the file, and one that kept the whole file may send it instead. -/
def Describes (f : StreamFile) (op : MutationOp) (b : Bytes) : Prop :=
  match op with
  | .put path staging _ => path = f.remotePath ∧ staging = f.writePath ∧ f.staging = b
  | .finishChunked path _ nextIndex bytesConfirmed totalLen tail _ _ head whole =>
    path = f.remotePath ∧ tail = f.writePath ∧ f.staging.length = totalLen ∧
      (∃ s, f.session = some s ∧ s.head = head ∧
        f.finishedBytes s nextIndex bytesConfirmed totalLen = b) ∧
      (whole = true → f.staging = b)
  | _ => False

/-- The chunks on the server are the file behind its head. -/
theorem flatMap_chunks {file : Bytes} {total : Nat} (hs : s.Sound c file total) :
    ∀ n, n < s.pump.nextIndex →
      (List.range n).flatMap (fun i => (s.chunks (i + 1)).getD []) = file.slice s.head (n * c.bytes) := by
  intro n
  induction n with
  | zero => simp [Bytes.slice]
  | succ n ih =>
    intro hn
    rw [List.range_succ, List.flatMap_append, ih (by omega), List.flatMap_singleton,
      hs.chunks (n + 1) (by omega) hn, Nat.add_sub_cancel, Option.getD_some, Bytes.slice_append,
      Nat.succ_mul]

/-- What a finished upload has put together is the file. -/
theorem finishedBytes_eq (hi : Inv c f) (hs : f.session = some s)
    (hlen : f.file.length = f.totalWritten) :
    f.finishedBytes s s.pump.nextIndex s.pump.bytesConfirmed f.totalWritten = f.file := by
  have hsound := hi.body.sound s hs
  have hholds := hi.body.holds s hs
  have hhead := hsound.head_le_confirmed
  have hclaim := hsound.confirmed_le_claimed
  have hwritten := hsound.written
  have hstart : f.staging.take s.head = f.file.take s.head := by
    have hslice : f.staging.slice 0 s.head = f.file.slice 0 s.head :=
      Bytes.slice_congr fun i _ hlt => hholds.bytes i (.inl (by omega))
    simpa [Bytes.slice] using hslice
  unfold finishedBytes
  rw [hstart, flatMap_chunks hsound _ (by have := hsound.first; omega), hholds.slice hhead,
    Bytes.take_append_slice, ← hsound.progress, Bytes.take_append_slice]
  rw [List.take_of_length_le]
  omega

/-- What was committed stands for the file. -/
theorem Done.describes (hd : Done f) (hi : Inv c f) (hno : Reply.writeFailed ∉ f.replies)
    {op : MutationOp} (hop : f.commit = some op) : f.Describes op (acceptedBytes f.replies) := by
  rw [← hd.told hno]
  obtain ⟨rfl, hpunch⟩ | ⟨s, hs, -, rfl⟩ := hd.commit op hop
  · refine ⟨rfl, rfl, ?_⟩
    cases hs : f.session with
    | none => exact hi.body.plain hs
    | some s => exact (hi.body.holds s hs).eq (hpunch s hs)
  · have hlen := hd.length hno (by simp [hs])
    refine ⟨rfl, rfl, (hi.body.holds s hs).length.trans hlen, ?_, ?_⟩
    · exact ⟨s, hs, rfl, finishedBytes_eq hi hs hlen⟩
    · intro hwhole
      exact (hi.body.holds s hs).eq (by simpa using hwhole)

/-! ## Whole runs -/

/-- A handle that starts with an empty staging file and may stream. -/
def start (remotePath writePath : PathBuf) (etag : Option String) (dirty stagedWhole : Bool) :
    StreamFile :=
  { remotePath := remotePath, writePath := writePath, originalEtag := etag, dirty := dirty
    stagedWhole := stagedWhole }

/-- The invariant with what was promised and what a finished upload holds. -/
structure Good (c : ChunkSize) (f : StreamFile) : Prop where
  inv : Inv c f
  kept : f.phase ≠ .released → Kept f
  done : f.phase = .released → Done f

theorem good_start (remotePath writePath : PathBuf) (etag : Option String)
    (dirty stagedWhole : Bool) : Good c (start remotePath writePath etag dirty stagedWhole) where
  inv := by
    refine ⟨⟨?_, ?_, fun _ => rfl, Nat.le_refl _, ?_, ?_, ?_, fun _ => rfl⟩, trivial⟩ <;> simp [start]
  kept _ := by
    refine ⟨fun _ => rfl, fun _ _ => rfl, ?_, ?_, rfl⟩
    · simp [start]
    · simp [start, accounted, placed]
  done h := by cases h

/-- The release turns what was promised into what is committed; before it every step keeps the
    promise, after it only the uploader moves. -/
theorem Good.step {e : StreamEvent} (h : f.step c e = some g) (hg : Good c f) : Good c g := by
  refine ⟨hg.inv.step h, ?_, ?_⟩ <;> by_cases hp : f.phase = .released
  · exact fun hopen => absurd ((hg.done hp).step h hp).2 hopen
  · intro hopen
    by_cases he : ∃ offline, e = .release offline
    · obtain ⟨offline, rfl⟩ := he
      simp only [StreamFile.step] at h
      split at h <;> cases h
      exact absurd (release_phase f offline) hopen
    · exact (hg.kept hp).step h hg.inv fun offline heq => he ⟨offline, heq⟩
  · exact fun _ => ((hg.done hp).step h hp).1
  · intro hrel
    by_cases he : ∃ offline, e = .release offline
    · obtain ⟨offline, rfl⟩ := he
      simp only [StreamFile.step] at h
      split at h <;> cases h
      exact (hg.kept hp).release ‹_› offline
    · exact absurd hrel (step_open h hp fun offline heq => he ⟨offline, heq⟩)

/-- Every run from a good state stays in good states. -/
theorem Good.steps (hg : Good c f) : ∀ es, f.steps c es = some g → Good c g := by
  intro es
  induction es generalizing f with
  | nil =>
    rintro ⟨⟩
    exact hg
  | cons e es ih =>
    intro h
    rw [StreamFile.steps, Option.bind_eq_some_iff] at h
    obtain ⟨f', hstep, hrest⟩ := h
    exact ih (hg.step hstep) hrest

/-- The runs of the uploader, of the handle's session and of those dropped. -/
def uploaders (f : StreamFile) : List Job :=
  (f.session.map StreamSession.jobs).getD [] ++ f.dropped.flatMap StreamSession.jobs

/-- At most one job of a session uploads at a time. -/
theorem Inv.uploaders_le (hi : Inv c f) : f.uploaders.length ≤ 1 := by
  unfold uploaders
  cases hs : f.session with
  | some s =>
    have hnil := hi.body.alone (by simp [hs])
    simpa [hnil] using (hi.body.sound s hs).single
  | none =>
    match hd : f.dropped with
    | [] => simp
    | [d] => simpa using (hi.body.dropped d (by simp [hd])).1
    | _ :: _ :: _ =>
      have hfew := hi.body.few
      simp [hd] at hfew

/-- The number of the next chunk counts those confirmed. -/
theorem Inv.nextIndex_eq (hi : Inv c f) (hs : f.session = some s) :
    s.pump.nextIndex = 1 + (s.pump.bytesConfirmed - s.head) / c.bytes := by
  have hsound := hi.body.sound s hs
  have hfirst := hsound.first
  rw [hsound.progress, Nat.add_sub_cancel_left, Nat.mul_div_cancel _ c.pos]
  omega

/-- In every state of every run of requests on a handle that starts empty, interleaved in any way
    with its uploader, hand-overs and everything they read from outside: the progress of its
    session is in order and counts chunks that hold the file's bytes; one uploader runs at most;
    the file is what the accepted writes and resizes describe, and what a release commits stands
    for exactly that, unless a write failed. -/
theorem streamed_file_as_written (c : ChunkSize) (remotePath writePath : PathBuf)
    (etag : Option String) (dirty stagedWhole : Bool) (es : List StreamEvent) (f : StreamFile)
    (h : (start remotePath writePath etag dirty stagedWhole).steps c es = some f) :
    (∀ s, f.session = some s →
      s.head ≤ s.pump.bytesConfirmed ∧ s.pump.bytesConfirmed ≤ s.pump.claimed ∧
      s.pump.claimed ≤ f.totalWritten ∧
      s.pump.nextIndex = 1 + (s.pump.bytesConfirmed - s.head) / c.bytes ∧
      ∀ i, 1 ≤ i → i < s.pump.nextIndex →
        s.chunks i = some (f.file.slice (s.head + (i - 1) * c.bytes) c.bytes)) ∧
    f.uploaders.length ≤ 1 ∧
    (Reply.writeFailed ∉ f.replies →
      (f.phase = .idle ∨ f.phase = .released → f.file = acceptedBytes f.replies) ∧
      (∀ op, f.commit = some op → f.Describes op (acceptedBytes f.replies)) ∧
      (f.phase = .released → (∃ edit, Reply.accepted edit ∈ f.replies) →
        Reply.resizeFailed ∉ f.replies → Reply.commitFailed ∉ f.replies →
        f.commit.isSome = true)) := by
  have hg := (good_start remotePath writePath etag dirty stagedWhole).steps es h
  refine ⟨fun s hs => ?_, hg.inv.uploaders_le, fun hno => ⟨?_, fun op hop => ?_, fun hrel hacc hnr hnc => ?_⟩⟩
  · -- the session: what the server has, and in which order
    have hsound := hg.inv.body.sound s hs
    exact ⟨hsound.head_le_confirmed, hsound.confirmed_le_claimed, hsound.written,
      hg.inv.nextIndex_eq hs, hsound.chunks⟩
  · rintro (hidle | hrel)
    · -- between two requests nothing is placed and not told
      have hold := (hg.kept (by simp [hidle])).told hno
      unfold promised at hold
      rwa [hidle] at hold
    · exact (hg.done hrel).told hno
  · -- what is committed was so by the release
    by_cases hrel : f.phase = .released
    · exact (hg.done hrel).describes hg.inv hno hop
    · exact absurd ((hg.kept hrel).uncommitted.symm.trans hop) (by simp)
  · exact (hg.done hrel).commits hacc hno hnr hnc

/-- Six bytes in chunks of two, streamed on a low disk: the third pair of bytes goes up while the
    file is open, and the finish stands for all six. -/
theorem streamed_in_three_chunks : ∃ f,
    (start ["f"] ["cache", "write_1"] none true true).steps ⟨2, by decide⟩
      [.write 0 [1, 2, 3, 4, 5, 6] false, .place .complete, .account 0, .opened (some "u") true,
       .press true true, .claim, .kick, .submit true, .kicked, .job .current 0 .look,
       .job .current 0 (.readChunk true), .job .current 0 .store, .job .current 0 (.answer none),
       .job .current 0 (.report true), .check, .release false] = some f ∧
      f.staging = [1, 2, 0, 0, 5, 6] ∧
      f.commit = some (.finishChunked ["f"] "u" 2 4 6 ["cache", "write_1"] none true 2 false) ∧
      f.Describes (.finishChunked ["f"] "u" 2 4 6 ["cache", "write_1"] none true 2 false)
        [1, 2, 3, 4, 5, 6] := by
  refine ⟨_, rfl, rfl, rfl, ?_⟩
  have hrun := streamed_file_as_written ⟨2, by decide⟩ ["f"] ["cache", "write_1"] none true true
    [.write 0 [1, 2, 3, 4, 5, 6] false, .place .complete, .account 0, .opened (some "u") true,
     .press true true, .claim, .kick, .submit true, .kicked, .job .current 0 .look,
     .job .current 0 (.readChunk true), .job .current 0 .store, .job .current 0 (.answer none),
     .job .current 0 (.report true), .check, .release false] _ rfl
  exact (hrun.2.2 (by decide)).2.1 _ rfl

end StreamFile

end Ncrs
