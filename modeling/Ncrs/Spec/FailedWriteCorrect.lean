import Ncrs.Spec.StreamUploadCorrect

/-!
# Writes that fail

A write to the staging file may fail after a part of its bytes. An append on the streaming path
goes to the end of the staging file, which is where the write belongs only as long as no failed
write has left bytes there: `append_to_tail_file` relies on it, and nothing checks it.

## Key results

- `Stands.accept`, `Stands.fail`: a write that lands where it belongs keeps a file to its log
- `Stood.step`: every step keeps the file to the log of the writes, if an append lands
- `failed_writes_leave_the_file`: so the successful writes are the file in every run
- `retried_append_lands_behind`: an append after a failed one lands behind its bytes
-/

namespace Ncrs

/-- A write that was answered: what was asked for, or what of it was reported as written. -/
structure Attempt where
  off : Nat
  data : Bytes
  accepted : Bool
  deriving DecidableEq, Repr

namespace Attempt

/-- The attempt asks for byte `i`. -/
def covers (a : Attempt) (i : Nat) : Bool := decide (a.off ≤ i) && decide (i < a.off + a.data.length)

/-- The file that exactly the successful writes make. -/
def applied (log : List Attempt) : Bytes :=
  log.foldl (fun b a => if a.accepted then b.writeAt a.off a.data else b) []

/-- The last write to byte `i` failed. -/
def lastFailed (log : List Attempt) (i : Nat) : Bool :=
  log.foldl (fun failed a => if a.covers i then !a.accepted else failed) false

/-- One more attempt is applied if it was accepted. -/
theorem applied_append (log : List Attempt) (a : Attempt) :
    applied (log ++ [a]) =
      if a.accepted then (applied log).writeAt a.off a.data else applied log := by
  simp [applied, List.foldl_append]

/-- And decides the bytes that it asks for. -/
theorem lastFailed_append (log : List Attempt) (a : Attempt) (i : Nat) :
    lastFailed (log ++ [a]) i = if a.covers i then !a.accepted else lastFailed log i := by
  simp [lastFailed, List.foldl_append]

/-- The attempt asks for nothing at `i`. -/
theorem covers_eq_false {a : Attempt} {i : Nat} :
    a.covers i = false ↔ i < a.off ∨ a.off + a.data.length ≤ i := by
  simp only [covers, Bool.and_eq_false_iff, decide_eq_false_iff_not]
  omega

/-- Behind all failed writes none was the last. -/
theorem lastFailed_of_behind {log : List Attempt} {i : Nat}
    (h : ∀ a ∈ log, a.accepted = false → a.off + a.data.length ≤ i) : lastFailed log i = false := by
  induction log using List.reverseRecOn with
  | nil => rfl
  | append_singleton log a ih =>
    have hold := ih fun b hb => h b (by simp [hb])
    rw [lastFailed_append]
    split
    · rename_i hcov
      cases hacc : a.accepted with
      | true => rfl
      | false =>
        have hend := h a (by simp) hacc
        rw [covers_eq_false.mpr (.inr hend)] at hcov
        cases hcov
    · exact hold

end Attempt

open Attempt

/-- A file is what the successful writes of a log make, but for bytes that a write failed to put
    there last. -/
structure Stands (log : List Attempt) (content : Bytes) : Prop where
  covered : (applied log).length ≤ content.length
  bytes : ∀ i, lastFailed log i = false → content[i]? = (applied log)[i]?

namespace Stands

variable {log : List Attempt} {content : Bytes} {off : Nat} {data : Bytes}

/-- Nothing has been written yet. -/
theorem start : Stands [] [] := ⟨Nat.le_refl _, fun _ _ => rfl⟩

/-- A byte that a write does not reach, unless it fills the gap before the write. -/
theorem getElem?_writeAt_outside {b : Bytes} {i : Nat} (h : i < off ∨ off + data.length ≤ i)
    (hin : i < off → i < b.length) : (b.writeAt off data)[i]? = b[i]? := by
  rw [Bytes.getElem?_writeAt]
  split
  · rfl
  split
  · rename_i hlt
    rw [if_pos (hin hlt)]
  · rw [if_neg (by omega)]

/-- Files that agree on a byte agree on it after the same write. -/
theorem getElem?_writeAt_congr {a b : Bytes} {i : Nat} (h : a[i]? = b[i]?) :
    (a.writeAt off data)[i]? = (b.writeAt off data)[i]? := by
  have hlen : i < a.length ↔ i < b.length := by
    rw [← Nat.not_le, ← Nat.not_le, ← List.getElem?_eq_none_iff, ← List.getElem?_eq_none_iff, h]
  simp only [Bytes.getElem?_writeAt, hlen, h]

/-- The bytes of a write are what was written, whatever was there. -/
theorem getElem?_writeAt_inside {a b : Bytes} {i : Nat} (hlo : off ≤ i)
    (hhi : i < off + data.length) : (a.writeAt off data)[i]? = (b.writeAt off data)[i]? := by
  have hne : data.isEmpty = false := by
    cases data with
    | nil => exact absurd hhi (by simp; omega)
    | cons _ _ => rfl
  simp only [Bytes.getElem?_writeAt, hne, if_neg (Nat.not_lt.mpr hlo), if_pos hhi,
    Bool.false_eq_true, if_false]

/-- A longer file stays longer when both are written to. -/
theorem length_writeAt_mono {a b : Bytes} (h : a.length ≤ b.length) :
    (a.writeAt off data).length ≤ (b.writeAt off data).length := by
  rw [Bytes.length_writeAt, Bytes.length_writeAt]
  split <;> omega

/-- A write that is accepted stands. -/
theorem accept (h : Stands log content) :
    Stands (log ++ [⟨off, data, true⟩]) (content.writeAt off data) where
  covered := by
    rw [applied_append, if_pos rfl]
    exact length_writeAt_mono h.covered
  bytes i hi := by
    rw [applied_append, if_pos rfl]
    rw [lastFailed_append] at hi
    split at hi
    · rename_i hcov
      simp only [covers, Bool.and_eq_true, decide_eq_true_eq] at hcov
      exact getElem?_writeAt_inside hcov.1 hcov.2
    · exact getElem?_writeAt_congr (h.bytes i hi)

/-- A write that fails may leave any part of its bytes. -/
theorem fail (h : Stands log content) {part : Bytes} (hoff : off ≤ content.length)
    (hpart : part.length ≤ data.length) :
    Stands (log ++ [⟨off, data, false⟩]) (content.writeAt off part) where
  covered := by
    rw [applied_append, if_neg (by simp)]
    refine Nat.le_trans h.covered ?_
    rw [Bytes.length_writeAt]
    split <;> omega
  bytes i hi := by
    rw [applied_append, if_neg (by simp)]
    rw [lastFailed_append] at hi
    split at hi
    · cases hi
    · rename_i hcov
      rw [Bool.not_eq_true, covers_eq_false] at hcov
      dsimp only at hcov
      rw [← h.bytes i hi]
      exact getElem?_writeAt_outside (by omega) (by omega)

/-- A write that fails before its first byte. -/
theorem refuse (h : Stands log content) : Stands (log ++ [⟨off, data, false⟩]) content where
  covered := by
    rw [applied_append, if_neg (by simp)]
    exact h.covered
  bytes i hi := by
    rw [applied_append, if_neg (by simp)]
    rw [lastFailed_append] at hi
    split at hi
    · cases hi
    · exact h.bytes i hi

/-- The file ends with a successful write, or within the range of one that failed. -/
theorem within (h : Stands log content) : content.length ≤ (applied log).length ∨
    ∃ a ∈ log, a.accepted = false ∧ content.length ≤ a.off + a.data.length := by
  by_contra hno
  simp only [not_or, not_exists, not_and, Nat.not_le] at hno
  obtain ⟨hlong, hbehind⟩ := hno
  have hlast := h.bytes (content.length - 1) <| lastFailed_of_behind fun a ha hacc => by
    have hend := hbehind a ha hacc
    omega
  rw [List.getElem?_eq_getElem (by omega), List.getElem?_eq_none (by omega)] at hlast
  cases hlast

end Stands

/-- The bytes a write to the staging file leaves there. -/
def StagingIo.landed (io : StagingIo) (data : Bytes) : Bytes :=
  match io with
  | .complete => data
  | .short n | .failed n => data.take n

/-- The steps of a request to set the size. -/
def StreamEvent.resizes : StreamEvent → Bool
  | .resize _ | .setLen _ => true
  | _ => false

namespace StreamFile

variable {c : ChunkSize} {f g : StreamFile} {log : List Attempt}

/-! ## The log of a run -/

/-- The write being served. -/
def writing : RequestPhase → Option (Nat × Bytes)
  | .placing off data _ => some (off, data)
  | p => match placed p with
    | some (.write off data) => some (off, data)
    | _ => none

/-- The write that is served in a step. -/
def asked (f : StreamFile) : StreamEvent → Option (Nat × Bytes)
  | .write off data _ => some (off, data)
  | _ => writing f.phase

/-- The write an answer given in a step is for. -/
def attempted (f : StreamFile) (e : StreamEvent) : Reply → Option Attempt
  | .accepted (.write off data) => some ⟨off, data, true⟩
  | .writeFailed => (f.asked e).map fun w => ⟨w.1, w.2, false⟩
  | _ => none

/-- The writes answered by a step from `f` to `g`. -/
def attempts (f : StreamFile) (e : StreamEvent) (g : StreamFile) : List Attempt :=
  (g.replies.drop f.replies.length).filterMap (f.attempted e)

/-- The writes answered in a run. -/
def history (c : ChunkSize) (f : StreamFile) : List StreamEvent → List Attempt
  | [] => []
  | e :: es => match f.step c e with
    | some g => f.attempts e g ++ g.history c es
    | none => []

/-- An append finds the staging file ending at its offset, or leaves no byte there. -/
def appendLands (f : StreamFile) (e : StreamEvent) : Bool :=
  match e, f.phase with
  | .place io, .placing off data (some true) =>
    decide (f.staging.length = off) || (io.landed data).isEmpty
  | _, _ => true

/-- Every append of a run does. -/
def appendsLand (c : ChunkSize) (f : StreamFile) : List StreamEvent → Bool
  | [] => true
  | e :: es => f.appendLands e && match f.step c e with
    | some g => g.appendsLand c es
    | none => true

/-! ## The file follows the log -/

/-- The file stands for its log; a write that is placed but not answered may still turn out
    either way. -/
def Stood (log : List Attempt) (f : StreamFile) : Prop :=
  match placed f.phase with
  | some (.write off data) =>
    Stands (log ++ [⟨off, data, true⟩]) f.file ∧ Stands (log ++ [⟨off, data, false⟩]) f.file
  | _ => Stands log f.file

/-- With no bytes placed the file stands by itself. -/
theorem Stood.of_none (h : Stood log f) (hp : placed f.phase = none) : Stands log f.file := by
  unfold Stood at h
  rwa [hp] at h

/-- And the other way round. -/
theorem stood_of_none (h : Stands log f.file) (hp : placed f.phase = none) : Stood log f := by
  unfold Stood
  rwa [hp]

/-- What a step that places nothing does with the request: it serves it on, or answers it. -/
inductive Served (f g : StreamFile) : Prop
  | on (hreplies : g.replies = f.replies) (hplaced : placed g.phase = placed f.phase)
  | accepted {edit : Edit} (hreplies : g.replies = f.replies ++ [.accepted edit])
      (hidle : placed g.phase = none) (hplaced : placed f.phase = some edit)
  | failed (hreplies : g.replies = f.replies ++ [.writeFailed]) (hidle : placed g.phase = none)
  | other {r : Reply} (hreplies : g.replies = f.replies ++ [r]) (hidle : placed g.phase = none)
      (hplaced : placed f.phase = none) (hacc : ∀ edit, r ≠ .accepted edit)
      (hfail : r ≠ .writeFailed)

/-- A step that answers nothing attempts nothing. -/
theorem attempts_on {e : StreamEvent} (h : g.replies = f.replies) : f.attempts e g = [] := by
  simp [attempts, h]

/-- A step that answers attempts what it answers. -/
theorem attempts_answered {e : StreamEvent} {r : Reply} (h : g.replies = f.replies ++ [r]) :
    f.attempts e g = (f.attempted e r).toList := by
  unfold attempts
  rw [h, List.drop_left]
  cases hr : f.attempted e r <;> simp [hr]

/-! ### What each operation answers -/

section Operations

variable {s : StreamSession} {edit : Edit}

/-- A write that is decided has placed no bytes yet. -/
theorem decideWrite_served (hp : placed f.phase = none) (off : Nat) (data : Bytes) (offline : Bool) :
    (f.decideWrite off data offline).file = f.file ∧ Served f (f.decideWrite off data offline) := by
  unfold decideWrite
  split
  · exact ⟨rfl, .failed rfl rfl⟩
  dsimp only
  split
  · split
    · exact ⟨rfl, .on rfl hp.symm⟩
    · exact ⟨rfl, .on rfl hp.symm⟩
    · -- a streamed upload that refuses the offset
      exact ⟨rfl, .failed rfl rfl⟩
  · split <;> exact ⟨rfl, .on rfl hp.symm⟩

/-- A read places none. -/
theorem read_served (hp : placed f.phase = none) (off sz : Nat) :
    (f.read off sz).file = f.file ∧ Served f (f.read off sz) := by
  unfold StreamFile.read
  split
  · exact ⟨rfl, .other rfl rfl hp (by simp) (by simp)⟩
  split
  · exact ⟨rfl, .on rfl rfl⟩
  split
  · exact ⟨rfl, .other rfl rfl hp (by simp) (by simp)⟩
  · exact ⟨rfl, .on rfl hp.symm⟩

/-- Nor does reading its bytes. -/
theorem readBytes_served (hp : placed f.phase = none) (off sz : Nat) (ok : Bool) :
    (f.readBytes off sz ok).file = f.file ∧ Served f (f.readBytes off sz ok) := by
  unfold StreamFile.readBytes
  split
  · exact ⟨rfl, .on rfl hp.symm⟩
  · exact ⟨rfl, .other rfl rfl hp (by simp) (by simp)⟩

/-- Nor checking them. -/
theorem recheck_served (hp : placed f.phase = none) (off sz : Nat) (bytes : Bytes) :
    (f.recheck off sz bytes).file = f.file ∧ Served f (f.recheck off sz bytes) := by
  unfold StreamFile.recheck
  split <;> exact ⟨rfl, .other rfl rfl hp (by simp) (by simp)⟩

/-- Nor a flush. -/
theorem flush_served (hp : placed f.phase = none) : f.flush.file = f.file ∧ Served f f.flush := by
  unfold StreamFile.flush
  split <;> exact ⟨rfl, .other rfl rfl hp (by simp) (by simp)⟩

/-- A release is answered only where its upload cannot be queued. -/
theorem release_served (hp : placed f.phase = none) (offline : Bool) :
    (f.release offline).file = f.file ∧ Served f (f.release offline) := by
  have hidle : placed (f.release offline).phase = none := by rw [release_phase]; rfl
  have hon : placed (f.release offline).phase = placed f.phase := hidle.trans hp.symm
  revert hidle hon
  unfold StreamFile.release
  dsimp only
  split
  · exact fun _ hon => ⟨rfl, .on rfl hon⟩
  split
  · exact fun _ hon => ⟨rfl, .on rfl hon⟩
  split
  · exact fun _ hon => ⟨rfl, .on rfl hon⟩
  split
  · exact fun _ hon => ⟨rfl, .on rfl hon⟩
  · exact fun _ hon => ⟨rfl, .on rfl hon⟩
  · exact fun _ hon => ⟨rfl, .on rfl hon⟩
  · exact fun hidle _ => ⟨rfl, .other rfl hidle hp (by simp) (by simp)⟩

/-! A write that is placed is answered by the first of these steps that has nothing left to do. -/

/-- A write is accounted for with its bytes in place. -/
theorem account_served {off : Nat} {data : Bytes} (hp : placed f.phase = some (.write off data))
    (threshold : Nat) :
    (f.account c off data threshold).file = f.file ∧ Served f (f.account c off data threshold) := by
  unfold StreamFile.account
  dsimp only
  split
  · exact ⟨rfl, .on rfl hp.symm⟩
  split
  · exact ⟨rfl, .on rfl hp.symm⟩
  · exact ⟨rfl, .accepted rfl rfl hp⟩

/-- A stream is started with them in place. -/
theorem startStream_served (hp : placed f.phase = some edit) (base : Option String) (low : Bool) :
    (f.startStream c edit base low).file = f.file ∧ Served f (f.startStream c edit base low) := by
  unfold StreamFile.startStream
  split
  · exact ⟨rfl, .accepted rfl rfl hp⟩
  dsimp only
  split
  · exact ⟨rfl, .on rfl hp.symm⟩
  · exact ⟨rfl, .accepted rfl rfl hp⟩

/-- The disk may be full. -/
theorem press_served (hp : placed f.phase = some edit) (due low freed : Bool) :
    (f.press s edit due low freed).file = f.file ∧ Served f (f.press s edit due low freed) := by
  unfold StreamFile.press StreamFile.startPunching
  dsimp only
  split
  · split <;> exact ⟨rfl, .on rfl hp.symm⟩
  · exact ⟨rfl, .on rfl hp.symm⟩

/-- The uploader is woken. -/
theorem kick_served (hp : placed f.phase = some edit) (again : Bool) :
    (f.kick s edit again).file = f.file ∧ Served f (f.kick s edit again) := by
  unfold StreamFile.kick
  split
  · exact ⟨rfl, .on rfl hp.symm⟩
  · split <;> exact ⟨rfl, .on rfl hp.symm⟩

/-- Its chunk is submitted. -/
theorem submit_served (hp : placed f.phase = some edit) (again room : Bool) :
    (f.submit s edit again room).file = f.file ∧ Served f (f.submit s edit again room) := by
  unfold StreamFile.submit
  split <;> exact ⟨rfl, .on rfl hp.symm⟩

/-- The wake is over. -/
theorem kicked_served (hp : placed f.phase = some edit) (again queued : Bool) :
    (f.kicked s edit again queued).file = f.file ∧ Served f (f.kicked s edit again queued) := by
  unfold StreamFile.kicked
  split
  · exact ⟨rfl, .accepted rfl rfl hp⟩
  · cases queued <;> exact ⟨rfl, .on rfl hp.symm⟩

/-- The write is checked against the uploader. -/
theorem check_served (hp : placed f.phase = some edit) (p : PumpState) :
    (f.check c p edit).file = f.file ∧ Served f (f.check c p edit) := by
  unfold StreamFile.check
  split
  · exact ⟨rfl, .failed rfl rfl⟩
  split
  · exact ⟨rfl, .accepted rfl rfl hp⟩
  · exact ⟨rfl, .on rfl hp.symm⟩

/-- And waits for it. -/
theorem pause_served (hp : placed f.phase = some edit) (p : PumpState) (below : Bool) :
    (f.pause c p edit below).file = f.file ∧ Served f (f.pause c p edit below) := by
  unfold StreamFile.pause
  split
  · exact ⟨rfl, .accepted rfl rfl hp⟩
  · split <;> exact ⟨rfl, .on rfl hp.symm⟩

end Operations

/-- What every step but the write to the staging file does, while no size is set. -/
theorem step_served {e : StreamEvent} (h : f.step c e = some g) (hplace : ∀ io, e ≠ .place io)
    (hres : e.resizes = false) : g.file = f.file ∧ Served f g := by
  cases e with
  | place io => exact absurd rfl (hplace io)
  | resize size => cases hres
  | setLen ok => cases hres
  | job slot i e =>
    -- what the uploader's jobs do beside the request
    have hb := jobStep_beside h
    exact ⟨hb.file, .on hb.replies (by rw [hb.phase])⟩
  | freeze =>
    simp only [StreamFile.step] at h
    split at h <;> cases h
    exact ⟨rfl, .on rfl rfl⟩
  | thaw =>
    simp only [StreamFile.step] at h
    split at h <;> cases h
    exact ⟨rfl, .on rfl rfl⟩
  -- requests that come in while none is served
  | write off data offline =>
    simp only [StreamFile.step] at h
    split at h <;> cases h
    rename_i hp
    exact decideWrite_served (by rw [hp]; rfl) off data offline
  | read off sz =>
    simp only [StreamFile.step] at h
    split at h <;> cases h
    rename_i hp
    exact read_served (by rw [hp]; rfl) off sz
  | flush =>
    simp only [StreamFile.step] at h
    split at h <;> cases h
    rename_i hp
    exact flush_served (by rw [hp]; rfl)
  | release offline =>
    simp only [StreamFile.step] at h
    split at h <;> cases h
    rename_i hp
    exact release_served (by rw [hp]; rfl) offline
  -- the sections of a read
  | readBytes ok =>
    simp only [StreamFile.step] at h
    split at h <;> cases h
    rename_i off sz hp
    exact readBytes_served (by rw [hp]; rfl) off sz ok
  | recheck =>
    simp only [StreamFile.step] at h
    split at h <;> cases h
    rename_i off sz bytes hp
    exact recheck_served (by rw [hp]; rfl) off sz bytes
  -- the sections of a write or a resize
  | closeDropped =>
    simp only [StreamFile.step] at h
    split at h <;> cases h
    rename_i edit hp
    refine ⟨rfl, .on rfl ?_⟩
    cases edit <;> (rw [hp]; rfl)
  | account threshold =>
    simp only [StreamFile.step] at h
    split at h <;> cases h
    rename_i off data hp
    exact account_served (by rw [hp]; rfl) threshold
  | opened base low =>
    simp only [StreamFile.step] at h
    split at h <;> cases h
    rename_i edit hp
    exact startStream_served (by rw [hp]; rfl) base low
  | press low freed =>
    simp only [StreamFile.step] at h
    split at h <;> cases h
    rename_i edit due s hp hs
    exact press_served (by rw [hp]; rfl) due low freed
  | claim =>
    simp only [StreamFile.step] at h
    split at h <;> cases h
    rename_i edit due s hp hs
    exact ⟨rfl, .on rfl (by rw [hp]; rfl)⟩
  | kick =>
    simp only [StreamFile.step] at h
    split at h <;> cases h
    rename_i edit again s hp hs
    exact kick_served (by rw [hp]; rfl) again
  | submit room =>
    simp only [StreamFile.step] at h
    split at h <;> cases h
    rename_i edit again s hp hs
    exact submit_served (by rw [hp]; rfl) again room
  | giveBack =>
    simp only [StreamFile.step] at h
    split at h <;> cases h
    rename_i edit again s hp hs
    exact ⟨rfl, .on rfl (by rw [hp]; rfl)⟩
  | kicked =>
    simp only [StreamFile.step] at h
    split at h <;> cases h
    rename_i edit again queued s hp hs
    exact kicked_served (by rw [hp]; rfl) again queued
  | mark =>
    simp only [StreamFile.step] at h
    split at h <;> cases h
    rename_i edit s hp hs
    exact ⟨rfl, .on rfl (by rw [hp]; rfl)⟩
  | resume =>
    simp only [StreamFile.step] at h
    split at h
    · rename_i edit s hp hs
      split at h <;> cases h
      exact ⟨rfl, .on rfl (by rw [hp]; rfl)⟩
    · cases h
  | check =>
    simp only [StreamFile.step] at h
    split at h <;> cases h
    rename_i edit s hp hs
    exact check_served (by rw [hp]; rfl) s.pump
  | pause below =>
    simp only [StreamFile.step] at h
    split at h <;> cases h
    rename_i edit s hp hs
    exact pause_served (by rw [hp]; rfl) s.pump below

/-- The answer to a write that is placed is for that write. -/
theorem asked_of_placed {e : StreamEvent} {off : Nat} {data : Bytes} (h : f.step c e = some g)
    (hp : placed f.phase = some (.write off data)) : f.asked e = some (off, data) := by
  have hwriting : writing f.phase = some (off, data) := by
    revert hp
    cases f.phase with
    | placing _ _ _ => exact fun hp => by cases hp
    | _ =>
      intro hp
      simp only [writing, hp]
  cases e with
  | write off' data' offline =>
    simp only [StreamFile.step] at h
    split at h <;> cases h
    rename_i hidle
    rw [hidle] at hp
    cases hp
  | _ => exact hwriting

/-- A step that leaves the bytes alone keeps what stands, with what it answers. -/
theorem Stood.serve {e : StreamEvent} (h : Stood log f) (hstep : f.step c e = some g)
    (hfile : g.file = f.file) (hs : Served f g) : Stood (log ++ f.attempts e g) g := by
  cases hs with
  | on hreplies hplaced =>
    rw [attempts_on hreplies, List.append_nil]
    unfold Stood at h ⊢
    rwa [hplaced, hfile]
  | @accepted edit hreplies hidle hplaced =>
    -- the write is answered: its bytes have been in place since
    refine stood_of_none ?_ hidle
    rw [attempts_answered hreplies, hfile]
    unfold Stood at h
    rw [hplaced] at h
    cases edit with
    | write off data => exact h.1
    | resize size => simpa [attempted] using h
  | failed hreplies hidle =>
    -- it failed: with bytes in place, or before any were
    refine stood_of_none ?_ hidle
    rw [attempts_answered hreplies, hfile, attempted]
    unfold Stood at h
    split at h
    · rename_i off data hp
      rw [asked_of_placed hstep hp]
      exact h.2
    · cases f.asked e with
      | none => simpa using h
      | some w => exact h.refuse
  | @other r hreplies hidle hplaced hacc hfail =>
    -- an answer to something else than a write
    refine stood_of_none ?_ hidle
    have hnone : f.attempts e g = [] := by
      rw [attempts_answered hreplies]
      cases r with
      | accepted edit => exact absurd rfl (hacc edit)
      | writeFailed => exact absurd rfl hfail
      | _ => rfl
    rw [hnone, List.append_nil, hfile]
    exact h.of_none hplaced

/-- The staging file is as long as the file. -/
theorem Inv.staging_length (hi : Inv c f) : f.staging.length = f.file.length := by
  cases hs : f.session with
  | none => rw [hi.body.plain hs]
  | some s => exact (hi.body.holds s hs).length

/-- What lands in the file is the write's, at its offset. -/
theorem placeBytes_landed {off : Nat} {data : Bytes} {append : Bool} {io : StagingIo}
    (hi : Inv c f) (hp : f.phase = .placing off data (some append))
    (hland : f.appendLands (.place io) = true) :
    placeBytes append f.file off (io.landed data) = f.file.writeAt off (io.landed data) := by
  cases append with
  | false => rfl
  | true =>
    simp only [appendLands, hp, Bool.or_eq_true, decide_eq_true_eq, List.isEmpty_iff] at hland
    obtain hend | hnil := hland
    · exact Bytes.placeBytes_eq_writeAt _ fun _ => by rw [← hi.staging_length, hend]
    · rw [hnil]
      simp [placeBytes, Bytes.writeAt]

/-- Placing the bytes of a write keeps what stands, if an append lands where it is asked for. -/
theorem Stood.place {off : Nat} {data : Bytes} {append : Option Bool} (h : Stood log f)
    (hi : Inv c f) (hp : f.phase = .placing off data append) {io : StagingIo}
    (hland : f.appendLands (.place io) = true) :
    Stood (log ++ f.attempts (.place io) (f.place off data append io))
      (f.place off data append io) := by
  have hold : Stands log f.file := h.of_none (by rw [hp]; rfl)
  have hasked : f.asked (.place io) = some (off, data) := by simp [asked, hp, writing]
  have hph := hi.phase
  unfold PhaseInv at hph
  rw [hp] at hph
  -- the file is streamed: the bytes go into the tail, and part of them may stay after a failure
  cases append with
  | some append =>
    have hoff : off ≤ f.file.length := Nat.le_trans hph.1 hi.body.written
    have hput := placeBytes_landed hi hp hland
    have hfail : ∀ n, Stands (log ++ [⟨off, data, false⟩]) (f.file.writeAt off (data.take n)) :=
      fun n => hold.fail hoff (by rw [List.length_take]; omega)
    cases io with
    | complete =>
      rw [show f.attempts _ (f.place off data (some append) .complete) = [] from attempts_on rfl,
        List.append_nil]
      show Stands _ (placeBytes append f.file off data) ∧ Stands _ (placeBytes append f.file off data)
      rw [show placeBytes append f.file off data = f.file.writeAt off data from hput]
      exact ⟨hold.accept, hold.fail hoff (Nat.le_refl _)⟩
    | short n =>
      rw [attempts_answered (r := .writeFailed) rfl, attempted, hasked]
      refine stood_of_none ?_ rfl
      show Stands _ (placeBytes append f.file off (data.take n))
      rw [show placeBytes append f.file off (data.take n) = f.file.writeAt off (data.take n) from hput]
      exact hfail n
    | failed n =>
      rw [attempts_answered (r := .writeFailed) rfl, attempted, hasked]
      refine stood_of_none ?_ rfl
      show Stands _ (placeBytes append f.file off (data.take n))
      rw [show placeBytes append f.file off (data.take n) = f.file.writeAt off (data.take n) from hput]
      exact hfail n
  | none =>
    -- the file is a staging file: what was written is answered, a failure wrote nothing
    cases io with
    | complete =>
      rw [attempts_answered (r := .accepted (.write off data)) rfl]
      exact stood_of_none hold.accept rfl
    | short n =>
      rw [attempts_answered (r := .accepted (.write off (data.take n))) rfl]
      exact stood_of_none hold.accept rfl
    | failed n =>
      rw [attempts_answered (r := .writeFailed) rfl, attempted, hasked]
      exact stood_of_none hold.refuse rfl

/-- One step: the write to the staging file lands where it belongs, everything else leaves the
    file. -/
theorem Stood.step {e : StreamEvent} (h : Stood log f) (hi : Inv c f) (hstep : f.step c e = some g)
    (hres : e.resizes = false) (hland : f.appendLands e = true) :
    Stood (log ++ f.attempts e g) g := by
  by_cases hplace : ∃ io, e = .place io
  · obtain ⟨io, rfl⟩ := hplace
    simp only [StreamFile.step] at hstep
    split at hstep <;> cases hstep
    rename_i off data append hp
    exact h.place hi hp hland
  · have hno : ∀ io, e ≠ .place io := fun io heq => hplace ⟨io, heq⟩
    obtain ⟨hfile, hserved⟩ := step_served hstep hno hres
    exact h.serve hstep hfile hserved

/-- A run that resizes nothing, and whose appends land, keeps what stands. -/
theorem Stood.steps (h : Stood log f) (hg : Good c f) : ∀ es, f.steps c es = some g →
    (∀ e ∈ es, e.resizes = false) → f.appendsLand c es = true → Stood (log ++ f.history c es) g := by
  intro es
  induction es generalizing f log with
  | nil =>
    rintro ⟨⟩ - -
    rw [history, List.append_nil]
    exact h
  | cons e es ih =>
    intro hrun hres hland
    rw [StreamFile.steps, Option.bind_eq_some_iff] at hrun
    obtain ⟨f', hstep, hrest⟩ := hrun
    rw [appendsLand, hstep, Bool.and_eq_true] at hland
    have hnext := h.step hg.inv hstep (hres e (by simp)) hland.1
    rw [history, hstep, ← List.append_assoc]
    exact ih hnext (hg.step hstep) hrest (fun e he => hres e (by simp [he])) hland.2

/-- Staged: the staging file is the file, but for chunks that were punched out and are on the
    server. -/
structure HoldsFile (c : ChunkSize) (f : StreamFile) : Prop where
  whole : (∀ s, f.session = some s → s.pump.punching = false) → f.staging = f.file
  held : ∀ s, f.session = some s → s.Holds f.staging f.file
  sent : ∀ s, f.session = some s → ∀ i, 1 ≤ i → i < s.pump.nextIndex →
    s.chunks i = some (f.file.slice (s.head + (i - 1) * c.bytes) c.bytes)

/-- What a handle reads is its file. -/
theorem Inv.holdsFile (hi : Inv c f) : HoldsFile c f where
  whole hp := by
    cases hs : f.session with
    | none => exact hi.body.plain hs
    | some s => exact (hi.body.holds s hs).eq (hp s hs)
  held := hi.body.holds
  sent s hs := (hi.body.sound s hs).chunks

/-- In every run of writes of which any may fail after any part of its bytes, interleaved in any
    way with the uploader: if every append finds the staging file ending at its offset, then
    between requests and after the release what is staged is what exactly the successful writes
    make, but for bytes that a write failed to put there last, and it ends with a successful write
    or within the range of one that failed. -/
theorem failed_writes_leave_the_file (c : ChunkSize) (remotePath writePath : PathBuf)
    (etag : Option String) (dirty stagedWhole : Bool) (es : List StreamEvent) (f : StreamFile)
    (hrun : (start remotePath writePath etag dirty stagedWhole).steps c es = some f)
    (hres : ∀ e ∈ es, e.resizes = false)
    (hland : (start remotePath writePath etag dirty stagedWhole).appendsLand c es = true)
    (hp : f.phase = .idle ∨ f.phase = .released) :
    let log := (start remotePath writePath etag dirty stagedWhole).history c es
    HoldsFile c f ∧
      (∀ i, lastFailed log i = false → f.file[i]? = (applied log)[i]?) ∧
      (applied log).length ≤ f.file.length ∧
      (f.file.length ≤ (applied log).length ∨
        ∃ a ∈ log, a.accepted = false ∧ f.file.length ≤ a.off + a.data.length) := by
  intro log
  have hgood := good_start (c := c) remotePath writePath etag dirty stagedWhole
  have hstood : Stood [] (start remotePath writePath etag dirty stagedWhole) := Stands.start
  have hend := hstood.steps hgood es hrun hres hland
  have hplaced : placed f.phase = none := by
    obtain hp | hp := hp <;> (rw [hp]; rfl)
  have hstands : Stands log f.file := hend.of_none hplaced
  exact ⟨(hgood.steps es hrun).inv.holdsFile, hstands.bytes, hstands.covered, hstands.within⟩

/-- A write back into the file fails after one of its two bytes, and an append after it lands. -/
theorem append_after_failed_overwrite : ∃ f,
    (start ["f"] ["cache", "write_1"] none true true).steps ⟨2, by decide⟩
      [.write 0 [1, 2, 3] false, .place .complete, .account 100, .write 0 [7, 8] false,
       .place (.failed 1), .write 3 [4] false, .place .complete, .account 100,
       .release false] = some f ∧
      f.commit.isSome = true ∧ f.staging = [7, 2, 3, 4] ∧ f.file.length ≤ 4 := by
  refine ⟨_, rfl, rfl, rfl, ?_⟩
  have hrun := failed_writes_leave_the_file ⟨2, by decide⟩ ["f"] ["cache", "write_1"] none true true
    [.write 0 [1, 2, 3] false, .place .complete, .account 100, .write 0 [7, 8] false,
     .place (.failed 1), .write 3 [4] false, .place .complete, .account 100,
     .release false] _ rfl (by decide) (by decide) (.inr rfl)
  obtain h | ⟨a, ha, -, h⟩ := hrun.2.2.2
  · exact h
  · exact Nat.le_trans h (by revert a; decide)

/-- Three bytes are written; an append of three more fails after one of them, as on a full disk,
    and is tried again. It lands behind the byte the failed one left, so the released file has
    seven bytes, and the last of the accepted ones are not at their offset. -/
theorem retried_append_lands_behind : ∃ f,
    (start ["f"] ["cache", "write_1"] none true true).steps ⟨2, by decide⟩
      [.write 0 [1, 2, 3] false, .place .complete, .account 100, .write 3 [4, 5, 6] false,
       .place (.failed 1), .write 3 [4, 5, 6] false, .place .complete, .account 100,
       .release false] = some f ∧
      f.commit = some (.put ["f"] ["cache", "write_1"] none) ∧
      f.replies = [.accepted (.write 0 [1, 2, 3]), .writeFailed, .accepted (.write 3 [4, 5, 6])] ∧
      applied ((start ["f"] ["cache", "write_1"] none true true).history ⟨2, by decide⟩
        [.write 0 [1, 2, 3] false, .place .complete, .account 100, .write 3 [4, 5, 6] false,
         .place (.failed 1), .write 3 [4, 5, 6] false, .place .complete, .account 100,
         .release false]) = [1, 2, 3, 4, 5, 6] ∧
      f.staging = [1, 2, 3, 4, 4, 5, 6] := by
  exact ⟨_, rfl, rfl, rfl, rfl, rfl⟩

end StreamFile

end Ncrs
