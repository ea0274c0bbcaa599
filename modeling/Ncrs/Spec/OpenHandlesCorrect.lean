import Ncrs.Native.OpenHandles
import Ncrs.Spec.StreamUploadCorrect

/-!
# A resize that was accepted takes effect

What an accepted resize promises is followed through a run: the bytes of the file before it, cut or
extended, until the next write or resize. The promise is kept where the resize reached a handle whose
staging file is the file, and no other handle with unsaved writes is released after that handle.

## Key results

- `StreamFile.Resizing.step`: a resize that is served ends with its promise kept, or refused.
- `StreamFile.Stands.step`: no request but a write, a resize or the release touches it.
- `StreamFile.Stands.committedBytes`: the release commits what was promised.
- `Watched.resize_takes_effect`: all of it, over whole runs.
-/

namespace Ncrs

/-- The uploader confirms chunks and takes none back. -/
theorem StreamSession.Ran.bytesConfirmed_le {c : ChunkSize} {s t : StreamSession}
    {staging staging' : Bytes} {i : Nat}
    (h : StreamSession.Ran c s staging i t staging') : s.pump.bytesConfirmed ≤ t.pump.bytesConfirmed := by
  cases h <;> simp [StreamSession.endJob, StreamSession.setJob]

namespace StreamFile

variable {c : ChunkSize} {f g : StreamFile} {b : Bytes} {size : Nat}

/-! ## One handle -/

/-- Only the release commits. -/
theorem step_commit {e : StreamEvent} (h : f.step c e = some g) (he : ∀ offline, e ≠ .release offline) :
    g.commit = f.commit := by
  cases e with
  | job slot i e => exact (jobStep_beside h).commit
  | release offline => exact absurd rfl (he offline)
  | closeDropped =>
    simp only [StreamFile.step, closeDropped] at h
    split at h <;> cases h
    rfl
  | kicked =>
    simp only [StreamFile.step, kicked, reply] at h
    repeat' split at h
    all_goals cases h <;> rfl
  | press low freed =>
    simp only [StreamFile.step, press, startPunching] at h
    repeat' split at h
    all_goals cases h <;> rfl
  | _ =>
    simp only [StreamFile.step, decideWrite, place, account, startStream, freeze, thaw,
      decideResize, read, flush, claim, kick, submit, giveBack, runInline, check, pause, setLen,
      readBytes, recheck, failWrite, reply] at h
    repeat' split at h
    all_goals cases h <;> rfl

/-- What the staging file still holds is the file. -/
theorem Inv.slice_of_covers (hi : Inv c f) {off sz : Nat} (h : heldCovers f.session off sz = true) :
    f.staging.slice off sz = f.file.slice off sz := by
  cases hs : f.session with
  | none => rw [hi.body.plain hs]
  | some s =>
    have hholds := hi.body.holds s hs
    cases hp : s.pump.punching with
    | false => rw [hholds.eq hp]
    | true =>
      simp only [heldCovers, hs, hp, if_true, Bool.or_eq_true, decide_eq_true_eq] at h
      refine Bytes.slice_congr fun i hlo hhi => hholds.bytes i ?_
      rw [if_pos hp]
      omega

/-- The handle holds what an accepted resize promised, and no edit is being made to it. -/
structure Stands (f : StreamFile) (b : Bytes) : Prop where
  usable : f.usable = true
  file : f.file = b
  length : f.session.isSome = true → f.file.length = f.totalWritten
  phase : f.phase = .idle ∨ (∃ off sz, f.phase = .reading off sz) ∨ ∃ off sz bytes,
    f.phase = .readBack off sz bytes
  read : ∀ off sz bytes, f.phase = .readBack off sz bytes → heldCovers f.session off sz = true →
    bytes = b.slice off sz

/-- The uploader only takes from what the staging file holds. -/
theorem covers_of_jobStep {slot : SessionSlot} {i : Nat} {e : JobEvent} (h : f.jobStep c slot i e = some g)
    {off sz : Nat} (hc : heldCovers g.session off sz = true) : heldCovers f.session off sz = true := by
  unfold StreamFile.jobStep at h
  cases slot with
  | current =>
    dsimp only at h
    split at h
    · rename_i s hs
      rw [Option.map_eq_some_iff] at h
      obtain ⟨⟨t, staging'⟩, hstep, rfl⟩ := h
      have hran := StreamSession.jobStep_ran hstep
      have hframe := hran.frame
      have hle := hran.bytesConfirmed_le
      simp only [heldCovers, hs, hframe.punching, hframe.head] at hc ⊢
      by_cases hp : s.pump.punching = true
      · simp only [if_pos hp, Bool.or_eq_true, decide_eq_true_eq] at hc ⊢
        omega
      · rw [if_neg hp]
    · cases h
  | dropped k =>
    dsimp only at h
    split at h
    · rw [Option.map_eq_some_iff] at h
      obtain ⟨r, -, rfl⟩ := h
      exact hc
    · cases h

/-- Freezing covers no less. -/
theorem covers_freeze {off sz : Nat} (h : heldCovers f.freeze.session off sz = true) :
    heldCovers f.session off sz = true := by
  cases hs : f.session with
  | none => rfl
  | some s =>
    simp only [freeze, hs, Option.map_some, heldCovers] at h ⊢
    cases hp : s.pump.punching <;> simp_all [PumpState.freeze]

/-- Nor does thawing. -/
theorem covers_thaw {off sz : Nat} (h : heldCovers f.thaw.session off sz = true) :
    heldCovers f.session off sz = true := by
  cases hs : f.session with
  | none => rfl
  | some s =>
    simp only [thaw, hs, Option.map_some, heldCovers, PumpState.thaw] at h ⊢
    split at h <;> split at h <;> simp_all

/-- A step beside the reads of the handle. -/
theorem Stands.beside (hs : Stands f b) (husable : g.usable = f.usable) (hfile : g.file = f.file)
    (htotal : g.totalWritten = f.totalWritten) (hsome : g.session.isSome = f.session.isSome)
    (hphase : g.phase = f.phase)
    (hcovers : ∀ off sz, heldCovers g.session off sz = true → heldCovers f.session off sz = true) :
    Stands g b where
  usable := husable.trans hs.usable
  file := hfile.trans hs.file
  length := by rw [hsome, hfile, htotal]; exact hs.length
  phase := by rw [hphase]; exact hs.phase
  read off sz bytes hp hc := hs.read off sz bytes (hphase.symm.trans hp) (hcovers off sz hc)

/-- A read or a flush that is answered, or a read that was started. -/
theorem Stands.serve (hs : Stands f b) (r : Reply) : Stands (f.reply r) b where
  usable := hs.usable
  file := hs.file
  length := hs.length
  phase := .inl rfl
  read off sz bytes hp := by cases hp

/-- Requests other than a write, a resize and the release leave the promise as it is. -/
theorem Stands.step (hs : Stands f b) (hi : Inv c f) {e : StreamEvent} (h : f.step c e = some g)
    (hw : e.isWrite = false) (hr : e.isResize = false) (hrel : ∀ offline, e ≠ .release offline) :
    Stands g b := by
  cases e with
  | write off data offline => cases hw
  | resize size => cases hr
  | release offline => exact absurd rfl (hrel offline)
  | job slot i e =>
    -- what the uploader does beside the handle
    have hb := jobStep_beside h
    exact hs.beside (by simp [StreamFile.usable, hb.dirty, hb.uploadFailed]) hb.file hb.totalWritten
      hb.isSome hb.phase
      fun _ _ => covers_of_jobStep h
  | freeze =>
    simp only [StreamFile.step] at h
    split at h <;> cases h
    exact hs.beside rfl rfl rfl Option.isSome_map rfl fun _ _ => covers_freeze
  | thaw =>
    simp only [StreamFile.step] at h
    split at h <;> cases h
    exact hs.beside rfl rfl rfl Option.isSome_map rfl fun _ _ => covers_thaw
  | read off sz =>
    simp only [StreamFile.step] at h
    split at h <;> cases h
    unfold StreamFile.read
    split
    · exact hs.serve _
    split
    · exact hs
    split
    · exact hs.serve _
    · -- the read goes on to the staging file
      exact ⟨hs.usable, hs.file, hs.length, .inr (.inl ⟨off, sz, rfl⟩), fun _ _ _ hp => by cases hp⟩
  | flush =>
    simp only [StreamFile.step] at h
    split at h <;> cases h
    unfold StreamFile.flush
    split <;> exact hs.serve _
  | readBytes ok =>
    simp only [StreamFile.step] at h
    split at h <;> cases h
    rename_i off sz hp
    unfold StreamFile.readBytes
    split
    · -- the bytes that were read are the file's
      refine ⟨hs.usable, hs.file, hs.length, .inr (.inr ⟨off, sz, _, rfl⟩), ?_⟩
      rintro off' sz' bytes ⟨⟩ hc
      rw [← hs.file]
      exact hi.slice_of_covers hc
    · exact hs.serve _
  | recheck =>
    simp only [StreamFile.step] at h
    split at h <;> cases h
    unfold StreamFile.recheck
    split <;> exact hs.serve _
  -- no other event can come while nothing is written
  | _ => rcases hs.phase with hp | ⟨off, sz, hp⟩ | ⟨off, sz, bytes, hp⟩ <;> simp [StreamFile.step, hp] at h

/-- The release queues the promised bytes, unless it answers that it cannot. -/
theorem Stands.committedBytes (hs : Stands f b) (hi : Inv c f) (offline : Bool) :
    (f.release offline).committedBytes = some b ∨
      (f.release offline).replies.getLast? = some .commitFailed := by
  have husable := hs.usable
  simp only [StreamFile.usable, Bool.and_eq_true, Bool.not_eq_true'] at husable
  unfold StreamFile.release
  dsimp only
  rw [if_neg (by simp [husable.2]), if_neg (by simp [husable.1])]
  split
  · rename_i hnone
    left
    rw [← hs.file, ← hi.body.plain hnone]
    rfl
  · rename_i s hsome
    have hfinish : f.finishedBytes s s.pump.nextIndex s.pump.bytesConfirmed f.totalWritten = b := by
      rw [finishedBytes_eq hi hsome (hs.length (by simp [hsome])), hs.file]
    split
    · exact .inl (congrArg some hfinish)
    · exact .inl (congrArg some hfinish)
    · left
      have hpunch : s.pump.close.punching = false := by assumption
      have heq := (hi.body.holds s hsome).eq hpunch
      rw [← hs.file, ← heq]
      rfl
    · exact .inr (by simp)

/-- A handle without unsaved writes, or a failed one, commits nothing. -/
theorem committedBytes_of_not_usable (hu : f.usable = false) (hc : f.commit = none) (offline : Bool) :
    (f.release offline).committedBytes = none := by
  unfold StreamFile.release
  dsimp only
  split
  · simp [StreamFile.committedBytes, hc]
  · rename_i hok
    rw [if_pos (by simpa [usable, hok] using hu)]
    simp [StreamFile.committedBytes, hc]

/-! ## A resize being served -/

/-- The resize of a handle that holds `old` is under way. -/
structure Resizing (f : StreamFile) (size : Nat) (old : Bytes) : Prop where
  ok : f.uploadFailed = false
  file : f.file.setLen size = old.setLen size
  session : f.session = none
  phase : f.phase = .dropping (.resize size) ∨ f.phase = .resizing size

/-- The resize was answered, and if it was accepted it stands. -/
def Answered (f : StreamFile) (size : Nat) (old : Bytes) : Prop :=
  f.phase = .idle ∧ (f.replies.getLast? = some (.accepted (.resize size)) → Stands f (old.setLen size))

/-- A resize is decided: it is carried out or refused. -/
theorem resizing_decideResize {old : Bytes} (hok : f.uploadFailed = false)
    (hfile : f.file.setLen size = old.setLen size)
    (hlen : f.session.isSome = true → size = f.totalWritten → f.file.length = size) :
    Resizing (f.decideResize size) size old ∨ Answered (f.decideResize size) size old := by
  unfold StreamFile.decideResize
  split
  · rename_i s hs
    split
    · -- nothing is cut: the file is as long as that already
      rename_i hsize
      have hlength := hlen (by simp [hs]) hsize
      refine .inr ⟨rfl, fun _ => ⟨by simp [usable, reply, hok], ?_, fun _ => ?_, .inl rfl, ?_⟩⟩
      · show f.file = old.setLen size
        rw [← hfile, ← hlength, Bytes.setLen_length]
      · exact hlength.trans hsize
      · rintro off sz bytes ⟨⟩
    split
    · exact .inr ⟨rfl, by simp [reply]⟩
    · exact .inl ⟨hok, hfile, rfl, .inl rfl⟩
  · rename_i hs
    exact .inl ⟨hok, hfile, hs, .inr rfl⟩

/-- A resize goes on until it is answered. -/
theorem Resizing.step {old : Bytes} (hz : Resizing f size old) {e : StreamEvent} (h : f.step c e = some g) :
    Resizing g size old ∨ Answered g size old := by
  cases e with
  | job slot i e =>
    have hb := jobStep_beside h
    have hnone : g.session = none := by
      have hsome := hb.isSome
      rw [hz.session] at hsome
      simpa using hsome
    exact .inl ⟨hb.uploadFailed.trans hz.ok, by rw [hb.file]; exact hz.file, hnone,
      by rw [hb.phase]; exact hz.phase⟩
  | freeze | thaw =>
    simp only [StreamFile.step] at h
    split at h <;> cases h
    exact .inl ⟨hz.ok, hz.file, by simp [freeze, thaw, hz.session], hz.phase⟩
  | closeDropped =>
    rcases hz.phase with hp | hp <;> simp only [StreamFile.step, hp] at h <;> cases h
    exact .inl ⟨hz.ok, hz.file, hz.session, .inr rfl⟩
  | setLen ok =>
    rcases hz.phase with hp | hp <;> simp only [StreamFile.step, hp] at h <;> cases h
    unfold StreamFile.setLen
    split
    · refine .inr ⟨rfl, fun _ => ⟨by simp [usable, reply, hz.ok], ?_, ?_, .inl rfl, ?_⟩⟩
      · exact hz.file
      · intro hsome
        simp [reply, hz.session] at hsome
      · rintro off sz bytes ⟨⟩
    · exact .inr ⟨rfl, by simp [reply]⟩
  | _ => rcases hz.phase with hp | hp <;> simp [StreamFile.step, hp] at h

end StreamFile

/-! ## The table of handles -/

namespace OpenHandles

variable {w : OpenHandles} {k h : Nat} {g : StreamFile}

@[simp] theorem set_handles_self : (w.set k g).handles k = some g := by simp [set]

theorem set_handles_ne (hk : h ≠ k) : (w.set k g).handles h = w.handles h := by simp [set, hk]

@[simp] theorem set_nextFh : (w.set k g).nextFh = w.nextFh := rfl

@[simp] theorem set_current : (w.set k g).current = w.current := rfl

@[simp] theorem close_handles_self : (w.close k g).handles k = none := by simp [close]

theorem close_handles_ne (hk : h ≠ k) : (w.close k g).handles h = w.handles h := by simp [close, hk]

@[simp] theorem close_nextFh : (w.close k g).nextFh = w.nextFh := rfl

theorem close_current : (w.close k g).current = g.committedBytes.getD w.current := rfl

/-- A request on a handle: a read answered from another copy, or a step of the handle. -/
theorem step_request {c : ChunkSize} {w' : OpenHandles} {e : StreamEvent}
    (h : w.step c (.request k e) = some w') :
    ∃ f, w.handles k = some f ∧ e.isResize = false ∧
      ((w' = w ∧ ∃ off sz, e = .read off sz) ∨
        ∃ g, f.step c e = some g ∧ w' = if g.phase = .released then w.close k g else w.set k g) := by
  simp only [OpenHandles.step] at h
  split at h
  · cases h
  rename_i f hf
  split_ifs at h with hserved helsewhere
  · refine ⟨f, hf, by cases hr : e.isResize <;> simp_all, .inl ⟨(Option.some.inj h).symm, ?_⟩⟩
    cases e with
    | read off sz => exact ⟨off, sz, rfl⟩
    | _ => simp at helsewhere
  · rw [Option.map_eq_some_iff] at h
    obtain ⟨g, hg, rfl⟩ := h
    exact ⟨f, hf, by cases hr : e.isResize <;> simp_all, .inr ⟨g, hg, rfl⟩⟩

end OpenHandles

/-! ## Whole runs -/

/-- A run with what its resizes promise: the one being served (handle, size and the content before it), and
the last one accepted (handle and bytes), until the next write or resize. -/
structure Watched where
  files : OpenHandles
  request : Option (Nat × Nat × Bytes) := none
  standing : Option (Nat × Bytes) := none

namespace Watched

/-- The resize being served may have been answered. -/
def settle (t : Watched) : Watched :=
  match t.request with
  | none => t
  | some (fh, size, old) =>
    match t.files.handles fh with
    | none => { t with request := none }
    | some f =>
      if f.phase = .idle then
        { t with
          request := none
          standing := if f.replies.getLast? = some (.accepted (.resize size)) then some (fh, old.setLen size)
            else none }
      else t

/-- The release of the handle answers that its upload cannot be queued: nothing will land. -/
def commitLost (t : Watched) (fh : Nat) (e : StreamEvent) : Bool :=
  match e, t.files.handles fh with
  | .release offline, some f =>
    t.standing.any (·.1 = fh) && decide ((f.release offline).replies.getLast? = some .commitFailed)
  | _, _ => false

/-- What is noted of an event: the request that was made, or the answer that stands. -/
def note (t : Watched) (w : OpenHandles) : HandleEvent → Watched
  | .open truncating _ _ _ =>
    if truncating then { files := w, standing := some (t.files.nextFh, []) } else { t with files := w }
  | .setattr fh size => settle { files := w, request := fh.map fun fh => (fh, size, t.files.content) }
  | .request fh e =>
    if e.isWrite then { files := w }
    else if t.commitLost fh e then settle { t with files := w, standing := none }
    else settle { t with files := w }

/-- One event, with what is noted of it. -/
def step (c : ChunkSize) (t : Watched) (e : HandleEvent) : Option Watched :=
  (t.files.step c e).map fun w => t.note w e

/-- A resize reaches an open handle that has not failed and whose bytes are the file's content, as far as
the size; with an upload under way and the size being its end, the file ends there. And no handle with
unsaved writes is released after the handle of the last resize. -/
def Meets (t : Watched) : HandleEvent → Prop
  | .open .. => True
  | .setattr fh size => ∃ k f, fh = some k ∧ t.files.handles k = some f ∧ f.uploadFailed = false ∧
      f.file.setLen size = t.files.content.setLen size ∧
        (f.session.isSome = true → size = f.totalWritten → f.file.length = size)
  | .request k (.release _) => ∀ f h b, t.files.handles k = some f → f.usable = true →
      t.standing = some (h, b) → h = k ∨ (t.files.handles h).isSome = true
  | .request .. => True

/-- The bytes promised through handle `h` are in it, and once it is closed they are what is committed. -/
def Kept (w : OpenHandles) (h : Nat) (b : Bytes) : Prop :=
  h < w.nextFh ∧ (∀ f, w.handles h = some f → f.Stands b) ∧ (w.handles h = none → w.current = b)

/-- What holds between any two steps of a run. -/
structure Ok (c : ChunkSize) (t : Watched) : Prop where
  handle : ∀ fh f, t.files.handles fh = some f →
    StreamFile.Inv c f ∧ f.commit = none ∧ f.phase ≠ .released ∧ fh < t.files.nextFh
  request : ∀ fh size old, t.request = some (fh, size, old) →
    t.standing = none ∧ ∃ f, t.files.handles fh = some f ∧ f.Resizing size old
  standing : ∀ h b, t.standing = some (h, b) → Kept t.files h b

variable {c : ChunkSize} {t t' : Watched}

/-- A resize that is being served keeps the handle busy. -/
theorem Resizing_not_idle {f : StreamFile} {size : Nat} {old : Bytes} (h : f.Resizing size old) :
    f.phase ≠ .idle := by
  rcases h.phase with hp | hp <;> simp [hp]

/-- Among quiet handles none is busy. -/
theorem quiet_idle {w : OpenHandles} (hq : w.quiet = true) {fh : Nat} {f : StreamFile} (hlt : fh < w.nextFh)
    (hf : w.handles fh = some f) : f.phase = .idle := by
  simp only [OpenHandles.quiet, List.all_eq_true, List.mem_range] at hq
  simpa [hf] using hq fh hlt

/-- No resize is being served when the handles are quiet. -/
theorem Ok.request_none (ho : Ok c t) (hq : t.files.quiet = true) : t.request = none := by
  cases hr : t.request with
  | none => rfl
  | some r =>
    obtain ⟨fh, size, old⟩ := r
    obtain ⟨-, f, hf, hz⟩ := ho.request fh size old hr
    exact absurd (quiet_idle hq (ho.handle fh f hf).2.2.2 hf) (Resizing_not_idle hz)

/-- Without a request nothing has to be settled. -/
theorem settle_of_none (h : t.request = none) : t.settle = t := by
  simp [settle, h]

/-- A resize that is still being served is not settled. -/
theorem settle_of_resizing {fh size : Nat} {old : Bytes} {f : StreamFile} (h : t.request = some (fh, size, old))
    (hf : t.files.handles fh = some f) (hz : f.Resizing size old) : t.settle = t := by
  simp [settle, h, hf, Resizing_not_idle hz]

/-- A settled watch is settled. -/
theorem Ok.settle_eq (ho : Ok c t) : t.settle = t := by
  cases hr : t.request with
  | none => exact settle_of_none hr
  | some r =>
    obtain ⟨fh, size, old⟩ := r
    obtain ⟨-, f, hf, hz⟩ := ho.request fh size old hr
    exact settle_of_resizing hr hf hz

/-- Another handle may change. -/
theorem Kept.set {w : OpenHandles} {h k : Nat} {b : Bytes} {g : StreamFile} (hk : Kept w h b)
    (hg : h = k → g.Stands b) : Kept (w.set k g) h b := by
  obtain ⟨hlt, hstands, hcurrent⟩ := hk
  by_cases hhk : h = k
  · subst hhk
    refine ⟨hlt, fun f hf => ?_, fun hnone => by simp at hnone⟩
    rw [OpenHandles.set_handles_self, Option.some.injEq] at hf
    exact hf ▸ hg rfl
  · rw [Kept, OpenHandles.set_handles_ne hhk]
    exact ⟨hlt, hstands, hcurrent⟩

/-- One handle goes on, and the resize that it may be serving is served on or answered. -/
theorem Ok.set (ho : Ok c t) {k : Nat} {f g : StreamFile} (hf : t.files.handles k = some f)
    (hg : StreamFile.Inv c g ∧ g.commit = none ∧ g.phase ≠ .released)
    {request : Option (Nat × Nat × Bytes)} {standing : Option (Nat × Bytes)}
    (hreq : ∀ fh size old, request = some (fh, size, old) → standing = none ∧
      if fh = k then g.Resizing size old ∨ g.Answered size old
      else ∃ f, t.files.handles fh = some f ∧ f.Resizing size old)
    (hstand : ∀ h b, standing = some (h, b) → Kept (t.files.set k g) h b) :
    Ok c (settle { files := t.files.set k g, request := request, standing := standing }) := by
  -- the other handles are as they were
  have hhandle : ∀ fh f', (t.files.set k g).handles fh = some f' →
      StreamFile.Inv c f' ∧ f'.commit = none ∧ f'.phase ≠ .released ∧ fh < (t.files.set k g).nextFh := by
    intro fh f' hf'
    by_cases hfh : fh = k
    · subst hfh
      rw [OpenHandles.set_handles_self, Option.some.injEq] at hf'
      obtain ⟨h1, h2, h3⟩ := hg
      exact hf' ▸ ⟨h1, h2, h3, (ho.handle fh f hf).2.2.2⟩
    · rw [OpenHandles.set_handles_ne hfh] at hf'
      exact ho.handle fh f' hf'
  -- the request that is watched, if there is one
  cases hr : request with
  | none =>
    rw [settle_of_none rfl]
    exact ⟨hhandle, by simp, hstand⟩
  | some r =>
    obtain ⟨fh, size, old⟩ := r
    obtain ⟨hnone, hserved⟩ := hreq fh size old hr
    subst hnone
    have hself : (t.files.set k g).handles k = some g := OpenHandles.set_handles_self
    -- a resize that is still being served, by whichever handle
    have hgoing : ∀ f', (t.files.set k g).handles fh = some f' → f'.Resizing size old →
        Ok c (settle { files := t.files.set k g, request := some (fh, size, old) }) := by
      intro f' hf' hz
      rw [settle_of_resizing rfl hf' hz]
      refine ⟨hhandle, ?_, by simp⟩
      rintro fh' size' old' ⟨⟩
      exact ⟨rfl, f', hf', hz⟩
    -- it is this handle's, and still going on or answered, or another's
    by_cases hfh : fh = k
    · subst hfh
      rw [if_pos rfl] at hserved
      rcases hserved with hz | ⟨hidle, hans⟩
      · exact hgoing g hself hz
      · simp only [settle, hself, hidle, if_true]
        refine ⟨hhandle, by simp, fun h b hb => ?_⟩
        split at hb
        · rename_i hlast
          cases hb
          refine ⟨(hhandle fh g hself).2.2.2, fun f' hf' => ?_, fun hn => ?_⟩
          · cases hself.symm.trans hf'
            exact hans hlast
          · exact absurd (hself.symm.trans hn) (by simp)
        · cases hb
    · rw [if_neg hfh] at hserved
      obtain ⟨f', hf', hz⟩ := hserved
      exact hgoing f' (by rw [OpenHandles.set_handles_ne hfh, hf']) hz

/-- A handle is opened in order. -/
theorem inv_opened (current : Bytes) (truncating seeded streamUploads : Bool) (seed : Bytes) :
    StreamFile.Inv c (.opened current truncating seeded streamUploads seed) := by
  refine ⟨⟨?_, ?_, fun _ => rfl, Nat.zero_le _, ?_, ?_, ?_, fun _ => rfl⟩, trivial⟩ <;> simp [StreamFile.opened]

theorem stands_opened (current : Bytes) (seeded streamUploads : Bool) (seed : Bytes) :
    StreamFile.Stands (.opened current true seeded streamUploads seed) [] where
  usable := rfl
  file := rfl
  length := by simp [StreamFile.opened]
  phase := .inl rfl
  read := by simp [StreamFile.opened]

theorem Ok.open (ho : Ok c t) (hq : t.files.quiet = true) (truncating seeded streamUploads : Bool)
    (seed : Bytes) :
    Ok c (t.note { t.files.set t.files.nextFh
    (.opened t.files.current truncating seeded streamUploads seed) with
      nextFh := t.files.nextFh + 1 } (.open truncating seeded streamUploads seed)) := by
  set g := StreamFile.opened t.files.current truncating seeded streamUploads seed with hg
  set w : OpenHandles := { t.files.set t.files.nextFh g with nextFh := t.files.nextFh + 1 } with hw
  have hself : w.handles t.files.nextFh = some g := OpenHandles.set_handles_self
  have hne : ∀ fh, fh ≠ t.files.nextFh → w.handles fh = t.files.handles fh :=
    fun fh => OpenHandles.set_handles_ne
  have hhandle : ∀ fh f, w.handles fh = some f →
      StreamFile.Inv c f ∧ f.commit = none ∧ f.phase ≠ .released ∧ fh < w.nextFh := by
    intro fh f hf
    by_cases hfh : fh = t.files.nextFh
    · subst hfh
      cases hself.symm.trans hf
      exact ⟨inv_opened _ _ _ _ _, rfl, (by decide : RequestPhase.idle ≠ .released), Nat.lt_succ_self _⟩
    · rw [hne fh hfh] at hf
      obtain ⟨h1, h2, h3, h4⟩ := ho.handle fh f hf
      exact ⟨h1, h2, h3, Nat.lt_succ_of_lt h4⟩
  have hnone := ho.request_none hq
  unfold note
  dsimp only
  split
  · rename_i htrunc
    refine ⟨hhandle, by simp, ?_⟩
    rintro h b ⟨⟩
    refine ⟨Nat.lt_succ_self _, fun f hf => ?_, fun hn => absurd (hself.symm.trans hn) (by simp)⟩
    cases hself.symm.trans hf
    rw [hg, htrunc]
    exact stands_opened _ _ _ _
  · refine ⟨hhandle, by simp [hnone], fun h b hb => ?_⟩
    obtain ⟨hlt, hstands, hcurrent⟩ := ho.standing h b hb
    have hh : h ≠ t.files.nextFh := Nat.ne_of_lt hlt
    refine ⟨Nat.lt_succ_of_lt hlt, fun f hf => ?_, fun hn => ?_⟩
    · rw [hne h hh] at hf
      exact hstands f hf
    · rw [hne h hh] at hn
      exact hcurrent hn

theorem Ok.setattr (ho : Ok c t) (hq : t.files.quiet = true) {fh : Option Nat} {size : Nat}
    (hm : t.Meets (.setattr fh size)) : Ok c (t.note (t.files.setattr fh size) (.setattr fh size)) := by
  obtain ⟨k, f, rfl, hf, hok, hcontent, hlen⟩ := hm
  obtain ⟨hinv, hcommit, hopen, hlt⟩ := ho.handle k f hf
  have hidle := quiet_idle hq hlt hf
  have hstep : f.step c (.resize size) = some (f.decideResize size) := by simp [StreamFile.step, hidle]
  have hset : t.files.setattr (some k) size = t.files.set k (f.decideResize size) := by
    simp [OpenHandles.setattr, hf]
  have hrel : ∀ offline, StreamEvent.resize size ≠ .release offline := by simp
  rw [hset]
  show Ok c (settle { files := t.files.set k (f.decideResize size), request := some (k, size, t.files.content) })
  refine ho.set hf ⟨hinv.step hstep, (StreamFile.step_commit hstep hrel).trans hcommit,
    StreamFile.step_open hstep hopen hrel⟩ ?_ ?_
  · rintro fh size' old ⟨⟩
    refine ⟨rfl, ?_⟩
    rw [if_pos rfl]
    exact StreamFile.resizing_decideResize hok hcontent hlen
  · rintro h b ⟨⟩

/-- A step of an open handle that is neither a resize nor its release. -/
theorem Ok.request_step (ho : Ok c t) {k : Nat} {f g : StreamFile} (hf : t.files.handles k = some f)
    {e : StreamEvent} (hstep : f.step c e = some g) (hr : e.isResize = false)
    (hrel : ∀ offline, e ≠ .release offline) : Ok c (t.note (t.files.set k g) (.request k e)) := by
  obtain ⟨hinv, hcommit, hopen, hlt⟩ := ho.handle k f hf
  have hg : StreamFile.Inv c g ∧ g.commit = none ∧ g.phase ≠ .released :=
    ⟨hinv.step hstep, (StreamFile.step_commit hstep hrel).trans hcommit, StreamFile.step_open hstep hopen hrel⟩
  have hlost : t.commitLost k e = false := by
    cases e with
    | release offline => exact absurd rfl (hrel offline)
    | _ => rfl
  unfold note
  dsimp only
  split
  · have hset := ho.set hf hg (by simp : ∀ fh size old, none = some (fh, size, old) → _)
      (by simp : ∀ h b, none = some (h, b) → _)
    rwa [settle_of_none rfl] at hset
  · rename_i hw
    rw [hlost]
    refine ho.set hf hg (fun fh size old hreq => ?_) fun h b hb => ?_
    · obtain ⟨hnone, f', hf', hz⟩ := ho.request fh size old hreq
      refine ⟨hnone, ?_⟩
      split
      · rename_i hfh
        subst hfh
        cases hf.symm.trans hf'
        exact hz.step hstep
      · exact ⟨f', hf', hz⟩
    · have hkept := ho.standing h b hb
      refine hkept.set fun hhk => ?_
      subst hhk
      exact (hkept.2.1 f hf).step hinv hstep (by simpa using hw) hr hrel

theorem Kept.close {w : OpenHandles} {h k : Nat} {b : Bytes} {g : StreamFile} (hk : Kept w h b)
    (hself : h = k → g.committedBytes = some b)
    (hother : h ≠ k → w.handles h = none → g.committedBytes = none) : Kept (w.close k g) h b := by
  obtain ⟨hlt, hstands, hcurrent⟩ := hk
  by_cases hhk : h = k
  · subst hhk
    refine ⟨hlt, fun f hf => by simp at hf, fun _ => ?_⟩
    rw [OpenHandles.close_current, hself rfl]
    rfl
  · rw [Kept, OpenHandles.close_handles_ne hhk]
    refine ⟨hlt, hstands, fun hnone => ?_⟩
    rw [OpenHandles.close_current, hother hhk hnone]
    exact hcurrent hnone

/-- A handle leaves the table; the resize being served is another's. -/
theorem Ok.close (ho : Ok c t) {k : Nat} {f g : StreamFile} (hf : t.files.handles k = some f)
    (hidle : f.phase = .idle) {standing : Option (Nat × Bytes)} (hnone : t.standing = none → standing = none)
    (hstand : ∀ h b, standing = some (h, b) → Kept (t.files.close k g) h b) :
    Ok c (settle { files := t.files.close k g, request := t.request, standing := standing }) := by
  have hhandle : ∀ fh f', (t.files.close k g).handles fh = some f' →
      StreamFile.Inv c f' ∧ f'.commit = none ∧ f'.phase ≠ .released ∧ fh < (t.files.close k g).nextFh := by
    intro fh f' hf'
    have hfh : fh ≠ k := by
      intro hfh
      simp [hfh] at hf'
    rw [OpenHandles.close_handles_ne hfh] at hf'
    exact ho.handle fh f' hf'
  have hok : Ok c { files := t.files.close k g, request := t.request, standing := standing } := by
    refine ⟨hhandle, fun fh size old hr => ?_, hstand⟩
    obtain ⟨hstanding, f', hf', hz⟩ := ho.request fh size old hr
    refine ⟨hnone hstanding, f', ?_, hz⟩
    rw [OpenHandles.close_handles_ne, hf']
    intro hfh
    subst hfh
    cases hf.symm.trans hf'
    exact Resizing_not_idle hz hidle
  rw [hok.settle_eq]
  exact hok

/-- A release commits what was promised through its handle, and a release after that changes nothing. -/
theorem Ok.release (ho : Ok c t) {k : Nat} {f : StreamFile} (hf : t.files.handles k = some f)
    (hidle : f.phase = .idle) {offline : Bool} (hm : t.Meets (.request k (.release offline))) :
    Ok c (t.note (t.files.close k (f.release offline)) (.request k (.release offline))) := by
  obtain ⟨hinv, hcommit, -, -⟩ := ho.handle k f hf
  unfold note
  dsimp only
  rw [if_neg (by simp [StreamEvent.isWrite])]
  split
  · exact ho.close hf hidle (fun _ => rfl) (by simp)
  · rename_i hlost
    refine ho.close hf hidle id fun h b hb => (ho.standing h b hb).close (fun hhk => ?_) fun hhk hnone => ?_
    · subst hhk
      refine (((ho.standing h b hb).2.1 f hf).committedBytes hinv offline).resolve_right fun hfailed => ?_
      simp [commitLost, hf, hb, hfailed] at hlost
    · refine StreamFile.committedBytes_of_not_usable ?_ hcommit offline
      cases hu : f.usable with
      | false => rfl
      | true =>
        rcases hm f h b hf hu hb with hk | hopen
        · exact absurd hk hhk
        · simp [hnone] at hopen

/-- One step of a run whose resizes meet the condition. -/
theorem Ok.step (ho : Ok c t) {e : HandleEvent} (hm : t.Meets e) (h : t.step c e = some t') : Ok c t' := by
  simp only [Watched.step, Option.map_eq_some_iff] at h
  obtain ⟨w, hw, rfl⟩ := h
  cases e with
  | «open» truncating seeded streamUploads seed =>
    simp only [OpenHandles.step] at hw
    split at hw <;> cases hw
    rename_i hq
    exact ho.open hq truncating seeded streamUploads seed
  | setattr fh size =>
    simp only [OpenHandles.step] at hw
    split at hw <;> cases hw
    rename_i hq
    exact ho.setattr hq hm
  | request k e =>
    obtain ⟨f, hf, hr, ⟨rfl, off, sz, rfl⟩ | ⟨g, hg, rfl⟩⟩ := OpenHandles.step_request hw
    · show Ok c t.settle
      rw [ho.settle_eq]
      exact ho
    have hopen := (ho.handle k f hf).2.2.1
    cases e with
    | release offline =>
      simp only [StreamFile.step] at hg
      split at hg <;> cases hg
      rename_i hidle
      rw [if_pos (StreamFile.release_phase f offline)]
      exact ho.release hf hidle hm
    | _ =>
      rw [if_neg (StreamFile.step_open hg hopen (by simp))]
      exact ho.request_step hf hg hr (by simp)

/-- The runs in which every step meets the condition. -/
inductive Reaches (c : ChunkSize) (current : Bytes) : Watched → Prop
  | start : Reaches c current { files := { current := current } }
  | step {t t' : Watched} {e : HandleEvent} : Reaches c current t → t.Meets e → t.step c e = some t' →
      Reaches c current t'

theorem Reaches.ok {current : Bytes} (h : Reaches c current t) : Ok c t := by
  induction h with
  | start => exact ⟨by simp, by simp, by simp⟩
  | step _ hm hstep ih => exact ih.step hm hstep

/-- Until the next write or resize, what a resize promised is what its handle reads from its own staging
file, and once every handle is closed it is the file: in every run whose resizes meet the condition. -/
theorem resize_takes_effect {current b : Bytes} {fh : Nat} (hreach : Reaches c current t)
    (hstanding : t.standing = some (fh, b)) :
    (∀ f, t.files.handles fh = some f → t.files.readsOwn f = true ∧
      (∀ off sz, f.phase = .idle → heldCovers f.session off sz = true →
        f.read off sz = { f with phase := .reading off sz }) ∧
      ∀ off sz bytes, f.phase = .readBack off sz bytes →
        (f.recheck off sz bytes).replies = f.replies ++ [.data off bytes] → bytes = b.slice off sz) ∧
    ((∀ k, t.files.handles k = none) → t.files.current = b) := by
  obtain ⟨-, hstands, hcurrent⟩ := hreach.ok.standing fh b hstanding
  refine ⟨fun f hf => ?_, fun hclosed => hcurrent (hclosed fh)⟩
  have hs := hstands f hf
  have husable := hs.usable
  simp only [StreamFile.usable, Bool.and_eq_true, Bool.not_eq_true'] at husable
  refine ⟨by simp [OpenHandles.readsOwn, husable.1], fun off sz _ hcovers => ?_, fun off sz bytes hp hreplies => ?_⟩
  · simp [StreamFile.read, husable, hcovers]
  · refine hs.read off sz bytes hp ?_
    by_contra hcovers
    simp [StreamFile.recheck, StreamFile.reply, hcovers] at hreplies

/-- `ftruncate` of a staged file to two bytes, and its release. -/
theorem resize_takes_effect_on_truncate :
    ∃ t, Reaches webdavChunkSize [1, 2, 3] t ∧ t.standing = some (0, [1, 2]) ∧ t.files.current = [1, 2] := by
  have hopened : Reaches webdavChunkSize [1, 2, 3] _ :=
    .step (e := .open false true false []) .start trivial rfl
  have hasked : Reaches webdavChunkSize [1, 2, 3] _ :=
    .step (e := .setattr (some 0) 2) hopened ⟨0, _, rfl, rfl, rfl, rfl, by simp [StreamFile.opened]⟩ rfl
  have hcut : Reaches webdavChunkSize [1, 2, 3] _ := .step (e := .request 0 (.setLen true)) hasked trivial rfl
  have hreleased : Reaches webdavChunkSize [1, 2, 3] _ :=
    .step (e := .request 0 (.release false)) hcut (by rintro f h b - - ⟨⟩; exact .inl rfl) rfl
  refine ⟨_, hreleased, rfl, (resize_takes_effect hreleased rfl).2 fun k => ?_⟩
  rcases k with _ | k <;> rfl

/-- Truncating a closed file by its path answers success; the file is as it was, also for a later open. -/
theorem truncate_of_path_does_nothing :
    let w : OpenHandles := { current := [1, 2, 3] }
    let w' := w.setattr none 1
    w.step webdavChunkSize (.setattr none 1) = some w' ∧ w'.replies = [.accepted (.resize 1)] ∧
      (∀ k, w'.handles k = none) ∧ w'.current = [1, 2, 3] ∧
      ((w'.step webdavChunkSize (.open false true false [])).bind fun w => (w.handles 0).map StreamFile.file) =
        some [1, 2, 3] :=
  ⟨rfl, rfl, fun _ => rfl, rfl, rfl⟩

end Watched

end Ncrs
