import Ncrs.Native.HandoffDaemon

/-!
# What the logs of a writer hold

While a compaction writes the new log there are two: the file in use, and the image with its tail.
Records go to both, so what holds of a log is stated of each of them.

## Key results

- `mem_receiving_put`: a hook's record goes to the end of every log.
- `mem_durable_put`, `mem_durable_put_sync`: written records stay, and a synced one is written.
-/

namespace Ncrs

namespace Handoff

namespace Log

/-- The logs once what is queued is written: the file, when the writer's is the one at its path, and
the file of a compaction. -/
def receiving (l : Log) : List Entries :=
  if l.failed then []
  else
    (if l.attached then l.disk.toList.map (· ++ l.buf) else []) ++
      l.compaction.toList.map fun c => c.image ++ c.tail ++ l.buf

/-- What is in them already. -/
def durable (l : Log) : List Entries :=
  if l.failed then [] else l.disk.toList ++ l.compaction.toList.map fun c => c.image ++ c.tail

variable {l : Log} {c : Entries}

/-- The contents that records still go to: the file with what is queued, and the image that is being
    written. -/
theorem mem_receiving : c ∈ l.receiving ↔ l.failed = false ∧
    ((l.attached = true ∧ ∃ es, l.disk = some es ∧ c = es ++ l.buf) ∨
      ∃ k, l.compaction = some k ∧ c = k.image ++ k.tail ++ l.buf) := by
  unfold receiving
  cases l.failed <;> cases l.attached <;> simp [eq_comm]

/-- The contents that survive a crash. -/
theorem mem_durable : c ∈ l.durable ↔ l.failed = false ∧
    (l.disk = some c ∨ ∃ k, l.compaction = some k ∧ c = k.image ++ k.tail) := by
  unfold durable
  cases l.failed <;> simp [eq_comm]

/-- What is in a log whose writer still has its file is the start of what it will be. -/
theorem durable_prefix (ha : l.attached = true) (hc : c ∈ l.durable) :
    ∃ c' ∈ l.receiving, c <+: c' := by
  rw [mem_durable] at hc
  obtain ⟨hf, hdisk | ⟨k, hk, rfl⟩⟩ := hc
  · exact ⟨c ++ l.buf, mem_receiving.mpr ⟨hf, .inl ⟨ha, c, hdisk, rfl⟩⟩, List.prefix_append _ _⟩
  · exact ⟨_, mem_receiving.mpr ⟨hf, .inr ⟨k, hk, rfl⟩⟩, List.prefix_append _ _⟩

/-! ## Flushing -/

/-- What a flush can do. -/
theorem flush_cases (l : Log) (ok : Bool) :
    (l.flush ok = l ∧ (l.failed = true ∨ l.buf = [])) ∨
    (l.failed = false ∧ ok = true ∧ l.flush ok = { l with
      disk := if l.attached then l.disk.map (· ++ l.buf) else l.disk
      compaction := l.compaction.map fun c => { c with tail := c.tail ++ l.buf }
      buf := [] }) ∨
    (l.failed = false ∧ ok = false ∧ l.flush ok = { l with failed := true, disk := none }) := by
  unfold flush
  cases hf : l.failed with
  | true => simp
  | false =>
    cases hb : l.buf.isEmpty with
    | true => simp_all
    | false => cases ok <;> simp

section

variable (l : Log) (ok : Bool)

@[simp] theorem flush_on : (l.flush ok).on = l.on := by
  obtain ⟨h, -⟩ | ⟨-, -, h⟩ | ⟨-, -, h⟩ := l.flush_cases ok <;> rw [h]

@[simp] theorem flush_seq : (l.flush ok).seq = l.seq := by
  obtain ⟨h, -⟩ | ⟨-, -, h⟩ | ⟨-, -, h⟩ := l.flush_cases ok <;> rw [h]

@[simp] theorem flush_reservedUpto : (l.flush ok).reservedUpto = l.reservedUpto := by
  obtain ⟨h, -⟩ | ⟨-, -, h⟩ | ⟨-, -, h⟩ := l.flush_cases ok <;> rw [h]

@[simp] theorem flush_opens : (l.flush ok).opens = l.opens := by
  obtain ⟨h, -⟩ | ⟨-, -, h⟩ | ⟨-, -, h⟩ := l.flush_cases ok <;> rw [h]

@[simp] theorem flush_streams : (l.flush ok).streams = l.streams := by
  obtain ⟨h, -⟩ | ⟨-, -, h⟩ | ⟨-, -, h⟩ := l.flush_cases ok <;> rw [h]

@[simp] theorem flush_attached : (l.flush ok).attached = l.attached := by
  obtain ⟨h, -⟩ | ⟨-, -, h⟩ | ⟨-, -, h⟩ := l.flush_cases ok <;> rw [h]

end

/-- A flush moves what is queued into the logs, or takes them away. -/
theorem mem_receiving_flush {ok : Bool} (hc : c ∈ (l.flush ok).receiving) : c ∈ l.receiving := by
  obtain ⟨h, -⟩ | ⟨hf, -, h⟩ | ⟨-, -, h⟩ := l.flush_cases ok
  · rwa [h] at hc
  · rw [h, mem_receiving] at hc
    rw [mem_receiving]
    refine ⟨hf, ?_⟩
    obtain ⟨-, ⟨ha, es, hes, rfl⟩ | ⟨k, hk, rfl⟩⟩ := hc
    · replace ha : l.attached = true := ha
      simp only [ha, if_true, Option.map_eq_some_iff] at hes
      obtain ⟨es', hes', rfl⟩ := hes
      exact .inl ⟨ha, es', hes', by simp⟩
    · simp only [Option.map_eq_some_iff] at hk
      obtain ⟨k', hk', rfl⟩ := hk
      exact .inr ⟨k', hk', by simp⟩
  · rw [h, mem_receiving] at hc
    cases hc.1

/-- A flush only adds to them. -/
theorem mem_durable_flush {ok : Bool} (hc : c ∈ (l.flush ok).durable) :
    ∃ c₀ ∈ l.durable, c₀ <+: c := by
  obtain ⟨h, -⟩ | ⟨hf, -, h⟩ | ⟨-, -, h⟩ := l.flush_cases ok
  · rw [h] at hc
    exact ⟨c, hc, List.prefix_rfl⟩
  · rw [h, mem_durable] at hc
    obtain ⟨-, hdisk | ⟨k, hk, rfl⟩⟩ := hc
    · cases ha : l.attached with
      | true =>
        simp only [ha, if_true, Option.map_eq_some_iff] at hdisk
        obtain ⟨es, hes, rfl⟩ := hdisk
        exact ⟨es, mem_durable.mpr ⟨hf, .inl hes⟩, List.prefix_append _ _⟩
      | false =>
        simp only [ha, Bool.false_eq_true, if_false] at hdisk
        exact ⟨c, mem_durable.mpr ⟨hf, .inl hdisk⟩, List.prefix_rfl⟩
    · simp only [Option.map_eq_some_iff] at hk
      obtain ⟨k', hk', rfl⟩ := hk
      refine ⟨_, mem_durable.mpr ⟨hf, .inr ⟨k', hk', rfl⟩⟩, ?_⟩
      rw [← List.append_assoc]
      exact List.prefix_append _ _
  · rw [h, mem_durable] at hc
    cases hc.1

/-! ## Appending -/

/-- What an append can do. -/
theorem append_cases (l : Log) (e : Nat × Entry) (sync : Bool) (io : Io) :
    (l.failed = true ∧ l.append e sync io = l) ∨
    (l.failed = false ∧ sync = false ∧
      l.append e sync io = { l with buf := l.buf ++ [e] }) ∨
    (l.failed = false ∧
      l.append e sync io = ({ l with buf := l.buf ++ [e] }).flush io.ok) := by
  simp only [append]
  cases hf : l.failed with
  | true => simp
  | false => cases sync <;> cases io.full <;> simp

section

variable (l : Log) (e : Entry) (sync : Bool) (io : Io)

@[simp] theorem put_on : (l.put e sync io).on = l.on := by
  obtain ⟨-, h⟩ | ⟨-, -, h⟩ | ⟨-, h⟩ :=
    ({ l with seq := l.seq + 1 } : Log).append_cases (l.seq + 1, e) sync io <;> simp [put, h]

@[simp] theorem put_reservedUpto : (l.put e sync io).reservedUpto = l.reservedUpto := by
  obtain ⟨-, h⟩ | ⟨-, -, h⟩ | ⟨-, h⟩ :=
    ({ l with seq := l.seq + 1 } : Log).append_cases (l.seq + 1, e) sync io <;> simp [put, h]

@[simp] theorem put_opens : (l.put e sync io).opens = l.opens := by
  obtain ⟨-, h⟩ | ⟨-, -, h⟩ | ⟨-, h⟩ :=
    ({ l with seq := l.seq + 1 } : Log).append_cases (l.seq + 1, e) sync io <;> simp [put, h]

@[simp] theorem put_streams : (l.put e sync io).streams = l.streams := by
  obtain ⟨-, h⟩ | ⟨-, -, h⟩ | ⟨-, h⟩ :=
    ({ l with seq := l.seq + 1 } : Log).append_cases (l.seq + 1, e) sync io <;> simp [put, h]

@[simp] theorem put_attached : (l.put e sync io).attached = l.attached := by
  obtain ⟨-, h⟩ | ⟨-, -, h⟩ | ⟨-, h⟩ :=
    ({ l with seq := l.seq + 1 } : Log).append_cases (l.seq + 1, e) sync io <;> simp [put, h]

end

/-- A log that has failed only counts. -/
theorem put_of_failed {l : Log} (hf : l.failed = true) (e : Entry) (sync : Bool) (io : Io) :
    l.put e sync io = { l with seq := l.seq + 1 } := by
  simp [put, append, hf]

/-- With one record more in the queue, every log gets it at its end. -/
theorem mem_receiving_queue {n : Nat} {e : Nat × Entry}
    (hc : c ∈ ({ l with seq := n, buf := l.buf ++ [e] } : Log).receiving) :
    ∃ c₀ ∈ l.receiving, c = c₀ ++ [e] := by
  rw [mem_receiving] at hc
  obtain ⟨hf, ⟨ha, es, hes, rfl⟩ | ⟨k, hk, rfl⟩⟩ := hc
  · exact ⟨es ++ l.buf, mem_receiving.mpr ⟨hf, .inl ⟨ha, es, hes, rfl⟩⟩, by simp⟩
  · exact ⟨_, mem_receiving.mpr ⟨hf, .inr ⟨k, hk, rfl⟩⟩, by simp⟩

/-- A hook's record goes to the end of every log. -/
theorem mem_receiving_put {e : Entry} {sync : Bool} {io : Io}
    (hc : c ∈ (l.put e sync io).receiving) :
    ∃ c₀ ∈ l.receiving, c = c₀ ++ [(l.seq + 1, e)] := by
  rw [put] at hc
  obtain ⟨hf, h⟩ | ⟨-, -, h⟩ | ⟨-, h⟩ :=
    ({ l with seq := l.seq + 1 } : Log).append_cases (l.seq + 1, e) sync io
  · rw [h, mem_receiving] at hc
    rw [hf] at hc
    cases hc.1
  · rw [h] at hc
    exact mem_receiving_queue hc
  · rw [h] at hc
    exact mem_receiving_queue (mem_receiving_flush hc)

/-- What is in a log stays there. -/
theorem mem_durable_put {e : Entry} {sync : Bool} {io : Io} (hc : c ∈ (l.put e sync io).durable) :
    ∃ c₀ ∈ l.durable, c₀ <+: c := by
  rw [put] at hc
  obtain ⟨hf, h⟩ | ⟨-, -, h⟩ | ⟨-, h⟩ :=
    ({ l with seq := l.seq + 1 } : Log).append_cases (l.seq + 1, e) sync io
  · rw [h] at hc
    exact ⟨c, hc, List.prefix_rfl⟩
  · rw [h] at hc
    exact ⟨c, hc, List.prefix_rfl⟩
  · rw [h] at hc
    obtain ⟨c₀, hc₀, hpre⟩ := mem_durable_flush hc
    exact ⟨c₀, hc₀, hpre⟩

/-- A record that is synced is in every log, while the writer has its file. -/
theorem mem_durable_put_sync {e : Entry} {io : Io} (ha : l.attached = true)
    (hc : c ∈ (l.put e true io).durable) : (l.seq + 1, e) ∈ c := by
  rw [put] at hc
  obtain ⟨hf, h⟩ | ⟨-, h, -⟩ | ⟨hf, h⟩ :=
    ({ l with seq := l.seq + 1 } : Log).append_cases (l.seq + 1, e) true io
  · rw [h, mem_durable, hf] at hc
    cases hc.1
  · cases h
  · rw [h] at hc
    obtain ⟨-, hff | hbuf⟩ | ⟨-, -, h'⟩ | ⟨-, -, h'⟩ :=
      ({ l with seq := l.seq + 1, buf := l.buf ++ [(l.seq + 1, e)] } : Log).flush_cases io.ok
    · exact absurd (hff.symm.trans hf) (by decide)
    · exact absurd hbuf (by simp)
    · rw [h', mem_durable] at hc
      obtain ⟨-, hdisk | ⟨k, hk, rfl⟩⟩ := hc
      · simp only [ha, if_true, Option.map_eq_some_iff] at hdisk
        obtain ⟨es, -, rfl⟩ := hdisk
        simp
      · simp only [Option.map_eq_some_iff] at hk
        obtain ⟨k', -, rfl⟩ := hk
        simp
    · rw [h', mem_durable] at hc
      cases hc.1

/-! ## Hooks -/

/-- `l'` is `l` with the records `es` logged: each log will get them, what is in one stays there, and
a file that the writer has lost is not written. -/
structure Continues (l l' : Log) (es : Entries) : Prop where
  on : l'.on = l.on
  attached : l'.attached = l.attached
  receiving : ∀ c ∈ l'.receiving, ∃ c₀ ∈ l.receiving, c = c₀ ++ es
  durable : ∀ c ∈ l'.durable, ∃ c₀ ∈ l.durable, c₀ <+: c
  detached : l.attached = false → ∀ c, l'.disk = some c → l.disk = some c
  gone : (l.failed = true → l.disk = none) → l'.failed = true → l'.disk = none
  idle : l.compaction = none → l'.compaction = none
  failed : l.failed = true → l'.failed = true
  here : l.disk.isSome = true → l'.failed = false → l'.disk.isSome = true

namespace Continues

variable {l₁ l₂ l₃ : Log} {es es' : Entries}

/-- A log continues itself. -/
theorem refl (l : Log) : l.Continues l [] where
  on := rfl
  attached := rfl
  receiving c hc := ⟨c, hc, by simp⟩
  durable c hc := ⟨c, hc, List.prefix_rfl⟩
  detached _ _ h := h
  gone h := h
  idle h := h
  failed h := h
  here h _ := h

/-- One continuation after the other. -/
theorem trans (h : l₁.Continues l₂ es) (h' : l₂.Continues l₃ es') :
    l₁.Continues l₃ (es ++ es') where
  on := h'.on.trans h.on
  attached := h'.attached.trans h.attached
  receiving c hc := by
    obtain ⟨c₂, hc₂, rfl⟩ := h'.receiving c hc
    obtain ⟨c₁, hc₁, rfl⟩ := h.receiving c₂ hc₂
    exact ⟨c₁, hc₁, by simp⟩
  durable c hc := by
    obtain ⟨c₂, hc₂, hpre⟩ := h'.durable c hc
    obtain ⟨c₁, hc₁, hpre'⟩ := h.durable c₂ hc₂
    exact ⟨c₁, hc₁, hpre'.trans hpre⟩
  detached ha c hc := h.detached ha c (h'.detached (h.attached.trans ha) c hc)
  gone hl := h'.gone (h.gone hl)
  idle hl := h'.idle (h.idle hl)
  failed hl := h'.failed (h.failed hl)
  here hl hf := by
    refine h'.here (h.here hl ?_) hf
    cases hf₂ : l₂.failed with
    | false => rfl
    | true => exact absurd ((h'.failed hf₂).symm.trans hf) (by decide)

end Continues

/-- A flush continues the log. -/
theorem continues_flush (l : Log) (ok : Bool) : l.Continues (l.flush ok) [] where
  on := l.flush_on ok
  attached := l.flush_attached ok
  receiving c hc := ⟨c, mem_receiving_flush hc, by simp⟩
  durable c hc := mem_durable_flush hc
  -- nothing to flush, written, or failed
  detached ha c hc := by
    obtain ⟨h, -⟩ | ⟨-, -, h⟩ | ⟨-, -, h⟩ := l.flush_cases ok
    · rwa [h] at hc
    · simpa [h, ha] using hc
    · rw [h] at hc
      cases hc
  gone hl hf := by
    obtain ⟨h, -⟩ | ⟨hf', -, h⟩ | ⟨-, -, h⟩ := l.flush_cases ok
    · rw [h] at hf ⊢
      exact hl hf
    · rw [h] at hf
      exact absurd (hf'.symm.trans hf) (by decide)
    · rw [h]
  idle hl := by
    obtain ⟨h, -⟩ | ⟨-, -, h⟩ | ⟨-, -, h⟩ := l.flush_cases ok <;> simp [h, hl]
  failed hl := by
    obtain ⟨h, -⟩ | ⟨-, -, h⟩ | ⟨-, -, h⟩ := l.flush_cases ok <;> simp [h, hl]
  here hl hf := by
    obtain ⟨h, -⟩ | ⟨-, -, h⟩ | ⟨-, -, h⟩ := l.flush_cases ok
    · rwa [h]
    · rw [h]
      cases l.attached <;> simp [hl]
    · rw [h] at hf
      cases hf

/-- A record continues the log, wherever it goes. -/
theorem continues_put (l : Log) (e : Entry) (sync : Bool) (io : Io) :
    l.Continues (l.put e sync io) [(l.seq + 1, e)] where
  on := l.put_on e sync io
  attached := l.put_attached e sync io
  receiving c hc := mem_receiving_put hc
  durable c hc := mem_durable_put hc
  -- dropped, queued, or written at once
  detached ha c hc := by
    rw [put] at hc
    obtain ⟨-, h⟩ | ⟨-, -, h⟩ | ⟨-, h⟩ :=
      ({ l with seq := l.seq + 1 } : Log).append_cases (l.seq + 1, e) sync io
    · rwa [h] at hc
    · rwa [h] at hc
    · rw [h] at hc
      exact (continues_flush { l with seq := l.seq + 1, buf := l.buf ++ [(l.seq + 1, e)] }
        io.ok).detached ha c hc
  gone hl hf := by
    rw [put] at hf ⊢
    obtain ⟨-, h⟩ | ⟨-, -, h⟩ | ⟨-, h⟩ :=
      ({ l with seq := l.seq + 1 } : Log).append_cases (l.seq + 1, e) sync io
    · rw [h] at hf ⊢
      exact hl hf
    · rw [h] at hf ⊢
      exact hl hf
    · rw [h] at hf ⊢
      exact (continues_flush { l with seq := l.seq + 1, buf := l.buf ++ [(l.seq + 1, e)] }
        io.ok).gone hl hf
  idle hl := by
    rw [put]
    obtain ⟨-, h⟩ | ⟨-, -, h⟩ | ⟨-, h⟩ :=
      ({ l with seq := l.seq + 1 } : Log).append_cases (l.seq + 1, e) sync io
    · rw [h]
      exact hl
    · rw [h]
      exact hl
    · rw [h]
      exact (continues_flush { l with seq := l.seq + 1, buf := l.buf ++ [(l.seq + 1, e)] }
        io.ok).idle hl
  failed hl := by
    rw [put_of_failed hl]
    exact hl
  here hl hf := by
    rw [put] at hf ⊢
    obtain ⟨-, h⟩ | ⟨-, -, h⟩ | ⟨-, h⟩ :=
      ({ l with seq := l.seq + 1 } : Log).append_cases (l.seq + 1, e) sync io
    · rw [h]
      exact hl
    · rw [h]
      exact hl
    · rw [h] at hf ⊢
      exact (continues_flush { l with seq := l.seq + 1, buf := l.buf ++ [(l.seq + 1, e)] }
        io.ok).here hl hf

/-- Numbered on from `l`. -/
def numbered (l : Log) (e : Entry) : Entries := if l.on then [(l.seq + 1, e)] else []

/-- The entry of a move continues the log. -/
theorem continues_inodeMoved (l : Log) (ino : Nat) (target : PathBuf) (dropped : Option Nat)
    (io : Io) :
    l.Continues (l.inodeMoved ino target dropped io) (l.numbered (.mv ino target dropped)) := by
  unfold inodeMoved numbered
  split
  · exact l.continues_put _ _ _
  · exact .refl l

/-- So does the entry of an open handle. -/
theorem continues_handleOpened (l : Log) (rec : OpenRecord) (io : Io) :
    l.Continues (l.handleOpened rec io) (l.numbered (.opened rec)) := by
  unfold handleOpened numbered
  split
  · have h := l.continues_put (.opened rec) true io
    exact ⟨h.on, h.attached, h.receiving, h.durable, h.detached, h.gone, h.idle,
      h.failed, h.here⟩
  · exact .refl l

/-- And that of a stream. -/
theorem continues_streamStarted (l : Log) (wp : PathBuf) (uploadsBase : String) (io : Io) :
    l.Continues (l.streamStarted wp uploadsBase io) (l.numbered (.stream wp uploadsBase)) := by
  unfold streamStarted numbered
  split
  · have h := l.continues_put (.stream wp uploadsBase) true io
    exact ⟨h.on, h.attached, h.receiving, h.durable, h.detached, h.gone, h.idle,
      h.failed, h.here⟩
  · exact .refl l

/-- A handle's hook logs nothing for a handle the writer does not have. -/
def numberedOpen (l : Log) (fh : Nat) (e : Entry) : Entries :=
  if (l.opens.lookup fh).isSome then l.numbered e else []

/-- The handle is open, so that its entry is logged. -/
theorem numberedOpen_of_open {l : Log} (hon : l.on = true) {fh : Nat} {x : Nat × OpenRecord}
    (hx : l.opens.lookup fh = some x) (e : Entry) : l.numberedOpen fh e = [(l.seq + 1, e)] := by
  simp [numberedOpen, numbered, hx, hon]

/-- What the writer keeps of open handles does not matter to what it logs. -/
theorem continues_put_tables (l : Log) (opens : AList fun _ : Nat => Nat × OpenRecord)
    (streams : AList fun _ : PathBuf => Nat × String) (e : Entry) (sync : Bool) (io : Io) :
    l.Continues (({ l with opens := opens, streams := streams } : Log).put e sync io)
      [(l.seq + 1, e)] := by
  have hput := ({ l with opens := opens, streams := streams } : Log).continues_put e sync io
  exact ⟨hput.on, hput.attached, hput.receiving, hput.durable, hput.detached, hput.gone,
    hput.idle, hput.failed, hput.here⟩

/-- The entry of a released handle continues the log. -/
theorem continues_handleReleased (l : Log) (fh : Nat) (io : Io) :
    l.Continues (l.handleReleased fh io) (l.numberedOpen fh (.close fh)) := by
  unfold handleReleased numberedOpen numbered
  by_cases hon : l.on = true
  · rw [if_pos hon, if_pos hon]
    cases hfh : l.opens.lookup fh with
    | none => exact .refl l
    | some h =>
      exact l.continues_put_tables _ _ (.close fh) true io
  · rw [if_neg hon, if_neg hon, ite_self]
    exact .refl l

/-- And that of a changed one. -/
theorem continues_handleChanged (l : Log) (fh : Nat) (f : OpenRecord → OpenRecord) (e : Entry)
    (io : Io) : l.Continues (l.handleChanged fh f e io) (l.numberedOpen fh e) := by
  unfold handleChanged numberedOpen numbered
  by_cases hon : l.on = true
  · rw [if_pos hon, if_pos hon]
    cases hfh : l.opens.lookup fh with
    | none => exact .refl l
    | some h =>
      exact l.continues_put_tables _ _ e true io
  · rw [if_neg hon, if_neg hon, ite_self]
    exact .refl l

/-- Of one whose file was unlinked. -/
theorem continues_handleUnlinked (l : Log) (fh : Nat) (io : Io) :
    l.Continues (l.handleUnlinked fh io) (l.numberedOpen fh (.unlinked fh)) :=
  l.continues_handleChanged fh _ _ io

/-- Of one whose file was moved. -/
theorem continues_handleRetargeted (l : Log) (fh : Nat) (path : PathBuf) (io : Io) :
    l.Continues (l.handleRetargeted fh path io) (l.numberedOpen fh (.retarget fh path)) :=
  l.continues_handleChanged fh _ _ io

/-- The ticker logs the handle counter at most. -/
theorem continues_tick (l : Log) (next : Nat) (io : Io) (ok : Bool) :
    l.Continues (l.tick next io ok) [] ∨
      l.Continues (l.tick next io ok) [(l.seq + 1, .fh next)] := by
  unfold tick
  split
  · split
    · have hput := l.continues_put (.fh next) false io
      have hmark : l.Continues { l.put (.fh next) false io with lastFhMark := next }
          [(l.seq + 1, .fh next)] :=
        ⟨hput.on, hput.attached, hput.receiving, hput.durable, hput.detached, hput.gone,
        hput.idle, hput.failed, hput.here⟩
      exact .inr (hmark.trans (continues_flush _ ok))
    · exact .inl (l.continues_flush ok)
  · exact .inl (.refl l)

/-- The record of a reservation, when the block of `ino` has none yet. -/
def numberedReserve (l : Log) (ino : Nat) : Entries :=
  if l.reservedUpto ≤ ino then [(l.seq + 1, .reserve (reservationAfter ino))] else []

/-- A reservation does. -/
theorem continues_reserve (l : Log) (ino : Nat) (io : Io) :
    l.Continues (l.reserve ino io) (l.numberedReserve ino) := by
  unfold reserve numberedReserve
  split
  · have h := ({ l with reservedUpto := reservationAfter ino } : Log).continues_put
      (.reserve (reservationAfter ino)) true io
    exact ⟨h.on, h.attached, h.receiving, h.durable, h.detached, h.gone, h.idle,
      h.failed, h.here⟩
  · exact .refl l

/-- And the allocation of an inode, with the reservation before it. -/
theorem continues_inodeAllocated (l : Log) (hon : l.on = true) (ino : Nat) (path : PathBuf)
    (io io' : Io) :
    l.Continues (l.inodeAllocated ino path io io')
      (l.numberedReserve ino ++ [((l.reserve ino io).seq + 1, .ino ino path)]) := by
  unfold inodeAllocated
  rw [if_pos hon]
  exact (l.continues_reserve ino io).trans (continues_put _ _ _ _)

/-! ## Compaction -/

/-- A flush leaves nothing queued. -/
theorem flush_buf {ok : Bool} (hf : (l.flush ok).failed = false) : (l.flush ok).buf = [] := by
  obtain ⟨h, hfail | hbuf⟩ | ⟨-, -, h⟩ | ⟨-, -, h⟩ := l.flush_cases ok
  · rw [h, hfail] at hf
    cases hf
  · rwa [h]
  · rw [h]
  · rw [h] at hf
    cases hf

@[simp] theorem flush_lastFhMark (l : Log) (ok : Bool) :
    (l.flush ok).lastFhMark = l.lastFhMark := by
  obtain ⟨h, -⟩ | ⟨-, -, h⟩ | ⟨-, -, h⟩ := l.flush_cases ok <;> rw [h]

variable {t : InodeTable} {opens : List (Nat × OpenRecord)}
  {streams : List (PathBuf × Nat × String)} {ok : Bool}

/-- The image a compaction starts with. -/
def newImage (l : Log) (t : InodeTable) (opens : List (Nat × OpenRecord))
    (streams : List (PathBuf × Nat × String)) : Entries :=
  image (l.seq + 1) l.lastFhMark (max l.reservedUpto t.nextInode) t opens streams

/-- What the first half of a compaction can do. -/
theorem compactBegin_cases (l : Log) (t : InodeTable) (opens : List (Nat × OpenRecord))
    (streams : List (PathBuf × Nat × String)) (ok : Bool) :
    (l.on = false ∧ l.compactBegin t opens streams ok = l) ∨
    (l.on = true ∧ (l.flush ok).failed = true ∧
      l.compactBegin t opens streams ok = l.flush ok) ∨
    (l.on = true ∧ (l.flush ok).failed = false ∧ l.compactBegin t opens streams ok =
      { l.flush ok with
        reservedUpto := max l.reservedUpto t.nextInode
        seq := l.seq + 1
        compaction := some { image := l.newImage t opens streams } }) := by
  unfold compactBegin
  cases hon : l.on with
  | false => exact .inl ⟨rfl, rfl⟩
  | true =>
    cases hf : (l.flush ok).failed with
    | true => simp [hf]
    | false => simp [hf, newImage]

/-- After the beginning of a compaction records go to the old log or the image. -/
theorem mem_receiving_compactBegin
    (hc : c ∈ (l.compactBegin t opens streams ok).receiving) :
    c ∈ l.receiving ∨ c = l.newImage t opens streams := by
  obtain ⟨-, h⟩ | ⟨-, -, h⟩ | ⟨-, hf, h⟩ := l.compactBegin_cases t opens streams ok
  · rw [h] at hc
    exact .inl hc
  · rw [h] at hc
    exact .inl (mem_receiving_flush hc)
  · rw [h, mem_receiving] at hc
    obtain ⟨-, ⟨ha, es, hes, rfl⟩ | ⟨k, hk, rfl⟩⟩ := hc
    · exact .inl (mem_receiving_flush (mem_receiving.mpr ⟨hf, .inl ⟨ha, es, hes, rfl⟩⟩))
    · obtain rfl := Option.some.inj hk
      exact .inr (by simp [flush_buf hf])

/-- What survives a crash then begins with what did before, or is the image. -/
theorem mem_durable_compactBegin (hc : c ∈ (l.compactBegin t opens streams ok).durable) :
    (∃ c₀ ∈ l.durable, c₀ <+: c) ∨ c = l.newImage t opens streams := by
  obtain ⟨-, h⟩ | ⟨-, -, h⟩ | ⟨-, hf, h⟩ := l.compactBegin_cases t opens streams ok
  · rw [h] at hc
    exact .inl ⟨c, hc, List.prefix_rfl⟩
  · rw [h] at hc
    exact .inl (mem_durable_flush hc)
  · rw [h, mem_durable] at hc
    obtain ⟨-, hdisk | ⟨k, hk, rfl⟩⟩ := hc
    · exact .inl (mem_durable_flush (mem_durable.mpr ⟨hf, .inl hdisk⟩))
    · obtain rfl := Option.some.inj hk
      exact .inr (by simp)

/-- What a compaction's first half does not touch. -/
theorem compactBegin_fields (l : Log) (t : InodeTable) (opens : List (Nat × OpenRecord))
    (streams : List (PathBuf × Nat × String)) (ok : Bool) :
    (l.compactBegin t opens streams ok).on = l.on ∧
      (l.compactBegin t opens streams ok).attached = l.attached ∧
      (l.compactBegin t opens streams ok).opens = l.opens ∧
      (l.compactBegin t opens streams ok).streams = l.streams ∧
      (l.compactBegin t opens streams ok).disk = (if l.on then l.flush ok else l).disk ∧
      (l.compactBegin t opens streams ok).failed = (if l.on then l.flush ok else l).failed := by
  obtain ⟨hon, h⟩ | ⟨hon, -, h⟩ | ⟨hon, hf, h⟩ := l.compactBegin_cases t opens streams ok
  · simp [h, hon]
  · simp [h, hon]
  · simp [h, hon]

/-- What the second half of a compaction can do. -/
theorem compactEnd_cases (l : Log) (ok : Bool) (swap : Swap) :
    ((l.flush ok).failed = true ∧ (l.compactEnd ok swap).failed = true ∧
      (l.compactEnd ok swap).disk = (l.flush ok).disk) ∨
    ((l.flush ok).failed = false ∧
      l.compactEnd ok swap = { l.flush ok with compaction := none }) ∨
    ∃ k a, (l.flush ok).failed = false ∧ (l.flush ok).compaction = some k ∧
      l.compactEnd ok swap = { l.flush ok with
        compaction := none, disk := some (k.image ++ k.tail), attached := a } := by
  simp only [compactEnd]
  -- whether the flush before the swap failed
  cases hf : (l.flush ok).failed with
  | true =>
    left
    cases hk : (l.flush ok).compaction with
    | none => simp [hf]
    | some k => simp
  | false =>
    right
    cases hk : (l.flush ok).compaction with
    | none =>
      left
      generalize l.flush ok = m at hf hk
      cases m
      cases hk
      cases hf
      exact ⟨rfl, rfl⟩
    | some k =>
      -- the image may not be written, not be renamed, or take the log's place
      cases swap with
      | unwritten => exact .inl ⟨rfl, rfl⟩
      | unopened => exact .inr ⟨k, false, rfl, rfl, rfl⟩
      | swapped => exact .inr ⟨k, true, rfl, rfl, rfl⟩

variable {swap : Swap}

/-- A compaction's end leaves one of the logs there were. -/
theorem mem_receiving_compactEnd (hc : c ∈ (l.compactEnd ok swap).receiving) :
    c ∈ l.receiving := by
  obtain ⟨-, hf, -⟩ | ⟨-, h⟩ | ⟨k, a, hf, hk, h⟩ := l.compactEnd_cases ok swap
  · rw [mem_receiving, hf] at hc
    cases hc.1
  · rw [h, mem_receiving] at hc
    obtain ⟨hf, ⟨ha, es, hes, rfl⟩ | ⟨k, hk, rfl⟩⟩ := hc
    · exact mem_receiving_flush (mem_receiving.mpr ⟨hf, .inl ⟨ha, es, hes, rfl⟩⟩)
    · cases hk
  · rw [h, mem_receiving] at hc
    obtain ⟨-, ⟨-, es, hes, rfl⟩ | ⟨k', hk', rfl⟩⟩ := hc
    · obtain rfl := Option.some.inj hes
      exact mem_receiving_flush (mem_receiving.mpr ⟨hf, .inr ⟨k, hk, rfl⟩⟩)
    · cases hk'

/-- After the end of a compaction what survives begins with what did before. -/
theorem mem_durable_compactEnd (hc : c ∈ (l.compactEnd ok swap).durable) :
    ∃ c₀ ∈ l.durable, c₀ <+: c := by
  obtain ⟨-, hf, -⟩ | ⟨-, h⟩ | ⟨k, a, hf, hk, h⟩ := l.compactEnd_cases ok swap
  · rw [mem_durable, hf] at hc
    cases hc.1
  · rw [h, mem_durable] at hc
    obtain ⟨hf, hdisk | ⟨k, hk, -⟩⟩ := hc
    · exact mem_durable_flush (mem_durable.mpr ⟨hf, .inl hdisk⟩)
    · cases hk
  · rw [h, mem_durable] at hc
    obtain ⟨-, hdisk | ⟨k', hk', -⟩⟩ := hc
    · obtain rfl := Option.some.inj hdisk
      exact mem_durable_flush (mem_durable.mpr ⟨hf, .inr ⟨k, hk, rfl⟩⟩)
    · cases hk'

/-- What a compaction's end does not touch. -/
theorem compactEnd_fields (l : Log) (ok : Bool) (swap : Swap) :
    (l.compactEnd ok swap).on = l.on ∧ (l.compactEnd ok swap).reservedUpto = l.reservedUpto ∧
      (l.compactEnd ok swap).opens = l.opens ∧ (l.compactEnd ok swap).streams = l.streams := by
  simp only [compactEnd]
  cases (l.flush ok).compaction with
  | none => simp
  | some k =>
    cases (l.flush ok).failed with
    | true => simp
    | false => cases swap <;> simp

/-- A compaction's end leaves a file. -/
theorem here_compactEnd (hhere : l.failed = false → l.disk.isSome = true)
    (hf : (l.compactEnd ok swap).failed = false) :
    (l.compactEnd ok swap).disk.isSome = true := by
  have hl : ∀ {f}, (l.flush ok).failed = f → f = false → (l.flush ok).disk.isSome = true := by
    rintro f hf' rfl
    refine (l.continues_flush ok).here (hhere ?_) hf'
    cases hlf : l.failed with
    | false => rfl
    | true => exact absurd (((l.continues_flush ok).failed hlf).symm.trans hf') (by decide)
  obtain ⟨-, hf', -⟩ | ⟨hf', h⟩ | ⟨k, a, -, -, h⟩ := l.compactEnd_cases ok swap
  · exact absurd (hf'.symm.trans hf) (by decide)
  · rw [h]
    exact hl hf' rfl
  · rw [h]
    rfl

/-- A log that failed in a compaction is gone from the disk. -/
theorem gone_compactEnd (hgone : l.failed = true → l.disk = none)
    (hf : (l.compactEnd ok swap).failed = true) : (l.compactEnd ok swap).disk = none := by
  obtain ⟨hf', -, h⟩ | ⟨hf', h⟩ | ⟨k, a, hf', -, h⟩ := l.compactEnd_cases ok swap
  · rw [h]
    exact (l.continues_flush ok).gone hgone hf'
  · rw [h] at hf
    exact absurd (hf'.symm.trans hf) (by decide)
  · rw [h] at hf
    exact absurd (hf'.symm.trans hf) (by decide)

/-- The same at its beginning. -/
theorem gone_compactBegin (hgone : l.failed = true → l.disk = none)
    (hf : (l.compactBegin t opens streams ok).failed = true) :
    (l.compactBegin t opens streams ok).disk = none := by
  obtain ⟨-, h⟩ | ⟨-, -, h⟩ | ⟨-, hf', h⟩ := l.compactBegin_cases t opens streams ok
  · rw [h] at hf ⊢
    exact hgone hf
  · rw [h] at hf ⊢
    exact (l.continues_flush ok).gone hgone hf
  · rw [h] at hf
    exact absurd (hf'.symm.trans hf) (by decide)

/-- A file the writer has lost by the end of a compaction was lost before, or is the whole new log. -/
theorem disk_compactEnd (hgone : l.failed = true → l.disk = none)
    (ha : (l.compactEnd ok swap).attached = false) (hc : (l.compactEnd ok swap).disk = some c) :
    (l.attached = false ∧ l.disk = some c) ∨ c ∈ l.receiving := by
  obtain ⟨hf, -, h⟩ | ⟨-, h⟩ | ⟨k, a, hf, hk, h⟩ := l.compactEnd_cases ok swap
  · rw [h, (l.continues_flush ok).gone hgone hf] at hc
    cases hc
  · rw [h] at ha hc
    replace ha : l.attached = false := (l.flush_attached ok).symm.trans ha
    exact .inl ⟨ha, (l.continues_flush ok).detached ha c hc⟩
  · rw [h] at hc
    obtain rfl := Option.some.inj hc
    have hnew : k.image ++ k.tail ∈ (l.flush ok).receiving :=
      mem_receiving.mpr ⟨hf, .inr ⟨k, hk, by rw [flush_buf hf, List.append_nil]⟩⟩
    exact .inr (mem_receiving_flush hnew)

end Log

end Handoff

end Ncrs
