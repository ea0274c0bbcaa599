import Ncrs.Native.Session
import Ncrs.Spec.JournalStagings

/-!
# A live handle's staging file is no queued upload's

Staging names come from a counter, and queued uploads outlive the session that counted. The
invariant `Host.Sound` relates the counter, the open handles, the handoff log and the files
the journal refers to, in memory and as saved. A restored session keeps it, because its
counter starts past every number the log covers; a fresh mount starts at 1 and keeps it only
if the saved journal refers to no `write_<fh>`. A log its daemon had stopped writing covers
less: a restore from it keeps the invariant only if it knows of the files the saved journal
refers to.

## Key results

- `Session.Sound.step`: what a running daemon does keeps the invariant
- `Host.Sound.step`: so do crashes, clean exits, restores and clear fresh mounts
- `staging_never_queued`: no handle is given, or keeps, a queued upload's staging file
- `fresh_mount_reuses_staging`: a fresh mount over a queued upload overwrites its bytes; so
  does a second restore from a log the first could not reopen
-/

namespace Ncrs

variable {σ : Type}

/-! ## The handoff log -/

namespace Restored

/-- A restored counter starts past `k`. -/
def Covers (r : Restored) (k : Nat) : Prop := k ≤ r.maxFh ∨ k < r.fhMark + FH_GAP

/-- One more record is applied. -/
theorem load_append (records : List LogRecord) (x : LogRecord) :
    load (records ++ [x]) = (load records).apply x := by
  simp [load]

/-- A record takes no number away. -/
theorem Covers.apply {r : Restored} {k : Nat} (h : r.Covers k) (x : LogRecord) :
    (r.apply x).Covers k := by
  unfold Covers at h ⊢
  cases x with
  | fh next =>
    simp only [Restored.apply]
    omega
  | opened fh wp =>
    simp only [Restored.apply]
    omega
  | closed fh => exact h

/-- An opened handle is covered. -/
theorem covers_opened (r : Restored) (fh : Nat) (wp : Option PathBuf) :
    (r.apply (.opened fh wp)).Covers fh := by
  left
  simp only [Restored.apply]
  omega

/-- A handle in the log was opened in it. -/
theorem le_maxFh {records : List LogRecord} {x : Nat × Option PathBuf}
    (hx : x ∈ (load records).handles) : x.1 ≤ (load records).maxFh := by
  induction records using List.reverseRecOn with
  | nil => cases hx
  | append_singleton records r ih =>
    rw [load_append] at hx ⊢
    cases r with
    | fh next => exact ih hx
    | opened fh wp =>
      simp only [Restored.apply, List.mem_append, List.mem_filter, List.mem_singleton] at hx ⊢
      rcases hx with ⟨hx, -⟩ | rfl
      · have := ih hx
        omega
      · show fh ≤ max _ fh
        omega
    | closed fh =>
      simp only [Restored.apply, List.mem_filter] at hx
      exact ih hx.1

/-- A compacted log restores the handles it was written from. -/
theorem mem_load_compacted {mark : Nat} {opens : List (Nat × Option PathBuf)}
    {x : Nat × Option PathBuf}
    (hx : x ∈ (load (.fh mark :: opens.map fun h => .opened h.1 h.2)).handles) : x ∈ opens := by
  induction opens using List.reverseRecOn with
  | nil => cases hx
  | append_singleton opens h ih =>
    rw [List.map_append, List.map_singleton, ← List.cons_append, load_append] at hx
    simp only [Restored.apply, List.mem_append, List.mem_filter, List.mem_singleton] at hx
    rw [List.mem_append, List.mem_singleton]
    rcases hx with ⟨hx, -⟩ | rfl
    · exact Or.inl (ih hx)
    · exact Or.inr rfl

/-- The mark survives a compaction. -/
theorem fhMark_compacted (mark : Nat) (opens : List (Nat × Option PathBuf)) :
    (load (.fh mark :: opens.map fun h => .opened h.1 h.2)).fhMark = mark := by
  induction opens using List.reverseRecOn with
  | nil => simp [load, Restored.apply]
  | append_singleton opens h ih =>
    rw [List.map_append, List.map_singleton, ← List.cons_append, load_append]
    exact ih

end Restored

namespace LogWriter

/-- A released handle is no longer open. -/
theorem handleReleased_opens (w : LogWriter) (fh : Nat) :
    (w.handleReleased fh).opens = w.opens.filter fun x => x.1 ≠ fh := by
  unfold handleReleased
  split
  · rfl
  · rename_i hany
    refine (List.filter_eq_self.mpr fun x hx => ?_).symm
    simp only [List.any_eq_true, decide_eq_true_eq, not_exists, not_and] at hany
    exact decide_eq_true (hany x hx)

/-- Releasing a handle takes no number away. -/
theorem covers_handleReleased (w : LogWriter) (fh : Nat) {k : Nat}
    (h : (Restored.load w.records).Covers k) :
    (Restored.load (w.handleReleased fh).records).Covers k := by
  unfold handleReleased
  split
  · rw [Restored.load_append]
    exact h.apply _
  · exact h

/-- What is restored after a release was restored before, without the released handle. -/
theorem mem_load_handleReleased (w : LogWriter) (fh : Nat) {x : Nat × Option PathBuf}
    (hx : x ∈ (Restored.load (w.handleReleased fh).records).handles) :
    x ∈ (Restored.load w.records).handles ∧ (x.1 = fh → ∀ y ∈ w.opens, y.1 ≠ fh) := by
  unfold handleReleased at hx
  split at hx
  · rw [Restored.load_append] at hx
    obtain ⟨h1, h2⟩ := List.mem_filter.mp hx
    exact ⟨h1, fun heq => absurd heq (of_decide_eq_true h2)⟩
  · rename_i hany
    simp only [List.any_eq_true, decide_eq_true_eq, not_exists, not_and] at hany
    exact ⟨hx, fun _ y hy => hany y hy⟩

end LogWriter

/-! ## The invariant -/

namespace Session

/-- What a file the journal refers to may be, when it has a handle's name: the number is used
    up, no open handle has it, and a restore would neither hand it out nor reopen it. -/
def Waiting (s : Session) (p : PathBuf) : Prop :=
  ∀ k, p = PathBuf.writePath s.cacheDir k →
    k < s.nextFh ∧ (∀ h ∈ s.openFiles, h.fh ≠ k) ∧
    ∀ w, s.log = some w → (Restored.load w.records).Covers k ∧ ∀ x ∈ w.opens, x.1 ≠ k

/-- The log knows the open handles, and only handles it would rebuild under their own name. -/
structure Logged (s : Session) (w : LogWriter) : Prop where
  replayed : ∀ x ∈ (Restored.load w.records).handles,
    (∃ y ∈ w.opens, y.1 = x.1) ∧ ∀ p, x.2 = some p → p = PathBuf.writePath s.cacheDir x.1
  opens : ∀ x ∈ w.opens, x.1 < s.nextFh ∧ ∀ p, x.2 = some p → p = PathBuf.writePath s.cacheDir x.1
  covered : ∀ h ∈ s.openFiles, (Restored.load w.records).Covers h.fh

/-- A restore reopens every handle of the log under its own file. -/
def NamesHandles (records : List LogRecord) (cacheDir : PathBuf) : Prop :=
  ∀ x ∈ (Restored.load records).handles, ∀ p, x.2 = some p → p = PathBuf.writePath cacheDir x.1

/-- What a session keeps to: its staging files are those of handles that are gone for good. -/
structure Sound (s : Session) : Prop where
  waiting : Within s.Waiting s.journal
  handles : ∀ h ∈ s.openFiles, h.fh < s.nextFh ∧
    ∀ p, h.writePath = some p → p = PathBuf.writePath s.cacheDir h.fh
  logged : ∀ w, s.log = some w → s.Logged w
  left : ∀ records, s.leftLog = some records → NamesHandles records s.cacheDir

end Session

/-- The log covers every handle's file the saved journal refers to, and has none of them open. -/
def CoversSaved (disk : CacheDir) (records : List LogRecord) (cacheDir : PathBuf) : Prop :=
  EntriesWithin (fun p => ∀ k, p = PathBuf.writePath cacheDir k →
    (Restored.load records).Covers k ∧ ∀ x ∈ (Restored.load records).handles, x.1 ≠ k)
    (disk.journalFile.getD [])

/-- What the disk alone must satisfy for a restore. A log that was written to the end covers
    the saved journal; one that was not need not. -/
def Host.Sound : Host → Prop
  | .up s => s.Sound
  | .down disk log behind cacheDir => ∀ records, log = some records →
    Session.NamesHandles records cacheDir ∧ (behind = false → CoversSaved disk records cacheDir)

/-- The events that would break the invariant: a fresh mount over a saved journal that refers
    to a handle's file, a restore from a log its daemon had stopped writing when the saved
    journal refers to a file beyond that log, and a compaction after more handles than a
    restore skips. -/
def Host.Clear : Host → HostEvent σ → Prop
  | .down disk _ _ cacheDir, .mountFresh =>
    EntriesWithin (fun p => ∀ k, p ≠ PathBuf.writePath cacheDir k) (disk.journalFile.getD [])
  | .down disk (some records) true cacheDir, .restore _ _ => CoversSaved disk records cacheDir
  | .up s, .compact => ∀ w, s.log = some w → s.nextFh ≤ w.lastFhMark + FH_GAP
  | _, _ => True

/-- A weaker property of the staging files. -/
theorem Within.mono {P Q : PathBuf → Prop} {j : MutationJournal} (h : Within P j)
    (hpq : ∀ p, P p → Q p) : Within Q j :=
  ⟨fun e he s hs => hpq s (h.queued e he s hs), fun e he s hs => hpq s (h.saved e he s hs)⟩

namespace Session.Sound

variable {s : Session}

/-- Only the journal changes, and it refers to no new file. -/
theorem of_journal (h : s.Sound) {j : MutationJournal} (hj : Within s.Waiting j) :
    Session.Sound { s with journal := j } := by
  refine ⟨hj, h.handles, fun w hw => ?_, h.left⟩
  have hl := h.logged w hw
  exact ⟨hl.replayed, hl.opens, hl.covered⟩

/-- A number is used up. -/
theorem takeFh (h : s.Sound) : s.takeFh.Sound := by
  refine ⟨h.waiting.mono fun p hp k hk => ?_, fun x hx => ?_, fun w hw => ?_, h.left⟩
  · obtain ⟨h1, h2, h3⟩ := hp k hk
    exact ⟨Nat.lt_succ_of_lt h1, h2, h3⟩
  · obtain ⟨h1, h2⟩ := h.handles x hx
    exact ⟨Nat.lt_succ_of_lt h1, h2⟩
  · have hl := h.logged w hw
    refine ⟨hl.replayed, fun x hx => ?_, hl.covered⟩
    obtain ⟨h1, h2⟩ := hl.opens x hx
    exact ⟨Nat.lt_succ_of_lt h1, h2⟩

/-- Writing a staging file queues none. -/
theorem writeStaging (h : s.Sound) (p : PathBuf) (f : LocalFile) :
    (s.writeStaging p f).Sound := h.of_journal (h.waiting.refers.of_files _).within

/-- Nor does removing one. -/
theorem removeStaging (h : s.Sound) (p : PathBuf) : (s.removeStaging p).Sound :=
  h.of_journal (h.waiting.refers.removeFiles _).within

/-- A handle whose number no queued file has. -/
theorem insertHandle (h : s.Sound) {x : OpenHandle} (hx : x.fh < s.nextFh)
    (hwp : ∀ p, x.writePath = some p → p = PathBuf.writePath s.cacheDir x.fh)
    (hfree : Within (fun p => p ≠ PathBuf.writePath s.cacheDir x.fh) s.journal) :
    (s.insertHandle x).Sound := by
  -- a file that waits is not the new handle's, and stays so
  have hwaiting : ∀ p, s.Waiting p → p ≠ PathBuf.writePath s.cacheDir x.fh →
      (s.insertHandle x).Waiting p := by
    intro p hp hne k hk
    have hkx : x.fh ≠ k := by
      rintro rfl
      exact hne hk
    obtain ⟨h1, h2, h3⟩ := hp k hk
    refine ⟨h1, fun y hy => ?_, fun w hw => ?_⟩
    · rcases List.mem_append.mp hy with hy | hy
      · exact h2 y hy
      · rw [List.mem_singleton.mp hy]
        exact hkx
    · obtain ⟨w₀, hw₀, rfl⟩ := Option.map_eq_some_iff.mp hw
      obtain ⟨hc, ho⟩ := h3 w₀ hw₀
      refine ⟨?_, fun y hy => ?_⟩
      · -- the log covers one record more
        show (Restored.load (w₀.records ++ [_])).Covers k
        rw [Restored.load_append]
        exact hc.apply _
      · rcases List.mem_append.mp hy with hy | hy
        · exact ho y (List.mem_of_mem_filter hy)
        · rw [List.mem_singleton.mp hy]
          exact hkx
  refine ⟨⟨?_, ?_⟩, ?_, ?_, h.left⟩
  · intro e he p hp
    exact hwaiting p (h.waiting.queued e he p hp) (hfree.queued e he p hp)
  · intro e he p hp
    exact hwaiting p (h.waiting.saved e he p hp) (hfree.saved e he p hp)
  · intro y hy
    rcases List.mem_append.mp hy with hy | hy
    · exact h.handles y hy
    · rw [List.mem_singleton.mp hy]
      exact ⟨hx, hwp⟩
  · intro w hw
    -- the log with the handle's record
    obtain ⟨w₀, hw₀, rfl⟩ := Option.map_eq_some_iff.mp hw
    have hl := h.logged w₀ hw₀
    have hload : Restored.load (w₀.handleOpened x.fh x.writePath).records =
        (Restored.load w₀.records).apply (.opened x.fh x.writePath) := Restored.load_append ..
    refine ⟨?_, ?_, ?_⟩
    · intro y hy
      rw [hload] at hy
      simp only [Restored.apply, List.mem_append, List.mem_filter, List.mem_singleton] at hy
      rcases hy with ⟨hy, hne⟩ | rfl
      · obtain ⟨⟨z, hz, hzy⟩, hp⟩ := hl.replayed y hy
        refine ⟨⟨z, List.mem_append_left _ (List.mem_filter.mpr ⟨hz, ?_⟩), hzy⟩, hp⟩
        rw [hzy]
        exact hne
      · exact ⟨⟨_, List.mem_append_right _ (List.mem_singleton_self _), rfl⟩, hwp⟩
    · intro y hy
      rcases List.mem_append.mp hy with hy | hy
      · exact hl.opens y (List.mem_of_mem_filter hy)
      · rw [List.mem_singleton.mp hy]
        exact ⟨hx, hwp⟩
    · intro y hy
      rw [hload]
      rcases List.mem_append.mp hy with hy | hy
      · exact (hl.covered y hy).apply _
      · rw [List.mem_singleton.mp hy]
        exact Restored.covers_opened ..

/-- The next handle's staging file is no queued upload's. -/
theorem next_free (h : s.Sound) :
    Within (fun p => p ≠ PathBuf.writePath s.cacheDir s.nextFh) s.journal := by
  refine h.waiting.mono fun p hp hk => ?_
  have := (hp s.nextFh hk).1
  omega

/-- An open handle's staging file is no queued upload's. -/
theorem handle_free (h : s.Sound) {x : OpenHandle} (hx : x ∈ s.openFiles) :
    Within (fun p => p ≠ PathBuf.writePath s.cacheDir x.fh) s.journal := by
  refine h.waiting.mono fun p hp hk => ?_
  exact (hp x.fh hk).2.1 x hx rfl

/-! ### What a running daemon does -/

/-- Opening a file takes a number of its own. -/
theorem openFile (h : s.Sound) (path : PathBuf) (writable truncating : Bool)
    (etag : Option String) (staged : Option LocalFile) :
    (s.openFile path writable truncating etag staged).Sound := by
  have hwp : ∀ p, (if writable then some (PathBuf.writePath s.cacheDir s.nextFh) else none) =
      some p → p = PathBuf.writePath s.cacheDir s.nextFh := by
    intro p hp
    split at hp
    · exact (Option.some.inj hp).symm
    · cases hp
  unfold Session.openFile
  dsimp only
  split
  · exact (h.takeFh.writeStaging _ _).insertHandle (Nat.lt_succ_self _) hwp
      (h.next_free.refers.of_files _).within
  · exact h.takeFh.insertHandle (Nat.lt_succ_self _) hwp h.next_free

/-- So does creating one. -/
theorem create (h : s.Sound) (path : PathBuf) : (s.create path).Sound := by
  refine (h.takeFh.writeStaging _ _).insertHandle (Nat.lt_succ_self _) (fun p hp => ?_)
    (h.next_free.refers.of_files _).within
  exact (Option.some.inj hp).symm

/-- Handles change other than in their number and in the name of their staging file. -/
theorem mapHandles (h : s.Sound) {f : OpenHandle → OpenHandle} (hfh : ∀ x, (f x).fh = x.fh)
    (hf : ∀ x ∈ s.openFiles, ∀ p, (f x).writePath = some p →
      p = PathBuf.writePath s.cacheDir x.fh) :
    Session.Sound { s with openFiles := s.openFiles.map f } := by
  refine ⟨h.waiting.mono fun p hp k hk => ?_, fun y hy => ?_, fun w hw => ?_, h.left⟩
  · obtain ⟨h1, h2, h3⟩ := hp k hk
    refine ⟨h1, fun y hy => ?_, h3⟩
    obtain ⟨x, hx, rfl⟩ := List.mem_map.mp hy
    rw [hfh]
    exact h2 x hx
  · obtain ⟨x, hx, rfl⟩ := List.mem_map.mp hy
    rw [hfh]
    exact ⟨(h.handles x hx).1, hf x hx⟩
  · have hl := h.logged w hw
    refine ⟨hl.replayed, hl.opens, fun y hy => ?_⟩
    obtain ⟨x, hx, rfl⟩ := List.mem_map.mp hy
    rw [hfh]
    exact hl.covered x hx

/-- Unlinking a path leaves the handles their numbers. -/
theorem markUnlinked (h : s.Sound) (path : PathBuf) : (s.markUnlinked path).Sound := by
  apply h.mapHandles
  · intro x
    split <;> rfl
  · intro x hx p hp
    refine (h.handles x hx).2 p ?_
    split at hp <;> exact hp

end Session.Sound

/-- The staging file a write through an open handle goes to. -/
theorem Session.Sound.target {s : Session} (h : s.Sound) {x : OpenHandle} (hx : x ∈ s.openFiles) :
    x.writePath.getD (PathBuf.writePath s.cacheDir x.fh) = PathBuf.writePath s.cacheDir x.fh := by
  cases hw : x.writePath with
  | none => rfl
  | some p => exact (h.handles x hx).2 p hw

/-- A handle that is found is open under its number. -/
theorem Session.handle_some {s : Session} {fh : Nat} {x : OpenHandle} (hx : s.handle fh = some x) :
    x ∈ s.openFiles ∧ x.fh = fh := by
  have h1 := List.mem_of_find?_eq_some hx
  have h2 := List.find?_some hx
  exact ⟨h1, of_decide_eq_true h2⟩

namespace Session.Sound

variable {s : Session}

/-- Writing to a handle writes to its own staging file. -/
theorem writeHandle (h : s.Sound) (fh : Nat) (f : LocalFile) : (s.writeHandle fh f).Sound := by
  unfold Session.writeHandle
  split
  · exact h
  · rename_i x hx
    obtain ⟨hmem, rfl⟩ := Session.handle_some hx
    rw [h.target hmem]
    refine (h.writeStaging _ f).mapHandles (fun y => ?_) fun y hy p hp => ?_
    · split <;> rfl
    · split at hp
      · rename_i heq
        rw [heq]
        exact (Option.some.inj hp).symm
      · exact (h.handles y hy).2 p hp

/-- A handle closes, in memory and in the log. -/
theorem closeHandle (h : s.Sound) (fh : Nat) :
    Session.Sound { s with
      openFiles := s.openFiles.filter fun x => x.fh ≠ fh
      log := s.log.map fun w => w.handleReleased fh } := by
  refine ⟨h.waiting.mono fun p hp k hk => ?_, fun y hy => ?_, fun w hw => ?_, h.left⟩
  · obtain ⟨h1, h2, h3⟩ := hp k hk
    refine ⟨h1, fun y hy => h2 y (List.mem_of_mem_filter hy), fun w hw => ?_⟩
    obtain ⟨w₀, hw₀, rfl⟩ := Option.map_eq_some_iff.mp hw
    obtain ⟨hc, ho⟩ := h3 w₀ hw₀
    refine ⟨w₀.covers_handleReleased fh hc, fun y hy => ?_⟩
    rw [LogWriter.handleReleased_opens] at hy
    exact ho y (List.mem_of_mem_filter hy)
  · exact h.handles y (List.mem_of_mem_filter hy)
  · obtain ⟨w₀, hw₀, rfl⟩ := Option.map_eq_some_iff.mp hw
    have hl := h.logged w₀ hw₀
    refine ⟨fun x hx => ?_, fun x hx => ?_, fun x hx => ?_⟩
    · obtain ⟨hx', hne⟩ := w₀.mem_load_handleReleased fh hx
      obtain ⟨⟨y, hy, hyx⟩, hp⟩ := hl.replayed x hx'
      refine ⟨⟨y, ?_, hyx⟩, hp⟩
      rw [LogWriter.handleReleased_opens, List.mem_filter]
      refine ⟨hy, decide_eq_true fun heq => ?_⟩
      exact hne (hyx ▸ heq) y hy heq
    · rw [LogWriter.handleReleased_opens] at hx
      exact hl.opens x (List.mem_of_mem_filter hx)
    · exact w₀.covers_handleReleased fh (hl.covered x (List.mem_of_mem_filter hx))

/-- The staging file of a handle that has closed may be queued. -/
theorem waiting_closed (h : s.Sound) {x : OpenHandle} (hx : x ∈ s.openFiles) :
    Session.Waiting { s with
      openFiles := s.openFiles.filter fun y => y.fh ≠ x.fh
      log := s.log.map fun w => w.handleReleased x.fh } (PathBuf.writePath s.cacheDir x.fh) := by
  intro k hk
  obtain rfl : x.fh = k := PathBuf.writePath_inj.mp hk
  refine ⟨(h.handles x hx).1, fun y hy => ?_, fun w hw => ?_⟩
  · exact of_decide_eq_true (List.mem_filter.mp hy).2
  · obtain ⟨w₀, hw₀, rfl⟩ := Option.map_eq_some_iff.mp hw
    refine ⟨w₀.covers_handleReleased x.fh ((h.logged w₀ hw₀).covered x hx), fun y hy => ?_⟩
    rw [LogWriter.handleReleased_opens] at hy
    exact of_decide_eq_true (List.mem_filter.mp hy).2

/-- Releasing a handle queues its staging file, under a number that is gone for good. -/
theorem release (h : s.Sound) (fh : Nat) (commit : Commit) : (s.release fh commit).Sound := by
  unfold Session.release
  split
  · exact h
  · rename_i x hx
    obtain ⟨hmem, rfl⟩ := Session.handle_some hx
    have hclosed := h.closeHandle x.fh
    dsimp only
    split
    · exact hclosed
    · rename_i wp hwp
      obtain rfl := (h.handles x hmem).2 wp hwp
      -- unlinked, with nothing to commit, or dirty
      split
      · split
        · exact hclosed.removeStaging _
        · exact hclosed
      · split
        · exact hclosed.removeStaging _
        · split
          · exact hclosed
          · apply hclosed.of_journal
            refine ((hclosed.waiting.refers.enqueue fun p hp => ?_).supersedeUploads _ _).within
            have hstaging : ∀ wp, (commitOp x wp commit).stagingPath = some wp := by
              intro wp
              cases commit <;> rfl
            rw [hstaging] at hp
            rw [← Option.some.inj hp]
            exact h.waiting_closed hmem

/-- An upload that is done takes its entry away. -/
theorem uploadDone (h : s.Sound) (seq : SeqId) : (s.uploadDone seq).Sound := by
  unfold Session.uploadDone
  split
  · exact h
  · rename_i e he
    split
    · exact h.of_journal (h.waiting.refers.remove seq).within
    · rename_i wp hwp
      have hs : s.Waiting wp := h.waiting.queued e (List.mem_of_find?_eq_some he) wp hwp
      have hj := (h.waiting.refers.handStagingToRename e.op.path hs).remove seq
      dsimp only
      split
      · exact h.of_journal hj.within
      · exact h.of_journal (hj.removeFiles _).within

/-- Live operations bring no staging files. -/
theorem journal (h : s.Sound) {op : LiveOp} (hop : bringsStaging op = false) :
    Session.Sound { s with journal := op.apply s.journal } := by
  apply h.of_journal
  refine (h.waiting.refers.live op ?_ ?_).within
  · rintro o rfl p hp
    simp [bringsStaging, hp] at hop
  · rintro p q rfl
    simp [bringsStaging] at hop

/-- The log takes a record that concerns no handle. -/
theorem tick (h : s.Sound) :
    Session.Sound { s with log := s.log.map fun w => w.tick s.nextFh } := by
  have hload : ∀ w : LogWriter,
      (Restored.load (w.tick s.nextFh).records).handles = (Restored.load w.records).handles ∧
      (w.tick s.nextFh).opens = w.opens ∧
      ∀ k, (Restored.load w.records).Covers k →
        (Restored.load (w.tick s.nextFh).records).Covers k := by
    intro w
    unfold LogWriter.tick
    split
    · dsimp only
      rw [Restored.load_append]
      exact ⟨rfl, rfl, fun k hk => hk.apply _⟩
    · exact ⟨rfl, rfl, fun k hk => hk⟩
  refine ⟨h.waiting.mono fun p hp k hk => ?_, h.handles, fun w hw => ?_, h.left⟩
  · obtain ⟨h1, h2, h3⟩ := hp k hk
    refine ⟨h1, h2, fun w hw => ?_⟩
    obtain ⟨w₀, hw₀, rfl⟩ := Option.map_eq_some_iff.mp hw
    obtain ⟨hc, ho⟩ := h3 w₀ hw₀
    obtain ⟨-, hopens, hcov⟩ := hload w₀
    rw [hopens]
    exact ⟨hcov k hc, ho⟩
  · obtain ⟨w₀, hw₀, rfl⟩ := Option.map_eq_some_iff.mp hw
    have hl := h.logged w₀ hw₀
    obtain ⟨hhandles, hopens, hcov⟩ := hload w₀
    refine ⟨?_, ?_, fun x hx => hcov _ (hl.covered x hx)⟩
    · rw [hhandles, hopens]
      exact hl.replayed
    · rw [hopens]
      exact hl.opens

/-- A compacted log keeps the mark only, so the mark must be recent enough. -/
theorem compact (h : s.Sound) {w : LogWriter} (hw : s.log = some w)
    (hmark : s.nextFh ≤ w.lastFhMark + FH_GAP) :
    Session.Sound { s with log := some w.compact, leftLog := none } := by
  have hcov : ∀ k < s.nextFh, (Restored.load w.compact.records).Covers k := by
    intro k hk
    right
    have hm : (Restored.load w.compact.records).fhMark = w.lastFhMark :=
      Restored.fhMark_compacted ..
    omega
  have hl := h.logged w hw
  refine ⟨h.waiting.mono fun p hp k hk => ?_, h.handles, fun w' hw' => ?_,
    fun records hr => nomatch hr⟩
  · obtain ⟨h1, h2, h3⟩ := hp k hk
    refine ⟨h1, h2, fun w' hw' => ?_⟩
    obtain rfl := Option.some.inj hw'
    exact ⟨hcov k h1, (h3 w hw).2⟩
  · obtain rfl := Option.some.inj hw'
    refine ⟨fun x hx => ?_, hl.opens, fun x hx => hcov _ (h.handles x hx).1⟩
    have hx' := Restored.mem_load_compacted hx
    exact ⟨⟨x, hx', rfl⟩, (hl.opens x hx').2⟩

/-- The writer goes on in a file that is no longer the log: what was in the log still names
    its handles. -/
theorem compactedUnopened (h : s.Sound) {w : LogWriter} (hw : s.log = some w) :
    Session.Sound { s with leftLog := some (s.leftLog.getD w.records) } := by
  refine ⟨h.waiting, h.handles, fun w' hw' => ?_, fun records hr => ?_⟩
  · have hl := h.logged w' hw'
    exact ⟨hl.replayed, hl.opens, hl.covered⟩
  · obtain rfl := Option.some.inj hr
    cases hleft : s.leftLog with
    | none => exact fun x hx => ((h.logged w hw).replayed x hx).2
    | some records => exact h.left records hleft

/-- Without a log there is nothing to restore from, and nothing to ask of it. -/
theorem logFailed (h : s.Sound) : Session.Sound { s with log := none, leftLog := none } := by
  refine ⟨h.waiting.mono fun p hp k hk => ?_, h.handles, fun w hw => ?_,
    fun records hr => ?_⟩
  · obtain ⟨h1, h2, -⟩ := hp k hk
    exact ⟨h1, h2, fun w hw => nomatch hw⟩
  · cases hw
  · cases hr

/-- Nothing a running daemon does breaks the invariant. -/
theorem step (h : s.Sound) (ev : HostEvent σ) (hclear : (Host.up s).Clear ev) :
    (s.step ev).Sound := by
  cases ev with
  | openFile path writable truncating etag staged =>
    exact h.openFile path writable truncating etag staged
  | openFailed => exact h.takeFh.removeStaging _
  | openDir => exact h.takeFh
  | create path => exact h.create path
  | writeHandle fh f => exact h.writeHandle fh f
  | release fh commit => exact h.release fh commit
  | markUnlinked path => exact h.markUnlinked path
  | uploadDone seq => exact h.uploadDone seq
  | journal op =>
    cases hop : bringsStaging op with
    | true =>
      rw [Session.step, hop]
      exact h
    | false =>
      rw [Session.step, hop]
      exact h.journal hop
  -- the replayer's rounds refer to the staging files of the journal
  | replay b server stamp now => exact h.of_journal (h.waiting.refers.replayRound _).within
  | tick => exact h.tick
  | compact =>
    -- a compaction may keep the old log open or lose it
    rw [Session.step]
    split
    · exact h
    · rename_i w hw
      exact h.compact hw (hclear w hw)
  | compactedUnopened =>
    rw [Session.step]
    split
    · exact h
    · rename_i w hw
      exact h.compactedUnopened hw
  | logFailed =>
    rw [Session.step]
    split
    · exact h
    · exact h.logFailed
  | crash => exact h
  | cleanExit => exact h
  | mountFresh => exact h
  | restore reopened state => exact h

end Session.Sound

/-! ## Sessions that end and start -/

/-- A loaded entry keeps its staging file. -/
theorem stagingPath_loadEntry {files : PathBuf → Option LocalFile} {e e' : JournalEntry}
    (h : MutationJournal.loadEntry files e = some e') {p : PathBuf}
    (hp : e'.op.stagingPath = some p) : e.op.stagingPath = some p := by
  unfold MutationJournal.loadEntry at h
  split at h
  · split at h
    · rw [Option.some.inj h]
      exact hp
    · rw [← Option.some.inj h] at hp
      cases hp
  · rw [Option.some.inj h]
    exact hp
  · split at h
    · split at h
      · rw [Option.some.inj h]
        exact hp
      · cases h
    · rw [Option.some.inj h]
      exact hp

/-- A loaded journal refers to what the saved one refers to. -/
theorem Within.loadOrCreate {P : PathBuf → Prop} {disk : CacheDir}
    (h : EntriesWithin P (disk.journalFile.getD [])) :
    Within P (MutationJournal.loadOrCreate disk) := by
  have hconflicts : ∀ (l : List JournalEntry) (msg : JournalEntry → ConflictKind)
      (j : MutationJournal), Within P j →
      Within P (l.foldl (fun j e => j.addConflict (msg e)) j) := by
    intro l msg
    induction l with
    | nil => exact fun j hj => hj
    | cons e l ih => exact fun j hj => ih _ (hj.refers.addConflict _).within
  -- the lost entries become conflicts, which have no staging file
  have hloaded := hconflicts
    ((disk.journalFile.getD []).filter fun e => (MutationJournal.loadEntry disk.files e).isNone)
    (fun e => .permanentFailure s!"staging file missing for journal entry seq={e.seq}")
    { entries := ((disk.journalFile.getD []).filterMap (MutationJournal.loadEntry disk.files)).filter fun e =>
        decide (e.seq ∉ ((disk.journalFile.getD []).filter fun e =>
          (MutationJournal.loadEntry disk.files e).isNone).map (·.seq))
      nextSeq := MutationJournal.maxOf ((disk.journalFile.getD []).map (·.seq)) + 1
      conflicts := disk.conflictsFile.getD []
      nextConflictId := MutationJournal.maxOf ((disk.conflictsFile.getD []).map (·.id)) + 1
      disk := disk }
    ⟨fun e he p hp => by
      obtain ⟨x, hx, hload⟩ := List.mem_filterMap.mp (List.mem_filter.mp he).1
      exact h x hx p (stagingPath_loadEntry hload hp), h⟩
  unfold MutationJournal.loadOrCreate
  dsimp only
  split
  · exact hloaded
  · exact ⟨hloaded.queued, hloaded.saved⟩

/-- The sweep removes files that no entry has. -/
theorem Within.sweep {P : PathBuf → Prop} {j : MutationJournal} (h : Within P j)
    (cacheDir : PathBuf) (protect : List PathBuf) : Within P (Session.sweep j cacheDir protect) :=
  (h.refers.of_files _).within

/-- A fresh mount over a journal that refers to no handle's file. -/
theorem Session.Sound.mountFresh {disk : CacheDir} {cacheDir : PathBuf}
    (h : EntriesWithin (fun p => ∀ k, p ≠ PathBuf.writePath cacheDir k)
      (disk.journalFile.getD [])) : (Session.mountFresh disk cacheDir).Sound := by
  refine ⟨((Within.loadOrCreate h).sweep cacheDir []).mono fun p hp k hk => ?_, ?_, ?_,
    fun records hr => nomatch hr⟩
  · exact absurd hk (hp k)
  · intro x hx
    cases hx
  · intro w hw
    obtain rfl := Option.some.inj hw
    have hempty : (Restored.load [.fh 0]).handles = [] := rfl
    refine ⟨fun x hx => ?_, fun x hx => ?_, fun x hx => ?_⟩
    · rw [hempty] at hx
      cases hx
    · cases hx
    · cases hx

/-- A rebuilt handle has the number and the file of its record. -/
theorem Session.rebuild_some {disk : CacheDir} {state : Nat → OpenHandle}
    {x : Nat × Option PathBuf} {h : OpenHandle}
    (hx : Session.rebuild disk state x = some h) : h.fh = x.1 ∧ h.writePath = x.2 := by
  unfold Session.rebuild at hx
  split at hx
  · rename_i wp hwp
    split at hx
    · rw [← Option.some.inj hx]
      exact ⟨rfl, hwp.symm⟩
    · cases hx
  · rename_i hwp
    rw [← Option.some.inj hx]
    exact ⟨rfl, hwp.symm⟩

/-- A restored daemon: its counter starts past every number the log covers, and the handles
    it reopens are those of the log, whether or not it can go on logging. -/
theorem Session.Sound.restore {disk : CacheDir} {records : List LogRecord} {cacheDir : PathBuf}
    (hnames : NamesHandles records cacheDir) (hsaved : CoversSaved disk records cacheDir)
    (reopened : Bool) (state : Nat → OpenHandle) :
    (Session.restore disk records cacheDir reopened state).Sound := by
  have hnext : ∀ k, (Restored.load records).Covers k →
      k < (Session.restore disk records cacheDir reopened state).nextFh := by
    intro k hk
    show k < max 1 (max ((Restored.load records).maxFh + 1) ((Restored.load records).fhMark + FH_GAP))
    unfold Restored.Covers at hk
    omega
  have hopen : ∀ y ∈ (Session.restore disk records cacheDir reopened state).openFiles,
      ∃ x ∈ (Restored.load records).handles, y.fh = x.1 ∧ y.writePath = x.2 := by
    intro y hy
    obtain ⟨x, hx, hy⟩ := List.mem_filterMap.mp hy
    exact ⟨x, hx, Session.rebuild_some hy⟩
  -- the log is the old one, unless it could not be reopened
  have hlog : ∀ w, (Session.restore disk records cacheDir reopened state).log = some w →
      w.records = records ∧ w.opens = (Restored.load records).handles := by
    intro w hw
    cases reopened with
    | true =>
      obtain rfl := Option.some.inj hw
      exact ⟨rfl, rfl⟩
    | false => cases hw
  refine ⟨((Within.loadOrCreate hsaved).sweep cacheDir _).mono fun p hp k hk => ?_,
    fun y hy => ?_, fun w hw => ?_, fun left hleft => ?_⟩
  · -- what waits is covered by the log, and free of its handles
    obtain ⟨hc, hfree⟩ := hp k hk
    refine ⟨hnext k hc, fun y hy => ?_, fun w hw => ?_⟩
    · obtain ⟨x, hx, hfh, -⟩ := hopen y hy
      rw [hfh]
      exact hfree x hx
    · obtain ⟨hrecords, hopens⟩ := hlog w hw
      rw [hrecords, hopens]
      exact ⟨hc, hfree⟩
  · obtain ⟨x, hx, hfh, hwp⟩ := hopen y hy
    rw [hfh, hwp]
    exact ⟨hnext _ (Or.inl (Restored.le_maxFh hx)), hnames x hx⟩
  · obtain ⟨hrecords, hopens⟩ := hlog w hw
    refine ⟨fun x hx => ?_, fun x hx => ?_, fun y hy => ?_⟩
    · rw [hrecords] at hx
      rw [hopens]
      exact ⟨⟨x, hx, rfl⟩, hnames x hx⟩
    · rw [hopens] at hx
      exact ⟨hnext _ (Or.inl (Restored.le_maxFh hx)), hnames x hx⟩
    · obtain ⟨x, hx, hfh, -⟩ := hopen y hy
      rw [hrecords, hfh]
      exact Or.inl (Restored.le_maxFh hx)
  · cases reopened with
    | true => cases hleft
    | false =>
      obtain rfl := Option.some.inj hleft
      exact hnames

/-- A daemon that dies while it was writing its log leaves a disk that log covers. -/
theorem Session.Sound.coversSaved {s : Session} (h : s.Sound) {w : LogWriter}
    (hw : s.log = some w) : CoversSaved s.journal.disk w.records s.cacheDir := by
  have hl := h.logged w hw
  intro e he p hp k hk
  obtain ⟨hc, hfree⟩ := (h.waiting.saved e he p hp k hk).2.2 w hw
  refine ⟨hc, fun x hx => ?_⟩
  obtain ⟨⟨y, hy, hyx⟩, -⟩ := hl.replayed x hx
  rw [← hyx]
  exact hfree y hy

/-- A crash keeps the invariant, whichever log file it leaves. -/
theorem Session.Sound.crash {s : Session} (h : s.Sound) :
    (Host.down s.journal.disk s.logFile s.leftLog.isSome s.cacheDir).Sound := by
  intro records hr
  unfold Session.logFile at hr
  cases hleft : s.leftLog with
  | some left =>
    rw [hleft] at hr
    obtain rfl := Option.some.inj hr
    exact ⟨h.left left hleft, fun hbehind => nomatch hbehind⟩
  | none =>
    rw [hleft] at hr
    obtain ⟨w, hw, rfl⟩ := Option.map_eq_some_iff.mp hr
    exact ⟨fun x hx => ((h.logged w hw).replayed x hx).2, fun _ => h.coversSaved hw⟩

/-- One event of the machine keeps the invariant. -/
theorem Host.Sound.step {h : Host} (hs : h.Sound) (ev : HostEvent σ) (hclear : h.Clear ev) :
    (h.step ev).Sound := by
  cases h with
  | up s =>
    cases ev with
    | crash => exact Session.Sound.crash hs
    | cleanExit => exact fun records hr => nomatch hr
    | _ => exact Session.Sound.step hs _ hclear
  | down disk log behind cacheDir =>
    cases ev with
    | mountFresh => exact Session.Sound.mountFresh hclear
    | restore reopened state =>
      cases log with
      | none => exact hs
      | some records =>
        obtain ⟨hnames, hsaved⟩ := hs records rfl
        refine Session.Sound.restore hnames ?_ reopened state
        cases behind with
        | true => exact hclear
        | false => exact hsaved rfl
    | _ => exact hs

/-- Every event of a run meets `Clear` in the state it happens in. -/
def Host.ClearRun : Host → List (HostEvent σ) → Prop
  | _, [] => True
  | h, ev :: rest => h.Clear ev ∧ (h.step ev).ClearRun rest

/-- A run whose events are clear keeps the host sound. -/
theorem Host.Sound.steps {h : Host} (hs : h.Sound) {events : List (HostEvent σ)}
    (hclear : h.ClearRun events) : (h.steps events).Sound := by
  induction events generalizing h with
  | nil => exact hs
  | cons ev rest ih => exact ih (hs.step ev hclear.1) hclear.2

/-! ## Main results -/

/-- The steps that create, truncate, seed, write or discard a handle's staging file. -/
def HostEvent.onHandle : HostEvent σ → Bool
  | .openFile .. | .openFailed | .create _ | .writeHandle _ _ | .release _ _ => true
  | _ => false

/-- Queueing an upload takes a sequence number. -/
theorem MutationJournal.nextSeq_commit (j : MutationJournal) (h : OpenHandle) (wp : PathBuf)
    (commit : Commit) (path : PathBuf) (newest : SeqId) :
    ((j.enqueue (Session.commitOp h wp commit)).2.supersedeUploads path newest).nextSeq ≠
      j.nextSeq := by
  have hsup : ∀ j : MutationJournal, (j.supersedeUploads path newest).nextSeq = j.nextSeq := by
    intro j
    unfold supersedeUploads
    dsimp only
    split
    · rfl
    · rfl
  have henq : (j.enqueue (Session.commitOp h wp commit)).2.nextSeq = j.nextSeq + 1 := by
    cases commit <;> rfl
  rw [hsup, henq]
  exact Nat.succ_ne_self _

namespace Session

/-- Writing another file. -/
theorem files_writeStaging {s : Session} {p q : PathBuf} (f : LocalFile) (h : q ≠ p) :
    (s.writeStaging p f).journal.disk.files q = s.journal.disk.files q := by
  simp [writeStaging, CacheDir.writeFile, h]

/-- Removing another file. -/
theorem files_removeStaging {s : Session} {p q : PathBuf} (h : q ≠ p) :
    (s.removeStaging p).journal.disk.files q = s.journal.disk.files q := by
  simp [removeStaging, MutationJournal.removeStaging, CacheDir.removeFiles, CacheDir.removeFile, h]

/-- A step on a handle touches the file of that handle only, unless it queues it. -/
theorem Sound.onHandle_files {s : Session} (h : s.Sound) {ev : HostEvent σ}
    (hev : ev.onHandle = true) (hsame : (s.step ev).journal.nextSeq = s.journal.nextSeq)
    {e : JournalEntry} (he : e ∈ s.journal.entries) {p : PathBuf}
    (hp : e.op.stagingPath = some p) :
    (s.step ev).journal.disk.files p = s.journal.disk.files p := by
  have hnext := h.next_free.queued e he p hp
  cases ev with
  | openFile path writable truncating etag staged =>
    unfold Session.step Session.openFile
    dsimp only
    split
    · exact files_writeStaging (s := s.takeFh) _ hnext
    · rfl
  | openFailed => exact files_removeStaging (s := s.takeFh) hnext
  | create path => exact files_writeStaging (s := s.takeFh) _ hnext
  | writeHandle fh f =>
    -- the handle writes to its own file, which no entry has
    unfold Session.step Session.writeHandle
    dsimp only
    split
    · rfl
    · rename_i x hx
      obtain ⟨hmem, rfl⟩ := Session.handle_some hx
      rw [h.target hmem]
      exact files_writeStaging _ ((h.handle_free hmem).queued e he p hp)
  | release fh commit =>
    revert hsame
    unfold Session.step Session.release
    dsimp only
    split
    · exact fun _ => rfl
    · rename_i x hx
      obtain ⟨hmem, rfl⟩ := Session.handle_some hx
      have hfree := (h.handle_free hmem).queued e he p hp
      split
      · exact fun _ => rfl
      · rename_i wp hwp
        obtain rfl := (h.handles x hmem).2 wp hwp
        split
        · split
          · exact fun _ => files_removeStaging hfree
          · exact fun _ => rfl
        · split
          · exact fun _ => files_removeStaging hfree
          · split
            · exact fun _ => rfl
            -- a commit that queues nothing new is none
            · -- A commit queues the file.
              intro hsame
              exact absurd hsame (MutationJournal.nextSeq_commit _ _ _ _ _ _)
  | _ => cases hev

end Session

/-- In every run of any number of sessions over one cache directory whose events are all
    clear, whenever a daemon runs: the staging file the next handle gets is no queued upload's,
    nor is that of an open handle; so a step on a handle that queues nothing leaves the bytes
    of every queued upload alone. -/
theorem staging_never_queued (disk : CacheDir) (cacheDir : PathBuf) (events : List (HostEvent σ))
    (hclear : (Host.down disk none false cacheDir).ClearRun events) (s : Session)
    (hup : (Host.down disk none false cacheDir).steps events = .up s) :
    (∀ e ∈ s.journal.entries, e.op.stagingPath ≠ some (PathBuf.writePath s.cacheDir s.nextFh)) ∧
    (∀ x ∈ s.openFiles, (∀ p, x.writePath = some p → p = PathBuf.writePath s.cacheDir x.fh) ∧
      ∀ e ∈ s.journal.entries, e.op.stagingPath ≠ some (PathBuf.writePath s.cacheDir x.fh)) ∧
    ∀ ev : HostEvent σ, ev.onHandle = true →
      (s.step ev).journal.nextSeq = s.journal.nextSeq →
      ∀ e ∈ s.journal.entries, ∀ p, e.op.stagingPath = some p →
        (s.step ev).journal.disk.files p = s.journal.disk.files p := by
  have hsound : s.Sound := by
    have h : (Host.down disk none false cacheDir).Sound := fun records hr => nomatch hr
    have h := h.steps hclear
    rw [hup] at h
    exact h
  refine ⟨fun e he hp => ?_, fun x hx => ⟨(hsound.handles x hx).2, fun e he hp => ?_⟩, ?_⟩
  · exact hsound.next_free.queued e he _ hp rfl
  · exact (hsound.handle_free hx).queued e he _ hp rfl
  · intro ev hev hsame e he p hp
    exact hsound.onHandle_files hev hsame he hp

/-- A daemon killed with an upload of a new file still queued. -/
def killedWithUpload : List (HostEvent Unit) :=
  [.mountFresh, .create ["f"], .writeHandle 1 { data := [1, 2] }, .release 1 .whole, .crash]

/-- A cache directory without files. -/
def emptyDisk : CacheDir := { files := fun _ => none }

/-- Its fresh successor gives the next new file the same staging file: the queued upload of
    `/f` is emptied. -/
theorem fresh_mount_reuses_staging :
    let before := Host.steps (.down emptyDisk none false ["cache"]) (killedWithUpload ++ [.mountFresh])
    let after := before.step (.create ["g"] : HostEvent Unit)
    ∃ s s', before = .up s ∧ after = .up s' ∧
      s.journal.entries.map (·.op) = [.put ["f"] ["cache", "write_1"] none] ∧
      s.journal.disk.files ["cache", "write_1"] = some { data := [1, 2] } ∧
      s'.openFiles.map (·.writePath) = [some ["cache", "write_1"]] ∧
      s'.journal.entries = s.journal.entries ∧
      s'.journal.disk.files ["cache", "write_1"] = some { data := [] } := by
  refine ⟨_, _, rfl, rfl, ?_, ?_, ?_, ?_, ?_⟩ <;> decide

/-- A handle that has nothing to write. -/
def plainHandle : OpenHandle := { fh := 0, remotePath := [], writePath := none }

/-- So does a second restore from a log that the first could not reopen: both count from the
    same mark. -/
example :
    let restore : HostEvent Unit := .restore false fun _ => plainHandle
    ∃ s, Host.steps (.down emptyDisk none false ["cache"])
        [.mountFresh, .crash, restore, .create ["f"], .writeHandle FH_GAP { data := [1, 2] },
          .release FH_GAP .whole, .crash, restore] = .up s ∧
      s.journal.entries.map (·.op.stagingPath) = [some (PathBuf.writePath ["cache"] s.nextFh)] := by
  exact ⟨_, rfl, by decide⟩

/-- A daemon killed with an upload queued, and its successor killed as well, which could not
    reopen the log. -/
def killedTwice : List (HostEvent Unit) :=
  killedWithUpload ++
    [.restore false fun _ => plainHandle, .crash, .restore true fun _ => plainHandle]

/-- The run meets the condition at both kills. -/
theorem killedTwice_clear :
    (Host.down emptyDisk none false ["cache"]).ClearRun killedTwice := by
  refine ⟨(fun e he => nomatch he), trivial, trivial, trivial, trivial, trivial, trivial, ?_,
    trivial⟩
  -- The log the second restore reads ends with the closing of `write_1`'s handle.
  intro e he p hp k hk
  obtain rfl := List.mem_singleton.mp he
  obtain rfl := Option.some.inj hp
  obtain rfl : 1 = k := PathBuf.writePath_inj.mp hk
  exact ⟨Or.inl (by decide), fun x hx => nomatch hx⟩

/-- Restored successors keep away from it. -/
theorem restored_mount_keeps_staging :
    ∃ s, Host.steps (.down emptyDisk none false ["cache"]) killedTwice = .up s ∧
      s.journal.entries.map (·.op) = [.put ["f"] ["cache", "write_1"] none] ∧
      ((s.step (.create ["g"] : HostEvent Unit)).journal.disk.files ["cache", "write_1"] =
        some { data := [1, 2] }) := by
  refine ⟨_, rfl, by decide, ?_⟩
  have hfiles := (staging_never_queued emptyDisk ["cache"] _ killedTwice_clear _ rfl).2.2
    (.create ["g"]) rfl rfl _ (List.mem_singleton_self _) ["cache", "write_1"] (by decide)
  exact hfiles.trans (by decide)

end Ncrs
