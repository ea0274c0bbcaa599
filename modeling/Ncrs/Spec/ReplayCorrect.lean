import Ncrs.Native.Offline
import Ncrs.Spec.JournalCorrect

/-!
# Replaying a queue against a plain server

Shows that an uninterrupted replay of a queue of whole-file uploads, folder creations,
deletes and moves makes exactly the changes the queued operations stand for, in their order:
an operation the server refuses is tried `MAX_ATTEMPTS` times and given up, which changes
nothing there.

## Key results

- `executeOp_webdav`: one execution makes the change the operation stands for
- `replayJournal_webdav`: a whole replay ends, empties the queue and runs its changes
-/

namespace Ncrs

open FileTree

/-- The bytes of a staging file, none when it is missing. -/
def stagedContent (files : PathBuf → Option LocalFile) (s : PathBuf) : Bytes :=
  ((files s).map (·.data)).getD []

namespace MutationOp

/-- The change of the server's tree an operation stands for. -/
def change (files : PathBuf → Option LocalFile) : MutationOp → Op String Bytes
  | put p s _ => .put p (stagedContent files s)
  | mkDir p => .mkcol p
  | unlink p | rmDir p => .delete p
  | rename src dst _ _ => .move src dst
  | finishChunked p _ _ _ _ t _ _ _ _ => .put p (stagedContent files t)

/-- What is queued offline: no streamed upload, and no MOVE that holds a copy of its file. -/
def Plain : MutationOp → Prop
  | finishChunked .. => False
  | rename _ _ staging _ => staging = none
  | _ => True

@[simp] theorem change_uncond (files : PathBuf → Option LocalFile) (op : MutationOp) :
    op.uncond.change files = op.change files := by
  cases op <;> rfl

@[simp] theorem plain_uncond (op : MutationOp) : op.uncond.Plain ↔ op.Plain := by
  cases op <;> rfl

/-- Only an upload reads a file, its own staging file. -/
theorem change_congr {files files' : PathBuf → Option LocalFile} {op : MutationOp}
    (h : ∀ s, op.stagingPath = some s → files' s = files s) :
    op.change files' = op.change files := by
  cases op with
  | put p s m => simp only [change, stagedContent, h s rfl]
  | finishChunked p u n b l t m sp hd w => simp only [change, stagedContent, h t rfl]
  | mkDir p => rfl
  | unlink p => rfl
  | rmDir p => rfl
  | rename src dst s m => rfl

end MutationOp

/-- The local files a queue still needs. -/
def stagings (l : List JournalEntry) : List PathBuf := l.filterMap fun e => e.op.stagingPath

/-- The changes a queue stands for. -/
def changes (files : PathBuf → Option LocalFile) (l : List JournalEntry) :
    List (Op String Bytes) :=
  l.map fun e => e.op.change files

@[simp] theorem stagings_map_uncond (l : List JournalEntry) :
    stagings (l.map JournalEntry.uncond) = stagings l := by
  simp [stagings, List.filterMap_map, Function.comp_def]

@[simp] theorem changes_map_uncond (files : PathBuf → Option LocalFile) (l : List JournalEntry) :
    changes files (l.map JournalEntry.uncond) = changes files l := by
  simp [changes, Function.comp_def]

/-- The changes of a queue depend on its own staging files only. -/
theorem changes_congr {files files' : PathBuf → Option LocalFile} {l : List JournalEntry}
    (h : ∀ s ∈ stagings l, files' s = files s) : changes files' l = changes files l := by
  refine List.map_congr_left fun e he => ?_
  apply MutationOp.change_congr
  intro s hs
  exact h s (List.mem_filterMap.mpr ⟨e, he, hs⟩)

/-- A queue that a replay can work off: nothing is being executed, and each staging file is
    there, belongs to one entry and is named as the handles name them. -/
structure Ready (cacheDir : PathBuf) (files : PathBuf → Option LocalFile)
    (l : List JournalEntry) : Prop where
  plain : ∀ e ∈ l, e.op.Plain
  idle : ∀ e ∈ l, e.inFlight = false
  named : ∀ s ∈ stagings l, ∃ fh, s = PathBuf.writePath cacheDir fh
  present : ∀ s ∈ stagings l, (files s).isSome
  nodup : (stagings l).Nodup

namespace Ready

variable {cacheDir : PathBuf} {files files' : PathBuf → Option LocalFile}
  {l l' : List JournalEntry}

theorem map_uncond : Ready cacheDir files (l.map JournalEntry.uncond) ↔ Ready cacheDir files l := by
  constructor
  · rintro ⟨hp, hi, hn, hf, hd⟩
    simp only [stagings_map_uncond, List.forall_mem_map] at hp hi hn hf hd
    exact ⟨fun e he => (MutationOp.plain_uncond _).mp (hp e he), hi, hn, hf, hd⟩
  · rintro ⟨hp, hi, hn, hf, hd⟩
    refine ⟨?_, ?_, ?_, ?_, ?_⟩ <;> simp only [stagings_map_uncond, List.forall_mem_map]
    · exact fun e he => (MutationOp.plain_uncond _).mpr (hp e he)
    · exact hi
    · exact hn
    · exact hf
    · exact hd

/-- Conditions and unrelated local files do not matter. -/
theorem congr (h : Ready cacheDir files l)
    (hl : l'.map JournalEntry.uncond = l.map JournalEntry.uncond)
    (hfiles : ∀ s ∈ stagings l, files' s = files s) : Ready cacheDir files' l' := by
  have hs : stagings l' = stagings l := by
    rw [← stagings_map_uncond, hl, stagings_map_uncond]
  have h' := map_uncond.mp (hl ▸ map_uncond.mpr h)
  refine ⟨h'.plain, h'.idle, h'.named, ?_, h'.nodup⟩
  intro s hmem
  rw [hs] at hmem
  rw [hfiles s hmem]
  exact h.present s hmem

theorem tail {e : JournalEntry} (h : Ready cacheDir files (e :: l)) :
    Ready cacheDir files l := by
  have hsub : ∀ s ∈ stagings l, s ∈ stagings (e :: l) := fun s hs => by
    obtain ⟨x, hx, hxs⟩ := List.mem_filterMap.mp hs
    exact List.mem_filterMap.mpr ⟨x, List.mem_cons_of_mem _ hx, hxs⟩
  refine ⟨fun x hx => h.plain x (List.mem_cons_of_mem _ hx),
    fun x hx => h.idle x (List.mem_cons_of_mem _ hx),
    fun s hs => h.named s (hsub s hs), fun s hs => h.present s (hsub s hs), ?_⟩
  have hnd := h.nodup
  simp only [stagings, List.filterMap_cons] at hnd
  split at hnd
  · exact hnd
  · exact (List.nodup_cons.mp hnd).2

/-- The front's staging file is not needed by the entries behind it. -/
theorem front_notMem {e : JournalEntry} {s : PathBuf} (h : Ready cacheDir files (e :: l))
    (hs : e.op.stagingPath = some s) : s ∉ stagings l := by
  have hnd := h.nodup
  simp only [stagings, List.filterMap_cons, hs] at hnd
  exact (List.nodup_cons.mp hnd).1

/-- The marks of the front other than `in_flight` do not matter. -/
theorem front_congr {e e' : JournalEntry} (h : Ready cacheDir files (e :: l))
    (hop : e'.op = e.op) (hidle : e'.inFlight = e.inFlight) : Ready cacheDir files (e' :: l) := by
  have hs : stagings (e' :: l) = stagings (e :: l) := by
    simp only [stagings, List.filterMap_cons, hop]
  refine ⟨?_, ?_, by rw [hs]; exact h.named, by rw [hs]; exact h.present,
    by rw [hs]; exact h.nodup⟩
  · intro x hx
    rcases List.mem_cons.mp hx with rfl | hx
    · rw [hop]
      exact h.plain e List.mem_cons_self
    · exact h.plain x (List.mem_cons_of_mem _ hx)
  · intro x hx
    rcases List.mem_cons.mp hx with rfl | hx
    · rw [hidle]
      exact h.idle e List.mem_cons_self
    · exact h.idle x (List.mem_cons_of_mem _ hx)

theorem front_present {e : JournalEntry} {s : PathBuf} (h : Ready cacheDir files (e :: l))
    (hs : e.op.stagingPath = some s) : ∃ f, files s = some f :=
  Option.isSome_iff_exists.mp
    (h.present s (List.mem_filterMap.mpr ⟨e, List.mem_cons_self, hs⟩))

end Ready

/-! ## One execution -/

/-- Results after which the loop removes the entry, with what that does to its bytes. -/
def ReplayResult.Done (op : MutationOp) : ReplayResult → Prop
  | .ok | .uploaded _ | .idempotent => True
  | .conflict kind => op.stagingPath = none ∧ ∃ src dst, kind = .moveSourceGone src dst
  | .retryable _ | .serverError _ => False

section Webdav

variable {token : PathBuf → Bytes → Option String} {d : CacheDir} {c : FsCache} {stamp : String}
  {now : Nat} {t : Tree String Bytes}

/-- The outcome of one execution: the change is made and the entry is done, or the server
    refuses it, which counts as an attempt. -/
def Outcome (t : Tree String Bytes) (op : MutationOp) (files : PathBuf → Option LocalFile)
    (r : ReplayResult × FsCache × Tree String Bytes) : Prop :=
  r.2.2 = FileTree.apply t (op.change files) ∧
  (r.1.Done op ∨ (∃ msg, r.1 = .serverError msg) ∧ FileTree.apply t (op.change files) = t)

/-- A refused request is no transient failure. -/
theorem failedResult_409 (msg : String) :
    failedResult (.server 409 msg) = .serverError (BackendWriteError.server 409 msg).toText := rfl

theorem executePut_webdav {name p s : PathBuf} {m : Option String} {f : LocalFile}
    (hf : d.files s = some f) :
    Outcome t (.put p s m) d.files (executePut (webdav token) d c name now p s m t) := by
  have hchange : MutationOp.change d.files (.put p s m) = .put p f.data := by
    simp [MutationOp.change, stagedContent, hf]
  unfold Outcome
  rw [hchange]
  by_cases hok : PutOk t p
  · simp [executePut, hf, webdav, hok, ReplayResult.Done]
  · have happly : FileTree.apply t (.put p f.data) = t := if_neg hok
    rw [happly]
    simp [executePut, hf, webdav, hok, failedResult_409]

theorem executeDelete_webdav {op : MutationOp} {p : PathBuf} (hc : Closed t)
    (hop : op.change d.files = .delete p) :
    Outcome t op d.files (executeDelete (webdav token) c p t) := by
  unfold Outcome
  rw [hop]
  by_cases hp : t p = none
  · have hgone : FileTree.apply t (.delete p) = t := by
      funext q
      show (if p <+: q then none else t q) = t q
      split
      · rename_i hpq
        by_cases heq : p = q
        · rw [← heq, hp]
        · exact (hc.none_below hpq heq (by rw [hp]; simp)).symm
      · rfl
    rw [hgone]
    simp [executeDelete, webdav, hp, ReplayResult.Done]
  · simp [executeDelete, webdav, hp, ReplayResult.Done]

theorem executeMkDir_webdav {p : PathBuf} :
    Outcome t (.mkDir p) d.files (executeOp (webdav token) d c stamp now (.mkDir p) t) := by
  unfold Outcome
  simp only [MutationOp.change]
  by_cases hok : MkcolOk t p
  · simp [executeOp, webdav, hok, ReplayResult.Done]
  · have happly : FileTree.apply t (.mkcol p) = t := if_neg hok
    rw [happly]
    by_cases hd : t p = some .dir
    · simp [executeOp, webdav, hok, hd, ReplayResult.Done]
    · simp [executeOp, webdav, hok, hd, failedResult_409]

theorem executeRename_webdav {src dst : PathBuf} {m : Option String} :
    Outcome t (.rename src dst none m) d.files
      (executeOp (webdav token) d c stamp now (.rename src dst none m) t) := by
  unfold Outcome
  simp only [MutationOp.change]
  by_cases hsrc : t src = none
  · have happly : FileTree.apply t (.move src dst) = t := if_neg fun h => h.2.2.1 hsrc
    rw [happly]
    simp [executeOp, sendMove, sendMoveFirst, webdav, hsrc, ReplayResult.Done,
      MutationOp.stagingPath]
  · by_cases hok : MoveOk t src dst
    · simp [executeOp, sendMove, sendMoveFirst, webdav, hsrc, hok, ReplayResult.Done]
    · have happly : FileTree.apply t (.move src dst) = t := if_neg hok
      rw [happly]
      simp [executeOp, sendMove, sendMoveFirst, webdav, hsrc, hok, failedResult_409]

/-- One execution of a plain operation. -/
theorem executeOp_webdav {op : MutationOp} (hc : Closed t) (hplain : op.Plain)
    (hfile : ∀ s, op.stagingPath = some s → ∃ f, d.files s = some f) :
    Outcome t op d.files (executeOp (webdav token) d c stamp now op t) := by
  cases op with
  | put p s m =>
    obtain ⟨f, hf⟩ := hfile s rfl
    exact executePut_webdav hf
  | mkDir p => exact executeMkDir_webdav
  | unlink p => exact executeDelete_webdav hc rfl
  | rmDir p => exact executeDelete_webdav hc rfl
  | rename src dst s m =>
    obtain rfl : s = none := hplain
    exact executeRename_webdav
  | finishChunked => exact hplain.elim

end Webdav

/-! ## One round -/

/-- Claiming the front marks it, nothing else. -/
theorem claimFront_idle {j : MutationJournal} {e : JournalEntry} {rest : List JournalEntry}
    (h : j.entries = e :: rest) (hidle : e.inFlight = false) :
    claimFront j = (.entry e, { j with entries := { e with inFlight := true } :: rest }) := by
  have hfind : j.entries.find? (fun x => x.seq = e.seq) = some e := by
    rw [h, List.find?_cons_of_pos (by simp)]
  simp only [claimFront, MutationJournal.peekFront, h, List.head?_cons, hidle,
    Bool.false_eq_true, ↓reduceIte, MutationJournal.claim]
  rw [← h, hfind]
  simp [hidle, MutationJournal.modify_front h]

theorem noteLanded_entries (j : MutationJournal) (op : MutationOp) (r : ReplayResult) :
    (noteLanded j op r).entries.map JournalEntry.uncond = j.entries.map JournalEntry.uncond := by
  unfold noteLanded
  split
  · exact j.rebase_entries ..
  · exact j.rebase_entries ..
  · exact j.rebase_entries ..
  · rfl

@[simp] theorem noteLanded_files (j : MutationJournal) (op : MutationOp) (r : ReplayResult) :
    (noteLanded j op r).disk.files = j.disk.files := by
  unfold noteLanded
  split <;> simp

theorem settleBytes_entries (j : MutationJournal) (cacheDir : PathBuf) (e : JournalEntry)
    (r : ReplayResult) : (settleBytes j cacheDir e r).entries = j.entries := by
  unfold settleBytes settleConflictStaging
  split
  · split <;> simp
  · rfl

theorem recoverEntry_entries (j : MutationJournal) (cacheDir : PathBuf) (e : JournalEntry) :
    (recoverEntry j cacheDir e).2.entries = j.entries := by
  unfold recoverEntry
  split
  · simp
  · split <;> simp
  · rfl

/-- An entry that is done is removed from the front, with its own staging file at most. -/
theorem finishEntry_done (j : MutationJournal) (c : FsCache) (cacheDir : PathBuf)
    {e : JournalEntry} {r : ReplayResult} (h : r.Done e.op) :
    (finishEntry j c cacheDir e r).1 = true ∧
    (finishEntry j c cacheDir e r).2.1.entries = j.entries.tail ∧
    ∀ x, e.op.stagingPath ≠ some x →
      (finishEntry j c cacheDir e r).2.1.disk.files x = j.disk.files x := by
  have hremove : ∀ x, e.op.stagingPath ≠ some x →
      (j.dequeueFront.2.removeStaging e.op.stagingPath.toList).disk.files x = j.disk.files x := by
    intro x hx
    simp only [MutationJournal.removeStaging]
    rw [CacheDir.removeFiles_of_notMem (by simpa using hx), MutationJournal.dequeueFront_files]
  cases r with
  | ok => exact ⟨rfl, MutationJournal.dequeueFront_entries j, hremove⟩
  | uploaded etag => exact ⟨rfl, MutationJournal.dequeueFront_entries j, hremove⟩
  | idempotent => exact ⟨rfl, MutationJournal.dequeueFront_entries j, hremove⟩
  | conflict kind =>
    obtain ⟨hnone, src, dst, rfl⟩ := h
    -- The operation has no local bytes, so the conflict leaves the files alone.
    have hsettle : settleConflictStaging j cacheDir e.op (.moveSourceGone src dst) = j := by
      unfold settleConflictStaging
      split <;> simp_all [MutationOp.stagingPath]
    simp only [finishEntry, settleBytes, settleEntry, hsettle, MutationJournal.dequeueFront_entries,
      MutationJournal.dequeueFront_files, true_and]
    exact ⟨rfl, fun _ _ => rfl⟩
  | retryable msg => exact h.elim
  | serverError msg => exact h.elim

/-- Whether `w'` is `w` with its front entry worked off. -/
structure Popped (w w' : ReplayState (Tree String Bytes)) (rest : List JournalEntry)
    (server : Tree String Bytes) : Prop where
  entries : w'.journal.entries.map JournalEntry.uncond = rest.map JournalEntry.uncond
  files : ∀ s ∈ stagings rest, w'.journal.disk.files s = w.journal.disk.files s
  server : w'.server = server

section Rounds

variable {ctx : ReplayContext (Tree String Bytes)} {token : PathBuf → Bytes → Option String}
  {w : ReplayState (Tree String Bytes)} {e : JournalEntry} {rest : List JournalEntry}

/-- A round on an entry with attempts left: the entry is worked off, or it is refused and
    stands at the front with one attempt more. -/
theorem replayRound_attempt (hb : ctx.backend = webdav token) (hw : w.journal.entries = e :: rest)
    (hr : Ready ctx.cacheDir w.journal.disk.files (e :: rest)) (hc : Closed w.server)
    (ha : e.attempts < MAX_ATTEMPTS) :
    (replayRound ctx w).1 = true ∧
    (Popped w (replayRound ctx w).2 rest
        (FileTree.apply w.server (e.op.change w.journal.disk.files)) ∨
      FileTree.apply w.server (e.op.change w.journal.disk.files) = w.server ∧
      (∃ msg, (replayRound ctx w).2.journal.entries =
        { e with attempts := e.attempts + 1, lastError := some msg, destFixed := false } :: rest) ∧
      (replayRound ctx w).2.journal.disk.files = w.journal.disk.files ∧
      (replayRound ctx w).2.server = w.server) := by
  have hidle := hr.idle e List.mem_cons_self
  have hexec : Outcome w.server e.op w.journal.disk.files
      (executeOp (webdav token) w.journal.disk w.cache (ctx.stamp e.seq e.attempts)
        (ctx.now e.seq e.attempts) e.op w.server) :=
    executeOp_webdav hc (hr.plain e List.mem_cons_self) fun s hs => hr.front_present hs
  simp only [replayRound, claimFront_idle hw hidle, hb, if_neg (Nat.not_le.mpr ha)]
  generalize hx : executeOp (webdav token) w.journal.disk w.cache (ctx.stamp e.seq e.attempts)
    (ctx.now e.seq e.attempts) e.op w.server = x at hexec
  obtain ⟨hserver, hdone | ⟨⟨msg, hmsg⟩, hsame⟩⟩ := hexec
  · -- The change is made: the entry is removed and what was based on it is rebased.
    obtain ⟨hgo, hentries, hfiles⟩ := finishEntry_done
      (noteLanded { w.journal with entries := { e with inFlight := true } :: rest } e.op x.1)
      x.2.1 ctx.cacheDir hdone
    refine ⟨hgo, Or.inl ⟨?_, ?_, hserver⟩⟩
    · rw [hentries]
      have hland := noteLanded_entries
        { w.journal with entries := { e with inFlight := true } :: rest } e.op x.1
      rw [List.map_tail, hland]
      rfl
    · intro s hs
      rw [hfiles s fun hes => hr.front_notMem hes hs, noteLanded_files]
  · -- The server refuses it.
    refine ⟨by rw [hmsg]; rfl, Or.inr ⟨hsame, ?_, ?_, by rw [hserver, hsame]⟩⟩
    · refine ⟨msg, ?_⟩
      rw [hmsg]
      simp only [finishEntry, settleBytes, settleEntry, noteLanded, MutationJournal.markFailed,
        MutationJournal.saveJournal]
      rw [MutationJournal.modify_front (e := { e with inFlight := true }) rfl]
      rw [hidle]
    · rw [hmsg]
      simp only [finishEntry, settleBytes, settleEntry, noteLanded, MutationJournal.markFailed,
        MutationJournal.saveJournal]
      rw [MutationJournal.modify_front (e := { e with inFlight := true }) rfl]

/-- A round on an entry without attempts left gives it up. -/
theorem replayRound_giveUp (hw : w.journal.entries = e :: rest)
    (hr : Ready ctx.cacheDir w.journal.disk.files (e :: rest))
    (ha : MAX_ATTEMPTS ≤ e.attempts) :
    (replayRound ctx w).1 = true ∧ Popped w (replayRound ctx w).2 rest w.server := by
  have hidle := hr.idle e List.mem_cons_self
  have hplain := hr.plain e List.mem_cons_self
  simp only [replayRound, claimFront_idle hw hidle, if_pos ha, true_and]
  cases hop : e.op with
  | put p s m =>
    simp only [giveUp, recoverEntry, dropEntry, abortEntry, hop]
    refine ⟨?_, ?_, rfl⟩
    · rw [MutationJournal.dequeueFront_entries]
      simp [MutationJournal.addConflict, MutationJournal.saveConflicts]
    · intro x hx
      obtain ⟨fh, hfh⟩ := hr.tail.named x hx
      have hne : x ≠ s := by
        intro hxs
        exact hr.front_notMem (by rw [hop]; rfl) (hxs ▸ hx)
      rw [MutationJournal.dequeueFront_files]
      exact MutationJournal.recoverStaging_files hfh hne
  | mkDir p =>
    simp only [giveUp, recoverEntry, dropEntry, abortEntry, hop]
    exact ⟨by rw [MutationJournal.dequeueFront_entries]; rfl, fun _ _ => by rw [MutationJournal.dequeueFront_files]; rfl, rfl⟩
  | unlink p =>
    simp only [giveUp, recoverEntry, dropEntry, abortEntry, hop]
    exact ⟨by rw [MutationJournal.dequeueFront_entries]; rfl, fun _ _ => by rw [MutationJournal.dequeueFront_files]; rfl, rfl⟩
  | rmDir p =>
    simp only [giveUp, recoverEntry, dropEntry, abortEntry, hop]
    exact ⟨by rw [MutationJournal.dequeueFront_entries]; rfl, fun _ _ => by rw [MutationJournal.dequeueFront_files]; rfl, rfl⟩
  | rename src dst s m =>
    simp only [giveUp, recoverEntry, dropEntry, abortEntry, hop]
    exact ⟨by rw [MutationJournal.dequeueFront_entries]; rfl, fun _ _ => by rw [MutationJournal.dequeueFront_files]; rfl, rfl⟩
  | finishChunked =>
    rw [hop] at hplain
    exact hplain.elim

/-- The front entry is worked off after finitely many rounds: it makes its change, or it is
    refused every time and given up. -/
theorem replayJournal_front (hb : ctx.backend = webdav token) (n : Nat)
    (hw : w.journal.entries = e :: rest)
    (hr : Ready ctx.cacheDir w.journal.disk.files (e :: rest)) (hc : Closed w.server)
    (hn : e.attempts + n = MAX_ATTEMPTS)
    (hrefused : e.attempts = 0 ∨
      FileTree.apply w.server (e.op.change w.journal.disk.files) = w.server) :
    ∃ rounds w', (∀ k, replayJournal ctx (rounds + k) w = replayJournal ctx k w') ∧
      Popped w w' rest (FileTree.apply w.server (e.op.change w.journal.disk.files)) := by
  induction n generalizing w e with
  | zero =>
    have ha : MAX_ATTEMPTS ≤ e.attempts := by omega
    have hsame : FileTree.apply w.server (e.op.change w.journal.disk.files) = w.server := by
      rcases hrefused with h0 | h
      · rw [h0] at ha
        exact absurd ha (by decide)
      · exact h
    obtain ⟨hgo, hpop⟩ := replayRound_giveUp hw hr ha
    refine ⟨1, (replayRound ctx w).2, fun k => ?_, by rw [hsame]; exact hpop⟩
    rw [Nat.add_comm]
    simp only [replayJournal, hgo, ↓reduceIte]
  | succ n ih =>
    have ha : e.attempts < MAX_ATTEMPTS := by omega
    obtain ⟨hgo, hpop | ⟨hsame, ⟨msg, hentries⟩, hfiles, hserver⟩⟩ :=
      replayRound_attempt hb hw hr hc ha
    · refine ⟨1, (replayRound ctx w).2, fun k => ?_, hpop⟩
      rw [Nat.add_comm]
      simp only [replayJournal, hgo, ↓reduceIte]
    · -- Refused: the same entry is tried again, on the same server.
      have hr' : Ready ctx.cacheDir (replayRound ctx w).2.journal.disk.files
          ({ e with attempts := e.attempts + 1, lastError := some msg, destFixed := false }
            :: rest) := by
        rw [hfiles]
        exact hr.front_congr rfl rfl
      obtain ⟨rounds, w', hrun, hpop⟩ := ih hentries hr' (by rw [hserver]; exact hc)
        (by show e.attempts + 1 + n = _; omega)
        (Or.inr (by rw [hserver, hfiles]; exact hsame))
      refine ⟨rounds + 1, w', fun k => ?_, ?_⟩
      · rw [← hrun k, Nat.add_right_comm]
        simp only [replayJournal, hgo, ↓reduceIte]
      · refine ⟨hpop.entries, fun s hs => ?_, ?_⟩
        · rw [hpop.files s hs, hfiles]
        · rw [hpop.server, hserver, hfiles]

end Rounds

/-! ## The whole run -/

/-- A replay of a ready queue ends by itself, empties the queue, and makes the changes the
    queue stands for. -/
theorem replayJournal_webdav (ctx : ReplayContext (Tree String Bytes))
    {token : PathBuf → Bytes → Option String} (hb : ctx.backend = webdav token)
    (l : List JournalEntry) (w : ReplayState (Tree String Bytes))
    (hw : w.journal.entries.map JournalEntry.uncond = l.map JournalEntry.uncond)
    (hr : Ready ctx.cacheDir w.journal.disk.files w.journal.entries)
    (h0 : ∀ e ∈ w.journal.entries, e.attempts = 0)
    (hc : Closed w.server) (hn : ∀ o ∈ changes w.journal.disk.files l, o.Named) :
    ∃ rounds w', (∀ k, replayJournal ctx (rounds + 1 + k) w = (true, w')) ∧
      w'.journal.entries = [] ∧
      w'.server = run w.server (changes w.journal.disk.files l) := by
  induction l generalizing w with
  | nil =>
    have hnil : w.journal.entries = [] := by simpa using hw
    refine ⟨0, w, fun k => ?_, hnil, rfl⟩
    rw [Nat.zero_add, Nat.add_comm]
    simp [replayJournal, replayRound, claimFront, MutationJournal.peekFront, hnil]
  | cons x l ih =>
    -- The front of the queue is `x` up to its condition.
    obtain ⟨e, rest, hes⟩ : ∃ e rest, w.journal.entries = e :: rest := by
      cases hes : w.journal.entries with
      | nil => simp [hes] at hw
      | cons e rest => exact ⟨e, rest, rfl⟩
    rw [hes] at hw hr h0
    simp only [List.map_cons, List.cons.injEq] at hw
    have hchange : e.op.change w.journal.disk.files = x.op.change w.journal.disk.files := by
      rw [← MutationOp.change_uncond, ← JournalEntry.uncond_op, hw.1, JournalEntry.uncond_op,
        MutationOp.change_uncond]
    obtain ⟨rounds, w₁, hrun, hpop⟩ := replayJournal_front hb MAX_ATTEMPTS hes hr hc
      (by rw [h0 e List.mem_cons_self, Nat.zero_add]) (Or.inl (h0 e List.mem_cons_self))
    have hst : stagings rest = stagings l := by
      rw [← stagings_map_uncond, hw.2, stagings_map_uncond]
    have hsame : changes w₁.journal.disk.files l = changes w.journal.disk.files l :=
      changes_congr fun s hs => hpop.files s (by rw [hst]; exact hs)
    have h0' : ∀ e ∈ w₁.journal.entries, e.attempts = 0 := by
      intro y hy
      have hy' : y.uncond ∈ rest.map JournalEntry.uncond :=
        hpop.entries ▸ List.mem_map_of_mem hy
      obtain ⟨z, hz, hzy⟩ := List.mem_map.mp hy'
      have hatt := congrArg JournalEntry.attempts hzy
      rw [JournalEntry.uncond_attempts, JournalEntry.uncond_attempts] at hatt
      rw [← hatt]
      exact h0 z (List.mem_cons_of_mem _ hz)
    have hc' : Closed w₁.server := by
      rw [hpop.server, hchange]
      exact hc.apply (hn _ List.mem_cons_self)
    obtain ⟨n, w', hn', hempty, hserver⟩ := ih w₁ (hpop.entries.trans hw.2)
      (hr.tail.congr hpop.entries hpop.files) h0' hc'
      (by rw [hsame]; exact fun o ho => hn o (List.mem_cons_of_mem _ ho))
    refine ⟨rounds + n, w', fun k => ?_, hempty, ?_⟩
    · rw [Nat.add_assoc rounds n 1, Nat.add_assoc, hrun, hn' k]
    · rw [hserver, hsame, hpop.server, hchange]
      rfl

end Ncrs
