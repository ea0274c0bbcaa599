import Ncrs.Spec.ChunkedFinishCorrect
import Ncrs.Spec.ReplayCorrect

/-!
# The replay and the only copy of a user's bytes

A staging file that holds the whole of an upload, or of a moved file, leaves its place only
when the server has accepted the bytes or when they go to `unsynced/`. The server is an
arbitrary `CloudBackend`, so its answers come in any order; `recording` adds the list of the
requests it accepted, each with the bytes it brought. Those of an assembled session are its
accepted chunks in the order of their indices.

## Key results

- `executeOp_accounted`: what each outcome of an execution says about the bytes
- `SessionsReady.replayRound`: the sessions of queued uploads keep the chunks that were counted
- `replay_keeps_user_bytes`: in every round of every sequence of runs, bytes are waiting,
  accepted or recovered
- `replay_destroys_moved_copy`: a MOVE whose copy cannot be uploaded loses it
-/

namespace Ncrs

variable {σ : Type}

/-! ## What the server accepted -/

/-- A request the server accepted that brought bytes to a path or to an upload session. -/
inductive Accepted where
  | put (path : PathBuf) (data : Bytes)
  | move (src dst : PathBuf)
  | chunk (uploadsBase : String) (index : Nat) (data : Bytes)
  | assembled (uploadsBase : String) (path : PathBuf) (data : Bytes)
  deriving DecidableEq, Repr

/-- The chunk a session has at an index: the one accepted last. -/
def sessionChunks (uploadsBase : String) (log : List Accepted) (index : Nat) : Option Bytes :=
  log.reverse.findSome? fun a =>
    match a with
    | .chunk u i data => if u = uploadsBase ∧ i = index then some data else none
    | _ => none

/-- The accepted chunks of a session, in the order of their indices. -/
def sessionBytes (uploadsBase : String) (log : List Accepted) : Bytes :=
  let bound := log.foldl (fun n a => match a with
    | .chunk _ i _ => max n (i + 1)
    | _ => n) 0
  (List.range bound).flatMap fun i => (sessionChunks uploadsBase log i).getD []

/-- Adds `a` to the accepted requests when the answer is a success. -/
def noteAccepted {α : Type} (answer : Answer σ α) (log : List Accepted) (a : Accepted) :
    Answer (σ × List Accepted) α :=
  (answer.1, answer.2, match answer.1 with
    | .ok _ => log ++ [a]
    | .error _ => log)

/-- The server `b` with the list of the requests it accepted. -/
def recording (b : CloudBackend σ) : CloudBackend (σ × List Accepted) where
  putFile p f m s := noteAccepted (b.putFile p f m s.1) s.2 (.put p f.data)
  mkdir p s := ((b.mkdir p s.1).1, (b.mkdir p s.1).2, s.2)
  delete p s := ((b.delete p s.1).1, (b.delete p s.1).2, s.2)
  rename src dst m s := noteAccepted (b.rename src dst m s.1) s.2 (.move src dst)
  putChunk u i data s := noteAccepted (b.putChunk u i data s.1) s.2 (.chunk u i data)
  finishChunkedUpload u p m mtime len s :=
    noteAccepted (b.finishChunkedUpload u p m mtime len s.1) s.2 (.assembled u p (sessionBytes u s.2))
  abortChunkedUpload u s := (b.abortChunkedUpload u s.1, s.2)
  listSelf p s := ((b.listSelf p s.1).1, (b.listSelf p s.1).2, s.2)

/-- What a call that succeeded was asked to do is noted. -/
theorem mem_noteAccepted {α : Type} {answer : Answer σ α} {log : List Accepted} {a : Accepted}
    {v : α} (h : (noteAccepted answer log a).1 = .ok v) : a ∈ (noteAccepted answer log a).2.2 := by
  have hok : answer.1 = .ok v := h
  simp only [noteAccepted, hok]
  exact List.mem_append_right _ (List.mem_singleton_self a)

/-- An upload that succeeded is noted with its bytes. -/
theorem recording_putFile {b : CloudBackend σ} {p : PathBuf} {f : LocalFile} {m : Option String}
    {s : σ × List Accepted} {r : PutResult} (h : ((recording b).putFile p f m s).1 = .ok r) :
    .put p f.data ∈ ((recording b).putFile p f m s).2.2 := mem_noteAccepted h

/-- A MOVE that succeeded is noted. -/
theorem recording_rename {b : CloudBackend σ} {src dst : PathBuf} {m : Option String}
    {s : σ × List Accepted} {r : Unit} (h : ((recording b).rename src dst m s).1 = .ok r) :
    .move src dst ∈ ((recording b).rename src dst m s).2.2 := mem_noteAccepted h

/-! ### The chunks of a session -/

/-- An accepted request changes the chunks of a session if it brings one. -/
theorem sessionChunks_append (u : String) (log : List Accepted) (a : Accepted) :
    sessionChunks u (log ++ [a]) = match a with
      | .chunk u' i data =>
        if u' = u then Function.update (sessionChunks u log) i (some data) else sessionChunks u log
      | _ => sessionChunks u log := by
  funext i
  cases a with
  | chunk u' i' data =>
    by_cases hu : u' = u
    · by_cases hi : i' = i
      · simp [sessionChunks, hu, hi]
      · simp [sessionChunks, hu, hi, Function.update_of_ne (Ne.symm hi)]
    · simp [sessionChunks, hu]
  | put p data => simp [sessionChunks]
  | move src dst => simp [sessionChunks]
  | assembled u' p data => simp [sessionChunks]

/-- The accepted chunks are the session of the recorded server. -/
def recordedSession (b : CloudBackend σ) (u : String) : ChunkSession (recording b) u where
  chunks s := some (sessionChunks u s.2)
  put_ok index body s h := by
    refine ⟨_, rfl, ?_⟩
    have hok : (b.putChunk u index body s.1).1 = .ok () := h
    simp only [recording, noteAccepted, hok, sessionChunks_append, if_true]
  put_error index body s e h := by
    have herr : (b.putChunk u index body s.1).1 = .error e := h
    left
    simp only [recording, noteAccepted, herr]
  finish path m mtime len s := by
    left
    cases h : (b.finishChunkedUpload u path m mtime len s.1).1 with
    | ok v => simp only [recording, noteAccepted, h, sessionChunks_append]
    | error e => simp only [recording, noteAccepted, h]

/-- No chunk lies past the bound of the concatenation. -/
theorem sessionChunks_eq_none {u : String} {log : List Accepted} {i : Nat}
    (h : log.foldl (fun n a => match a with
      | .chunk _ i _ => max n (i + 1)
      | _ => n) 0 ≤ i) : sessionChunks u log i = none := by
  -- Induction on the log, from its newest request.
  induction log using List.reverseRecOn with
  | nil => rfl
  | append_singleton log a ih =>
    rw [List.foldl_append] at h
    rw [sessionChunks_append]
    cases a with
    | chunk u' i' data =>
      simp only [List.foldl_cons, List.foldl_nil] at h
      have hne : i ≠ i' := by omega
      have hold := ih (by omega)
      dsimp only
      split
      · rw [Function.update_of_ne hne, hold]
      · exact hold
    | put p data => exact ih h
    | move src dst => exact ih h
    | assembled u' p data => exact ih h

/-- A session whose chunks are the file is assembled as the file. -/
theorem sessionBytes_of_assembles {u : String} {log : List Accepted} {content : Bytes}
    (h : Assembles (sessionChunks u log) content) : sessionBytes u log = content := by
  obtain ⟨n, hnone, hcontent⟩ := h
  unfold sessionBytes
  generalize hbound : log.foldl _ 0 = bound
  have hpast : ∀ i, bound ≤ i → sessionChunks u log i = none := fun i hi =>
    sessionChunks_eq_none (hbound ▸ hi)
  rw [← hcontent]
  -- Both ranges end with nothing but gaps.
  have hext : ∀ {m k}, (∀ i, m ≤ i → sessionChunks u log i = none) →
      (List.range (m + k)).flatMap (fun i => (sessionChunks u log i).getD []) =
        (List.range m).flatMap fun i => (sessionChunks u log i).getD [] := by
    intro m k hm
    have hgaps : (List.range k).flatMap (fun i => (sessionChunks u log (m + i)).getD []) = [] := by
      rw [List.flatMap_eq_nil_iff]
      intro i _
      rw [hm _ (Nat.le_add_right m i)]
      rfl
    rw [List.range_add, List.flatMap_append, List.flatMap_map, hgaps, List.append_nil]
  rcases Nat.le_total n bound with hle | hle
  · obtain ⟨k, rfl⟩ := Nat.exists_eq_add_of_le hle
    exact hext hnone
  · obtain ⟨k, rfl⟩ := Nat.exists_eq_add_of_le hle
    exact (hext hpast).symm

/-! ### Retries -/

/-- A failure stays the same failure when the result is forgotten. -/
theorem eq_error_of_map {α : Type} {r : Except BackendWriteError α} {e : BackendWriteError}
    (h : (r.map fun _ => ()) = .error e) : r = .error e := by
  cases r with
  | ok v => cases h
  | error e' => exact congrArg Except.error (Except.error.inj h)

/-- A success is one when the result is forgotten. -/
theorem eq_ok_of_map {α : Type} {r : Except BackendWriteError α}
    (h : (r.map fun _ => ()) = .ok ()) : ∃ v, r = .ok v := by
  cases r with
  | ok v => exact ⟨v, rfl⟩
  | error e => cases h

/-! ## The bytes of an operation -/

namespace MutationOp

/-- The path an operation brings its bytes to. -/
def dest : MutationOp → PathBuf
  | rename _ dst _ _ => dst
  | op => op.path

/-- The local file that holds every byte of the upload or of the moved file. -/
def wholeStaging : MutationOp → Option PathBuf
  | put _ s _ => some s
  | finishChunked _ _ _ _ _ tail _ _ _ true => some tail
  | rename _ _ s _ => s
  | _ => none

/-- A file that an entry has whole is its staging file. -/
theorem stagingPath_of_whole {op : MutationOp} {s : PathBuf} (h : op.wholeStaging = some s) :
    op.stagingPath = some s := by
  cases op with
  | finishChunked p u n b l t m sp hd w =>
    cases w with
    | true => exact h
    | false => cases h
  | put => exact h
  | rename => exact h
  | mkDir => cases h
  | unlink => cases h
  | rmDir => cases h

/-- The condition of an entry does not change which file it has whole. -/
@[simp] theorem wholeStaging_uncond (op : MutationOp) :
    op.uncond.wholeStaging = op.wholeStaging := by
  cases op with
  | finishChunked p u n b l t m sp hd w => cases w <;> rfl
  | _ => rfl

end MutationOp

/-- The accepted request brought the bytes `f` of `op` to its destination or to its
    conflicted-copy name. -/
def Accepted.Covers (stamp : String) (op : MutationOp) (f : LocalFile) : Accepted → Prop
  | put p data => (p = op.dest ∨ p = makeConflictName stamp op.dest) ∧ data = f.data
  | move src p => op.path = src ∧ (p = op.dest ∨ p = makeConflictName stamp op.dest)
  | chunk _ _ _ => False
  | assembled u p data =>
    (∃ rp n b l t m sp hd w, op = .finishChunked rp u n b l t m sp hd w) ∧
      (p = op.dest ∨ p = makeConflictName stamp op.dest) ∧ data = f.data

/-- The server refuses the local copy of a moved file with 404: as the replacement for a
    source that is gone, or under the conflicted-copy name. -/
def CopyRefused (b : CloudBackend σ) (src dst copyName : PathBuf) (f : LocalFile)
    (ifMatch : Option String) (s : σ) : Prop :=
  let moved := b.rename src dst ifMatch s
  (∃ msg, moved.1 = .error (.server 404 msg)) ∧
    (let put := b.putFile dst f ifMatch moved.2
     (∃ msg, put.1 = .error (.server 404 msg)) ∨
      put.1 = .error .conflict ∧
        ∃ msg, (b.putFile copyName f none put.2).1 = .error (.server 404 msg)) ∨
  moved.1 = .error .conflict ∧
    (let aside := b.rename src copyName none moved.2
     (∃ msg, aside.1 = .error (.server 404 msg)) ∧
      ∃ msg, (b.putFile copyName f none aside.2).1 = .error (.server 404 msg))

/-- After a finish that failed with a conflict or 404 the server lists, at the destination, a
    file that passes for this upload's assembly. -/
def TakenForLanded (b : CloudBackend σ) (d : CacheDir) (uploadsBase : String)
    (nextIndex bytesConfirmed totalLen : Nat) (tailPath : PathBuf) (sparse : Bool) (head : Nat)
    (remotePath : PathBuf) (ifMatch : Option String) (s : σ) : Prop :=
  let mtime := (d.files tailPath).bind (·.mtime)
  let sent := sendChunkedFinish b d uploadsBase nextIndex bytesConfirmed totalLen tailPath sparse
    head remotePath ifMatch mtime s
  (sent.1 = .error .conflict ∨ ∃ msg, sent.1 = .error (.server 404 msg)) ∧
    ∃ l, (b.listSelf remotePath sent.2).1 = some l ∧ isOurAssembly l totalLen mtime ifMatch = true

/-- The server assembles, under the conflicted-copy name, a session one of whose chunk requests it has
just refused. -/
def AssembledPartly (b : CloudBackend σ) (d : CacheDir) (uploadsBase : String)
    (nextIndex bytesConfirmed totalLen : Nat) (tailPath : PathBuf) (sparse : Bool) (head : Nat)
    (remotePath copyName : PathBuf) (ifMatch : Option String) (s : σ) : Prop :=
  let done := finishChunked b d uploadsBase nextIndex bytesConfirmed totalLen tailPath sparse head true
    remotePath ifMatch s
  (chunksSent b d uploadsBase nextIndex bytesConfirmed totalLen tailPath sparse head s).1 ≠ .ok () ∧
    done.1 = .error .conflict ∧
    ∃ v, (b.finishChunkedUpload uploadsBase copyName none none totalLen done.2).1 = .ok v

/-! ## One execution -/

/-- What the outcome of an execution says about the bytes `f` of `op`: removed bytes have been
    accepted, and a conflict that keeps them is one of an upload. -/
def Accounted (stamp : String) (op : MutationOp) (f : LocalFile) (r : ReplayResult)
    (log : List Accepted) : Prop :=
  match r with
  | .ok | .uploaded _ | .conflict (.editConflict _ _) => ∃ a ∈ log, a.Covers stamp op f
  | .conflict _ => ∀ src dst st m, op ≠ .rename src dst st m
  | .idempotent => False
  | .retryable _ | .serverError _ => True

/-- A failure that is none of the server's special answers keeps the entry. -/
theorem accounted_failedResult (stamp : String) (op : MutationOp) (f : LocalFile)
    (e : BackendWriteError) (log : List Accepted) :
    Accounted stamp op f (failedResult e) log := by
  unfold failedResult
  split <;> trivial

/-- A copy that failed is no success to account for. -/
theorem accounted_failedCopy (stamp : String) (op : MutationOp) (f : LocalFile) (verb : String)
    (name : PathBuf) (e : BackendWriteError) (log : List Accepted) :
    Accounted stamp op f (failedCopy verb name e) log := by
  unfold failedCopy
  dsimp only
  split <;> trivial

section Recording

variable {b : CloudBackend σ} {d : CacheDir} {c : FsCache} {stamp : String} {now : Nat}
  {s : σ × List Accepted}

/-- What an upload reports is accounted for by what the server accepted. -/
theorem executePut_accounted {p staging : PathBuf} {m : Option String} {f : LocalFile}
    (hf : d.files staging = some f) :
    let r := executePut (recording b) d c (makeConflictName stamp p) now p staging m s
    Accounted stamp (.put p staging m) f r.1 r.2.2.2 := by
  intro r
  have hr : r = executePut (recording b) d c (makeConflictName stamp p) now p staging m s := rfl
  unfold executePut at hr
  simp only [hf] at hr
  split at hr
  · -- Accepted at the destination.
    rename_i v hput
    rw [hr]
    exact ⟨_, recording_putFile hput, Or.inl rfl, rfl⟩
  · split at hr
    · -- Accepted under the conflicted-copy name.
      rename_i v hcopy
      rw [hr]
      exact ⟨_, recording_putFile hcopy, Or.inr rfl, rfl⟩
    · rw [hr]
      exact accounted_failedCopy ..
  · rw [hr]
    intro src dst st m' h
    cases h
  · rw [hr]
    exact accounted_failedResult ..

/-- A conflicted copy that was saved is uploaded, or moved aside on the server. -/
theorem saveConflictCopy_accepted {src copyName : PathBuf} {f : LocalFile} {fromCopy : Bool}
    (h : (saveConflictCopy (recording b) src copyName (some f) fromCopy s).1 = .ok ()) :
    .put copyName f.data ∈ (saveConflictCopy (recording b) src copyName (some f) fromCopy s).2.2 ∨
    .move src copyName ∈
      (saveConflictCopy (recording b) src copyName (some f) fromCopy s).2.2 := by
  have hput : ∀ s', ((((recording b).putFile copyName f none s').1.map fun _ => ()) = .ok ()) →
      .put copyName f.data ∈ ((recording b).putFile copyName f none s').2.2 := by
    intro s' hs'
    obtain ⟨v, hr⟩ := eq_ok_of_map hs'
    exact recording_putFile hr
  cases fromCopy with
  | true => exact Or.inl (hput s h)
  | false =>
    simp only [saveConflictCopy] at h ⊢
    split at h
    · rename_i msg f' _ hsome
      cases hsome
      exact Or.inl (hput _ h)
    · exact Or.inr (recording_rename h)

/-- The first request of a MOVE with a copy: it succeeds by the MOVE or by an upload of the
    copy, and a 404 is the answer to that upload. -/
theorem sendMoveFirst_cases (b : CloudBackend σ) (src dst : PathBuf) (f : LocalFile)
    (m : Option String) (s : σ × List Accepted) :
    let moved := (recording b).rename src dst m s
    let put := (recording b).putFile dst f m moved.2
    ((∃ msg, moved.1 = .error (.server 404 msg)) ∧
      sendMoveFirst (recording b) src dst (some f) m s = ((put.1.map fun _ => (), true), put.2)) ∨
    ((∀ msg, moved.1 ≠ .error (.server 404 msg)) ∧
      sendMoveFirst (recording b) src dst (some f) m s = ((moved.1, false), moved.2)) := by
  intro moved put
  unfold sendMoveFirst
  dsimp only
  split
  · rename_i msg f' hmoved hsome
    cases hsome
    exact Or.inl ⟨⟨msg, hmoved⟩, rfl⟩
  · rename_i hnot
    exact Or.inr ⟨fun msg hmsg => hnot msg f hmsg rfl, rfl⟩

/-- A conflicted copy ends in 404 only with the upload of the local copy. -/
theorem saveConflictCopy_404 {src copyName : PathBuf} {f : LocalFile} {fromCopy : Bool}
    {msg : String}
    (h : (saveConflictCopy (recording b) src copyName (some f) fromCopy s).1 =
      .error (.server 404 msg)) :
    fromCopy = true ∧ (∃ msg, ((recording b).putFile copyName f none s).1 =
        .error (.server 404 msg)) ∨
    fromCopy = false ∧ (∃ msg, ((recording b).rename src copyName none s).1 =
        .error (.server 404 msg)) ∧
      ∃ msg, ((recording b).putFile copyName f none
        ((recording b).rename src copyName none s).2).1 = .error (.server 404 msg) := by
  cases fromCopy with
  | true => exact Or.inl ⟨rfl, msg, eq_error_of_map h⟩
  | false =>
    right
    simp only [saveConflictCopy] at h
    split at h
    · rename_i msg' f' hmoved hsome
      cases hsome
      exact ⟨rfl, ⟨msg', hmoved⟩, msg, eq_error_of_map h⟩
    · rename_i hnot
      exact absurd rfl (hnot msg f h)

/-- What the outcome of a MOVE with a local copy says about the copy. -/
def MoveAccounted (stamp : String) (op : MutationOp) (f : LocalFile) (o : MoveOutcome)
    (log : List Accepted) : Prop :=
  match o with
  | .moved | .conflictCopy _ => ∃ a ∈ log, a.Covers stamp op f
  | .sourceGone => False
  | .failed _ => True

/-- A MOVE with a local copy that the server does not refuse: the copy is accounted for. -/
theorem sendMove_accounted {src dst staging : PathBuf} {m : Option String} {f : LocalFile}
    (hf : d.files staging = some f)
    (hclear : ¬ CopyRefused (recording b) src dst (makeConflictName stamp dst) f m s) :
    let r := sendMove (recording b) d src dst (some staging) m (makeConflictName stamp dst) s
    MoveAccounted stamp (.rename src dst (some staging) m) f r.1 r.2.2 := by
  intro r
  have hr : r = sendMove (recording b) d src dst (some staging) m
    (makeConflictName stamp dst) s := rfl
  simp only [sendMove, Option.bind_some, hf] at hr
  have hcases := sendMoveFirst_cases b src dst f m s
  dsimp only at hcases
  generalize hmoved : (recording b).rename src dst m s = moved at hcases
  generalize hput : (recording b).putFile dst f m moved.2 = put at hcases
  simp only [CopyRefused, hmoved, hput] at hclear
  split at hr
  · -- Accepted at the destination, by the MOVE or by the upload of the copy.
    rename_i hok
    rw [hr]
    -- the copy was uploaded after a 404, or the MOVE itself went through
    rcases hcases with ⟨-, heq⟩ | ⟨-, heq⟩
    · rw [heq] at hok ⊢
      obtain ⟨v, hres⟩ := eq_ok_of_map hok
      rw [← hput] at hres ⊢
      exact ⟨_, recording_putFile hres, Or.inl rfl, rfl⟩
    · rw [heq] at hok ⊢
      rw [← hmoved] at hok ⊢
      exact ⟨_, recording_rename hok, rfl, Or.inl rfl⟩
  · rename_i hconflict
    split at hr
    · -- Accepted under the conflicted-copy name.
      rename_i hsaved
      rw [hr]
      -- uploaded from the local bytes, or moved under the copy's name
      rcases saveConflictCopy_accepted hsaved with hacc | hacc
      · exact ⟨_, hacc, Or.inr rfl, rfl⟩
      · exact ⟨_, hacc, rfl, Or.inr rfl⟩
    · -- The copy itself was refused.
      rename_i msg hsaved
      exfalso
      -- every way the copy can be refused is one of the condition's
      rcases hcases with ⟨h404, heq⟩ | ⟨-, heq⟩ <;> rw [heq] at hconflict hsaved <;>
        rcases saveConflictCopy_404 hsaved with ⟨hfrom, hrefused⟩ | ⟨hfrom, haside, hrefused⟩
      · exact hclear (Or.inl ⟨h404, Or.inr ⟨eq_error_of_map hconflict, hrefused⟩⟩)
      · cases hfrom
      · cases hfrom
      · exact hclear (Or.inr ⟨hconflict, haside, hrefused⟩)
    · rw [hr]
      trivial
  · -- The source is gone and so is the destination's folder.
    rename_i msg h404
    exfalso
    -- the upload after a 404 found no folder, which the condition excludes
    rcases hcases with ⟨hmv, heq⟩ | ⟨hno, heq⟩
    · rw [heq] at h404
      exact hclear (Or.inl ⟨hmv, Or.inl ⟨msg, eq_error_of_map h404⟩⟩)
    · rw [heq] at h404
      exact hno msg h404
  · rw [hr]
    trivial

/-- What a rename reports is accounted for by what the server accepted. -/
theorem executeRename_accounted {src dst staging : PathBuf} {m : Option String} {f : LocalFile}
    (hf : d.files staging = some f)
    (hclear : ¬ CopyRefused (recording b) src dst (makeConflictName stamp dst) f m s) :
    let r := executeOp (recording b) d c stamp now (.rename src dst (some staging) m) s
    Accounted stamp (.rename src dst (some staging) m) f r.1 r.2.2.2 := by
  intro r
  have hmove := sendMove_accounted hf hclear
  have hr : r = executeOp (recording b) d c stamp now (.rename src dst (some staging) m) s := rfl
  simp only [executeOp] at hr
  -- A source that is gone does not come up: the copy would have been refused.
  split at hr <;> rename_i hout <;> simp only [hout, MoveAccounted] at hmove <;> rw [hr]
  · exact hmove
  · exact hmove
  · exact accounted_failedResult ..

/-- A request that brings no chunk of the session leaves its chunks. -/
theorem sessionChunks_noteAccepted {α : Type} {u : String} {answer : Answer σ α}
    {log : List Accepted} {a : Accepted} (h : ∀ i data, a ≠ .chunk u i data) :
    sessionChunks u (noteAccepted answer log a).2.2 = sessionChunks u log := by
  unfold noteAccepted
  cases answer.1 with
  | error e => rfl
  | ok v =>
    dsimp only
    rw [sessionChunks_append]
    cases a with
    | chunk u' i data =>
      dsimp only
      split
      · rename_i hu
        exact absurd (hu ▸ rfl) (h i data)
      · rfl
    | _ => rfl

/-- An upload of the whole staging file leaves the chunks. -/
theorem sessionChunks_putFileFromPath {u : String} {p tail : PathBuf} {m : Option String} :
    sessionChunks u ((recording b).putFileFromPath d p tail m s).2.2 = sessionChunks u s.2 := by
  unfold CloudBackend.putFileFromPath
  split
  · exact sessionChunks_noteAccepted fun _ _ => by simp
  · rfl

/-- The assembly of a session whose chunks are the file is recorded with the file. -/
theorem recording_finish {u : String} {p : PathBuf} {m : Option String} {mtime : Option Nat}
    {len : Nat} {content : Bytes} {r : PutResult}
    (hc : Assembles (sessionChunks u s.2) content)
    (h : ((recording b).finishChunkedUpload u p m mtime len s).1 = .ok r) :
    .assembled u p content ∈ ((recording b).finishChunkedUpload u p m mtime len s).2.2 := by
  rw [← sessionBytes_of_assembles hc]
  exact mem_noteAccepted h

section Streamed

variable {u : String} {n k len : Nat} {tail : PathBuf} {sparse : Bool} {hd : Nat} {p : PathBuf}
  {m : Option String} {mtime : Option Nat} {f : LocalFile}

/-- What a whole staging file and its session have to be for each other: the session holds the bytes
that the entry counts, and the rest is in the file. -/
def SessionHolds (log : List Accepted) (u : String) (n k len : Nat) (sparse : Bool) (hd : Nat)
    (f : LocalFile) : Prop :=
  len = f.data.length ∧ hd ≤ k ∧ k ≤ len ∧ Staged f.data f.data k hd sparse ∧
    Uploaded (sessionChunks u log) f.data n k hd

variable (mtime) in
/-- Sending the rest and asking for the assembly: the session goes on holding what it held, and once
every chunk has been accepted, it holds the file. -/
theorem sendChunkedFinish_session (hf : d.files tail = some f)
    (hready : SessionHolds s.2 u n k len sparse hd f) :
    let sent := sendChunkedFinish (recording b) d u n k len tail sparse hd p m mtime s
    SessionHolds sent.2.2 u n k len sparse hd f ∧
      ((chunksSent (recording b) d u n k len tail sparse hd s).1 = .ok () →
        Assembles (sessionChunks u sent.2.2) f.data) ∧
      ∀ v, sent.1 = .ok v → .assembled u p f.data ∈ sent.2.2 := by
  obtain ⟨rfl, hhead, hle, hstaged, hup⟩ := hready
  obtain ⟨c, hc, hup', hall⟩ :=
    (recordedSession b u).chunksSent hf hstaged hhead hle rfl hup
  obtain rfl : sessionChunks u _ = c := Option.some.inj hc
  intro sent
  have hsent : sent = _ := sendChunkedFinish_eq ..
  rw [hsent]
  unfold CloudBackend.andThen
  generalize chunksSent (recording b) d u n k f.data.length tail sparse hd s = first at *
  obtain ⟨answer, s'⟩ := first
  cases answer with
  | error e =>
    exact ⟨⟨rfl, hhead, hle, hstaged, hup'⟩, fun h => (by cases h), fun v h => (by cases h)⟩
  | ok v =>
    -- A try that fails leaves the chunks, the one that succeeds is recorded with them.
    obtain ⟨hkeep, hok⟩ := CloudBackend.retryChunkWrite_keeps
      (f := (recording b).finishChunkedUpload u p m mtime f.data.length)
      (P := fun t => sessionChunks u t.2 = sessionChunks u s'.2)
      (Q := fun t => .assembled u p f.data ∈ t.2)
      (fun t ht => (sessionChunks_noteAccepted fun _ _ => by simp).trans ht)
      (fun t v ht hv => recording_finish (ht ▸ hall rfl) hv) MAX_RETRIES (s := s') rfl
    dsimp only at hkeep hok ⊢
    rw [hkeep]
    exact ⟨⟨rfl, hhead, hle, hstaged, by rw [hkeep]; exact hup'⟩, fun _ => hall rfl, hok⟩

/-- What follows a finish that failed leaves the chunks of the session. -/
theorem finishChunked_chunks :
    sessionChunks u (finishChunked (recording b) d u n k len tail sparse hd true p m s).2.2 =
      sessionChunks u (sendChunkedFinish (recording b) d u n k len tail sparse hd p m
        ((d.files tail).bind (·.mtime)) s).2.2 := by
  unfold finishChunked
  dsimp only
  split
  · rfl
  · split
    · split <;> rfl
    · split
      · rw [sessionChunks_putFileFromPath]
        split <;> rfl
      · split <;> rfl

/-- A streamed upload that succeeds, and was not taken for landed, was assembled or sent
    whole. -/
theorem finishChunked_accepted {v : PutResult} (hf : d.files tail = some f)
    (hready : SessionHolds s.2 u n k len sparse hd f)
    (hclear : ¬ TakenForLanded (recording b) d u n k len tail sparse hd p m s)
    (h : (finishChunked (recording b) d u n k len tail sparse hd true p m s).1 = .ok v) :
    .assembled u p f.data ∈
        (finishChunked (recording b) d u n k len tail sparse hd true p m s).2.2 ∨
    .put p f.data ∈ (finishChunked (recording b) d u n k len tail sparse hd true p m s).2.2 := by
  have hsent := fun mtime => (sendChunkedFinish_session mtime (b := b) (p := p) (m := m)
    hf hready).2.2
  unfold finishChunked at h ⊢
  dsimp only at h hsent ⊢
  split at h
  · -- the session was assembled
    rename_i v' hok
    exact Or.inl (hsent _ _ hok)
  · rename_i e herr
    split at h
    · -- Taken for landed: only a conflict or 404 looks at the listing.
      rename_i l hl
      exfalso
      rw [Option.filter_eq_some_iff] at hl
      apply hclear
      cases e with
      -- a conflict is compared with the listing, and so is a 404; nothing else is
      | conflict => exact ⟨Or.inl herr, l, hl.1, hl.2⟩
      | server code msg =>
        by_cases hcode : code = 404
        · subst hcode
          exact ⟨Or.inr ⟨msg, herr⟩, l, hl.1, hl.2⟩
        · simp [hcode] at hl
      | _ => simp at hl
    · split at h
      · -- The session is gone: the whole file was sent.
        rename_i hgone
        right
        simp only [CloudBackend.putFileFromPath, hf] at h ⊢
        rw [if_pos hgone]
        exact recording_putFile h
      · cases h

/-- A conflicted copy that was assembled, or sent whole, is accepted as the file. -/
theorem assembleConflictedCopy_accepted {name : PathBuf} (hf : d.files tail = some f)
    (hpartly : ∀ v, ((recording b).finishChunkedUpload u name none none len s).1 = .ok v →
      Assembles (sessionChunks u s.2) f.data)
    (h : (assembleConflictedCopy (recording b) d u name len tail true s).1 = .ok ()) :
    .assembled u name f.data ∈
        (assembleConflictedCopy (recording b) d u name len tail true s).2.2 ∨
    .put name f.data ∈ (assembleConflictedCopy (recording b) d u name len tail true s).2.2 := by
  unfold assembleConflictedCopy at h ⊢
  dsimp only at h ⊢
  split at h
  · rename_i v hok
    exact Or.inl (recording_finish (hpartly v hok) hok)
  · split at h
    · rename_i hgone
      right
      simp only [CloudBackend.putFileFromPath, hf] at h ⊢
      rw [if_pos hgone]
      obtain ⟨v, hput⟩ := eq_ok_of_map h
      exact recording_putFile hput
    · cases h

theorem executeFinish_accounted (hf : d.files tail = some f)
    (hready : SessionHolds s.2 u n k len sparse hd f)
    (hclear : ¬ TakenForLanded (recording b) d u n k len tail sparse hd p m s)
    (hpartly : ¬ AssembledPartly (recording b) d u n k len tail sparse hd p
      (makeConflictName stamp p) m s) :
    let op := MutationOp.finishChunked p u n k len tail m sparse hd true
    let r := executeOp (recording b) d c stamp now op s
    Accounted stamp op f r.1 r.2.2.2 := by
  intro op r
  have hr : r = executeOp (recording b) d c stamp now op s := rfl
  simp only [executeOp, op] at hr
  split at hr
  · rename_i v hok
    rw [hr]
    -- assembled at its path, or sent whole
    rcases finishChunked_accepted hf hready hclear hok with hacc | hacc
    · exact ⟨_, hacc, ⟨_, _, _, _, _, _, _, _, _, rfl⟩, Or.inl rfl, rfl⟩
    · exact ⟨_, hacc, Or.inl rfl, rfl⟩
  · rename_i hconflict
    -- Where the copy was assembled, every chunk had been accepted.
    have hassembled : ∀ v, ((recording b).finishChunkedUpload u (makeConflictName stamp p) none none
        len (finishChunked (recording b) d u n k len tail sparse hd true p m s).2).1 = .ok v →
        Assembles (sessionChunks u
          (finishChunked (recording b) d u n k len tail sparse hd true p m s).2.2) f.data := by
      intro v hv
      have hall : (chunksSent (recording b) d u n k len tail sparse hd s).1 = .ok () := by
        by_contra hnot
        exact hpartly ⟨hnot, hconflict, v, hv⟩
      rw [finishChunked_chunks]
      exact (sendChunkedFinish_session _ hf hready).2.1 hall
    split at hr
    · rename_i hok
      rw [hr]
      -- assembled as the copy, or sent whole as the copy
      rcases assembleConflictedCopy_accepted hf hassembled hok with hacc | hacc
      · exact ⟨_, hacc, ⟨_, _, _, _, _, _, _, _, _, rfl⟩, Or.inr rfl, rfl⟩
      · exact ⟨_, hacc, Or.inr rfl, rfl⟩
    · -- the copy failed as well: the entry stays
      rw [hr]
      exact accounted_failedCopy ..
  · rw [hr]
    intro src dst st m' h
    simp [op] at h
  · rw [hr]
    exact accounted_failedResult ..

end Streamed

/-- The answers that make the replay lose or misjudge the bytes of `op`. -/
def Misjudged (b : CloudBackend σ) (d : CacheDir) (stamp : String) (op : MutationOp) (s : σ) :
    Prop :=
  match op with
  | .rename src dst (some staging) m =>
    ∃ f, d.files staging = some f ∧ CopyRefused b src dst (makeConflictName stamp dst) f m s
  | .finishChunked p u n k len tail m sparse hd true =>
    TakenForLanded b d u n k len tail sparse hd p m s ∨
      AssembledPartly b d u n k len tail sparse hd p (makeConflictName stamp p) m s
  | _ => False

/-- The upload session of a file that is staged whole holds the bytes the operation counts. -/
def MutationOp.SessionReady (log : List Accepted) (f : LocalFile) : MutationOp → Prop
  | .finishChunked _ u n k len _ _ sparse hd true => SessionHolds log u n k len sparse hd f
  | _ => True

/-- One execution accounts for the bytes of its operation. -/
theorem executeOp_accounted {op : MutationOp} {staging : PathBuf} {f : LocalFile}
    (hop : op.wholeStaging = some staging) (hf : d.files staging = some f)
    (hready : op.SessionReady s.2 f) (hclear : ¬ Misjudged (recording b) d stamp op s) :
    let r := executeOp (recording b) d c stamp now op s
    Accounted stamp op f r.1 r.2.2.2 := by
  cases op with
  | put p st m =>
    obtain rfl : st = staging := by simpa [MutationOp.wholeStaging] using hop
    exact executePut_accounted hf
  | rename src dst st m =>
    obtain rfl : st = some staging := hop
    exact executeRename_accounted hf fun hrefused => hclear ⟨f, hf, hrefused⟩
  | finishChunked p u n k len tail m sparse hd w =>
    cases w with
    | true =>
      obtain rfl : tail = staging := by simpa [MutationOp.wholeStaging] using hop
      obtain ⟨hlanded, hpartly⟩ := not_or.mp hclear
      exact executeFinish_accounted hf hready hlanded hpartly
    | false => cases hop
  | mkDir => cases hop
  | unlink => cases hop
  | rmDir => cases hop

end Recording

/-! ## One round -/

/-- The folder the bytes of failed uploads are kept in. -/
def recoveryDir (cacheDir : PathBuf) : PathBuf := cacheDir ++ ["unsynced"]

/-- A recovered file lies in the recovery folder. -/
theorem recoveryPath_prefix (d : CacheDir) (cacheDir staging p : PathBuf) :
    recoveryDir cacheDir <+: MutationJournal.recoveryPath d cacheDir staging p := by
  unfold MutationJournal.recoveryPath
  dsimp only
  split
  · split
    · exact List.prefix_append _ _
    · exact List.prefix_append _ _
  · exact List.prefix_append _ _

/-- A recovered file is in the recovery folder. -/
theorem recoverStaging_recovered {j : MutationJournal} {staging : PathBuf} {f : LocalFile}
    (cacheDir p : PathBuf) (hf : j.disk.files staging = some f) :
    ∃ q, recoveryDir cacheDir <+: q ∧
      (j.recoverStaging cacheDir staging p).2.disk.files q = some f := by
  refine ⟨_, recoveryPath_prefix j.disk cacheDir staging p, ?_⟩
  simp [MutationJournal.recoverStaging, hf, CacheDir.moveFile, CacheDir.writeFile]

/-- A recovery leaves the other files outside the recovery folder alone. -/
theorem recoverStaging_outside {j : MutationJournal} {cacheDir staging p x : PathBuf}
    (hx : ¬ recoveryDir cacheDir <+: x) (hs : x ≠ staging) :
    (j.recoverStaging cacheDir staging p).2.disk.files x = j.disk.files x := by
  unfold MutationJournal.recoverStaging
  split
  · rfl
  · apply CacheDir.moveFile_of_ne hs
    intro h
    exact hx (h ▸ recoveryPath_prefix j.disk cacheDir staging p)

/-- The bytes `f`, staged in `s` before a round, after it: still waiting in a queued entry,
    accepted by the server for an entry that staged them, or recovered. -/
def Kept (ctx : ReplayContext (σ × List Accepted)) (w w' : ReplayState (σ × List Accepted))
    (s : PathBuf) (f : LocalFile) : Prop :=
  (∃ e ∈ w'.journal.entries, e.op.wholeStaging = some s ∧ w'.journal.disk.files s = some f) ∨
  (∃ e ∈ w.journal.entries, e.op.wholeStaging = some s ∧
    ∃ a ∈ w'.server.2, a.Covers (ctx.stamp e.seq e.attempts) e.op f) ∨
  ∃ q, recoveryDir ctx.cacheDir <+: q ∧ w'.journal.disk.files q = some f

/-- What a round needs for that: the front entry is no MOVE past its attempts that holds a
    copy, the server's answers do not misjudge it, and a partial tail is nobody else's file. -/
def SafeRound (ctx : ReplayContext (σ × List Accepted)) (w : ReplayState (σ × List Accepted)) :
    Prop :=
  ∀ e rest, w.journal.entries = e :: rest → e.inFlight = false →
    (∀ src dst staging m f, e.op = .rename src dst (some staging) m →
      w.journal.disk.files staging = some f → e.attempts < MAX_ATTEMPTS) ∧
    (e.attempts < MAX_ATTEMPTS → ¬ Misjudged ctx.backend w.journal.disk
      (ctx.stamp e.seq e.attempts) e.op w.server) ∧
    ∀ x ∈ rest, ∀ s, x.op.wholeStaging = some s → e.op.wholeStaging = none →
      e.op.stagingPath ≠ some s

/-- Staging files lie outside the recovery folder. -/
def StagedOutside (cacheDir : PathBuf) (j : MutationJournal) : Prop :=
  ∀ s ∈ stagings j.entries, ¬ recoveryDir cacheDir <+: s

/-- Files of other entries survive the settling of a conflict. -/
theorem settleBytes_files {j : MutationJournal} {cacheDir x : PathBuf} {e : JournalEntry}
    {r : ReplayResult} (hx : ¬ recoveryDir cacheDir <+: x) (hs : e.op.stagingPath ≠ some x) :
    (settleBytes j cacheDir e r).disk.files x = j.disk.files x := by
  have hremove : ∀ p, e.op.stagingPath = some p →
      (j.removeStaging [p]).disk.files x = j.disk.files x := by
    intro p hp
    refine MutationJournal.removeStaging_files ?_
    rw [List.mem_singleton]
    intro hxp
    exact hs (hxp ▸ hp)
  have hrecover : ∀ p q, e.op.stagingPath = some p →
      (j.recoverStaging cacheDir p q).2.disk.files x = j.disk.files x := by
    intro p q hp
    exact recoverStaging_outside hx fun hxp => hs (hxp ▸ hp)
  unfold settleBytes settleConflictStaging
  split
  · split
    · rename_i hop
      exact hremove _ (by rw [hop]; rfl)
    · rename_i hop _
      exact hrecover _ _ (by rw [hop]; rfl)
    · rename_i hop
      exact hremove _ (by rw [hop]; rfl)
    · rename_i hop _
      exact hrecover _ _ (by rw [hop]; rfl)
    · rename_i hop
      exact hremove _ (by rw [hop]; rfl)
    · rename_i hop
      exact hremove _ (by rw [hop]; rfl)
    · rfl
  · rfl

/-- Files of other entries survive the end of an entry. -/
theorem settleEntry_files {j : MutationJournal} {c : FsCache} {x : PathBuf} {e : JournalEntry}
    {r : ReplayResult} (hs : e.op.stagingPath ≠ some x) :
    (settleEntry j c e r).2.1.disk.files x = j.disk.files x := by
  have hremove : (j.dequeueFront.2.removeStaging e.op.stagingPath.toList).disk.files x =
      j.disk.files x := by
    rw [MutationJournal.removeStaging_files (by simpa using hs),
      MutationJournal.dequeueFront_files]
  cases r with
  | ok => exact hremove
  | uploaded etag => exact hremove
  | idempotent => exact hremove
  | conflict kind =>
    show (j.addConflict kind).dequeueFront.2.disk.files x = _
    rw [MutationJournal.dequeueFront_files]
    rfl
  | retryable msg =>
    show (j.markDeferred e.seq msg).disk.files x = _
    simp [MutationJournal.markDeferred]
  | serverError msg =>
    show (j.markFailed e.seq msg).disk.files x = _
    simp [MutationJournal.markFailed]

/-- Files of other entries survive a give-up. -/
theorem recoverEntry_files {j : MutationJournal} {cacheDir x : PathBuf} {e : JournalEntry}
    (hx : ¬ recoveryDir cacheDir <+: x) (hs : e.op.stagingPath ≠ some x) :
    (recoverEntry j cacheDir e).2.disk.files x = j.disk.files x := by
  unfold recoverEntry
  split
  · rename_i hop
    exact recoverStaging_outside hx fun hxp => hs (by rw [hop, hxp]; rfl)
  · rename_i hop
    split
    · exact recoverStaging_outside hx fun hxp => hs (by rw [hop, hxp]; rfl)
    · refine MutationJournal.removeStaging_files ?_
      rw [List.mem_singleton]
      intro hxp
      exact hs (by rw [hop, hxp]; rfl)
  · rfl

/-- What stands behind the front stays queued, and so does the front when it is to be tried
    again. -/
theorem settleEntry_mem {j : MutationJournal} {c : FsCache} {e front : JournalEntry}
    {rest : List JournalEntry} (hj : j.entries = front :: rest) (hseq : front.seq = e.seq)
    (r : ReplayResult) :
    (∀ x ∈ rest, x ∈ (settleEntry j c e r).2.1.entries) ∧
    ((∃ msg, r = .retryable msg ∨ r = .serverError msg) →
      ∃ y ∈ (settleEntry j c e r).2.1.entries, y.op = front.op) := by
  -- the entries behind the front stay when it is dequeued
  have hpop : ∀ x ∈ rest, x ∈ j.dequeueFront.2.entries := by
    intro x hx
    rw [MutationJournal.dequeueFront_entries, hj]
    exact hx
  -- a mark changes no operation
  have hmark : ∀ f : JournalEntry → JournalEntry, (f front).op = front.op →
      (∀ x ∈ rest, x ∈ (j.modify e.seq f).entries) ∧
      ∃ y ∈ (j.modify e.seq f).entries, y.op = front.op := by
    intro f hf
    rw [← hseq, MutationJournal.modify_front hj]
    exact ⟨fun x hx => List.mem_cons_of_mem _ hx, f front, List.mem_cons_self, hf⟩
  cases r with
  -- done: nothing is to be tried again
  | ok => exact ⟨hpop, fun ⟨_, h⟩ => by simp at h⟩
  | uploaded etag => exact ⟨hpop, fun ⟨_, h⟩ => by simp at h⟩
  | idempotent => exact ⟨hpop, fun ⟨_, h⟩ => by simp at h⟩
  | conflict kind =>
    refine ⟨fun x hx => ?_, fun ⟨_, h⟩ => by simp at h⟩
    -- a conflict is recorded, and the entry goes
    show x ∈ (j.addConflict kind).dequeueFront.2.entries
    rw [MutationJournal.dequeueFront_entries, MutationJournal.addConflict_entries, hj]
    exact hx
  | retryable msg =>
    -- to be tried again, without counting the attempt
    obtain ⟨h1, h2⟩ := hmark (fun e => { e with
      lastError := some msg, inFlight := false, destFixed := false }) rfl
    exact ⟨h1, fun _ => h2⟩
  | serverError msg =>
    -- to be tried again, with the attempt counted
    obtain ⟨h1, h2⟩ := hmark (fun e => { e with
      attempts := e.attempts + 1, lastError := some msg, inFlight := false,
      destFixed := false }) rfl
    exact ⟨h1, fun _ => h2⟩

/-- A conflict that keeps the bytes of an upload moves them to the recovery folder. -/
theorem settleBytes_recovers {j : MutationJournal} {staging : PathBuf} {e : JournalEntry}
    {kind : ConflictKind} {f : LocalFile} (cacheDir : PathBuf)
    (hop : e.op.wholeStaging = some staging) (hf : j.disk.files staging = some f)
    (hupload : ∀ src dst st m, e.op ≠ .rename src dst st m)
    (hkind : ∀ p q, kind ≠ .editConflict p q) :
    ∃ q, recoveryDir cacheDir <+: q ∧
      (settleBytes j cacheDir e (.conflict kind)).disk.files q = some f := by
  cases he : e.op with
  | put p st m =>
    rw [he] at hop
    obtain rfl : st = staging := by simpa [MutationOp.wholeStaging] using hop
    obtain ⟨q, hq, hqf⟩ := recoverStaging_recovered cacheDir p hf
    refine ⟨q, hq, ?_⟩
    rw [← hqf]
    unfold settleBytes settleConflictStaging
    simp only [he]
  | finishChunked p u n k len tail m sparse hd w =>
    rw [he] at hop
    cases w with
    | false => cases hop
    | true =>
      obtain rfl : tail = staging := by simpa [MutationOp.wholeStaging] using hop
      obtain ⟨q, hq, hqf⟩ := recoverStaging_recovered cacheDir p hf
      refine ⟨q, hq, ?_⟩
      rw [← hqf]
      unfold settleBytes settleConflictStaging
      simp only [he]
  | rename src dst st m => exact absurd he (hupload src dst st m)
  | mkDir => rw [he] at hop; cases hop
  | unlink => rw [he] at hop; cases hop
  | rmDir => rw [he] at hop; cases hop

/-- A give-up of an upload moves its bytes to the recovery folder. -/
theorem recoverEntry_recovers {j : MutationJournal} {staging : PathBuf} {e : JournalEntry}
    {f : LocalFile} (cacheDir : PathBuf) (hop : e.op.wholeStaging = some staging)
    (hf : j.disk.files staging = some f) (hupload : ∀ src dst st m, e.op ≠ .rename src dst st m) :
    ∃ q, recoveryDir cacheDir <+: q ∧ (recoverEntry j cacheDir e).2.disk.files q = some f := by
  cases he : e.op with
  | put p st m =>
    rw [he] at hop
    obtain rfl : st = staging := by simpa [MutationOp.wholeStaging] using hop
    simp only [recoverEntry, he]
    exact recoverStaging_recovered cacheDir p hf
  | finishChunked p u n k len tail m sparse hd w =>
    rw [he] at hop
    cases w with
    | false => cases hop
    | true =>
      obtain rfl : tail = staging := by simpa [MutationOp.wholeStaging] using hop
      simp only [recoverEntry, he, ↓reduceIte]
      exact recoverStaging_recovered cacheDir p hf
  | rename src dst st m => exact absurd he (hupload src dst st m)
  | mkDir => rw [he] at hop; cases hop
  | unlink => rw [he] at hop; cases hop
  | rmDir => rw [he] at hop; cases hop

section Round

variable {ctx : ReplayContext (σ × List Accepted)} {b : CloudBackend σ}
  {w : ReplayState (σ × List Accepted)} {e : JournalEntry} {rest : List JournalEntry}

/-- The queue with its front claimed, and the version of what landed noted. -/
def claimedJournal (w : ReplayState (σ × List Accepted)) (e : JournalEntry)
    (rest : List JournalEntry) (r : ReplayResult) : MutationJournal :=
  noteLanded { w.journal with entries := { e with inFlight := true } :: rest } e.op r

/-- The claimed queue has the front's number and operation, and the same entries behind. -/
theorem claimedJournal_entries (w : ReplayState (σ × List Accepted)) (e : JournalEntry)
    (rest : List JournalEntry) (r : ReplayResult) :
    ∃ front rest', (claimedJournal w e rest r).entries = front :: rest' ∧ front.seq = e.seq ∧
      front.op.uncond = e.op.uncond ∧ rest'.map JournalEntry.uncond = rest.map JournalEntry.uncond := by
  have h := noteLanded_entries
    { w.journal with entries := { e with inFlight := true } :: rest } e.op r
  cases hj : (claimedJournal w e rest r).entries with
  | nil =>
    rw [show (noteLanded { w.journal with entries := { e with inFlight := true } :: rest } e.op
      r).entries = [] from hj] at h
    simp at h
  | cons front rest' =>
    rw [show (noteLanded { w.journal with entries := { e with inFlight := true } :: rest } e.op
      r).entries = front :: rest' from hj] at h
    simp only [List.map_cons, List.cons.injEq] at h
    refine ⟨front, rest', rfl, ?_, ?_, h.2⟩
    · rw [← JournalEntry.uncond_seq, h.1]
      rfl
    · rw [← JournalEntry.uncond_op, h.1]
      rfl

/-- A round on an entry with attempts left. -/
theorem replayRound_eq (hw : w.journal.entries = e :: rest) (hidle : e.inFlight = false)
    (ha : e.attempts < MAX_ATTEMPTS) :
    let r := executeOp ctx.backend w.journal.disk w.cache (ctx.stamp e.seq e.attempts)
      (ctx.now e.seq e.attempts) e.op w.server
    let f := finishEntry (claimedJournal w e rest r.1) r.2.1 ctx.cacheDir e r.1
    replayRound ctx w = (f.1, { journal := f.2.1, cache := f.2.2, server := r.2.2 }) := by
  simp only [replayRound, claimFront_idle hw hidle, if_neg (Nat.not_le.mpr ha)]
  rfl

/-- Bytes the front entry does not stage stay where they are, in an entry behind it. -/
theorem kept_behind (houtside : StagedOutside ctx.cacheDir w.journal)
    (hw : w.journal.entries = e :: rest) (hidle : e.inFlight = false) {x : JournalEntry}
    (hx : x ∈ rest) {s : PathBuf} {f : LocalFile} (hxs : x.op.wholeStaging = some s)
    (hf : w.journal.disk.files s = some f) (hes : e.op.stagingPath ≠ some s) :
    Kept ctx w (replayRound ctx w).2 s f := by
  -- staging files lie outside the recovery folder
  have hout : ¬ recoveryDir ctx.cacheDir <+: s := by
    apply houtside
    rw [hw]
    exact List.mem_filterMap.mpr
      ⟨x, List.mem_cons_of_mem _ hx, MutationOp.stagingPath_of_whole hxs⟩
  left
  by_cases ha : e.attempts < MAX_ATTEMPTS
  · rw [replayRound_eq hw hidle ha]
    generalize executeOp ctx.backend w.journal.disk w.cache (ctx.stamp e.seq e.attempts)
      (ctx.now e.seq e.attempts) e.op w.server = r
    obtain ⟨front, rest', hj, hseq, -, hrest⟩ := claimedJournal_entries w e rest r.1
    -- The entry is still behind the front, up to its condition.
    obtain ⟨y, hy, hyx⟩ : ∃ y ∈ rest', y.uncond = x.uncond := by
      have hmem : x.uncond ∈ rest'.map JournalEntry.uncond := hrest ▸ List.mem_map_of_mem hx
      obtain ⟨y, hy, hyx⟩ := List.mem_map.mp hmem
      exact ⟨y, hy, hyx⟩
    -- it has the same file
    have hys : y.op.wholeStaging = some s := by
      rw [← MutationOp.wholeStaging_uncond, ← JournalEntry.uncond_op, hyx,
        JournalEntry.uncond_op, MutationOp.wholeStaging_uncond, hxs]
    have hj' : (settleBytes (claimedJournal w e rest r.1) ctx.cacheDir e r.1).entries =
        front :: rest' := by
      rw [← hj]
      unfold settleBytes settleConflictStaging
      split
      · split <;> simp
      · rfl
    -- and neither settling nor the recovery touches that file
    refine ⟨y, (settleEntry_mem hj' hseq r.1).1 y hy, hys, ?_⟩
    show (settleEntry _ _ _ _).2.1.disk.files s = some f
    rw [settleEntry_files hes, settleBytes_files hout hes, claimedJournal, noteLanded_files, hf]
  · -- given up: the front is recovered and dropped, the others stay
    simp only [replayRound, claimFront_idle hw hidle, if_pos (Nat.not_lt.mp ha), giveUp]
    refine ⟨x, ?_, hxs, ?_⟩
    · show x ∈ (dropEntry _ _ _ _).1.entries
      simp only [dropEntry, MutationJournal.dequeueFront_entries,
        MutationJournal.addConflict_entries]
      have hrec : (recoverEntry { w.journal with
          entries := { e with inFlight := true } :: rest } ctx.cacheDir e).2.entries =
          { e with inFlight := true } :: rest := by
        unfold recoverEntry
        split
        · simp
        · split <;> simp
        · rfl
      rw [hrec]
      exact hx
    · -- recovery copies the front's file, not this one
      show (dropEntry _ _ _ _).1.disk.files s = some f
      simp only [dropEntry, MutationJournal.dequeueFront_files, MutationJournal.addConflict_files]
      rw [recoverEntry_files hout hes, hf]

/-- Bytes the front entry stages are accounted for by what becomes of it. -/
theorem kept_front (hb : ctx.backend = recording b) (hsafe : SafeRound ctx w)
    (hw : w.journal.entries = e :: rest) (hidle : e.inFlight = false) {s : PathBuf}
    {f : LocalFile} (hes : e.op.wholeStaging = some s) (hf : w.journal.disk.files s = some f)
    (hready : e.op.SessionReady w.server.2 f) : Kept ctx w (replayRound ctx w).2 s f := by
  obtain ⟨hmove, hjudged, -⟩ := hsafe e rest hw hidle
  have hmem : e ∈ w.journal.entries := by
    rw [hw]
    exact List.mem_cons_self
  by_cases ha : e.attempts < MAX_ATTEMPTS
  · -- what is reported is accounted for
    have hacc : ∀ r, r = executeOp (recording b) w.journal.disk w.cache
        (ctx.stamp e.seq e.attempts) (ctx.now e.seq e.attempts) e.op w.server →
        Accounted (ctx.stamp e.seq e.attempts) e.op f r.1 r.2.2.2 := by
      intro r hr
      rw [hr]
      exact executeOp_accounted hes hf hready (hb ▸ hjudged ha)
    replace hacc := hacc _ rfl
    rw [replayRound_eq hw hidle ha, hb]
    dsimp only
    generalize executeOp (recording b) w.journal.disk w.cache (ctx.stamp e.seq e.attempts)
      (ctx.now e.seq e.attempts) e.op w.server = r at hacc ⊢
    obtain ⟨front, rest', hj, hseq, hop, -⟩ := claimedJournal_entries w e rest r.1
    have hfront : front.op.wholeStaging = some s := by
      rw [← MutationOp.wholeStaging_uncond, hop, MutationOp.wholeStaging_uncond, hes]
    have hfiles : (claimedJournal w e rest r.1).disk.files s = some f := by
      rw [claimedJournal, noteLanded_files]
      exact hf
    -- An entry that is to be tried again keeps its place and its file.
    have hagain : (∃ msg, r.1 = .retryable msg ∨ r.1 = .serverError msg) →
        (∃ y ∈ (finishEntry (claimedJournal w e rest r.1) r.2.1 ctx.cacheDir e r.1).2.1.entries,
          y.op.wholeStaging = some s) ∧
        (finishEntry (claimedJournal w e rest r.1) r.2.1 ctx.cacheDir e r.1).2.1.disk.files s =
          some f := by
      intro hr
      have hbytes : settleBytes (claimedJournal w e rest r.1) ctx.cacheDir e r.1 =
          claimedJournal w e rest r.1 := by
        obtain ⟨msg, hr | hr⟩ := hr <;> rw [hr] <;> rfl
      refine ⟨?_, ?_⟩
      · obtain ⟨y, hy, hyop⟩ := (settleEntry_mem (c := r.2.1) hj hseq r.1).2 hr
        refine ⟨y, ?_, by rw [hyop]; exact hfront⟩
        show y ∈ (settleEntry _ _ _ _).2.1.entries
        rw [hbytes]
        exact hy
      · -- neither mark touches the files
        show (settleEntry _ _ _ _).2.1.disk.files s = some f
        rw [hbytes]
        obtain ⟨msg, hr | hr⟩ := hr
        · rw [hr] at hfiles ⊢
          simpa [settleEntry, MutationJournal.markDeferred] using hfiles
        · rw [hr] at hfiles ⊢
          simpa [settleEntry, MutationJournal.markFailed] using hfiles
    cases hr : r.1 with
    | ok =>
      -- accepted, in one way or another
      rw [hr] at hacc
      exact Or.inr (Or.inl ⟨e, hmem, hes, hacc⟩)
    | uploaded etag =>
      rw [hr] at hacc
      exact Or.inr (Or.inl ⟨e, hmem, hes, hacc⟩)
    | idempotent =>
      -- `idempotent` is no answer to an entry with a whole file
      rw [hr] at hacc
      exact hacc.elim
    | retryable msg =>
      -- to be tried again: the entry and its file stay
      obtain ⟨⟨y, hy, hys⟩, hkeep⟩ := hagain ⟨msg, Or.inl hr⟩
      rw [hr] at hy hkeep
      exact Or.inl ⟨y, hy, hys, hkeep⟩
    | serverError msg =>
      obtain ⟨⟨y, hy, hys⟩, hkeep⟩ := hagain ⟨msg, Or.inr hr⟩
      rw [hr] at hy hkeep
      exact Or.inl ⟨y, hy, hys, hkeep⟩
    | conflict kind =>
      -- an edit conflict saved the copy on the server; any other one recovers the file
      by_cases hedit : ∃ p q, kind = .editConflict p q
      · obtain ⟨p, q, rfl⟩ := hedit
        rw [hr] at hacc
        exact Or.inr (Or.inl ⟨e, hmem, hes, hacc⟩)
      · have hkind : ∀ p q, kind ≠ .editConflict p q := fun p q h => hedit ⟨p, q, h⟩
        have hupload : ∀ src dst st m, e.op ≠ .rename src dst st m := by
          rw [hr] at hacc
          cases kind with
          | editConflict p q => exact absurd rfl (hkind p q)
          | _ => exact hacc
        obtain ⟨q, hq, hqf⟩ := settleBytes_recovers ctx.cacheDir hes hfiles hupload hkind
        refine Or.inr (Or.inr ⟨q, hq, ?_⟩)
        rw [hr] at hqf
        simp only [finishEntry, settleEntry, MutationJournal.dequeueFront_files,
          MutationJournal.addConflict_files]
        exact hqf
  · -- given up: the file is recovered, a queued move is not given up with one
    have hupload : ∀ src dst st m, e.op ≠ .rename src dst st m := by
      intro src dst st m hop
      have hst : st = some s := by
        rw [hop] at hes
        exact hes
      rw [hst] at hop
      exact ha (hmove src dst s m f hop hf)
    simp only [replayRound, claimFront_idle hw hidle, if_pos (Nat.not_lt.mp ha), giveUp]
    have hfiles : ({ w.journal with
        entries := { e with inFlight := true } :: rest } : MutationJournal).disk.files s =
        some f := hf
    obtain ⟨q, hq, hqf⟩ := recoverEntry_recovers ctx.cacheDir hes hfiles hupload
    refine Or.inr (Or.inr ⟨q, hq, ?_⟩)
    simp only [dropEntry, MutationJournal.dequeueFront_files, MutationJournal.addConflict_files]
    exact hqf

end Round

/-! ## Any number of runs -/

/-- What one round of a run is given: the server and the clock. -/
structure RoundInput (σ : Type) where
  backend : CloudBackend σ
  stamp : SeqId → Nat → String
  now : SeqId → Nat → Nat

/-- The round's context, with the server's accepted requests recorded. -/
def RoundInput.context (i : RoundInput σ) (cacheDir : PathBuf) :
    ReplayContext (σ × List Accepted) :=
  { backend := recording i.backend, cacheDir := cacheDir, stamp := i.stamp, now := i.now }

/-- Rounds one after the other, over any number of replay runs: a run that stops is followed
    by the first round of the next one. -/
def rounds (cacheDir : PathBuf) (w : ReplayState (σ × List Accepted))
    (inputs : List (RoundInput σ)) : ReplayState (σ × List Accepted) :=
  inputs.foldl (fun w i => (replayRound (i.context cacheDir) w).2) w

/-- Every round meets the condition. -/
def SafeRounds (cacheDir : PathBuf) :
    ReplayState (σ × List Accepted) → List (RoundInput σ) → Prop
  | _, [] => True
  | w, i :: is =>
    SafeRound (i.context cacheDir) w ∧ SafeRounds cacheDir (replayRound (i.context cacheDir) w).2 is

/-- Safe rounds, one run after another. -/
theorem safeRounds_append {cacheDir : PathBuf} {w : ReplayState (σ × List Accepted)}
    {is is' : List (RoundInput σ)} :
    SafeRounds cacheDir w (is ++ is') ↔
      SafeRounds cacheDir w is ∧ SafeRounds cacheDir (rounds cacheDir w is) is' := by
  induction is generalizing w with
  | nil => simp [SafeRounds, rounds]
  | cons i is ih =>
    show SafeRound _ w ∧ SafeRounds cacheDir _ (is ++ is') ↔
      (SafeRound _ w ∧ SafeRounds cacheDir _ is) ∧ SafeRounds cacheDir (rounds cacheDir _ is) is'
    rw [ih, and_assoc]

/-- Ending an entry brings no new operation into the queue. -/
theorem settleEntry_ops (j : MutationJournal) (c : FsCache) (e : JournalEntry) (r : ReplayResult) :
    ((settleEntry j c e r).2.1.entries.map (·.op)).Sublist (j.entries.map (·.op)) := by
  have hpop : (j.entries.tail.map (·.op)).Sublist (j.entries.map (·.op)) :=
    (List.tail_sublist _).map _
  cases r with
  | ok => simpa [settleEntry] using hpop
  | uploaded etag => simpa [settleEntry] using hpop
  | idempotent => simpa [settleEntry] using hpop
  | conflict kind => simpa [settleEntry] using hpop
  | retryable msg =>
    have hops := j.modify_ops e.seq (f := fun e => { e with
      lastError := some msg, inFlight := false, destFixed := false }) fun _ => rfl
    exact hops ▸ List.Sublist.refl _
  | serverError msg =>
    have hops := j.modify_ops e.seq (f := fun e => { e with
      attempts := e.attempts + 1, lastError := some msg, inFlight := false,
      destFixed := false }) fun _ => rfl
    exact hops ▸ List.Sublist.refl _

/-- A round queues nothing: up to the versions they are conditional on, its operations are some of
those queued before. -/
theorem replayRound_ops (ctx : ReplayContext (σ × List Accepted))
    (w : ReplayState (σ × List Accepted)) :
    ((replayRound ctx w).2.journal.entries.map (·.op.uncond)).Sublist
      (w.journal.entries.map (·.op.uncond)) := by
  cases hw : w.journal.entries with
  | nil =>
    simp only [replayRound, claimFront, MutationJournal.peekFront, hw, List.head?_nil]
    exact List.Sublist.refl _
  | cons e rest =>
    -- a front that is being executed stays as it is
    by_cases hidle : e.inFlight = true
    · simp only [replayRound, claimFront, MutationJournal.peekFront, hw, List.head?_cons,
        if_pos hidle]
      exact List.Sublist.refl _
    · rw [Bool.not_eq_true] at hidle
      -- the answer dequeues the front or leaves it, up to its marks
      by_cases ha : e.attempts < MAX_ATTEMPTS
      · rw [replayRound_eq hw hidle ha]
        dsimp only
        generalize executeOp ctx.backend w.journal.disk w.cache (ctx.stamp e.seq e.attempts)
          (ctx.now e.seq e.attempts) e.op w.server = r
        have hops := settleEntry_ops (settleBytes (claimedJournal w e rest r.1) ctx.cacheDir e r.1)
          r.2.1 e r.1
        rw [settleBytes_entries] at hops
        have huncond := hops.map MutationOp.uncond
        rw [List.map_map, List.map_map] at huncond
        -- The claimed queue is the queue, up to conditions and marks.
        obtain ⟨front, rest', hj, -, hop, hrest⟩ := claimedJournal_entries w e rest r.1
        have hclaimed : (claimedJournal w e rest r.1).entries.map (·.op.uncond) =
            (e :: rest).map (·.op.uncond) := by
          have hrest' := congrArg (List.map JournalEntry.op) hrest
          rw [List.map_map, List.map_map] at hrest'
          rw [hj, List.map_cons, List.map_cons, hop]
          exact congrArg _ hrest'
        rw [← hclaimed]
        exact huncond
      · -- given up: the front is dequeued
        simp only [replayRound, claimFront_idle hw hidle, if_pos (Nat.not_lt.mp ha), giveUp,
          dropEntry, MutationJournal.dequeueFront_entries, MutationJournal.addConflict_entries,
          recoverEntry_entries]
        exact (List.sublist_cons_self e rest).map _

/-- What does not depend on conditions and belongs to an operation belongs to one that was queued
before the round. -/
theorem replayRound_filterMap {β : Type} {g : MutationOp → Option β}
    (hg : ∀ op : MutationOp, g op.uncond = g op) (ctx : ReplayContext (σ × List Accepted))
    (w : ReplayState (σ × List Accepted)) :
    ((replayRound ctx w).2.journal.entries.filterMap (g ·.op)).Sublist
      (w.journal.entries.filterMap (g ·.op)) := by
  have hsub := (replayRound_ops ctx w).filterMap g
  rw [List.filterMap_map, List.filterMap_map] at hsub
  have heq : (g ∘ fun e : JournalEntry => e.op.uncond) = fun e => g e.op := by
    funext e
    exact hg e.op
  rwa [heq] at hsub

/-- A round queues no staging file that was not queued. -/
theorem replayRound_stagings (ctx : ReplayContext (σ × List Accepted))
    (w : ReplayState (σ × List Accepted)) :
    ∀ s ∈ stagings (replayRound ctx w).2.journal.entries, s ∈ stagings w.journal.entries :=
  fun _ hs => (replayRound_filterMap MutationOp.stagingPath_uncond ctx w).subset hs

/-! ### The sessions of queued uploads -/

/-- The upload session an operation assembles. -/
def MutationOp.session? : MutationOp → Option String
  | .finishChunked _ u _ _ _ _ _ _ _ _ => some u
  | _ => none

/-- The session of every queued upload that is staged whole holds what the entry counts of the file,
and no other entry has that session. -/
structure SessionsReady (w : ReplayState (σ × List Accepted)) : Prop where
  holds : ∀ e ∈ w.journal.entries, ∀ s f, e.op.wholeStaging = some s →
    w.journal.disk.files s = some f → e.op.SessionReady w.server.2 f
  distinct : (w.journal.entries.filterMap (·.op.session?)).Nodup

/-- The condition of an entry is no part of its session. -/
@[simp] theorem MutationOp.session?_uncond (op : MutationOp) : op.uncond.session? = op.session? := by
  cases op <;> rfl

/-- Whether a session is ready does not depend on the condition. -/
theorem MutationOp.sessionReady_uncond (op : MutationOp) (log : List Accepted) (f : LocalFile) :
    op.uncond.SessionReady log f ↔ op.SessionReady log f := by
  cases op with
  | finishChunked p u n k len tail m sparse hd w => cases w <;> exact Iff.rfl
  | _ => exact Iff.rfl

/-- A session is as ready as its chunks. -/
theorem MutationOp.SessionReady.congr {op : MutationOp} {log log' : List Accepted} {f : LocalFile}
    (h : op.SessionReady log f)
    (hlog : ∀ u, op.session? = some u → sessionChunks u log' = sessionChunks u log) :
    op.SessionReady log' f := by
  cases op with
  | finishChunked p u n k len tail m sparse hd w =>
    cases w with
    | false => trivial
    | true =>
      obtain ⟨hlen, hhead, hle, hstaged, hup⟩ := h
      exact ⟨hlen, hhead, hle, hstaged, by rw [hlog u rfl]; exact hup⟩
  | _ => trivial

section Requests

variable {τ : Type} {b : CloudBackend τ} {d : CacheDir} {c : FsCache} {stamp : String} {now : Nat}
  {P : τ → Prop}

/-- What every request an operation may send keeps, its execution keeps. -/
theorem executeOp_keeps {op : MutationOp} (hput : ∀ p f m s, P s → P (b.putFile p f m s).2)
    (hmkdir : ∀ p s, P s → P (b.mkdir p s).2) (hdelete : ∀ p s, P s → P (b.delete p s).2)
    (hrename : ∀ src dst m s, P s → P (b.rename src dst m s).2)
    (hchunk : ∀ u, op.session? = some u → ∀ i data s, P s → P (b.putChunk u i data s).2)
    (hfinish : ∀ u p m mtime len s, P s → P (b.finishChunkedUpload u p m mtime len s).2)
    (hlist : ∀ p s, P s → P (b.listSelf p s).2) {s : τ} (h : P s) :
    P (executeOp b d c stamp now op s).2.2 := by
  -- uploading a file whole is an upload of its bytes, or nothing when it cannot be read
  have hwhole : ∀ p tail m s, P s → P (b.putFileFromPath d p tail m s).2 := by
    intro p tail m s hs
    unfold CloudBackend.putFileFromPath
    split
    · exact hput _ _ _ _ hs
    · exact hs
  cases op with
  | put p staging m =>
    show P (executePut b d c _ now p staging m s).2.2
    unfold executePut
    -- the staging file is missing: nothing is sent
    split
    · exact h
    · dsimp only
      split
      · exact hput _ _ _ _ h
      · -- after a conflict the copy is uploaded
        split <;> exact hput _ _ _ _ (hput _ _ _ _ h)
      · exact hput _ _ _ _ h
      · exact hput _ _ _ _ h
  | mkDir p =>
    -- MKCOL only
    simp only [executeOp]
    split <;> exact hmkdir _ _ h
  | unlink p =>
    show P (executeDelete b c p s).2.2
    unfold executeDelete
    dsimp only
    split <;> exact hdelete _ _ h
  | rmDir p =>
    show P (executeDelete b c p s).2.2
    unfold executeDelete
    dsimp only
    split <;> exact hdelete _ _ h
  | rename src dst staging m =>
    -- the MOVE, and the upload after a 404
    have hfirst : ∀ copy, P (sendMoveFirst b src dst copy m s).2 := by
      intro copy
      unfold sendMoveFirst
      dsimp only
      split
      · exact hput _ _ _ _ (hrename _ _ _ _ h)
      · exact hrename _ _ _ _ h
    -- the copy: uploaded, or moved aside
    have hcopy : ∀ name copy fromCopy s, P s → P (saveConflictCopy b src name copy fromCopy s).2 := by
      intro name copy fromCopy s hs
      unfold saveConflictCopy
      split
      · exact hput _ _ _ _ hs
      · dsimp only
        split
        · exact hput _ _ _ _ (hrename _ _ _ _ hs)
        · exact hrename _ _ _ _ hs
    have hmove : P (sendMove b d src dst staging m (makeConflictName stamp dst) s).2 := by
      unfold sendMove
      dsimp only
      split
      · exact hfirst _
      · split <;> exact hcopy _ _ _ _ (hfirst _)
      · exact hfirst _
      · exact hfirst _
    simp only [executeOp]
    split <;> exact hmove
  | finishChunked p u n k len tail m sparse hd whole =>
    -- the final MOVE, repeated while the server is busy
    have hretried : ∀ p m mtime s, P s → P (CloudBackend.retryChunkWrite
        (b.finishChunkedUpload u p m mtime len) MAX_RETRIES s).2 := fun p m mtime s hs =>
      (CloudBackend.retryChunkWrite_keeps (Q := fun _ => True) (hfinish u p m mtime len)
        (fun _ _ _ _ => trivial) MAX_RETRIES hs).1
    -- the chunks that are left, then the final MOVE
    have hsent : ∀ mtime, P (sendChunkedFinish b d u n k len tail sparse hd p m mtime s).2 := by
      intro mtime
      rw [sendChunkedFinish_eq]
      exact CloudBackend.andThen_keeps (chunksSent_keeps (hchunk u rfl) h) fun _ s hs =>
        hretried _ _ _ _ hs
    -- and then a look at the listing, or the whole file again
    have hdone : P (finishChunked b d u n k len tail sparse hd whole p m s).2 := by
      unfold finishChunked
      dsimp only
      split
      · exact hsent _
      · split
        · split
          · exact hlist _ _ (hsent _)
          · exact hlist _ _ (hsent _)
          · exact hsent _
        · split
          · refine hwhole _ _ _ _ ?_
            split
            · exact hlist _ _ (hsent _)
            · exact hlist _ _ (hsent _)
            · exact hsent _
          · split
            · exact hlist _ _ (hsent _)
            · exact hlist _ _ (hsent _)
            · exact hsent _
    -- the copy: the session assembled under its name, or the whole file
    have hcopy : ∀ name, P (assembleConflictedCopy b d u name len tail whole
        (finishChunked b d u n k len tail sparse hd whole p m s).2).2 := by
      intro name
      unfold assembleConflictedCopy
      dsimp only
      split
      · exact hfinish _ _ _ _ _ _ hdone
      · split
        · exact hwhole _ _ _ _ (hfinish _ _ _ _ _ _ hdone)
        · exact hfinish _ _ _ _ _ _ hdone
    simp only [executeOp]
    split
    · exact hdone
    · split <;> exact hcopy _
    · exact hdone
    · exact hdone

end Requests

section Rounds

variable {b : CloudBackend σ} {d : CacheDir} {c : FsCache} {stamp : String} {now : Nat}
  {s : σ × List Accepted}

/-- An execution leaves the chunks of every session but its operation's own. -/
theorem executeOp_chunks {op : MutationOp} {u : String} (hu : op.session? ≠ some u) :
    sessionChunks u (executeOp (recording b) d c stamp now op s).2.2.2 = sessionChunks u s.2 := by
  refine executeOp_keeps (P := fun t : σ × List Accepted => sessionChunks u t.2 = sessionChunks u s.2)
    (fun _ _ _ _ h => (sessionChunks_noteAccepted fun _ _ => by simp).trans h) (fun _ _ h => h)
    (fun _ _ h => h) (fun _ _ _ _ h => (sessionChunks_noteAccepted fun _ _ => by simp).trans h)
    ?_ (fun _ _ _ _ _ _ h => (sessionChunks_noteAccepted fun _ _ => by simp).trans h)
    (fun _ _ h => h) rfl
  intro u' hu' i data t h
  refine (sessionChunks_noteAccepted fun i' data' heq => hu ?_).trans h
  rw [hu', (Accepted.chunk.inj heq).1]

/-- An execution of a streamed upload leaves its session as ready as it was. -/
theorem executeOp_ready {op : MutationOp} {staging : PathBuf} {f : LocalFile}
    (hop : op.wholeStaging = some staging) (hf : d.files staging = some f)
    (h : op.SessionReady s.2 f) :
    op.SessionReady (executeOp (recording b) d c stamp now op s).2.2.2 f := by
  cases op with
  | finishChunked p u n k len tail m sparse hd w =>
    cases w with
    | false => trivial
    | true =>
      obtain rfl : tail = staging := by simpa [MutationOp.wholeStaging] using hop
      have hsent := (sendChunkedFinish_session ((d.files tail).bind (·.mtime)) (b := b) (p := p) (m := m)
        hf h).1
      -- What follows the chunks does not change them.
      have hchunks : sessionChunks u (executeOp (recording b) d c stamp now
          (.finishChunked p u n k len tail m sparse hd true) s).2.2.2 =
          sessionChunks u (sendChunkedFinish (recording b) d u n k len tail sparse hd p m
            ((d.files tail).bind (·.mtime)) s).2.2 := by
        rw [← finishChunked_chunks]
        simp only [executeOp]
        -- neither the copy's assembly nor an upload sends a chunk
        have hcopy : ∀ name t, sessionChunks u
            (assembleConflictedCopy (recording b) d u name len tail true t).2.2 =
            sessionChunks u t.2 := by
          intro name t
          have hfin : sessionChunks u ((recording b).finishChunkedUpload u name none none len t).2.2 =
              sessionChunks u t.2 := sessionChunks_noteAccepted fun _ _ => by simp
          unfold assembleConflictedCopy
          dsimp only
          split
          · exact hfin
          · split
            · exact sessionChunks_putFileFromPath.trans hfin
            · exact hfin
        split
        · rfl
        · split <;> exact hcopy _ _
        · rfl
        · rfl
      obtain ⟨hlen, hhead, hle, hstaged, hup⟩ := hsent
      exact ⟨hlen, hhead, hle, hstaged, by rw [hchunks]; exact hup⟩
  | _ => trivial

variable {ctx : ReplayContext (σ × List Accepted)} {w : ReplayState (σ × List Accepted)}

/-- Deleting files makes none. -/
theorem removeStaging_makes_none {j : MutationJournal} {ps : List PathBuf} {x : PathBuf}
    {f : LocalFile} (h : (j.removeStaging ps).disk.files x = some f) : j.disk.files x = some f := by
  have hall : ∀ ps, ∀ d : CacheDir, (d.removeFiles ps).files x = some f → d.files x = some f := by
    intro ps
    induction ps with
    | nil => exact fun _ h => h
    | cons p ps ih =>
      intro d hd
      have hp := ih (d.removeFile p) hd
      simp only [CacheDir.removeFile] at hp
      split at hp
      · cases hp
      · exact hp
  exact hall ps j.disk h

/-- A recovery makes none outside the recovery folder. -/
theorem recoverStaging_makes_none {j : MutationJournal} {cacheDir staging p x : PathBuf}
    {f : LocalFile} (hx : ¬ recoveryDir cacheDir <+: x)
    (h : (j.recoverStaging cacheDir staging p).2.disk.files x = some f) :
    j.disk.files x = some f := by
  by_cases hs : x = staging
  · subst hs
    unfold MutationJournal.recoverStaging at h
    split at h
    · exact h
    · rename_i f' hf'
      have hne : x ≠ MutationJournal.recoveryPath j.disk cacheDir x p := fun heq =>
        hx (heq ▸ recoveryPath_prefix ..)
      simp [CacheDir.moveFile, hf', CacheDir.writeFile, CacheDir.removeFile, hne] at h
  · rwa [recoverStaging_outside hx hs] at h

/-- A round makes none outside the recovery folder. -/
theorem replayRound_files {x : PathBuf} {f : LocalFile} (hx : ¬ recoveryDir ctx.cacheDir <+: x)
    (h : (replayRound ctx w).2.journal.disk.files x = some f) : w.journal.disk.files x = some f := by
  cases hw : w.journal.entries with
  | nil =>
    simpa only [replayRound, claimFront, MutationJournal.peekFront, hw, List.head?_nil] using h
  | cons e rest =>
    by_cases hidle : e.inFlight = true
    · simpa only [replayRound, claimFront, MutationJournal.peekFront, hw, List.head?_cons,
        if_pos hidle] using h
    · rw [Bool.not_eq_true] at hidle
      by_cases ha : e.attempts < MAX_ATTEMPTS
      · rw [replayRound_eq hw hidle ha] at h
        dsimp only at h
        generalize executeOp ctx.backend w.journal.disk w.cache (ctx.stamp e.seq e.attempts)
          (ctx.now e.seq e.attempts) e.op w.server = r at h
        -- the answer removes files, or moves them to the recovery folder
        have hsettled : (settleBytes (claimedJournal w e rest r.1) ctx.cacheDir e r.1).disk.files x =
            some f := by
          unfold finishEntry settleEntry at h
          split at h
          · simpa using removeStaging_makes_none h
          · simpa using removeStaging_makes_none h
          · simpa using h
          · simpa using removeStaging_makes_none h
          · simpa [MutationJournal.markDeferred] using h
          · simpa [MutationJournal.markFailed] using h
        -- and so does settling the bytes
        have hclaimed : (claimedJournal w e rest r.1).disk.files x = some f := by
          unfold settleBytes settleConflictStaging at hsettled
          split at hsettled
          · split at hsettled
            · exact removeStaging_makes_none hsettled
            · exact recoverStaging_makes_none hx hsettled
            · exact removeStaging_makes_none hsettled
            · exact recoverStaging_makes_none hx hsettled
            · exact removeStaging_makes_none hsettled
            · exact removeStaging_makes_none hsettled
            · exact hsettled
          · exact hsettled
        rwa [claimedJournal, noteLanded_files] at hclaimed
      · simp only [replayRound, claimFront_idle hw hidle, if_pos (Nat.not_lt.mp ha), giveUp,
          dropEntry, MutationJournal.dequeueFront_files, MutationJournal.addConflict_files] at h
        -- given up: the file is moved to the recovery folder, or removed
        have hclaimed : ({ w.journal with entries := { e with inFlight := true } :: rest } :
            MutationJournal).disk.files x = some f := by
          unfold recoverEntry at h
          split at h
          · exact recoverStaging_makes_none hx h
          · split at h
            · exact recoverStaging_makes_none hx h
            · exact removeStaging_makes_none h
          · exact h
        exact hclaimed

/-- A round keeps the sessions of the uploads that stay queued. -/
theorem SessionsReady.replayRound {cacheDir : PathBuf} {i : RoundInput σ} (h : SessionsReady w)
    (houtside : StagedOutside cacheDir w.journal) :
    SessionsReady (Ncrs.replayRound (i.context cacheDir) w).2 where
  distinct := h.distinct.sublist (replayRound_filterMap MutationOp.session?_uncond _ w)
  holds := by
    intro y hy s f hys hf
    -- The entry was queued before, with the same file and the same session.
    obtain ⟨x, hx, hxy⟩ : ∃ x ∈ w.journal.entries, x.op.uncond = y.op.uncond :=
      List.mem_map.mp ((replayRound_ops _ w).subset (List.mem_map_of_mem hy))
    have hxs : x.op.wholeStaging = some s := by
      rw [← MutationOp.wholeStaging_uncond, hxy, MutationOp.wholeStaging_uncond, hys]
    have hout : ¬ recoveryDir cacheDir <+: s :=
      houtside s (List.mem_filterMap.mpr ⟨x, hx, MutationOp.stagingPath_of_whole hxs⟩)
    have hfile : w.journal.disk.files s = some f := replayRound_files hout hf
    have hready := h.holds x hx s f hxs hfile
    rw [← MutationOp.sessionReady_uncond, ← hxy, MutationOp.sessionReady_uncond]
    clear hf hy hys hxy
    -- the session's chunks are as the log had them, or more when this entry was executed
    cases hw : w.journal.entries with
    | nil =>
      rw [hw] at hx
      cases hx
    | cons e rest =>
      by_cases hidle : e.inFlight = true
      · -- nothing is executed
        simpa only [Ncrs.replayRound, claimFront, MutationJournal.peekFront, hw, List.head?_cons,
          if_pos hidle] using hready
      · rw [Bool.not_eq_true] at hidle
        by_cases ha : e.attempts < MAX_ATTEMPTS
        · rw [replayRound_eq hw hidle ha]
          rw [hw] at hx
          rcases List.mem_cons.mp hx with rfl | hrest
          · -- the entry is the front: its own chunks may have been sent
            exact executeOp_ready hxs hfile hready
          · -- The front has another session.
            refine hready.congr fun u hu => executeOp_chunks fun heu => ?_
            have hdistinct := h.distinct
            rw [hw, List.filterMap_cons] at hdistinct
            simp only [heu, List.nodup_cons] at hdistinct
            exact hdistinct.1 (List.mem_filterMap.mpr ⟨x, hrest, hu⟩)
        · -- given up: at most the session of the front is aborted
          refine hready.congr fun u _ => ?_
          simp only [Ncrs.replayRound, claimFront_idle hw hidle, if_pos (Nat.not_lt.mp ha), giveUp,
            abortEntry]
          split <;> rfl

end Rounds

/-- No round puts a staging file into the recovery folder. -/
theorem StagedOutside.replayRound {cacheDir : PathBuf} {w : ReplayState (σ × List Accepted)}
    (h : StagedOutside cacheDir w.journal) (ctx : ReplayContext (σ × List Accepted)) :
    StagedOutside cacheDir (Ncrs.replayRound ctx w).2.journal :=
  fun s hs => h s (replayRound_stagings ctx w s hs)

/-- No rounds put a staging file into the recovery folder. -/
theorem StagedOutside.rounds {cacheDir : PathBuf} {w : ReplayState (σ × List Accepted)}
    (h : StagedOutside cacheDir w.journal) (is : List (RoundInput σ)) :
    StagedOutside cacheDir (Ncrs.rounds cacheDir w is).journal := by
  induction is generalizing w with
  | nil => exact h
  | cons i is ih => exact ih (h.replayRound _)

/-- Rounds leave the sessions ready. -/
theorem SessionsReady.rounds {cacheDir : PathBuf} {w : ReplayState (σ × List Accepted)}
    (h : SessionsReady w) (houtside : StagedOutside cacheDir w.journal) (is : List (RoundInput σ)) :
    SessionsReady (Ncrs.rounds cacheDir w is) := by
  induction is generalizing w with
  | nil => exact h
  | cons i is ih => exact ih (h.replayRound houtside) (houtside.replayRound _)

/-- A round keeps every user's bytes. -/
theorem replayRound_keeps {i : RoundInput σ} {cacheDir : PathBuf}
    {w : ReplayState (σ × List Accepted)} (houtside : StagedOutside cacheDir w.journal)
    (hready : SessionsReady w) (hsafe : SafeRound (i.context cacheDir) w) {x : JournalEntry}
    (hx : x ∈ w.journal.entries)
    {s : PathBuf} {f : LocalFile} (hxs : x.op.wholeStaging = some s)
    (hf : w.journal.disk.files s = some f) :
    Kept (i.context cacheDir) w (replayRound (i.context cacheDir) w).2 s f := by
  cases hw : w.journal.entries with
  | nil =>
    rw [hw] at hx
    cases hx
  | cons e rest =>
    by_cases hidle : e.inFlight = true
    · -- A live worker is executing the front: the run stops and changes nothing.
      have hstop : (replayRound (i.context cacheDir) w).2 = w := by
        simp only [replayRound, claimFront, MutationJournal.peekFront, hw, List.head?_cons,
          if_pos hidle]
      rw [hstop]
      exact Or.inl ⟨x, hx, hxs, hf⟩
    · rw [Bool.not_eq_true] at hidle
      -- the front's own file, or one behind it
      by_cases hes : e.op.wholeStaging = some s
      · have he : e ∈ w.journal.entries := hw ▸ List.mem_cons_self
        exact kept_front rfl hsafe hw hidle hes hf (hready.holds e he s f hes hf)
      · have hrest : x ∈ rest := by
          rw [hw] at hx
          rcases List.mem_cons.mp hx with rfl | hx
          · exact absurd hxs hes
          · exact hx
        refine kept_behind houtside hw hidle hrest hxs hf fun hst => ?_
        -- The front's own file is another one, or it is a partial tail.
        cases hwhole : e.op.wholeStaging with
        | none => exact (hsafe e rest hw hidle).2.2 x hrest s hxs hwhole hst
        | some s' =>
          rw [MutationOp.stagingPath_of_whole hwhole] at hst
          exact hes (hwhole.trans hst)

/-- In every round of any number of replay runs, whatever the server answers: a local file
    that holds the whole of a queued upload or of a moved file is still waiting in the queue
    after the round, or the server has accepted these bytes, in one upload or as the chunks of
    an assembled session, or they are in the recovery folder. -/
theorem replay_keeps_user_bytes (cacheDir : PathBuf) (w : ReplayState (σ × List Accepted))
    (before after : List (RoundInput σ)) (i : RoundInput σ)
    (houtside : StagedOutside cacheDir w.journal) (hready : SessionsReady w)
    (hsafe : SafeRounds cacheDir w (before ++ i :: after)) :
    let w₁ := rounds cacheDir w before
    ∀ x ∈ w₁.journal.entries, ∀ s f, x.op.wholeStaging = some s →
      w₁.journal.disk.files s = some f →
      Kept (i.context cacheDir) w₁ (replayRound (i.context cacheDir) w₁).2 s f := by
  intro w₁ x hx s f hxs hf
  have hround := (safeRounds_append.mp hsafe).2.1
  exact replayRound_keeps (houtside.rounds before) (hready.rounds houtside before) hround hx hxs hf

/-- A server that answers every MOVE and every upload with 404. -/
def refusingServer : CloudBackend Unit where
  putFile _ _ _ s := (.error (.server 404 "parent not found"), s)
  mkdir _ s := (.ok (), s)
  delete _ s := (.ok (), s)
  rename _ _ _ s := (.error (.server 404 "not found"), s)
  putChunk _ _ _ s := (.error .unsupported, s)
  finishChunkedUpload _ _ _ _ _ s := (.error .unsupported, s)
  abortChunkedUpload _ s := s
  listSelf _ s := (none, s)

/-- A MOVE of `/a` to `/d/b` that holds a copy of the file. -/
def movedWithCopy : ReplayState (Unit × List Accepted) :=
  { journal := {
      entries := [{ seq := 1, op := .rename ["a"] ["d", "b"] (some ["cache", "write_1"]) none }]
      nextSeq := 2
      disk := { files := fun p => if p = ["cache", "write_1"] then some { data := [7] } else none } }
    server := ((), []) }

/-- The source is gone from the server and the copy cannot be uploaded: the loop takes the
    entry for a MOVE whose source is gone and deletes the copy. -/
theorem replay_destroys_moved_copy :
    let i : RoundInput Unit :=
      { backend := refusingServer, stamp := fun _ _ => "", now := fun _ _ => 0 }
    let w := movedWithCopy
    let w' := (replayRound (i.context ["cache"]) w).2
    w.journal.disk.files ["cache", "write_1"] = some { data := [7] } ∧
    w'.journal.entries = [] ∧ w'.server.2 = [] ∧ ∀ p, w'.journal.disk.files p = none := by
  refine ⟨by decide, by decide, by decide, ?_⟩
  intro p
  show (if p = ["cache", "write_1"] then none
    else if p = ["cache", "write_1"] then some _ else none) = none
  split
  · rfl
  · rfl

/-- A server that takes the chunks of an upload and assembles them. -/
def assemblingServer : CloudBackend Unit :=
  { refusingServer with
    putChunk := fun _ _ _ s => (.ok (), s)
    finishChunkedUpload := fun _ _ _ _ _ s => (.ok { newChangeToken := none }, s) }

/-- A streamed upload of three bytes, staged whole, the first of which has gone up as chunk 0. -/
def partlyUploaded : ReplayState (Unit × List Accepted) :=
  { journal := {
      entries := [{
        seq := 1
        op := .finishChunked ["c"] "u" 1 1 3 ["cache", "write_1"] none true 0 true }]
      nextSeq := 2
      disk := {
        files := fun p => if p = ["cache", "write_1"] then some { data := [1, 2, 3] } else none } }
    server := ((), [.chunk "u" 0 [1]]) }

/-- The journal of the example has its session ready. -/
theorem partlyUploaded_ready : SessionsReady partlyUploaded where
  distinct := by decide
  holds := by
    intro e he s f hs hf
    obtain rfl := List.mem_singleton.mp he
    obtain rfl : ["cache", "write_1"] = s := Option.some.inj hs
    obtain rfl : { data := [1, 2, 3] } = f := Option.some.inj hf
    refine ⟨rfl, Nat.zero_le 1, by decide, ⟨rfl, rfl⟩, rfl, fun h => absurd h (by decide), ?_⟩
    intro j hj
    have hj' : 2 ≤ j := hj
    have hne : 0 ≠ j := by omega
    simp [sessionChunks, partlyUploaded, hne]

/-- The rest goes up as chunk 1, and the session is assembled as the file before its staging file is
deleted. -/
theorem replay_keeps_streamed_file :
    let i : RoundInput Unit :=
      { backend := assemblingServer, stamp := fun _ _ => "", now := fun _ _ => 0 }
    let w' := (replayRound (i.context ["cache"]) partlyUploaded).2
    w'.server.2 = [.chunk "u" 0 [1], .chunk "u" 1 [2, 3], .assembled "u" ["c"] [1, 2, 3]] ∧
    w'.journal.disk.files ["cache", "write_1"] = none ∧
    ∀ x ∈ partlyUploaded.journal.entries, ∀ s f, x.op.wholeStaging = some s →
      partlyUploaded.journal.disk.files s = some f →
      Kept (i.context ["cache"]) partlyUploaded w' s f := by
  intro i w'
  refine ⟨by decide, by decide, replay_keeps_user_bytes ["cache"] partlyUploaded [] [] i ?_
    partlyUploaded_ready ⟨?_, trivial⟩⟩
  · unfold StagedOutside
    decide
  · intro e rest hw _
    obtain ⟨rfl, rfl⟩ := List.cons.inj hw
    refine ⟨fun _ _ _ _ _ h => (by cases h), fun _ => ?_, fun x hx => by cases hx⟩
    -- Every request is answered with a success.
    rintro (⟨hfailed | ⟨msg, hfailed⟩, -⟩ | ⟨hrefused, -⟩)
    · cases hfailed
    · cases hfailed
    · exact hrefused rfl

end Ncrs
