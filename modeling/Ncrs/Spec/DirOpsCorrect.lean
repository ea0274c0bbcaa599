import Ncrs.Native.DirOps
import Ncrs.Spec.ConflictCopyCorrect
import Ncrs.Spec.ReplayCorrect

/-!
# Directory operations against POSIX

`posixRmdir` and `posixRename` say what a local file system does with a call. The mount replies
first and asks the server after, and the server's DELETE and MOVE take whole trees, so a call that
POSIX refuses has to be refused by the mount. It refuses for names and permissions only.

The tree the user sees is what the queue makes of the server's: a call joins the requests queued
before it, changes some of them on the way, and its own is sent last.

## Key results

- `landQueue_concat` : the last request of a queue meets the server that the others leave
- `executeOp_move`, `executeOp_put` : what a request makes of a server that has versions
- `dir_calls_follow_posix` : the calls on which the mount does what POSIX says
- `rmdir_removes_a_full_directory` : one on which it does not
-/

namespace Ncrs

open FileTree

/-! ## What POSIX prescribes -/

/-- The errors POSIX gives for these calls. -/
inductive PosixError where
  | ENOENT | ENOTDIR | EISDIR | EEXIST | ENOTEMPTY
  deriving DecidableEq, Repr

/-- The directory at `d` has entries. -/
def HasEntries (t : Tree String Bytes) (d : PathBuf) : Prop := ∃ name, t (d ++ [name]) ≠ none

/-- Two nodes with everything below them change places. -/
def exchange (t : Tree String Bytes) (a b : PathBuf) : Tree String Bytes :=
  fun q =>
    if a <+: q then t (b ++ q.drop a.length) else if b <+: q then t (a ++ q.drop b.length) else t q

open Classical in
/-- `rmdir(2)`. -/
noncomputable def posixRmdir (t : Tree String Bytes) (d : PathBuf) :
    Except PosixError (Tree String Bytes) :=
  match t d with
  | none => .error .ENOENT
  | some (.file _) => .error .ENOTDIR
  | some .dir => if HasEntries t d then .error .ENOTEMPTY else .ok (delete t d)

open Classical in
/-- `renameat2(2)` of a path onto another one that lies neither above nor below it. -/
noncomputable def posixRename (t : Tree String Bytes) (src dst : PathBuf) (flags : RenameFlags) :
    Except PosixError (Tree String Bytes) :=
  match flags, t src, t dst with
  | _, none, _ => .error .ENOENT
  | .exchange, some _, none => .error .ENOENT
  | .exchange, some _, some _ => .ok (exchange t src dst)
  | _, some _, none => .ok (move t src dst)
  | .noreplace, some _, some _ => .error .EEXIST
  | .none, some (.file _), some (.file _) => .ok (move t src dst)
  | .none, some (.file _), some .dir => .error .EISDIR
  | .none, some .dir, some (.file _) => .error .ENOTDIR
  | .none, some .dir, some .dir =>
    if HasEntries t dst then .error .ENOTEMPTY else .ok (move t src dst)

/-- The renames POSIX carries out as a plain move of the source to the destination. -/
def PlainMove (t : Tree String Bytes) (src dst : PathBuf) (flags : RenameFlags) : Prop :=
  flags ≠ .exchange ∧ (t dst ≠ none →
    flags = .none ∧ (t src = some .dir ↔ t dst = some .dir) ∧ ¬ HasEntries t dst)

/-! ## The server -/

/-- A request conditional on a version is carried out: it names none, or the present one. -/
def Unchanged (cond version : Option String) : Prop := cond = none ∨ cond = version

instance (cond version : Option String) : Decidable (Unchanged cond version) :=
  inferInstanceAs (Decidable (_ ∨ _))

/-- A plain WebDAV server. Its DELETE removes a whole collection, its MOVE replaces what is at the
destination, and an upload or a MOVE conditional on a version of its target is answered 412 once
that has another one. What it does with the other requests is left open. -/
structure PlainDav (σ : Type) where
  backend : CloudBackend σ
  tree : σ → Tree String Bytes
  /-- The etag of the file at a path. -/
  version : σ → PathBuf → Option String
  closed : ∀ s, Closed (tree s)
  delete_tree : ∀ {p s}, p ≠ [] → tree (backend.delete p s).2 = delete (tree s) p
  rename_answer : ∀ {src dst cond s},
    (backend.rename src dst cond s).1 = .error .conflict ↔ ¬ Unchanged cond (version s dst)
  rename_tree : ∀ {src dst cond s}, tree (backend.rename src dst cond s).2 =
    if Unchanged cond (version s dst) then FileTree.apply (tree s) (.move src dst) else tree s
  put_answer : ∀ {p f cond s},
    (backend.putFile p f cond s).1 = .error .conflict ↔ ¬ Unchanged cond (version s p)
  put_tree : ∀ {p f cond s}, tree (backend.putFile p f cond s).2 =
    if Unchanged cond (version s p) then FileTree.apply (tree s) (.put p f.data) else tree s

/-- The version a queued change is conditional on. -/
def MutationOp.based : MutationOp → Option String
  | .put _ _ cond | .rename _ _ _ cond | .finishChunked _ _ _ _ _ _ cond _ _ _ => cond
  | _ => none

section Queue

variable {σ : Type} (D : PlainDav σ) (files : PathBuf → Option LocalFile) (stamp : String)
  (now : Nat)

/-- The first queued request is sent. What is queued behind it and was based on the version it
replaced goes on from the new one. -/
def sendFront : List JournalEntry × σ → List JournalEntry × σ
  | ([], s) => ([], s)
  | (e :: queue, s) =>
    let disk : CacheDir := { files := files }
    let r := executeOp D.backend disk {} stamp now e.op s
    ((noteLanded { entries := queue, nextSeq := 0, disk := disk } e.op r.1).entries, r.2.2)

/-- The server once every request of a queue has reached it. -/
def landQueue (queue : List JournalEntry) (s : σ) : σ :=
  ((sendFront D files stamp now)^[queue.length] (queue, s)).2

/-- An entry's request as it is sent once the queue ahead of it has landed. -/
def sentOp (queue : List JournalEntry) (e : JournalEntry) (s : σ) : MutationOp :=
  ((sendFront D files stamp now)^[queue.length] (queue ++ [e], s)).1.head?.elim e.op (·.op)

end Queue

/-! ## Calls -/

/-- The directory calls of the daemon. -/
inductive DirCall where
  | rmdir (parent : Nat) (name : String)
  | rename (parent : Nat) (name : String) (newparent : Nat) (newname : String) (flags : RenameFlags)
  deriving DecidableEq, Repr

namespace DirMount

/-- The handler's reply and the mount after it. -/
def call (m : DirMount) : DirCall → FuseReply × DirMount
  | .rmdir parent name => m.rmdir parent name
  | .rename parent name newparent newname flags => m.rename parent name newparent newname flags

variable {σ : Type} (m : DirMount) (D : PlainDav σ) (stamp : String)

/-- The server once a queue of this mount has reached it. -/
def landOf (queue : List JournalEntry) (s : σ) : σ :=
  landQueue D m.journal.disk.files stamp m.now queue s

/-- The server once everything queued has reached it: the tree the user sees is that server's. -/
def land (s : σ) : σ := m.landOf D stamp m.journal.entries s

/-- The last of a queue's requests is carried out as far as its condition goes: it names no version
of `dst`, or the one the server has when the request is sent. -/
def Current (queue : List JournalEntry) (e : JournalEntry) (dst : PathBuf) (s : σ) : Prop :=
  Unchanged (sentOp D m.journal.disk.files stamp m.now queue e s).based
    (D.version (m.landOf D stamp queue s) dst)

/-- The version of the destination the mount takes a rename to replace. -/
def replacedBase (src dst : PathBuf) : Option String := m.destBase dst (m.renameListed src dst).1

/-- A rename that re-points the source's queued upload. -/
def repoints (src dst : PathBuf) : Bool :=
  !(m.renameListed src dst).1.sourceOnServer &&
    (m.journal.retargetUpload src dst (m.replacedBase src dst)).1

/-- The queue without the uploads of a file. -/
def withoutUploads (path : PathBuf) : List JournalEntry :=
  m.journal.entries.filter fun e => !e.op.isUploadOf path

/-- A rename that sends nothing: an echo, or one of a file that is still open and was never
queued. -/
def sendsNothing (src dst : PathBuf) : Bool :=
  m.ghostPair src dst || (m.uncommittedSource src && !m.journal.hasPendingPut src)

end DirMount

/-- What the kernel has looked up before it sends the call, in the tree the user sees. -/
def DirCall.Passed (t : Tree String Bytes) (m : DirMount) : DirCall → Prop
  | .rmdir parent name => ∃ p, m.cache.inodes parent = some p ∧ t (p ++ [name]) = some .dir
  | .rename parent name newparent newname _ =>
    ∃ p q, m.cache.inodes parent = some p ∧ m.cache.inodes newparent = some q ∧
      t (p ++ [name]) ≠ none ∧ t q = some .dir ∧
      ¬ p ++ [name] <+: q ++ [newname] ∧ ¬ q ++ [newname] <+: p ++ [name]

/-- What POSIX makes of the call. -/
noncomputable def DirCall.posix (t : Tree String Bytes) (m : DirMount) :
    DirCall → Except PosixError (Tree String Bytes)
  | .rmdir parent name => posixRmdir t ((m.cache.inodes parent).getD [] ++ [name])
  | .rename parent name newparent newname flags =>
    posixRename t ((m.cache.inodes parent).getD [] ++ [name])
      ((m.cache.inodes newparent).getD [] ++ [newname]) flags

/-- The mount does what POSIX says: an accepted call has POSIX's result, a call POSIX refuses is
refused and changes nothing. -/
def DirCall.FollowsPosix {σ : Type} (D : PlainDav σ) (stamp : String) (s : σ) (m : DirMount)
    (call : DirCall) : Prop :=
  match call.posix (D.tree (m.land D stamp s)) m with
  | .ok t' => (m.call call).1 = .ok () → D.tree ((m.call call).2.land D stamp s) = t'
  | .error _ =>
    (m.call call).1 ≠ .ok () ∧ (m.call call).2.cache.dirCache = m.cache.dirCache ∧
      (m.call call).2.journal = m.journal ∧ (m.call call).2.land D stamp s = m.land D stamp s

/-- The mount refuses the call, for the permissions of the directory or the new name. -/
def DirCall.Refused (m : DirMount) : DirCall → Prop
  | .rmdir parent _ => m.cache.lacks parent 'D' = true
  | .rename parent _ newparent newname _ =>
    (∃ e, validate newname = .error e) ∨
      m.cache.lacks parent (if parent ≠ newparent then 'V' else 'N') = true

/-- The calls that mean for the server what POSIX means by them: a request is sent, and what its
DELETE or MOVE takes along is what the call names. A rename that sends nothing is right only as the
exchange of two trees that are the same. -/
def DirCall.Fits (t : Tree String Bytes) (m : DirMount) : DirCall → Prop
  | .rmdir parent name =>
    let d := (m.cache.inodes parent).getD [] ++ [name]
    m.freshGhost d .visibleDelete = false ∧ ¬ HasEntries t d
  | .rename parent name newparent newname flags =>
    let src := (m.cache.inodes parent).getD [] ++ [name]
    let dst := (m.cache.inodes newparent).getD [] ++ [newname]
    if m.sendsNothing src dst then flags = .exchange ∧ t dst ≠ none ∧ exchange t src dst = t
    else PlainMove t src dst flags

section Arrival

variable {σ : Type} (D : PlainDav σ) (stamp : String) (s : σ) (m : DirMount)

/-- Nothing queued needs the creations of `d` that an `rmdir` drops from the queue. -/
def DirMount.CreationsUnneeded (d : PathBuf) : Prop :=
  let queue := m.journal.entries.filter fun e => !e.op.isMkDirOf d
  ∀ q, ¬ d <+: q → D.tree (m.landOf D stamp queue s) q = D.tree (m.land D stamp s) q

/-- A MOVE that finds its source: the queue, with the names below `src` changed to ones below `dst`,
leaves everything outside `dst` as it did, and `dst` has the version the MOVE names. Or else the
queue makes the source at `dst` by itself, and the MOVE finds nothing. -/
def DirMount.MoveFindsSource (src dst : PathBuf) : Prop :=
  let op := MutationOp.rename src dst none (m.replacedBase src dst)
  let queue := m.journal.entries.map (MutationJournal.followRename op)
  let t := D.tree (m.land D stamp s)
  (m.Current D stamp queue { seq := m.journal.nextSeq, op := op } dst s ∧
      ∀ q, ¬ dst <+: q → D.tree (m.landOf D stamp queue s) q = t q) ∨
    D.tree (m.landOf D stamp queue s) = move t src dst

/-- The queued upload of the source that is re-pointed: its entry, its staging file and the bytes
in it, which the user sees at the source. -/
def DirMount.Repointed (src : PathBuf) (e : JournalEntry) (staging : PathBuf) (f : LocalFile) :
    Prop :=
  m.journal.entries.filter (fun e => e.op.isUploadOf src) = [e] ∧ e.op = .put src staging none ∧
    m.journal.disk.files staging = some f ∧
    D.tree (m.land D stamp s) src = some (.file f.data)

/-- A re-pointed upload that does the rename: without it the queue leaves nothing at the source and
the rest as it was, with a file or nothing at the destination, which has the version the upload
names. -/
def DirMount.UploadReplaces (src dst : PathBuf) : Prop :=
  ∃ e staging f, m.Repointed D stamp s src e staging f ∧
    let queue := m.withoutUploads src
    m.Current D stamp queue
      { e with op := .put dst staging (m.replacedBase src dst), retargeted := true } dst s ∧
    D.tree (m.landOf D stamp queue s) dst ≠ some .dir ∧
    ∀ q, q ≠ dst → D.tree (m.landOf D stamp queue s) q = delete (D.tree (m.land D stamp s)) src q

/-- The call's request meets the server as the user left it. -/
def DirCall.Arrives : DirCall → Prop
  | .rmdir parent name => m.CreationsUnneeded D stamp s ((m.cache.inodes parent).getD [] ++ [name])
  | .rename parent name newparent newname _ =>
    let src := (m.cache.inodes parent).getD [] ++ [name]
    let dst := (m.cache.inodes newparent).getD [] ++ [newname]
    if m.sendsNothing src dst then True
    else if m.repoints src dst then m.UploadReplaces D stamp s src dst
    else m.MoveFindsSource D stamp s src dst

/-- What the mount takes for granted of a rename is so: the name of a conflicted copy of the
destination is free, and a source it lists without a version is a file that only its queued upload
makes. -/
def DirCall.Listed : DirCall → Prop
  | .rmdir _ _ => True
  | .rename parent name newparent newname _ =>
    let src := (m.cache.inodes parent).getD [] ++ [name]
    let dst := (m.cache.inodes newparent).getD [] ++ [newname]
    D.tree (m.land D stamp s) (makeConflictName stamp dst) = none ∧
      (m.repoints src dst = true → (∃ e staging f, m.Repointed D stamp s src e staging f) ∧
        D.tree (m.landOf D stamp (m.withoutUploads src) s) src = none)

end Arrival

/-! ## What reaches the server -/

section Queue

variable {σ : Type} (D : PlainDav σ) (files : PathBuf → Option LocalFile) (stamp : String)
  (now : Nat)

/-- What is noted of a landed request changes the rest of the queue entry by entry, and only in the
versions its requests are conditional on. -/
theorem noteLanded_eq_map (op : MutationOp) (r : ReplayResult) :
    ∃ f : JournalEntry → JournalEntry, (∀ e, (f e).uncond = e.uncond) ∧
      ∀ j : MutationJournal, (noteLanded j op r).entries = j.entries.map f := by
  -- each mark changes conditions only
  have hrebase : ∀ path sent new, ∃ f : JournalEntry → JournalEntry,
      (∀ e, (f e).uncond = e.uncond) ∧
        ∀ j : MutationJournal, (j.rebase path sent new).entries = j.entries.map f := by
    intro path sent new
    cases sent with
    | none => exact ⟨id, fun _ => rfl, fun j => (List.map_id _).symm⟩
    | some sent =>
      refine ⟨fun e => if MutationJournal.basedOn path sent e then
        MutationJournal.rebaseEntry new e else e, ?_, ?_⟩
      · intro e
        dsimp only
        split
        · exact MutationJournal.rebaseEntry_uncond new e
        · rfl
      · intro j
        unfold MutationJournal.rebase
        dsimp only
        split
        · rfl
        · -- no entry is based on that version
          rename_i hnone
          symm
          refine (List.map_congr_left fun e he => ?_).trans (List.map_id _)
          exact if_neg fun hbased => hnone (List.any_eq_true.mpr ⟨e, he, hbased⟩)
  unfold noteLanded
  split
  · exact hrebase ..
  · exact hrebase ..
  · exact hrebase ..
  · exact ⟨id, fun _ => rfl, fun j => (List.map_id _).symm⟩

/-- Sending all of a queue but its last entry leaves that entry, up to its condition, and the server
the others make. -/
theorem sendFront_concat (queue : List JournalEntry) (e : JournalEntry) (s : σ) :
    ∃ e', e'.uncond = e.uncond ∧ (sendFront D files stamp now)^[queue.length] (queue ++ [e], s) =
      ([e'], landQueue D files stamp now queue s) := by
  -- Induction on the length: what is noted of a request changes the entries behind it.
  induction h : queue.length generalizing queue e s with
  | zero =>
    obtain rfl := List.length_eq_zero_iff.mp h
    exact ⟨e, rfl, rfl⟩
  | succ n ih =>
    cases queue with
    | nil => simp at h
    | cons first rest =>
      let r := executeOp D.backend { files := files } {} stamp now first.op s
      obtain ⟨f, hf, hmap⟩ := noteLanded_eq_map first.op r.1
      have hlen : (rest.map f).length = n := by simpa using h
      obtain ⟨e', he', hrun⟩ := ih (rest.map f) (f e) r.2.2 hlen
      have hnext : ∀ queue, sendFront D files stamp now (first :: queue, s) =
          (queue.map f, r.2.2) := by
        intro queue
        exact Prod.ext (hmap _) rfl
      refine ⟨e', he'.trans (hf e), ?_⟩
      rw [List.cons_append, Function.iterate_succ_apply, hnext, List.map_append, List.map_singleton,
        hrun, landQueue, landQueue, hlen, h, Function.iterate_succ_apply, hnext]

/-- The last request of a queue meets the server that the others leave, and names what it named when
it was queued. -/
theorem landQueue_concat (queue : List JournalEntry) (e : JournalEntry) (s : σ) :
    landQueue D files stamp now (queue ++ [e]) s =
        (executeOp D.backend { files := files } {} stamp now (sentOp D files stamp now queue e s)
          (landQueue D files stamp now queue s)).2.2 ∧
      (sentOp D files stamp now queue e s).uncond = e.op.uncond := by
  obtain ⟨e', he', hrun⟩ := sendFront_concat D files stamp now queue e s
  have hsent : sentOp D files stamp now queue e s = e'.op := by
    rw [sentOp, hrun]
    rfl
  refine ⟨?_, ?_⟩
  · rw [landQueue, List.length_append, List.length_singleton, Function.iterate_succ_apply', hrun,
      hsent]
    rfl
  · rw [hsent]
    exact congrArg JournalEntry.op he'

end Queue

section Requests

variable {σ : Type} {D : PlainDav σ} {d : CacheDir} {c : FsCache} {stamp : String} {now : Nat}

/-- Removing a directory deletes it on the server, and what is below. -/
theorem executeOp_rmDir {path : PathBuf} {s : σ} (hp : path ≠ []) :
    D.tree (executeOp D.backend d c stamp now (.rmDir path) s).2.2 = delete (D.tree s) path := by
  have hall : (executeDelete D.backend c path s).2.2 = (D.backend.delete path s).2 := by
    unfold executeDelete
    dsimp only
    split <;> rfl
  show D.tree (executeDelete D.backend c path s).2.2 = _
  rw [hall, D.delete_tree hp]

/-- The first request of a MOVE that has no local copy, and the only one but for a conflict. -/
theorem sendMoveFirst_none (b : CloudBackend σ) (src dst : PathBuf) (cond : Option String) (s : σ) :
    sendMoveFirst b src dst none cond s =
      (((b.rename src dst cond s).1, false), (b.rename src dst cond s).2) := by
  unfold sendMoveFirst
  dsimp only
  split
  · rename_i h
    cases h
  · rfl

/-- The conflicted copy of such a MOVE. -/
theorem saveConflictCopy_none (b : CloudBackend σ) (src copyName : PathBuf) (s : σ) :
    saveConflictCopy b src copyName none false s = b.rename src copyName none s := by
  unfold saveConflictCopy
  dsimp only
  split
  · rename_i h
    cases h
  · rfl

/-- A MOVE whose condition fails goes to the conflicted copy's name. -/
theorem executeOp_move {src dst : PathBuf} {cond : Option String} {s : σ} :
    D.tree (executeOp D.backend d c stamp now (.rename src dst none cond) s).2.2 =
      FileTree.apply (D.tree s) (.move src
        (if Unchanged cond (D.version s dst) then dst else makeConflictName stamp dst)) := by
  -- the answer changes the cache, not the server
  have hout : (executeOp D.backend d c stamp now (.rename src dst none cond) s).2.2 =
      (sendMove D.backend d src dst none cond (makeConflictName stamp dst) s).2 := by
    simp only [executeOp]
    split <;> rfl
  have hcopy : ∀ s', D.tree (D.backend.rename src (makeConflictName stamp dst) none s').2 =
      FileTree.apply (D.tree s') (.move src (makeConflictName stamp dst)) := by
    intro s'
    rw [D.rename_tree, if_pos (.inl rfl)]
  rw [hout]
  -- the version is the expected one: the MOVE is made
  by_cases hcond : Unchanged cond (D.version s dst)
  · have hanswer : (D.backend.rename src dst cond s).1 ≠ .error .conflict :=
      fun h => D.rename_answer.mp h hcond
    have hsent : (sendMove D.backend d src dst none cond (makeConflictName stamp dst) s).2 =
        (D.backend.rename src dst cond s).2 := by
      simp only [sendMove, Option.bind_none, sendMoveFirst_none]
      split
      · rfl
      · rename_i h
        exact absurd h hanswer
      · rfl
      · rfl
    rw [hsent, D.rename_tree, if_pos hcond, if_pos hcond]
  · -- it is another one: the MOVE is refused, and repeated under the copy's name
    have hanswer : (D.backend.rename src dst cond s).1 = .error .conflict :=
      D.rename_answer.mpr hcond
    have hsame : D.tree (D.backend.rename src dst cond s).2 = D.tree s := by
      rw [D.rename_tree, if_neg hcond]
    have hsent : (sendMove D.backend d src dst none cond (makeConflictName stamp dst) s).2 =
        (D.backend.rename src (makeConflictName stamp dst) none
          (D.backend.rename src dst cond s).2).2 := by
      simp only [sendMove, Option.bind_none, sendMoveFirst_none, hanswer, saveConflictCopy_none]
      split <;> rfl
    rw [hsent, hcopy, hsame, if_neg hcond]

/-- An upload whose condition fails goes to the conflicted copy's name. -/
theorem executeOp_put {dst staging : PathBuf} {cond : Option String} {s : σ} {f : LocalFile}
    (hf : d.files staging = some f) :
    D.tree (executeOp D.backend d c stamp now (.put dst staging cond) s).2.2 =
      FileTree.apply (D.tree s) (.put
        (if Unchanged cond (D.version s dst) then dst else makeConflictName stamp dst) f.data) := by
  -- a copy's upload is unconditional
  have hcopy : ∀ s', D.tree (D.backend.putFile (makeConflictName stamp dst) f none s').2 =
      FileTree.apply (D.tree s') (.put (makeConflictName stamp dst) f.data) := by
    intro s'
    rw [D.put_tree, if_pos (.inl rfl)]
  have hput : D.tree (D.backend.putFile dst f cond s).2 =
      if Unchanged cond (D.version s dst) then FileTree.apply (D.tree s) (.put dst f.data)
      else D.tree s := D.put_tree
  simp only [executeOp, executePut, hf]
  -- the version is the expected one: the upload is made
  by_cases hcond : Unchanged cond (D.version s dst)
  · have hanswer : (D.backend.putFile dst f cond s).1 ≠ .error .conflict :=
      fun h => D.put_answer.mp h hcond
    rw [if_pos hcond] at hput ⊢
    split
    · exact hput
    · rename_i h
      exact absurd h hanswer
    · exact hput
    · exact hput
  · -- it is another one: the upload is refused, and repeated under the copy's name
    have hanswer : (D.backend.putFile dst f cond s).1 = .error .conflict := D.put_answer.mpr hcond
    rw [if_neg hcond] at hput ⊢
    rw [hanswer]
    dsimp only
    rw [← hput, ← hcopy]
    split <;> rfl

end Requests

/-! ## Trees -/

/-- A move takes its source away. -/
theorem move_src {t : Tree String Bytes} {src dst : PathBuf} (h : ¬ dst <+: src) :
    move t src dst src = none := by
  simp [move, h]

/-- What is deleted is gone. -/
theorem delete_self (t : Tree String Bytes) (p : PathBuf) : delete t p p = none := by
  simp [delete]

/-- An exchange puts something where its first argument was. -/
theorem exchange_left (t : Tree String Bytes) (a b : PathBuf) : exchange t a b a = t b := by
  simp [exchange]

/-- A file has no entries. -/
theorem not_hasEntries_file {t : Tree String Bytes} (hc : Closed t)
    {p : PathBuf} {c : Bytes} (h : t p = some (.file c)) : ¬ HasEntries t p := by
  intro ⟨name, hname⟩
  have hparent := hc.parent (p ++ [name]) (by simp) hname
  rw [List.dropLast_concat, h] at hparent
  cases hparent

/-- The name of a conflicted copy is one in the same folder, and another one. -/
theorem makeConflictName_sibling (stamp : String) (dir : PathBuf) (name : String) :
    ∃ copy, makeConflictName stamp (dir ++ [name]) = dir ++ [copy] ∧ copy ≠ name := by
  obtain ⟨copy, hcopy, hchars⟩ := makeConflictName_eq stamp dir name
  refine ⟨copy, hcopy, ?_⟩
  rintro rfl
  -- it is longer than the name
  have hlen := congrArg List.length hchars
  have hsplit := splitName_spec copy
  unfold copyChars at hlen
  cases h : splitName copy with
  | mk stem ext =>
    rw [h] at hlen hsplit
    cases ext with
    | some e =>
      have hname := congrArg List.length hsplit.1
      simp [copyStem] at hlen hname
      omega
    | none =>
      rw [hsplit.1] at hlen
      simp [copyStem] at hlen

section Targets

variable {t r : Tree String Bytes} {src dst q : PathBuf}

/-- What a rename changes lies at or below its source and its destination. -/
theorem move_off (hs : ¬ src <+: q) (hd : ¬ dst <+: q) : move t src dst q = t q := by
  simp [move, hs, hd]

/-- An exchange leaves everything else alone. -/
theorem exchange_off (hs : ¬ src <+: q) (hd : ¬ dst <+: q) : exchange t src dst q = t q := by
  simp [exchange, hs, hd]

/-- A path next to the destination is neither at nor below it, nor at or below the source, if the
source is something and the path nothing. -/
theorem sibling_off {dir : PathBuf} {name copy : String} (hnot : ¬ src <+: dir ++ [name])
    (hne : copy ≠ name) (hsrc : t src ≠ none) (hfree : t (dir ++ [copy]) = none) :
    ¬ src <+: dir ++ [copy] ∧ ¬ dir ++ [name] <+: dir ++ [copy] := by
  refine ⟨?_, ?_⟩
  · intro h
    rcases List.prefix_concat_iff.mp h with rfl | h
    · exact hsrc hfree
    · exact hnot (h.trans (List.prefix_append ..))
  · intro h
    have heq := List.append_cancel_left (h.eq_of_length (by simp))
    exact hne (List.cons.inj heq).1.symm

/-- A MOVE onto a name that stays free in the end was refused. -/
theorem apply_move_free {x : PathBuf} {t' : Tree String Bytes}
    (h : FileTree.apply r (.move src x) = t') (hfree : t' x = none) :
    ¬ MoveOk r src x ∧ r = t' := by
  have hnot : ¬ MoveOk r src x := by
    intro hok
    simp only [FileTree.apply, if_pos hok] at h
    rw [← h] at hfree
    exact hok.2.2.1 (by simpa [move] using hfree)
  refine ⟨hnot, ?_⟩
  rw [← h, FileTree.apply, if_neg hnot]

/-- A MOVE never leaves something at its source that it could have moved. -/
theorem apply_move_ne {x : PathBuf} {t' : Tree String Bytes} (hok : MoveOk t' src x) :
    FileTree.apply r (.move src x) ≠ t' := by
  intro h
  by_cases hr : MoveOk r src x
  · simp only [FileTree.apply, if_pos hr] at h
    have hat := congrFun h src
    rw [move_src hr.2.2.2.2.2] at hat
    exact hok.2.2.1 hat.symm
  · rw [FileTree.apply, if_neg hr] at h
    exact hr (h ▸ hok)

/-- A MOVE on one tree makes the move of another exactly if the trees are the same outside the
destination, or it finds the move made. -/
theorem apply_move_eq_iff (ht : MoveOk t src dst) :
    FileTree.apply r (.move src dst) = move t src dst ↔
      (∀ q, ¬ dst <+: q → r q = t q) ∨ r = move t src dst := by
  obtain ⟨hs, hd, hsrc, hpar, hsd, hds⟩ := ht
  constructor
  · intro h
    by_cases hr : MoveOk r src dst
    · refine .inl fun q hq => ?_
      simp only [FileTree.apply, if_pos hr] at h
      by_cases hsq : src <+: q
      · -- what was below the source is below the destination now
        obtain ⟨rel, rfl⟩ := hsq
        have hat := congrFun h (dst ++ rel)
        simpa [move] using hat
      · -- elsewhere the two trees agree
        have hat := congrFun h q
        rwa [move_off hsq hq, move_off hsq hq] at hat
    · -- a refused move leaves the tree, which is then the moved one
      rw [FileTree.apply, if_neg hr] at h
      exact .inr h
  · rintro (h | h)
    · -- agreeing off the destination, the move is made there too
      have hr : MoveOk r src dst := by
        refine ⟨hs, hd, by rwa [h src hds], ?_, hsd, hds⟩
        rw [h _ (not_prefix_dropLast_self hd)]
        exact hpar
      simp only [FileTree.apply, if_pos hr]
      funext q
      simp only [move]
      split
      · refine h _ fun hdq => ?_
        rcases List.prefix_or_prefix_of_prefix hdq (List.prefix_append ..) with hcmp | hcmp
        · exact hds hcmp
        · exact hsd hcmp
      · rename_i hdq
        split
        · rfl
        · exact h q hdq
    · -- in the moved tree there is nothing to move any more
      have hr : ¬ MoveOk r src dst := by
        intro hr
        exact hr.2.2.1 (by rw [h, move_src hds])
      rw [FileTree.apply, if_neg hr]
      exact h

/-- An upload at the destination makes the move of a file exactly if nothing is left at the source
and the rest, the destination aside, is as it was. -/
theorem apply_put_eq_iff {data : Bytes} (hc : Closed t) (ht : MoveOk t src dst)
    (hsrc : t src = some (.file data)) (hdst : t dst ≠ some .dir) :
    FileTree.apply r (.put dst data) = move t src dst ↔
      r dst ≠ some .dir ∧ ∀ q, q ≠ dst → r q = delete t src q := by
  obtain ⟨hs, hd, -, hpar, hsd, hds⟩ := ht
  have hnotdir : t src ≠ some .dir := by
    rw [hsrc]
    exact fun h => nomatch h
  -- the move of a file, seen off the destination, is its removal
  have hoff : ∀ q, q ≠ dst → move t src dst q = delete t src q := by
    intro q hq
    simp only [move, delete]
    by_cases hdq : dst <+: q
    · have hsq : ¬ src <+: q := by
        intro hsq
        rcases List.prefix_or_prefix_of_prefix hsq hdq with hcmp | hcmp
        · exact hsd hcmp
        · exact hds hcmp
      rw [if_pos hdq, if_neg hsq, hc.none_below hdq (Ne.symm hq) hdst]
      refine hc.none_below (List.prefix_append ..) ?_ hnotdir
      obtain ⟨rel, rfl⟩ := hdq
      simpa using hq
    · rw [if_neg hdq]
  -- the file is at the destination, under a parent that stays
  have hat : move t src dst dst = some (.file data) := by
    simp [move, hsrc]
  have hparent : delete t src dst.dropLast = some .dir := by
    have hsd' : ¬ src <+: dst.dropLast := fun h => hsd (h.trans (List.dropLast_prefix dst))
    rw [delete, if_neg hsd']
    exact hpar
  constructor
  · intro h
    -- an upload that is made shows the tree off the destination
    by_cases hr : PutOk r dst
    · simp only [FileTree.apply, if_pos hr] at h
      refine ⟨hr.2.2, fun q hq => ?_⟩
      have hq' := congrFun h q
      rw [FileTree.set, if_neg hq, hoff q hq] at hq'
      exact hq'
    · -- a refused upload has found the file at the destination
      rw [FileTree.apply, if_neg hr] at h
      refine absurd ⟨hd, ?_, ?_⟩ hr
      · rw [h, hoff _ (dropLast_ne_self hd)]
        exact hparent
      · rw [h, hat]
        exact fun h => nomatch h
  · -- and the other way round it is not refused there
    rintro ⟨hrdst, h⟩
    have hr : PutOk r dst := ⟨hd, by rw [h _ (dropLast_ne_self hd)]; exact hparent, hrdst⟩
    simp only [FileTree.apply, if_pos hr]
    funext q
    by_cases hq : q = dst
    · rw [hq, hat, FileTree.set, if_pos rfl]
    · rw [FileTree.set, if_neg hq, h q hq, hoff q hq]

/-- An upload into a folder is seen. -/
theorem apply_put_ne_free {x : PathBuf} {data : Bytes} {t' : Tree String Bytes} (hx : x ≠ [])
    (hpar : t' x.dropLast = some .dir) (hfree : t' x = none) :
    FileTree.apply r (.put x data) ≠ t' := by
  intro h
  by_cases hr : PutOk r x
  · rw [← h] at hfree
    simp [FileTree.apply, hr, FileTree.set] at hfree
  · rw [FileTree.apply, if_neg hr] at h
    exact hr ⟨hx, by rw [h]; exact hpar, by simp [h, hfree]⟩

/-- An upload changes its own path only. -/
theorem apply_put_of_ne {x : PathBuf} {data : Bytes} (hq : q ≠ x) :
    FileTree.apply r (.put x data) q = r q := by
  simp only [FileTree.apply]
  split
  · rw [FileTree.set, if_neg hq]
  · rfl

/-- After an exchange the source could still be moved next to the destination, or onto it. -/
theorem exchange_moveOk {x : PathBuf} (ht : MoveOk t src dst) (hdst : t dst ≠ none) (hx : x ≠ [])
    (hpar : x.dropLast = dst.dropLast) (hsx : ¬ src <+: x) (hxs : ¬ x <+: src) :
    MoveOk (exchange t src dst) src x := by
  obtain ⟨hs, hd, -, hdir, hsd, -⟩ := ht
  refine ⟨hs, hx, by rwa [exchange_left], ?_, hsx, hxs⟩
  rw [hpar, exchange_off (fun h => hsd (h.trans (List.dropLast_prefix dst)))
    (not_prefix_dropLast_self hd)]
  exact hdir

/-- A path with nothing at it does not lie above a node. -/
theorem not_prefix_of_free {x : PathBuf} (hc : Closed t) (hsrc : t src ≠ none) (hfree : t x = none) :
    ¬ x <+: src := by
  intro h
  by_cases heq : x = src
  · exact hsrc (heq ▸ hfree)
  · have hdir := hc.ancestor h heq hsrc
    rw [hfree] at hdir
    cases hdir

end Targets

/-- What POSIX makes of a rename, if it carries it out: a plain move or an exchange. -/
theorem posixRename_ok_iff {t t' : Tree String Bytes} {src dst : PathBuf} {flags : RenameFlags}
    (hc : Closed t) (hsrc : t src ≠ none) :
    posixRename t src dst flags = .ok t' ↔
      PlainMove t src dst flags ∧ t' = move t src dst ∨
        flags = .exchange ∧ t dst ≠ none ∧ t' = exchange t src dst := by
  obtain ⟨n, hn⟩ := Option.ne_none_iff_exists'.mp hsrc
  cases hd : t dst with
  | none => cases flags <;> simp [posixRename, PlainMove, hn, hd, eq_comm]
  | some n' =>
    -- what is left is the table of kinds, entry by entry
    cases flags with
    | exchange => simp [posixRename, PlainMove, hn, hd, eq_comm]
    | noreplace => simp [posixRename, PlainMove, hn, hd]
    | none =>
      cases n with
      | file c =>
        cases n' with
        | file c' =>
          have hleaf := not_hasEntries_file hc hd
          simp [posixRename, PlainMove, hn, hd, hleaf, eq_comm]
        | dir => simp [posixRename, PlainMove, hn, hd]
      | dir =>
        cases n' with
        | file c' => simp [posixRename, PlainMove, hn, hd]
        | dir =>
          by_cases hentries : HasEntries t dst <;>
            simp [posixRename, PlainMove, hn, hd, hentries, eq_comm]

/-- A rename that leaves the tree alone is right only as the exchange of equal trees. -/
theorem posixRename_eq_self_iff {t : Tree String Bytes} {src dst : PathBuf} {flags : RenameFlags}
    (hc : Closed t) (hsrc : t src ≠ none) (hnot : ¬ dst <+: src) :
    posixRename t src dst flags = .ok t ↔
      flags = .exchange ∧ t dst ≠ none ∧ exchange t src dst = t := by
  have hmove : t ≠ move t src dst := by
    intro heq
    have hat := congrFun heq src
    rw [move_src hnot] at hat
    exact hsrc hat
  rw [posixRename_ok_iff hc hsrc, or_iff_right fun h => hmove h.2]
  simp only [eq_comm]

/-! ## The calls on which the mount follows POSIX -/

section Calls

variable {σ : Type} {D : PlainDav σ} {stamp : String} {s : σ} {m : DirMount}

/-- A refused call changes nothing. -/
theorem call_refused {call : DirCall} (h : call.Refused m) :
    (∃ e, (m.call call).1 = .error e) ∧ (m.call call).2 = m := by
  cases call with
  | rmdir parent name =>
    have hlacks : m.cache.lacks parent 'D' = true := h
    have hcall : m.rmdir parent name = (.error .EACCES, m) := by
      simp only [DirMount.rmdir, hlacks, if_true]
    simp only [DirMount.call, hcall]
    exact ⟨⟨_, rfl⟩, trivial⟩
  | rename parent name newparent newname flags =>
    simp only [DirMount.call, DirMount.rename]
    rcases h with ⟨e, he⟩ | hlacks
    · rw [he]
      exact ⟨⟨_, rfl⟩, rfl⟩
    · cases hv : validate newname with
      | error e => exact ⟨⟨_, rfl⟩, rfl⟩
      | ok _ =>
        rw [if_pos hlacks]
        exact ⟨⟨_, rfl⟩, rfl⟩

/-- A refused call changes nothing, as POSIX has it. -/
theorem followsPosix_of_refused {call : DirCall} (h : call.Refused m) :
    call.FollowsPosix D stamp s m := by
  obtain ⟨⟨e, he⟩, hm⟩ := call_refused h
  unfold DirCall.FollowsPosix
  rw [he, hm]
  split
  · intro hok
    cases hok
  · exact ⟨fun hok => (nomatch hok), rfl, rfl, rfl⟩

/-- Of a call the mount accepts, POSIX has to accept it too and give the same tree. -/
theorem followsPosix_of_accepted (call : DirCall) (h : (m.call call).1 = .ok ()) :
    call.FollowsPosix D stamp s m ↔ call.posix (D.tree (m.land D stamp s)) m =
      .ok (D.tree ((m.call call).2.land D stamp s)) := by
  unfold DirCall.FollowsPosix
  cases call.posix (D.tree (m.land D stamp s)) m with
  | ok t' => simp [h, eq_comm]
  | error e => simp [h]

/-- What an operation names does not depend on its condition. -/
theorem MutationOp.eq_of_uncond_rmDir {op : MutationOp} {path : PathBuf}
    (h : op.uncond = (MutationOp.rmDir path).uncond) : op = .rmDir path := by
  cases op <;> simp_all [MutationOp.uncond]

/-- The queued rename is this one, up to its condition. -/
theorem MutationOp.eq_of_uncond_rename {op : MutationOp} {src dst : PathBuf} {base : Option String}
    (h : op.uncond = (MutationOp.rename src dst none base).uncond) :
    op = .rename src dst none op.based := by
  cases op <;> simp_all [MutationOp.uncond, MutationOp.based]

/-- The queued upload is this one, up to its condition. -/
theorem MutationOp.eq_of_uncond_put {op : MutationOp} {path staging : PathBuf} {base : Option String}
    (h : op.uncond = (MutationOp.put path staging base).uncond) : op = .put path staging op.based := by
  cases op <;> simp_all [MutationOp.uncond, MutationOp.based]

variable (stamp) in
/-- A mount that has queued one more request lands the queue ahead of it first. -/
theorem DirMount.land_concat {m' : DirMount} {j : MutationJournal} {queue : List JournalEntry}
    {e : JournalEntry} (hjournal : m'.journal = j) (hnow : m'.now = m.now)
    (hfiles : j.disk.files = m.journal.disk.files) (hentries : j.entries = queue ++ [e]) :
    m'.land D stamp s = (executeOp D.backend { files := m.journal.disk.files } {} stamp m.now
        (sentOp D m.journal.disk.files stamp m.now queue e s) (m.landOf D stamp queue s)).2.2 ∧
      (sentOp D m.journal.disk.files stamp m.now queue e s).uncond = e.op.uncond := by
  rw [DirMount.land, DirMount.landOf, hjournal, hfiles, hnow, hentries]
  exact landQueue_concat ..

/-! ### Removing a directory -/

variable (stamp) in
/-- An accepted `rmdir` deletes the directory with everything in it, behind what is left of the
queue. -/
theorem DirMount.rmdir_land {parent : Nat} {name : String} {p : PathBuf}
    (hallowed : m.cache.lacks parent 'D' = false) (hp : m.cache.inodes parent = some p)
    (hghost : m.freshGhost (p ++ [name]) .visibleDelete = false) :
    (m.rmdir parent name).1 = .ok () ∧ D.tree ((m.rmdir parent name).2.land D stamp s) =
      delete (D.tree (m.landOf D stamp
        (m.journal.entries.filter fun e => !e.op.isMkDirOf (p ++ [name])) s)) (p ++ [name]) := by
  let entry : JournalEntry := { seq := m.journal.nextSeq, op := .rmDir (p ++ [name]) }
  have hentries : (m.journal.enqueue (.rmDir (p ++ [name]))).2.entries =
      (m.journal.entries.filter fun e => !e.op.isMkDirOf (p ++ [name])) ++ [entry] := by
    rw [MutationJournal.enqueue_entries, MutationJournal.map_followRename (by simp)]
    rfl
  have hcall : (m.rmdir parent name).1 = .ok () ∧ (m.rmdir parent name).2.now = m.now ∧
      (m.rmdir parent name).2.journal = (m.journal.enqueue (.rmDir (p ++ [name]))).2 := by
    simp only [DirMount.rmdir, hallowed, hp, hghost, Bool.false_eq_true, if_false]
    exact ⟨trivial, rfl, rfl⟩
  obtain ⟨hok, hnow, hjournal⟩ := hcall
  obtain ⟨hland, hop⟩ := DirMount.land_concat stamp (D := D) (s := s) hjournal hnow rfl
    hentries
  refine ⟨hok, (congrArg D.tree hland).trans ?_⟩
  have hsent : sentOp D m.journal.disk.files stamp m.now _ entry s = .rmDir (p ++ [name]) :=
    MutationOp.eq_of_uncond_rmDir hop
  rw [hsent]
  exact executeOp_rmDir (by simp)

/-- One that an echo's ghost entry answers does nothing. -/
theorem DirMount.rmdir_ghost {parent : Nat} {name : String} {p : PathBuf}
    (hallowed : m.cache.lacks parent 'D' = false) (hp : m.cache.inodes parent = some p)
    (hghost : m.freshGhost (p ++ [name]) .visibleDelete = true) :
    (m.rmdir parent name).1 = .ok () ∧
      (m.rmdir parent name).2.land D stamp s = m.land D stamp s := by
  simp only [DirMount.rmdir, hallowed, hp, hghost, Bool.false_eq_true, if_false, if_true]
  exact ⟨trivial, rfl⟩

/-- Deleting below a path gives the same tree exactly if the trees agree elsewhere. -/
theorem delete_eq_iff {t r : Tree String Bytes} {d : PathBuf} :
    delete r d = delete t d ↔ ∀ q, ¬ d <+: q → r q = t q := by
  constructor
  · intro h q hq
    have hat := congrFun h q
    rwa [delete, delete, if_neg hq, if_neg hq] at hat
  · intro h
    funext q
    simp only [delete]
    split
    · rfl
    · rename_i hq
      exact h q hq

/-- A removal ends as POSIX has it exactly when the directory is empty and the request arrives. -/
theorem rmdir_follows_iff {parent : Nat} {name : String}
    (hpassed : (DirCall.rmdir parent name).Passed (D.tree (m.land D stamp s)) m)
    (haccepted : ¬ (DirCall.rmdir parent name).Refused m) :
    (DirCall.rmdir parent name).FollowsPosix D stamp s m ↔
      (DirCall.rmdir parent name).Fits (D.tree (m.land D stamp s)) m ∧
        (DirCall.rmdir parent name).Arrives D stamp s m := by
  obtain ⟨p, hp, hd⟩ := hpassed
  have hallowed : m.cache.lacks parent 'D' = false := Bool.eq_false_iff.mpr haccepted
  simp only [DirCall.Fits, DirCall.Arrives, hp, Option.getD_some]
  -- a ghost goes without a request
  cases hghost : m.freshGhost (p ++ [name]) .visibleDelete with
  | true =>
    obtain ⟨hok, hland⟩ : (m.rmdir parent name).1 = .ok () ∧
        (m.rmdir parent name).2.land D stamp s = m.land D stamp s :=
      DirMount.rmdir_ghost hallowed hp hghost
    rw [followsPosix_of_accepted (.rmdir parent name) hok]
    simp only [DirMount.call, hland, DirCall.posix, hp, Option.getD_some]
    -- the directory is still there
    by_cases hentries : HasEntries (D.tree (m.land D stamp s)) (p ++ [name])
    · simp [posixRmdir, hd, hentries]
    · have hne : delete (D.tree (m.land D stamp s)) (p ++ [name]) ≠ D.tree (m.land D stamp s) := by
        intro heq
        have hat := congrFun heq (p ++ [name])
        rw [delete_self, hd] at hat
        cases hat
      simp [posixRmdir, hd, hentries, hne]
  | false =>
    -- otherwise the removal is queued behind what is there
    obtain ⟨hok, hland⟩ : (m.rmdir parent name).1 = .ok () ∧ _ :=
      DirMount.rmdir_land stamp (D := D) (s := s) hallowed hp hghost
    rw [followsPosix_of_accepted (.rmdir parent name) hok]
    simp only [DirMount.call, hland, DirCall.posix, hp, Option.getD_some, true_and]
    by_cases hentries : HasEntries (D.tree (m.land D stamp s)) (p ++ [name])
    · simp [posixRmdir, hd, hentries]
    · have hposix : posixRmdir (D.tree (m.land D stamp s)) (p ++ [name]) =
          .ok (delete (D.tree (m.land D stamp s)) (p ++ [name])) := by
        simp [posixRmdir, hd, hentries]
      rw [hposix, Except.ok.injEq, eq_comm, delete_eq_iff, and_iff_right hentries]
      rfl

/-! ### Renaming -/

/-- What an accepted rename does to the queue. -/
theorem rename_journal {parent newparent : Nat} {name newname : String} {flags : RenameFlags}
    {p q : PathBuf} (haccepted : ¬ (DirCall.rename parent name newparent newname flags).Refused m)
    (hp : m.cache.inodes parent = some p) (hq : m.cache.inodes newparent = some q) :
    let src := p ++ [name]
    let dst := q ++ [newname]
    let m' := (m.rename parent name newparent newname flags).2
    -- the name is valid and the folders allow the call
    (m.rename parent name newparent newname flags).1 = .ok () ∧ m'.now = m.now ∧ m'.journal =
      if m.sendsNothing src dst then m.journal
      else if m.repoints src dst then
        (m.journal.retargetUpload src dst (m.replacedBase src dst)).2
      else (m.journal.enqueue (.rename src dst none (m.replacedBase src dst))).2 := by
  intro src dst m'
  obtain ⟨hvalid, hallowed⟩ := not_or.mp haccepted
  obtain ⟨u, hu⟩ : ∃ u, validate newname = .ok u := by
    cases hv : validate newname with
    | ok u => exact ⟨u, rfl⟩
    | error e => exact absurd ⟨e, hv⟩ hvalid
  have hcall : m.rename parent name newparent newname flags =
      if m.ghostPair src dst then (.ok (), (m.dropGhost src).dropGhost dst)
      else (.ok (), m.renameTo src dst) := by
    simp only [DirMount.rename, hu, hp, hq, if_neg hallowed]
    rfl
  have hm' : m' = (m.rename parent name newparent newname flags).2 := rfl
  rw [hm', hcall]
  -- a ghost at the source: both names are dropped
  cases hghost : m.ghostPair src dst with
  | true =>
    simp only [DirMount.sendsNothing, hghost, Bool.true_or, if_true]
    exact ⟨trivial, rfl, rfl⟩
  | false =>
    -- otherwise nothing is sent, the upload is re-pointed, or a MOVE is queued
    simp only [DirMount.sendsNothing, hghost, Bool.false_or, Bool.false_eq_true, if_false]
    refine ⟨trivial, ?_⟩
    unfold DirMount.renameTo
    dsimp only
    split
    · exact ⟨rfl, rfl⟩
    · split
      · rename_i hrepoints
        exact ⟨rfl, (if_pos hrepoints).symm⟩
      · rename_i hrepoints
        exact ⟨rfl, (if_neg hrepoints).symm⟩

section Sent

variable {parent newparent : Nat} {name newname : String} {flags : RenameFlags} {p q : PathBuf}

variable (stamp) in
/-- The last request of a rename that is queued as a MOVE. -/
theorem rename_land (haccepted : ¬ (DirCall.rename parent name newparent newname flags).Refused m)
    (hp : m.cache.inodes parent = some p) (hq : m.cache.inodes newparent = some q)
    (hsends : m.sendsNothing (p ++ [name]) (q ++ [newname]) = false)
    (hqueued : m.repoints (p ++ [name]) (q ++ [newname]) = false) :
    let src := p ++ [name]
    let dst := q ++ [newname]
    let op := MutationOp.rename src dst none (m.replacedBase src dst)
    let queue := m.journal.entries.map (MutationJournal.followRename op)
    ∃ target, D.tree ((m.rename parent name newparent newname flags).2.land D stamp s) =
        FileTree.apply (D.tree (m.landOf D stamp queue s)) (.move src target) ∧
      (m.Current D stamp queue { seq := m.journal.nextSeq, op := op } dst s ∧ target = dst ∨
        ¬ m.Current D stamp queue { seq := m.journal.nextSeq, op := op } dst s ∧
          target = makeConflictName stamp dst) := by
  intro src dst op queue
  obtain ⟨-, hnow, hjournal⟩ := rename_journal haccepted hp hq
  simp only [hsends, hqueued, Bool.false_eq_true, if_false] at hjournal
  obtain ⟨hland, hop⟩ := DirMount.land_concat stamp (D := D) (s := s) hjournal hnow rfl
    (MutationJournal.enqueue_entries ..)
  have hsent := MutationOp.eq_of_uncond_rename hop
  have htree := congrArg D.tree hland
  rw [hsent, executeOp_move] at htree
  refine ⟨_, htree, ?_⟩
  split
  · rename_i hcur
    exact .inl ⟨hcur, rfl⟩
  · rename_i hcur
    exact .inr ⟨hcur, rfl⟩

/-- The last request of a rename that re-points an upload. -/
theorem rename_land_repointed
    (haccepted : ¬ (DirCall.rename parent name newparent newname flags).Refused m)
    (hp : m.cache.inodes parent = some p) (hq : m.cache.inodes newparent = some q)
    (hsends : m.sendsNothing (p ++ [name]) (q ++ [newname]) = false)
    (hqueued : m.repoints (p ++ [name]) (q ++ [newname]) = true) {e : JournalEntry}
    {staging : PathBuf} {f : LocalFile} (hup : m.Repointed D stamp s (p ++ [name]) e staging f) :
    let src := p ++ [name]
    let dst := q ++ [newname]
    let queue := m.withoutUploads src
    let entry : JournalEntry :=
      { e with op := .put dst staging (m.replacedBase src dst), retargeted := true }
    ∃ target, D.tree ((m.rename parent name newparent newname flags).2.land D stamp s) =
        FileTree.apply (D.tree (m.landOf D stamp queue s)) (.put target f.data) ∧
      (m.Current D stamp queue entry dst s ∧ target = dst ∨
        ¬ m.Current D stamp queue entry dst s ∧ target = makeConflictName stamp dst) := by
  intro src dst queue entry
  obtain ⟨hone, hput, hfile, -⟩ := hup
  obtain ⟨-, hnow, hjournal⟩ := rename_journal haccepted hp hq
  simp only [hsends, hqueued, Bool.false_eq_true, if_false, if_true] at hjournal
  obtain ⟨e', staging', hone', hput', -, -, hretarget⟩ :=
    MutationJournal.retargetUpload_true (Bool.and_eq_true .. ▸ hqueued).2
  -- the re-pointed entry is the one upload of the source
  obtain rfl : e = e' := by
    rw [hone, List.singleton_inj] at hone'
    exact hone'
  obtain rfl : staging = staging' := by
    rw [hput] at hput'
    exact (MutationOp.put.inj hput').2.1
  rw [hretarget] at hjournal
  obtain ⟨hland, hop⟩ := DirMount.land_concat stamp (D := D) (s := s) (m := m)
    (e := entry) hjournal hnow rfl rfl
  -- it lands last, as an upload of the new name
  have hsent := MutationOp.eq_of_uncond_put hop
  have htree := congrArg D.tree hland
  rw [hsent, executeOp_put (d := { files := m.journal.disk.files }) hfile] at htree
  refine ⟨_, htree, ?_⟩
  split
  · rename_i hcur
    exact .inl ⟨hcur, rfl⟩
  · rename_i hcur
    exact .inr ⟨hcur, rfl⟩

/-- A rename that sends nothing. -/
theorem rename_nothing_iff
    (hpassed : (DirCall.rename parent name newparent newname flags).Passed
      (D.tree (m.land D stamp s)) m)
    (haccepted : ¬ (DirCall.rename parent name newparent newname flags).Refused m)
    (hp : m.cache.inodes parent = some p) (hq : m.cache.inodes newparent = some q)
    (hsends : m.sendsNothing (p ++ [name]) (q ++ [newname]) = true) :
    (DirCall.rename parent name newparent newname flags).FollowsPosix D stamp s m ↔
      (DirCall.rename parent name newparent newname flags).Fits (D.tree (m.land D stamp s)) m ∧
        (DirCall.rename parent name newparent newname flags).Arrives D stamp s m := by
  obtain ⟨hok, hnow, hjournal⟩ := rename_journal haccepted hp hq
  rw [if_pos hsends] at hjournal
  have hland : (m.rename parent name newparent newname flags).2.land D stamp s =
      m.land D stamp s := by
    rw [DirMount.land, DirMount.landOf, hjournal, hnow]
    rfl
  obtain ⟨p', q', hp', hq', hsrc, -, -, hnot⟩ := hpassed
  obtain rfl : p = p' := Option.some.inj (hp.symm.trans hp')
  obtain rfl : q = q' := Option.some.inj (hq.symm.trans hq')
  rw [followsPosix_of_accepted (.rename parent name newparent newname flags) hok]
  simp only [DirMount.call, hland, DirCall.posix, DirCall.Fits, DirCall.Arrives, hp, hq,
    Option.getD_some, hsends, if_true, and_true]
  exact posixRename_eq_self_iff (D.closed _) hsrc hnot

/-- A rename that is queued as a MOVE. -/
theorem rename_move_follows {t : Tree String Bytes} (ht : D.tree (m.land D stamp s) = t)
    (haccepted : ¬ (DirCall.rename parent name newparent newname flags).Refused m)
    (hp : m.cache.inodes parent = some p) (hq : m.cache.inodes newparent = some q)
    (hsends : m.sendsNothing (p ++ [name]) (q ++ [newname]) = false)
    (hqueued : m.repoints (p ++ [name]) (q ++ [newname]) = false)
    (hmove : MoveOk t (p ++ [name]) (q ++ [newname])) :
    let src := p ++ [name]
    let dst := q ++ [newname]
    let final := D.tree ((m.rename parent name newparent newname flags).2.land D stamp s)
    (PlainMove t src dst flags ∧ m.MoveFindsSource D stamp s src dst →
      posixRename t src dst flags = .ok final) ∧
    (t (makeConflictName stamp dst) = none → posixRename t src dst flags = .ok final →
      PlainMove t src dst flags ∧ m.MoveFindsSource D stamp s src dst) := by
  intro src dst final
  have hc : Closed t := ht ▸ D.closed _
  obtain ⟨target, hfinal, htarget⟩ : ∃ target, final = _ ∧ _ :=
    rename_land stamp (D := D) (s := s) haccepted hp hq hsends hqueued
  -- POSIX renames plainly or exchanges
  rw [posixRename_ok_iff hc hmove.2.2.1]
  constructor
  · rintro ⟨hplain, hfinds⟩
    refine .inl ⟨hplain, ?_⟩
    -- the MOVE finds the source
    rw [DirMount.MoveFindsSource, ht] at hfinds
    rcases hfinds with ⟨hcur, hoff⟩ | hmoved
    · obtain ⟨-, rfl⟩ := htarget.resolve_right fun h => h.1 hcur
      exact hfinal.trans ((apply_move_eq_iff hmove).mpr (.inl hoff))
    · -- the MOVE, or that of the conflicted copy, finds nothing at the source
      rw [hfinal, hmoved, FileTree.apply, if_neg]
      intro hok
      exact hok.2.2.1 (move_src hmove.2.2.2.2.2)
  · -- POSIX was followed, so one of the two ways was taken
    intro hfree hposix
    obtain ⟨copy, hcopy, hne⟩ := makeConflictName_sibling stamp q newname
    have hcopyfree : t (q ++ [copy]) = none := hcopy ▸ hfree
    obtain ⟨hsc, hdc⟩ := sibling_off hmove.2.2.2.2.1 hne hmove.2.2.1 hcopyfree
    rcases hposix with ⟨hplain, heq⟩ | ⟨-, hdst, heq⟩
    · refine ⟨hplain, ?_⟩
      rw [DirMount.MoveFindsSource, ht]
      rcases htarget with ⟨hcur, rfl⟩ | ⟨-, rfl⟩
      · rcases (apply_move_eq_iff hmove).mp (hfinal.symm.trans heq) with hoff | hmoved
        · exact .inl ⟨hcur, hoff⟩
        · exact .inr hmoved
      · -- a conflicted copy that was made would be seen
        refine .inr (apply_move_free (hfinal.symm.trans heq) ?_).2
        rw [hcopy, move_off hsc hdc]
        exact hcopyfree
    · -- nothing is left at the source, where the exchange has the destination
      exfalso
      rcases htarget with ⟨-, rfl⟩ | ⟨-, rfl⟩
      · exact apply_move_ne (exchange_moveOk hmove hdst hmove.2.1 rfl hmove.2.2.2.2.1
          hmove.2.2.2.2.2) (hfinal.symm.trans heq)
      · rw [hcopy] at hfinal
        refine apply_move_ne (exchange_moveOk hmove hdst (by simp) ?_ hsc
          (not_prefix_of_free hc hmove.2.2.1 hcopyfree)) (hfinal.symm.trans heq)
        rw [List.dropLast_concat, List.dropLast_concat]

/-- A rename that re-points the source's upload. -/
theorem rename_upload_follows {t : Tree String Bytes} (ht : D.tree (m.land D stamp s) = t)
    (haccepted : ¬ (DirCall.rename parent name newparent newname flags).Refused m)
    (hp : m.cache.inodes parent = some p) (hq : m.cache.inodes newparent = some q)
    (hsends : m.sendsNothing (p ++ [name]) (q ++ [newname]) = false)
    (hqueued : m.repoints (p ++ [name]) (q ++ [newname]) = true)
    (hmove : MoveOk t (p ++ [name]) (q ++ [newname])) :
    let src := p ++ [name]
    let dst := q ++ [newname]
    let final := D.tree ((m.rename parent name newparent newname flags).2.land D stamp s)
    (PlainMove t src dst flags ∧ m.UploadReplaces D stamp s src dst →
      posixRename t src dst flags = .ok final) ∧
    (t (makeConflictName stamp dst) = none → (∃ e staging f, m.Repointed D stamp s src e staging f) →
      D.tree (m.landOf D stamp (m.withoutUploads src) s) src = none →
      posixRename t src dst flags = .ok final →
      PlainMove t src dst flags ∧ m.UploadReplaces D stamp s src dst) := by
  intro src dst final
  have hc : Closed t := ht ▸ D.closed _
  -- the source is a file, and so is what a plain move replaces
  have hfile : ∀ {e staging f}, m.Repointed D stamp s src e staging f →
      t src = some (.file f.data) := by
    intro e staging f hup
    rw [← ht]
    exact hup.2.2.2
  have hnotdir : ∀ {data}, t src = some (.file data) → PlainMove t src dst flags →
      t dst ≠ some .dir := by
    intro data hsrc hplain hdst
    have hdir := (hplain.2 (by simp [hdst])).2.1.mpr hdst
    rw [hsrc] at hdir
    cases hdir
  rw [posixRename_ok_iff hc hmove.2.2.1]
  constructor
  · rintro ⟨hplain, e, staging, f, hup, hcur, hrdst, hoff⟩
    refine .inl ⟨hplain, ?_⟩
    obtain ⟨target, hfinal, htarget⟩ : ∃ target, final = _ ∧ _ :=
      rename_land_repointed haccepted hp hq hsends hqueued hup
    obtain ⟨-, rfl⟩ := htarget.resolve_right fun h => h.1 hcur
    rw [ht] at hoff
    exact hfinal.trans ((apply_put_eq_iff hc hmove (hfile hup) (hnotdir (hfile hup) hplain)).mpr
      ⟨hrdst, hoff⟩)
  · -- POSIX was followed, so the upload was conditional on what it replaced
    rintro hfree ⟨e, staging, f, hup⟩ hgone hposix
    obtain ⟨target, hfinal, htarget⟩ : ∃ target, final = _ ∧ _ :=
      rename_land_repointed haccepted hp hq hsends hqueued hup
    obtain ⟨copy, hcopy, hne⟩ := makeConflictName_sibling stamp q newname
    have hcopyfree : t (q ++ [copy]) = none := hcopy ▸ hfree
    obtain ⟨hsc, hdc⟩ := sibling_off hmove.2.2.2.2.1 hne hmove.2.2.1 hcopyfree
    rcases hposix with ⟨hplain, heq⟩ | ⟨-, hdst, heq⟩
    · refine ⟨hplain, e, staging, f, hup, ?_⟩
      rw [ht]
      rcases htarget with ⟨hcur, rfl⟩ | ⟨-, rfl⟩
      · exact ⟨hcur, (apply_put_eq_iff hc hmove (hfile hup) (hnotdir (hfile hup) hplain)).mp
          (hfinal.symm.trans heq)⟩
      · -- a conflicted copy that was made would be seen
        rw [hcopy] at hfinal
        refine absurd (hfinal.symm.trans heq) (apply_put_ne_free (by simp) ?_ ?_)
        · have hpar : (q ++ [copy]).dropLast = dst.dropLast := by
            rw [List.dropLast_concat, List.dropLast_concat]
          rw [hpar, move_off
            (fun h => hmove.2.2.2.2.1 (h.trans (List.dropLast_prefix dst)))
            (not_prefix_dropLast_self hmove.2.1)]
          exact hmove.2.2.2.1
        · rw [move_off hsc hdc]
          exact hcopyfree
    · -- nothing is left at the source, where the exchange has the destination
      exfalso
      have hne : src ≠ target := by
        rintro rfl
        rcases htarget with ⟨-, h⟩ | ⟨-, h⟩
        · exact hmove.2.2.2.2.1 (h ▸ List.prefix_rfl)
        · rw [hcopy] at h
          exact hsc (h ▸ List.prefix_rfl)
      -- the upload leaves the source alone, where nothing is
      have hat : final src = none := by
        rw [hfinal, apply_put_of_ne hne]
        exact hgone
      rw [heq, exchange_left] at hat
      exact hdst hat

end Sent

/-- A rename that fits and arrives ends as POSIX has it, and a listed one that does so fits and
    arrives. -/
theorem rename_follows {parent newparent : Nat} {name newname : String} {flags : RenameFlags}
    (hpassed : (DirCall.rename parent name newparent newname flags).Passed
      (D.tree (m.land D stamp s)) m)
    (haccepted : ¬ (DirCall.rename parent name newparent newname flags).Refused m) :
    let call := DirCall.rename parent name newparent newname flags
    (call.Fits (D.tree (m.land D stamp s)) m ∧ call.Arrives D stamp s m →
      call.FollowsPosix D stamp s m) ∧
    (call.Listed D stamp s m → call.FollowsPosix D stamp s m →
      call.Fits (D.tree (m.land D stamp s)) m ∧ call.Arrives D stamp s m) := by
  intro call
  obtain ⟨p, q, hp, hq, hsrc, hdir, hnot, hnot'⟩ := id hpassed
  have hmove : MoveOk (D.tree (m.land D stamp s)) (p ++ [name]) (q ++ [newname]) := by
    refine ⟨by simp, by simp, hsrc, ?_, hnot, hnot'⟩
    rw [List.dropLast_concat]
    exact hdir
  have hok : (m.call call).1 = .ok () := (rename_journal haccepted hp hq).1
  -- two ghosts: nothing is sent; else the upload is re-pointed, or the MOVE queued
  cases hsends : m.sendsNothing (p ++ [name]) (q ++ [newname]) with
  | true =>
    have hiff := rename_nothing_iff hpassed haccepted hp hq hsends
    exact ⟨hiff.mpr, fun _ => hiff.mp⟩
  | false =>
    rw [followsPosix_of_accepted call hok]
    simp only [call, DirMount.call, DirCall.posix, DirCall.Fits, DirCall.Arrives, DirCall.Listed, hp,
      hq, Option.getD_some, hsends, Bool.false_eq_true, if_false]
    cases hqueued : m.repoints (p ++ [name]) (q ++ [newname]) with
    | true =>
      obtain ⟨henough, hneeded⟩ :=
        rename_upload_follows rfl haccepted hp hq hsends hqueued hmove
      rw [if_pos rfl]
      exact ⟨henough, fun hlisted =>
        hneeded hlisted.1 (hlisted.2 rfl).1 (hlisted.2 rfl).2⟩
    | false =>
      obtain ⟨henough, hneeded⟩ :=
        rename_move_follows rfl haccepted hp hq hsends hqueued hmove
      rw [if_neg Bool.false_ne_true]
      exact ⟨henough, fun hlisted => hneeded hlisted.1⟩

end Calls

/-! ## A server whose etags are made of the contents -/

/-- A tree any request may find. -/
abbrev ClosedTree := { t : Tree String Bytes // Closed t }

namespace ClosedTree

instance : (o : Op String Bytes) → Decidable o.Named
  | .put p _ | .mkcol p | .delete p => inferInstanceAs (Decidable (p ≠ []))
  | .move src dst => inferInstanceAs (Decidable (src ≠ [] ∧ dst ≠ []))

/-- A change, which has to be one below the root. -/
def change (s : ClosedTree) (o : Op String Bytes) : ClosedTree :=
  if h : o.Named then ⟨FileTree.apply s.1 o, s.2.apply h⟩ else s

/-- The etag of the file at a path. -/
def etag (tag : Bytes → String) (s : ClosedTree) (p : PathBuf) : Option String :=
  match s.1 p with
  | some (.file c) => some (tag c)
  | _ => none

/-- The answer to a request whose condition is `held` and that the tree refuses with `refused`. -/
def answer {α : Type} (s : ClosedTree) (o : Op String Bytes) (held : Bool) (refused : Option Nat)
    (a : α) : Answer ClosedTree α :=
  if held then
    match refused with
    | none => (.ok a, s.change o)
    | some code => (.error (.server code "refused"), s.change o)
  else (.error .conflict, s)

/-- A change that can be made, or changes nothing, is made as such. -/
theorem change_val (s : ClosedTree) {o : Op String Bytes} (h : o.Named ∨ FileTree.apply s.1 o = s.1) :
    (s.change o).1 = FileTree.apply s.1 o := by
  unfold change
  split
  · rfl
  · rename_i hnot
    exact (h.resolve_left hnot).symm

/-- The server answers with a conflict exactly when the condition does not hold. -/
theorem answer_conflict_iff {α : Type} {s : ClosedTree} {o : Op String Bytes} {held : Bool}
    {refused : Option Nat} {a : α} :
    (s.answer o held refused a).1 = .error .conflict ↔ held = false := by
  unfold answer
  cases held with
  | false => simp
  | true => cases refused <;> simp

/-- The server's tree changes exactly when the condition holds. -/
theorem answer_tree {α : Type} {s : ClosedTree} {o : Op String Bytes} {held : Bool}
    {refused : Option Nat} {a : α} (h : o.Named ∨ FileTree.apply s.1 o = s.1) :
    (s.answer o held refused a).2.1 = if held then FileTree.apply s.1 o else s.1 := by
  unfold answer
  cases held with
  | false => rfl
  | true => cases refused <;> exact s.change_val h

end ClosedTree

open ClosedTree in
/-- The requests of such a server, which takes no chunked uploads. -/
def contentBackend (tag : Bytes → String) : CloudBackend ClosedTree where
  putFile p f cond s := s.answer (.put p f.data) (Unchanged cond (s.etag tag p))
    (if PutOk s.1 p then none else some 409) { newChangeToken := some (tag f.data) }
  mkdir p s := s.answer (.mkcol p) true (if MkcolOk s.1 p then none else some 409) ()
  delete p s := s.answer (.delete p) true (if s.1 p = none then some 404 else none) ()
  rename src dst cond s := s.answer (.move src dst) (Unchanged cond (s.etag tag dst))
    (if s.1 src = none then some 404 else if MoveOk s.1 src dst then none else some 409) ()
  putChunk _ _ _ s := (.error .unsupported, s)
  finishChunkedUpload _ _ _ _ _ s := (.error .unsupported, s)
  abortChunkedUpload _ s := s
  listSelf _ s := (none, s)

/-- It is a plain WebDAV server. -/
def contentDav (tag : Bytes → String) : PlainDav ClosedTree where
  backend := contentBackend tag
  tree := Subtype.val
  version s p := s.etag tag p
  closed := Subtype.property
  delete_tree hp := ClosedTree.answer_tree (.inl hp)
  rename_answer := ClosedTree.answer_conflict_iff.trans decide_eq_false_iff_not
  rename_tree {src dst cond s} := by
    refine (ClosedTree.answer_tree ?_).trans ?_
    · by_cases h : src ≠ [] ∧ dst ≠ []
      · exact .inl h
      · exact .inr (if_neg fun hok => h ⟨hok.1, hok.2.1⟩)
    · simp only [decide_eq_true_eq]
  put_answer := ClosedTree.answer_conflict_iff.trans decide_eq_false_iff_not
  put_tree {p f cond s} := by
    refine (ClosedTree.answer_tree ?_).trans ?_
    · by_cases h : p ≠ []
      · exact .inl h
      · exact .inr (if_neg fun hok => h hok.1)
    · simp only [decide_eq_true_eq]

/-! ## A directory with a file in it -/

/-- `/d` with one file, and `/e` empty. -/
def twoDirs : Tree String Bytes := fun p =>
  if p = [] ∨ p = ["d"] ∨ p = ["e"] then some .dir
  else if p = ["d", "f"] then some (.file [1]) else none

/-- The tree of the example has its folders. -/
theorem twoDirs_closed : Closed twoDirs where
  root := by decide
  parent := by
    intro p hp hne
    by_cases h : p = ["d", "f"]
    · rw [h]
      decide
    · have htop : p = ["d"] ∨ p = ["e"] := by
        by_contra htop
        have hnone : twoDirs p = none := by
          simp only [twoDirs]
          rw [if_neg (fun hor => htop (hor.resolve_left hp)), if_neg h]
        exact hne hnone
      rcases htop with rfl | rfl <;> decide

/-- A mount that has listed nothing yet. -/
def freshDirMount : DirMount :=
  { cache := { inodes := fun i => if i = 1 then some [] else none
               paths := fun p => if p = [] then some 1 else none }
    journal := { entries := [], nextSeq := 1, disk := { files := fun _ => none } } }

/-- The first folder of the example has a file. -/
theorem twoDirs_hasEntries : HasEntries twoDirs ["d"] := ⟨"f", by decide⟩

/-- The second folder of the example is empty. -/
theorem twoDirs_empty : ¬ HasEntries twoDirs ["e"] := by
  intro ⟨name, hname⟩
  simp [twoDirs] at hname

/-- The server that has them. -/
def twoDirsServer : ClosedTree := ⟨twoDirs, twoDirs_closed⟩

end Ncrs
