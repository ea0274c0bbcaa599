import Ncrs.ForStd.FileTree
import Ncrs.Native.Replay

/-!
# Editing offline

Model of what the filesystem does with a user's operations while the mount is offline: the
parts of `release`/`commit_released`, `mkdir`, `unlink`, `rmdir` and `rename` that change the
tree the user sees and record the operation in the journal. A file is written whole (opened
or created, written, released) in one operation, so no handle is open in between.

The tree the user sees is the cached listings: a file carries its content and the
`change_token` its listing has for it, which is `none` for a file made here.

The server is plain WebDAV: `PUT`, `MKCOL` and `MOVE` need the parent to exist, a `MOVE` of a
missing source is 404, a `DELETE` of a missing path is 404 ("already gone"). It has no
versions, so a condition on one is met.
-/

namespace Ncrs

open FileTree

/-- What the listings know of a file: its bytes and its `change_token`. -/
abbrev Seen := Bytes × Option String

inductive UserOp where
  | write (path : PathBuf) (data : Bytes)
  | mkdir (path : PathBuf)
  | unlink (path : PathBuf)
  | rmdir (path : PathBuf)
  | rename (src dst : PathBuf)
  deriving DecidableEq, Repr

structure OfflineMount where
  seen : Tree String Seen
  /-- `UploadOrder::served`: the version this mount last handed to a program. -/
  served : PathBuf → Option String := fun _ => none
  journal : MutationJournal
  nextFh : Nat := 1
  cacheDir : PathBuf

namespace OfflineMount

/-- The `change_token` the listing has for a file, and whether one is listed there. -/
def listedToken (m : OfflineMount) (path : PathBuf) : Option (Option String) :=
  match m.seen path with
  | some (.file f) => some f.2
  | _ => none

/-- A file written whole and released: staged, queued, its older uploads superseded. -/
def write (m : OfflineMount) (path : PathBuf) (data : Bytes) : OfflineMount :=
  let staging := PathBuf.writePath m.cacheDir m.nextFh
  let originalEtag := (m.listedToken path).getD none
  let staged := { m.journal with disk := m.journal.disk.writeFile staging { data := data } }
  let queued := staged.enqueue (.put path staging originalEtag)
  { m with
    seen := set m.seen path (.file (data, originalEtag))
    journal := queued.2.supersedeUploads path queued.1
    nextFh := m.nextFh + 1 }

def mkdir (m : OfflineMount) (path : PathBuf) : OfflineMount :=
  { m with
    seen := set m.seen path .dir
    journal := (m.journal.enqueue (.mkDir path)).2 }

def unlink (m : OfflineMount) (path : PathBuf) : OfflineMount :=
  { m with
    seen := delete m.seen path
    journal := (m.journal.enqueue (.unlink path)).2 }

def rmdir (m : OfflineMount) (path : PathBuf) : OfflineMount :=
  { m with
    seen := delete m.seen path
    journal := (m.journal.enqueue (.rmDir path)).2 }

/-- A listed file without an etag was made here and never came back from the server. -/
def sourceOnServer (m : OfflineMount) (src : PathBuf) : Bool :=
  match m.listedToken src with
  | some token => token.isSome
  | none => true

/-- The version of `dst` a rename replaces. -/
def destBase (m : OfflineMount) (src dst : PathBuf) : Option String :=
  if m.seen src = some .dir then none
  else
    match m.journal.pendingBase dst with
    | some queued => queued
    | none => (m.listedToken dst).bind fun listed => (m.served dst).or listed

/-- Whether the rename re-points the source's queued upload instead of queueing a MOVE. -/
def retargets (m : OfflineMount) (src dst : PathBuf) : Bool :=
  !m.sourceOnServer src && (m.journal.retargetUpload src dst (m.destBase src dst)).1

def rename (m : OfflineMount) (src dst : PathBuf) : OfflineMount :=
  { m with
    seen := move m.seen src dst
    journal :=
      if m.retargets src dst then (m.journal.retargetUpload src dst (m.destBase src dst)).2
      else (m.journal.enqueue (.rename src dst none (m.destBase src dst))).2 }

def step (m : OfflineMount) : UserOp → OfflineMount
  | .write path data => m.write path data
  | .mkdir path => m.mkdir path
  | .unlink path => m.unlink path
  | .rmdir path => m.rmdir path
  | .rename src dst => m.rename src dst

def steps (m : OfflineMount) (ops : List UserOp) : OfflineMount := ops.foldl step m

/-- The tree the user sees: paths and file contents. -/
def tree (m : OfflineMount) : Tree String Bytes :=
  fun p => match m.seen p with
    | some .dir => some .dir
    | some (.file f) => some (.file f.1)
    | none => none

end OfflineMount

/-- Whether the kernel lets an operation through on the tree the user sees. -/
def UserOp.Valid (t : Tree String Bytes) : UserOp → Prop
  | .write path _ => path ≠ [] ∧ t path.parent = some .dir ∧ t path ≠ some .dir
  | .mkdir path => path ≠ [] ∧ t path.parent = some .dir ∧ t path = none
  | .unlink path => path ≠ [] ∧ ∃ c, t path = some (.file c)
  | .rmdir path => path ≠ [] ∧ t path = some .dir ∧ ∀ name, t (path ++ [name]) = none
  | .rename src dst =>
    src ≠ [] ∧ dst ≠ [] ∧ t src ≠ none ∧ t dst.parent = some .dir ∧ ¬ src <+: dst ∧
    ((∃ c, t src = some (.file c)) → t dst ≠ some .dir) ∧
    (t src = some .dir → t dst ≠ none → t dst = some .dir ∧ ∀ name, t (dst ++ [name]) = none)

/-- A mount that has just lost its connection: its listings are the server's tree `t`, each
    file at the version `etag` gives, and nothing is queued. -/
def OfflineMount.fresh (t : Tree String Bytes) (etag : PathBuf → String)
    (served : PathBuf → Option String) (disk : CacheDir) (cacheDir : PathBuf) (nextSeq nextFh : Nat) :
    OfflineMount :=
  { seen := fun p => match t p with
      | some .dir => some .dir
      | some (.file c) => some (.file (c, some (etag p)))
      | none => none
    served := served
    journal := { entries := [], nextSeq := nextSeq, disk := disk }
    nextFh := nextFh
    cacheDir := cacheDir }

/-- A plain WebDAV server over a file tree; `token` is the etag it answers an upload with. -/
def webdav (token : PathBuf → Bytes → Option String) : CloudBackend (Tree String Bytes) where
  putFile p f _ t :=
    if PutOk t p then (.ok { newChangeToken := token p f.data }, FileTree.apply t (.put p f.data))
    else (.error (.server 409 "parent does not exist"), t)
  mkdir p t :=
    if MkcolOk t p then (.ok (), FileTree.apply t (.mkcol p))
    -- `mkcol` counts 405 (already there) as made.
    else if t p = some .dir then (.ok (), t)
    else (.error (.server 409 "parent does not exist"), t)
  delete p t :=
    if t p = none then (.error (.server 404 "not found"), t)
    else (.ok (), FileTree.apply t (.delete p))
  rename src dst _ t :=
    if t src = none then (.error (.server 404 "not found"), t)
    else if MoveOk t src dst then (.ok (), FileTree.apply t (.move src dst))
    else (.error (.server 409 "parent does not exist"), t)
  putChunk _ _ _ t := (.error .unsupported, t)
  finishChunkedUpload _ _ _ _ _ t := (.error .unsupported, t)
  abortChunkedUpload _ t := t
  listSelf _ t := (none, t)

end Ncrs
