import Ncrs.Native.FsCache
import Ncrs.Native.MutationJournal

/-!
# Removing and renaming directory entries

Model of `NextCloudFs::rmdir` and `NextCloudFs::rename`, as `SchedFs` hands them the requests of the
kernel (which it does unchanged, flags included), with everything they read: the permissions and
paths of the parents, the ghost entries, the listings, the open handles, the version last served and
the queue. What they tell the kernel afterwards and the maps for status displays are left out.
-/

namespace Ncrs

/-- The error numbers the handlers reply with. -/
inductive FsError where
  | ENOENT | EACCES | EINVAL | ENAMETOOLONG
  deriving DecidableEq, Repr

/-- The reply of a request without data. -/
abbrev FuseReply := Except FsError Unit

/-! ## File names -/

/-- Why a name is refused. -/
inductive FilenameError where
  | empty
  | tooLong
  | invalidCharacter (c : Char)
  | controlCharacter
  | trailingSpaceOrDot
  | reservedName
  deriving DecidableEq, Repr

/-- The error of a refused name. -/
def FilenameError.toErrno : FilenameError → FsError
  | .tooLong => .ENAMETOOLONG
  | _ => .EINVAL

/-- The characters no name may have. -/
def INVALID_CHARS : List Char := ['\\', '/', ':', '*', '?', '"', '<', '>', '|']

/-- The names no file may have. -/
def RESERVED_NAMES : List String :=
  ["CON", "PRN", "AUX", "NUL",
    "COM1", "COM2", "COM3", "COM4", "COM5", "COM6", "COM7", "COM8", "COM9",
    "LPT1", "LPT2", "LPT3", "LPT4", "LPT5", "LPT6", "LPT7", "LPT8", "LPT9"]

/-- The first character that is not allowed. -/
def badCharacter : List Char → Except FilenameError Unit
  | [] => .ok ()
  | c :: rest =>
    if c.toNat < 0x20 then .error .controlCharacter
    else if c ∈ INVALID_CHARS then .error (.invalidCharacter c)
    else badCharacter rest

/-- `filename_validation::validate`. -/
def validate (name : String) : Except FilenameError Unit :=
  if name.toList = [] then .error .empty
  else if 250 < name.utf8ByteSize then .error .tooLong
  else if name.toList.getLast? = some ' ' || name.toList.getLast? = some '.' then
    .error .trailingSpaceOrDot
  else
    match badCharacter name.toList with
    | .error e => .error e
    | .ok () =>
      let stem := name.toList.takeWhile (· ≠ '.')
      if RESERVED_NAMES.any fun r => r.toList.map Char.toLower = stem.map Char.toLower then
        .error .reservedName
      else .ok ()

/-! ## Ghost entries -/

/-- The two kinds of ghost entries. -/
inductive GhostKind where
  /-- On the server, and hidden until the file manager has made it. -/
  | hiddenAdd
  /-- Gone on the server, and shown until the file manager has removed it. -/
  | visibleDelete
  deriving DecidableEq, Repr

/-- A ghost entry, and the rename it is a half of. -/
structure GhostEntry where
  kind : GhostKind
  createdAt : Nat
  renamePairId : Option Nat := none
  deriving DecidableEq, Repr

/-- Seconds a ghost entry counts (`GHOST_TTL`). -/
def GHOST_TTL : Nat := 10

/-- `created_at.elapsed() < GHOST_TTL`. -/
def GhostEntry.fresh (g : GhostEntry) (now : Nat) : Bool := decide (now - g.createdAt < GHOST_TTL)

/-! ## The mount -/

/-- What an open handle is to a rename. -/
structure DirHandle where
  fh : Nat
  ino : Nat
  remotePath : PathBuf
  created : Bool := false
  unlinked : Bool := false
  streamEligible : Bool := false
  dirty : Bool := false
  uploadFailed : Bool := false
  /-- The length of its staging file. -/
  stagedLen : Option Nat := none
  deriving DecidableEq, Repr

/-- `RenameFlags`, as far as the kernel passes them on. -/
inductive RenameFlags where
  | none
  | noreplace
  | exchange
  deriving DecidableEq, Repr

/-- What the directory calls work with. -/
structure DirMount where
  cache : FsCache
  ghosts : PathBuf → Option GhostEntry := fun _ => none
  openFiles : List DirHandle := []
  journal : MutationJournal
  /-- `UploadOrder::served`: the version this mount last handed to a program. -/
  served : PathBuf → Option String := fun _ => none
  offline : Bool := false
  now : Nat := 0

namespace FsCache

open PathBuf

/-- `get_cached_dir_readonly`. -/
def listed (c : FsCache) (path : PathBuf) : Option (List RemoteEntry) :=
  (c.dir path).map (·.files)

/-- `nc_dir_perms`: the permissions a directory has in its parent's listing. -/
def ncDirPerms (c : FsCache) (ino : Nat) : Option String :=
  match c.inodes ino with
  | none | some [] => none
  | some path =>
    (c.listed path.parent).bind fun files =>
      (files.find? fun e => e.path = path).bind (·.permissions)

/-- `!p.contains(required)` for a directory whose permissions are known. -/
def lacks (c : FsCache) (ino : Nat) (required : Char) : Bool :=
  match c.ncDirPerms ino with
  | some p => !p.toList.contains required
  | none => false

/-- One turn of `move_path`: the inode of `old` is that of `new` from now on. -/
def movePath (c : FsCache) (old new : PathBuf) : FsCache :=
  match c.paths old with
  | none => c
  | some ino =>
    let displaced := (c.paths new).filter fun d => d ≠ ino
    { c with
      paths := fun p => if p = new then some ino else if p = old then none else c.paths p
      inodes := fun i =>
        if i = ino then some new else if displaced = some i then none else c.inodes i }

/-- `move_path`: with `subtree`, every known path below `src` moves too. -/
def movePaths (c : FsCache) (src dst : PathBuf) (subtree : Bool) : FsCache :=
  let c' := c.movePath src dst
  if subtree then
    { c' with
      paths := fun p =>
        match p.stripPrefix dst with
        | some (s :: rel) => (c.paths (src ++ s :: rel)).orElse fun _ => c'.paths p
        | _ => if p.startsWith src && p ≠ src then none else c'.paths p
      inodes := fun i =>
        match (c'.inodes i).bind (stripPrefix · src), (c'.inodes i).bind (stripPrefix · dst) with
        | some (s :: rel), _ => some (dst ++ s :: rel)
        -- The inode that had the new name before has none now.
        | _, some (s :: rel) =>
          if (c.paths (src ++ s :: rel)).isSome then none else c'.inodes i
        | _, _ => c'.inodes i }
  else c'

end FsCache

namespace DirMount

/-- The ghost entry of a path, taken out of the map if it still counts as one of `kind`. -/
def freshGhost (m : DirMount) (path : PathBuf) (kind : GhostKind) : Bool :=
  match m.ghosts path with
  | some g => g.fresh m.now && g.kind = kind
  | none => false

/-- The ghost entry of a path goes. -/
def dropGhost (m : DirMount) (path : PathBuf) : DirMount :=
  { m with ghosts := fun p => if p = path then none else m.ghosts p }

/-- `rmdir`. -/
def rmdir (m : DirMount) (parent : Nat) (name : String) : FuseReply × DirMount :=
  if m.cache.lacks parent 'D' then (.error .EACCES, m)
  else
    match m.cache.inodes parent with
    | none => (.error .ENOENT, m)
    | some parentPath =>
      let remotePath := parentPath ++ [name]
      let ghost := m.freshGhost remotePath .visibleDelete
      let m := m.dropGhost remotePath
      if ghost then (.ok (), m)
      else
        let c := (m.cache.modifyFiles parentPath fun files =>
          files.filter fun e => e.path ≠ remotePath).removeDir remotePath
        let journal := (m.journal.enqueue (.rmDir remotePath)).2
        -- The guard lasts until the DELETE is answered; offline there is none.
        let deleting := if m.offline then c.deleting else insert remotePath c.deleting
        (.ok (), { m with cache := { c with deleting := deleting }, journal := journal })

/-- The pair of ghost entries an echoed rename leaves. -/
def ghostPair (m : DirMount) (src dst : PathBuf) : Bool :=
  match m.ghosts src, m.ghosts dst with
  | some f, some t =>
    f.fresh m.now && t.fresh m.now && f.renamePairId.isSome && f.renamePairId = t.renamePairId
      && f.kind = .visibleDelete && t.kind = .hiddenAdd
  | _, _ => false

/-- `newest_staged_len` of the writers of an inode. -/
def newestStagedLen (m : DirMount) (ino : Nat) : Option Nat :=
  let writers := m.openFiles.filter fun h => h.dirty && !h.uploadFailed && h.ino = ino
  (writers.find? fun h => writers.all fun x => x.fh ≤ h.fh).bind (·.stagedLen)

/-- What the first section of `rename` under the cache lock finds out. -/
structure RenameFacts where
  sourceOnServer : Bool
  movedDir : Bool
  displaced : Option Nat
  destListed : Option (Option String)

/-- The first section of `rename` under the cache lock. -/
def renameListed (m : DirMount) (src dst : PathBuf) : RenameFacts × FsCache :=
  let c := m.cache
  let fromIno := c.paths src
  let stagedSize := fromIno.bind m.newestStagedLen
  let destEntry := (c.listed dst.parent).bind fun files =>
    files.find? fun f => f.path = dst && !f.isDir
  let displaced := (c.paths dst).filter fun d => some d ≠ fromIno
  let movedEntry := (c.listed src.parent).bind fun files => files.find? fun e => e.path = src
  let c := c.modifyFiles src.parent fun files => files.filter fun e => e.path ≠ src
  let sourceOnServer := movedEntry.all fun e => e.isDir || e.changeToken.isSome
  let movedDir := movedEntry.any (·.isDir) || (c.dir src).isSome
  let c := match movedEntry with
    | some (e : RemoteEntry) => c.modifyFiles dst.parent fun files =>
        (files.filter fun (f : RemoteEntry) => f.path ≠ dst)
          ++ [{ e with path := dst, size := stagedSize.getD e.size }]
    | none => c
  ({ sourceOnServer, movedDir, displaced, destListed := destEntry.map (·.changeToken) },
    c.movePaths src dst movedDir)

/-- Whether a handle made by `create` is open on the source: the server has no copy of it yet. -/
def uncommittedSource (m : DirMount) (src : PathBuf) : Bool :=
  m.openFiles.any fun h => h.remotePath = src && h.created && !h.unlinked

/-- What a rename does to an open handle. -/
def retargetHandle (src dst : PathBuf) (displaced : Option Nat) (h : DirHandle) : DirHandle :=
  match h.remotePath.stripPrefix src with
  | some suffix => { h with remotePath := dst ++ suffix }
  | none =>
    if displaced = some h.ino then
      { h with unlinked := true, created := false, streamEligible := false }
    else h

/-- An upload's guard follows the file. -/
def moveGuard (c : FsCache) (src dst : PathBuf) : FsCache :=
  if src ∈ c.uploading then { c with uploading := insert dst (c.uploading.erase src) } else c

/-- The version of `dst` the rename replaces. -/
def destBase (m : DirMount) (dst : PathBuf) (facts : RenameFacts) : Option String :=
  if facts.movedDir then none
  else
    match m.journal.pendingBase dst with
    | some queued => queued
    | none => facts.destListed.bind fun listed => (m.served dst).or listed

/-- `rename` once it is allowed and no echo. -/
def renameTo (m : DirMount) (src dst : PathBuf) : DirMount :=
  let facts := (m.renameListed src dst).1
  let uncommitted := m.uncommittedSource src
  let base := m.destBase dst facts
  let m := { m with
    cache := (m.renameListed src dst).2
    openFiles := m.openFiles.map (retargetHandle src dst facts.displaced) }
  -- Nothing to move: the open handle commits under the new name.
  if uncommitted && !m.journal.hasPendingPut src then
    { m with cache := moveGuard m.cache src dst }
  else if !facts.sourceOnServer && (m.journal.retargetUpload src dst base).1 then
    { m with
      cache := moveGuard m.cache src dst
      journal := (m.journal.retargetUpload src dst base).2 }
  else
    let uploading := if m.offline || facts.movedDir then m.cache.uploading
      else insert dst m.cache.uploading
    { m with
      cache := { m.cache with uploading := uploading }
      journal := (m.journal.enqueue (.rename src dst none base)).2 }

/-- `rename`: the flags are not looked at. -/
def rename (m : DirMount) (parent : Nat) (name : String) (newparent : Nat) (newname : String)
    (_flags : RenameFlags) : FuseReply × DirMount :=
  match validate newname with
  | .error e => (.error e.toErrno, m)
  | .ok () =>
    if m.cache.lacks parent (if parent ≠ newparent then 'V' else 'N') then (.error .EACCES, m)
    else
      match m.cache.inodes parent, m.cache.inodes newparent with
      | some oldParentPath, some newParentPath =>
        let src := oldParentPath ++ [name]
        let dst := newParentPath ++ [newname]
        if m.ghostPair src dst then (.ok (), (m.dropGhost src).dropGhost dst)
        else (.ok (), m.renameTo src dst)
      | _, _ => (.error .ENOENT, m)

end DirMount

end Ncrs
