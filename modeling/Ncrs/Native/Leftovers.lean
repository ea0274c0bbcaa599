import Ncrs.ForStd.Forest

/-!
# Leftovers in the mount point

What an application saved while nothing was mounted lies in the mount point itself. `prepare_mount_point`
goes through it, and where an earlier session was mounted there it takes the files over as edits that were
not uploaded: `scan_leftovers` lists them, `relocate_leftovers` moves each to a staging file and removes the
folders.

A directory is a `Forest` in the order in which it is read. The disk is the list of its nodes, a directory
with no label, so that a step takes one out. Every call to the file system may fail, at the path it is made
for.
-/

namespace Ncrs

namespace Leftovers

/-- `ADOPT_MAX_FILES`. -/
def adoptMaxFiles : Nat := 200

/-- `ADOPT_MAX_BYTES`. -/
def adoptMaxBytes : Nat := 500 * 1024 * 1024

/-- What is no directory. -/
inductive Leaf where
  | file (content : List UInt8)
  /-- A symlink, a socket, a device. -/
  | other
  deriving DecidableEq, Repr

/-- The mount point's directory. -/
structure Folder (ν : Type) where
  entries : Forest ν Leaf
  distinct : entries.Distinct

/-- A node on the disk, a directory without a label. -/
abbrev Node (ν : Type) := List ν × Option Leaf

/-- `is_lock_junk`. -/
def isLockJunk (name : List Char) : Bool :=
  (".~lock.".toList.isPrefixOf name && name.getLast? = some '#') || ".goutputstream-".toList.isPrefixOf name

/-- The calls to the file system that fail, by the path they are made for. -/
structure FolderIo (ν : Type) where
  /-- `read_dir` of a directory. -/
  readFails : List ν → Bool := fun _ => false
  /-- Reading on, up to this entry. -/
  entryFails : List ν → Bool := fun _ => false
  /-- Reading on after the last entry of a directory. -/
  endFails : List ν → Bool := fun _ => false
  typeFails : List ν → Bool := fun _ => false
  metadataFails : List ν → Bool := fun _ => false
  removeFileFails : List ν → Bool := fun _ => false
  removeDirFails : List ν → Bool := fun _ => false
  renameFails : List ν → Bool := fun _ => false

/-! ## Scanning -/

/-- What a scan of the mount point finds. -/
inductive LeftoverEntry (ν : Type) where
  | dir (rel : List ν)
  | file (rel : List ν)
  | junk (rel : List ν)
  deriving DecidableEq, Repr

/-- Why a scan ends early. -/
inductive ScanError (ν : Type) where
  | cannotRead (dir : List ν)
  | cannotStat (path : List ν)
  | unexpectedEntry (path : List ν)
  | tooMuch (entries bytes : Nat)
  deriving DecidableEq, Repr

/-- What a scan has found so far. -/
structure Scan (ν : Type) where
  out : List (LeftoverEntry ν) := []
  totalBytes : Nat := 0
  deriving DecidableEq, Repr

variable {ν : Type} (io : FolderIo ν) (lossy : ν → List Char)

/-- A name is junk by what `to_string_lossy` makes of it. -/
def junkName (name : ν) : Bool := isLockJunk (lossy name)

/-- One more thing was found. -/
def Scan.push (s : Scan ν) (e : LeftoverEntry ν) : Scan ν := { s with out := s.out ++ [e] }

/-- More was found than can be adopted. -/
def Scan.exceeds (s : Scan ν) : Bool := adoptMaxFiles < s.out.length || adoptMaxBytes < s.totalBytes

/-- The check after each entry. The sum does not overflow: it is at most `ADOPT_MAX_BYTES` before a
    file of less than 2^63 bytes is added. -/
def Scan.check (s : Scan ν) : Except (ScanError ν) (Scan ν) :=
  if s.exceeds then .error (.tooMuch s.out.length s.totalBytes) else .ok s

/-- What is found out of an entry before its name matters. -/
def statEntry (rel path : List ν) : Except (ScanError ν) Unit :=
  if io.entryFails path then .error (.cannotRead rel)
  else if io.typeFails path then .error (.cannotStat path)
  else .ok ()

/-- `scan_leftovers_rec`, once the directory is open. -/
def scanLeftoversRec (rel : List ν) : Forest ν Leaf → Scan ν → Except (ScanError ν) (Scan ν)
  | .nil, s => if io.endFails rel then .error (.cannotRead rel) else .ok s
  | .leaf name l rest, s => do
    let path := rel ++ [name]
    statEntry io rel path
    let s ←
      if junkName lossy name then pure (s.push (.junk path))
      else
        match l with
        | .file content =>
          let len := if io.metadataFails path then 0 else content.length
          pure { out := s.out ++ [.file path], totalBytes := s.totalBytes + len }
        | .other => throw (.unexpectedEntry path)
    let s ← s.check
    scanLeftoversRec rel rest s
  | .branch name sub rest, s => do
    let path := rel ++ [name]
    statEntry io rel path
    let s ←
      if junkName lossy name then pure (s.push (.junk path))
      else if io.readFails path then throw (.cannotRead path)
      else scanLeftoversRec path sub (s.push (.dir path))
    let s ← s.check
    scanLeftoversRec rel rest s

/-- `scan_leftovers`. -/
def scanLeftovers (root : Forest ν Leaf) : Except (ScanError ν) (List (LeftoverEntry ν)) := do
  if io.readFails [] then throw (.cannotRead [])
  let s ← scanLeftoversRec io lossy [] root {}
  return s.out

/-! ## The disk -/

/-- The nodes below the mount point, and the staging files `adopted_{pid}_{n}` by their number. -/
structure Disk (ν : Type) where
  mount : List (Node ν)
  staging : List (Nat × List UInt8)
  deriving DecidableEq, Repr

variable [DecidableEq ν]

/-- The mount point without a file. -/
def Disk.without (d : Disk ν) (path : List ν) : Disk ν := { d with mount := d.mount.filter fun x => x.1 ≠ path }

/-- `std::fs::remove_file`, which does not remove a directory. -/
def Disk.removeFile (d : Disk ν) (path : List ν) : Option (Disk ν) :=
  if io.removeFileFails path then none
  else
    match d.mount.lookup path with
    | some (some _) => some (d.without path)
    | some none | none => none

/-- `std::fs::remove_dir`, of a directory that is empty. -/
def Disk.removeDir (d : Disk ν) (path : List ν) : Option (Disk ν) :=
  if io.removeDirFails path then none
  else
    match d.mount.lookup path with
    | some none => if d.mount.any fun x => x.1 ≠ path && path.isPrefixOf x.1 then none else some (d.without path)
    | some (some _) | none => none

/-- `std::fs::rename` of a plain file to a staging file, which replaces one that is there. -/
def Disk.renameToStaging (d : Disk ν) (path : List ν) (n : Nat) : Option (Disk ν) :=
  if io.renameFails path then none
  else
    match d.mount.lookup path with
    | some (some (.file content)) =>
      some { d.without path with staging := (n, content) :: d.staging.filter fun x => x.1 ≠ n }
    | _ => none

/-! ## Relocating -/

/-- A file that is queued for upload. -/
structure AdoptedFile (ν : Type) where
  remotePath : List ν
  stagingPath : Nat
  deriving DecidableEq, Repr

/-- Why a file could not be moved away. -/
inductive RelocateError (ν : Type) where
  | failedToAdopt (path : List ν)
  | failedToClear (dir : List ν)
  deriving DecidableEq, Repr

/-- The loop of `relocate_leftovers`, over the entries in reverse. -/
def relocateFrom : List (LeftoverEntry ν) → Disk ν → List (AdoptedFile ν) → Nat →
    Except (RelocateError ν) (List (AdoptedFile ν)) × Disk ν
  | [], d, adopted, _ => (.ok adopted, d)
  | .junk rel :: es, d, adopted, nextId => relocateFrom es ((d.removeFile io rel).getD d) adopted nextId
  | .file rel :: es, d, adopted, nextId =>
    match d.renameToStaging io rel (nextId + 1) with
    | none => (.error (.failedToAdopt rel), d)
    | some d => relocateFrom es d (adopted ++ [{ remotePath := rel, stagingPath := nextId + 1 }]) (nextId + 1)
  | .dir rel :: es, d, adopted, nextId =>
    match d.removeDir io rel with
    | none => (.error (.failedToClear rel), d)
    | some d => relocateFrom es d adopted nextId

/-- `relocate_leftovers`. -/
def relocateLeftovers (entries : List (LeftoverEntry ν)) (d : Disk ν) :
    Except (RelocateError ν) (List (AdoptedFile ν)) × Disk ν :=
  relocateFrom io entries.reverse d [] 0

/-! ## Preparing the mount point -/

/-- What is found at the mount point before it is gone through. -/
structure StartIo where
  /-- `metadata` fails with `ENOTCONN`, and `fusermount -uz` is run. -/
  stale : Bool := false
  /-- `is_live_fuse_mount`. -/
  live : Bool := false
  created : Bool := true
  readable : Bool := true
  /-- The first entry cannot be read. -/
  firstFails : Bool := false
  /-- `previously_owned`. -/
  owned : Bool := true
  deriving DecidableEq, Repr

/-- Why the mount point could not be made ready. -/
inductive PrepareError (ν : Type) where
  | alreadyMounted
  | notCreated
  | cannotRead
  | notEmpty
  | notAdopted (e : ScanError ν)
  | relocate (e : RelocateError ν)
  deriving DecidableEq, Repr

/-- The disk as it is found. -/
def Folder.disk (folder : Folder ν) (staging : List (Nat × List UInt8)) : Disk ν where
  mount := folder.entries.nodes []
  staging := staging

/-- `prepare_mount_point`. -/
def prepareMountPoint (start : StartIo) (folder : Folder ν) (staging : List (Nat × List UInt8)) :
    Except (PrepareError ν) (List (AdoptedFile ν)) × Disk ν :=
  let d := folder.disk staging
  if !start.stale && start.live then (.error .alreadyMounted, d)
  else if !start.created then (.error .notCreated, d)
  else if !start.readable then (.error .cannotRead, d)
  else if folder.entries.names.isEmpty && !start.firstFails then (.ok [], d)
  else if !start.owned then (.error .notEmpty, d)
  else
    match scanLeftovers io lossy folder.entries with
    | .error e => (.error (.notAdopted e), d)
    | .ok leftovers =>
      match relocateLeftovers io leftovers d with
      | (.error e, d) => (.error (.relocate e), d)
      | (.ok adopted, d) => (.ok adopted, d)

end Leftovers

end Ncrs
