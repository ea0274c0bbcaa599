import Ncrs.Native.FsCache

/-!
# Reading a directory in pages

Model of `readdir_common` and `opendir` in `lib.rs`: the kernel reads a directory handle page by page
and goes on each time at the offset of an entry it has. The first page pins the listing it is built
from to the handle; later pages are cut from it, or from the cache when nothing was pinned.

A reply takes entries while they fit; their sizes are those of `fuser`'s reply buffers, plain or with
attributes (`entSize`). Inode numbers and attributes of the rows are not part of this model.
-/

namespace Ncrs

/-- One entry of a reply: the offset a reader continues at, and what it names. -/
structure DirRow where
  offset : Nat
  isDir : Bool
  name : String
  deriving DecidableEq, Repr

/-- A reply buffer of `size` bytes. -/
structure DirReply where
  size : Nat
  used : Nat := 0
  rows : List DirRow := []

namespace DirReply

/-- `add`: true when the entry does not fit any more. -/
def add (entSize : String → Nat) (r : DirReply) (row : DirRow) : Bool × DirReply :=
  if r.size < r.used + entSize row.name then (true, r)
  else (false, { r with used := r.used + entSize row.name, rows := r.rows ++ [row] })

/-- `for row in rows { if reply.add(..) { break; } }`. -/
def addAll (entSize : String → Nat) (r : DirReply) : List DirRow → DirReply
  | [] => r
  | row :: rest =>
    match r.add entSize row with
    | (true, r) => r
    | (false, r) => r.addAll entSize rest

end DirReply

/-- The handle of an open directory: `opendir` pins no listing yet. -/
structure OpenDir where
  path : PathBuf
  snapshot : Option (List RemoteEntry) := none

/-- What the mount hides from its directories. -/
structure DirView where
  isGioTempFile : String → Bool
  excludeFolders : List PathBuf
  entSize : String → Nat

namespace DirView

/-- The entries that are not a temporary file of an application. -/
def withoutTemps (v : DirView) (entries : List RemoteEntry) : List RemoteEntry :=
  entries.filter fun e => !v.isGioTempFile (e.path.fileName.getD "")

/-- The row of the `i`th entry of `path`'s listing; excluded folders have none. -/
def row (v : DirView) (path : PathBuf) (entry : RemoteEntry) (i : Nat) : Option DirRow :=
  match entry.path.fileName with
  | none => none
  | some name =>
    if entry.isDir && decide (path.join [name] ∈ v.excludeFolders) then none
    else some { offset := i + 3, isDir := entry.isDir, name := name }

def rows (v : DirView) (path : PathBuf) (entries : List (RemoteEntry × Nat)) : List DirRow :=
  entries.filterMap fun x => v.row path x.1 x.2

/-- `(offset - 2) as usize`, which wraps around at an offset of 1. -/
def skip (offset : Nat) : Nat := if offset < 2 then 2 ^ 64 - 2 + offset else offset - 2

/-- `get_cached_dir_readonly`, or the listing `get_or_list_dir` gets. -/
def cachedOrListed (c : FsCache) (path : PathBuf) (listed : Except String (List RemoteEntry)) :
    Option (List RemoteEntry) :=
  match c.dir path with
  | some d => some d.files
  | none => listed.toOption

/-- A continuation page. -/
def nextPage (v : DirView) (d : OpenDir) (path : PathBuf) (c : FsCache)
    (listed : Except String (List RemoteEntry)) (offset size : Nat) : List DirRow :=
  let pinned := if d.path = path then d.snapshot else none
  let entries := match pinned with
    | some e => some e
    | none => cachedOrListed c path listed
  let rows := match entries with
    | some entries => v.rows path ((v.withoutTemps entries).zipIdx.drop (skip offset))
    | none => []
  (({ size := size : DirReply }).addAll v.entSize rows).rows

def dot : DirRow := { offset := 1, isDir := true, name := "." }

def dotdot : DirRow := { offset := 2, isDir := true, name := ".." }

/-- The first page, and the handle with the listing it was built from. A reply that is full before the
listing's entries is sent as it is. -/
def firstPage (v : DirView) (d : OpenDir) (path : PathBuf) (listed : Except String (List RemoteEntry))
    (size : Nat) : Except String (List DirRow) × OpenDir :=
  match ({ size := size : DirReply }).add v.entSize dot with
  | (true, r) => (.ok r.rows, d)
  | (false, r) =>
    match r.add v.entSize dotdot with
    | (true, r) => (.ok r.rows, d)
    | (false, r) =>
      match listed with
      | .error e => (.error e, d)
      | .ok entries =>
        let entries := v.withoutTemps entries
        let d := if d.path = path then { d with snapshot := some entries } else d
        (.ok (r.addAll v.entSize (v.rows path entries.zipIdx)).rows, d)

/-- `readdir_common`, with the cache as it is then and what `get_or_list_dir` would return. -/
def readdirCommon (v : DirView) (d : OpenDir) (path : PathBuf) (c : FsCache)
    (listed : Except String (List RemoteEntry)) (offset size : Nat) :
    Except String (List DirRow) × OpenDir :=
  if 0 < offset then (.ok (v.nextPage d path c listed offset size), d)
  else v.firstPage d path listed size

end DirView

/-- What a page meets: the reader's buffer, the cache as refreshes and evictions left it, and what
listing the directory would return. -/
structure PageRead where
  size : Nat
  cache : FsCache
  listed : Except String (List RemoteEntry)

/-- A reader: from `offset` on, each time at the offset of the last entry received, until a page is
empty. `none` when an error ends it, or the fuel. -/
def DirView.readFrom (v : DirView) (path : PathBuf) (pages : Nat → PageRead) :
    Nat → OpenDir → Nat → Nat → Option (List DirRow)
  | 0, _, _, _ => none
  | fuel + 1, d, k, offset =>
    match v.readdirCommon d path (pages k).cache (pages k).listed offset (pages k).size with
    | (.error _, _) => none
    | (.ok rows, d) =>
      match rows.getLast? with
      | none => some []
      | some last => (v.readFrom path pages fuel d (k + 1) last.offset).map (rows ++ ·)

end Ncrs
