import Ncrs.ForStd.Fields
import Ncrs.Native.DirStatus
import Ncrs.Native.StatusFeed

/-!
# Change and detail lines

The lines the daemon answers `FILE_CHANGES`, `CHANGES`, `EVENTS` and `DETAILDIR` with (`ipc.rs`), and
what the Nautilus extension reads from them (`syncstate.py`). Nothing is escaped. A path is the list
of its components, and an absolute one is written with the mount point before it.

The extension does not ask for `EVENTS`; its records are those of `FILE_CHANGES` and `CHANGES`, so
they are read the way the former are. Of the failures of the socket nothing is said here.
-/

namespace Ncrs

abbrev Line := List Char

/-! ## The daemon -/

/-- `char::is_control`: Unicode's general category Cc. -/
def isControl (c : Char) : Bool := decide (c.val < 0x20) || (decide (0x7f ≤ c.val) && decide (c.val ≤ 0x9f))

/-- `read_label`: what is kept of permissions and owners the server sent. -/
def readLabel (s : String) : String := String.ofList (s.toList.filter fun c => !isControl c)

/-- An absolute path of the components `p`. -/
def pathText (p : PathBuf) : Line := p.flatMap fun name => '/' :: name.toList

/-- `abs_path`. -/
def absPath (mount path : PathBuf) : Line :=
  -- joining the empty path still adds a slash
  if path = [] then pathText mount ++ ['/'] else pathText (mount ++ path)

/-- `encode_file_change`. -/
def encodeFileChange (mount : PathBuf) (c : FileChange) : Line :=
  match c.kind with
  | .added => "A:".toList ++ absPath mount c.path
  | .removed => "D:".toList ++ absPath mount c.path
  | .modified => "M:".toList ++ absPath mount c.path
  | .dirAdded => "DA:".toList ++ absPath mount c.path
  | .dirRemoved => "DD:".toList ++ absPath mount c.path
  | .renamed src => "R:".toList ++ absPath mount src ++ '\x1e' :: absPath mount c.path

/-- `encode_record`. -/
def encodeRecord (mount : PathBuf) : FeedRecord → Line
  | .status p => "S:".toList ++ absPath mount p
  | .file c => encodeFileChange mount c

/-- `encode_events`. -/
def encodeEvents (mount : PathBuf) (res : ReadResult) : Line :=
  let out := res.next.repr.toList
  if res.resync then out ++ "\tRESYNC".toList
  else res.records.foldl (fun out r => out ++ '\t' :: encodeRecord mount r) out

/-- The reply to `FILE_CHANGES`. -/
def fileChangesReply (mount : PathBuf) (changes : List FileChange) : Line :=
  ['\t'].intercalate (changes.map (encodeFileChange mount))

/-- The reply to `CHANGES`. -/
def changesReply (mount : PathBuf) (paths : List PathBuf) : Line :=
  ['\t'].intercalate (paths.map (absPath mount))

/-- One record of `DETAILDIR`. -/
def encodeChild (r : ChildRecord) : Line :=
  ['\t'].intercalate [r.name.toList, r.detail.status.toList, r.detail.sharing.toList,
    r.detail.perms.toList, r.detail.owner.toList, r.detail.size.repr.toList]

/-- The reply to `DETAILDIR`. -/
def detaildirReply (records : List ChildRecord) : Line :=
  ['\x1e'].intercalate (records.map encodeChild)

/-! ## The extension -/

/-- `str.isspace` of one character. -/
def isSpace (c : Char) : Bool :=
  let n := c.toNat
  (9 ≤ n && n ≤ 13) || (0x1c ≤ n && n ≤ 0x20) || n = 0x85 || n = 0xa0 || n = 0x1680
    || (0x2000 ≤ n && n ≤ 0x200a) || n = 0x2028 || n = 0x2029 || n = 0x202f || n = 0x205f || n = 0x3000

/-- `_PersistentConn.send`: the answer as the callers get it. -/
def sendReply (line : Line) : Line := (line ++ ['\n']).strip isSpace

/-- `resp and not resp.startswith("error")`. -/
def isAnswer (resp : Line) : Bool := !resp.isEmpty && !"error".toList.isPrefixOf resp

/-- The `_mount_prefix` taken from `HELLO`. -/
def mountPrefix (mount : PathBuf) : Line := (if mount = [] then ['/'] else pathText mount) ++ ['/']

/-- `_inside_mount`. -/
def insideMount (mountPrefix path : Line) : Bool :=
  mountPrefix.isPrefixOf path &&
    ((path.drop mountPrefix.length).splitOn '/').all fun part =>
      decide (part ≠ []) && decide (part ≠ ".".toList) && decide (part ≠ "..".toList)

/-- A structural change as the extension acts on it: its kind and the paths concerned. -/
structure ReadChange where
  kind : Line
  targets : List Line
  deriving DecidableEq, Repr

/-- The paths an entry names. -/
def changeTargets (kind path : Line) : List Line :=
  if kind = "R".toList then
    match path.splitFirst '\x1e' with
    | (old, some new) => [old, new]
    | (old, none) => [old]
  else [path]

/-- One entry of `FILE_CHANGES`. -/
def readChange (mountPrefix entry : Line) : Option ReadChange :=
  match entry.splitFirst ':' with
  -- `":" in e`
  | (_, none) => none
  | (kind, some path) =>
    let targets := changeTargets kind path
    if !targets.all (insideMount mountPrefix) then none
    -- a rename with one path is reported as malformed
    else if kind = "R".toList && targets.length = 1 then none
    else some ⟨kind, targets⟩

/-- What `_do_poll_changes` makes of the answer to `FILE_CHANGES`. -/
def readFileChanges (mountPrefix resp : Line) : List ReadChange :=
  if isAnswer resp then (resp.splitOn '\t').filterMap (readChange mountPrefix) else []

/-- What `_do_poll_changes` makes of the answer to `CHANGES`. -/
def readChanges (resp : Line) : List Line :=
  if isAnswer resp then (resp.splitOn '\t').filter fun p => !p.isEmpty else []

/-- A cached record: sync status, sharing, permissions, owner and size. -/
abbrev DetailRow := Line × List Line

/-- `result[name] = row` on a dict, which keeps the place of a name it has. -/
def setRow (name : Line) (row : List Line) : List DetailRow → List DetailRow
  | [] => [(name, row)]
  | r :: rows => if r.1 = name then (name, row) :: rows else r :: setRow name row rows

/-- One turn of `_parse_detaildir`'s loop. -/
def readRow (result : List DetailRow) (rec : Line) : List DetailRow :=
  match rec.splitOn '\t' with
  | name :: status :: sharing :: perms :: owner :: size :: _ =>
    setRow name [status, sharing, perms, owner, size] result
  | _ => result

def parseDetaildir (resp : Line) : List DetailRow :=
  if resp.isEmpty then [] else (resp.splitOn '\x1e').foldl readRow []

/-- `_fetch_detaildir`. -/
def fetchDetaildir (resp : Line) : Option (List DetailRow) :=
  if isAnswer resp then some (parseDetaildir resp) else none

end Ncrs
