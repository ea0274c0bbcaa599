import Ncrs.Native.StatusFeed

/-!
# Status queries

Model of what the IPC server answers a file manager about one path (`STATUS`, `DETAIL`) and about a
whole directory at once (`DETAILDIR`), over the same maps. A directory's own status is rolled up from
its children. The single queries do so in `dir_status_from_children`; the batched one aggregates all
subdirectories of the listing in a pass of its own (`detaildir_records`).

A set is given in the order in which it is iterated.
-/

namespace Ncrs

/-- A `HashSet<PathBuf>`, in the order of its iteration. -/
abbrev PathSet := { l : List PathBuf // l.Nodup }

/-- The maps behind the queries, and the user's name. -/
structure StatusMaps where
  details : AList fun _ : PathBuf => FileDetail
  status : AList fun _ : PathBuf => FileStatus
  shared : Finset PathBuf
  children : PathBuf → Option PathSet
  username : String

/-- What `DETAIL` answers. -/
structure Detail where
  status : String
  sharing : String
  perms : String
  owner : String
  size : Nat
  deriving DecidableEq, Repr

/-- A record of `DETAILDIR` with the child it is for. -/
structure ChildRecord where
  child : PathBuf
  name : String
  detail : Detail
  deriving DecidableEq, Repr

/-- Counts of the children's statuses. -/
structure DirAgg where
  total : Nat := 0
  «local» : Nat := 0
  allKept : Bool := true
  uploading : Nat := 0
  deriving DecidableEq, Repr

namespace DirAgg

/-- One child is counted. -/
def tally (a : DirAgg) (st : FileStatus) : DirAgg :=
  let a := { a with total := a.total + 1 }
  match st with
  | .kept | .synced => { a with «local» := a.local + 1 }
  | .cached => { a with «local» := a.local + 1, allKept := false }
  | .uploading => { a with uploading := a.uploading + 1 }
  | _ => { a with allKept := false }

/-- The status of a directory whose own one is `own`. -/
def rollUp (own : Option FileStatus) (a : DirAgg) : String :=
  if own = some .downloading then "downloading"
  else if own = some .uploading then "uploading"
  else if 0 < a.uploading then "uploading"
  else if 0 < a.total ∧ a.local = a.total then if a.allKept then "kept" else "cached"
  else if 0 < a.local then "partial"
  else (own.getD .remote).asStr

end DirAgg

namespace StatusMaps

def statusOr (m : StatusMaps) (p : PathBuf) : FileStatus := (m.status.lookup p).getD .remote

/-- `p.parent() == Some(dir)`. -/
def isChild (dir p : PathBuf) : Bool := decide (p ≠ []) && decide (p.parent = dir)

/-- The children of a set are counted, those without a status as remote. -/
def countSet (m : StatusMaps) (a : DirAgg) (cs : PathSet) : DirAgg :=
  cs.1.foldl (fun a p => a.tally (m.statusOr p)) a

/-- The fallback of `dir_status_from_children`: a scan of the status map. -/
def scan (m : StatusMaps) (dir : PathBuf) : DirAgg :=
  m.status.entries.foldl (fun a x => if isChild dir x.1 then a.tally x.2 else a) {}

def dirStatusFromChildren (m : StatusMaps) (dir : PathBuf) : String :=
  DirAgg.rollUp (m.status.lookup dir)
    (match m.children dir with
    | some cs => m.countSet {} cs
    | none => m.scan dir)

def sharing (m : StatusMaps) (p : PathBuf) (detail : FileDetail) : String :=
  if p ∈ m.shared then
    match detail.ownerId with
    | some owner => if owner = m.username then "Shared by you" else "Shared with you"
    | none => "Shared"
  else ""

/-! ## One path -/

/-- `STATUS`. -/
def statusReply (m : StatusMaps) (remote : PathBuf) : String :=
  let status :=
    if (m.details.lookup remote).any (·.isDir) then m.dirStatusFromChildren remote
    else (m.statusOr remote).asStr
  if remote ∈ m.shared then status ++ ",shared" else status

/-- `DETAIL`. -/
def detailReply (m : StatusMaps) (remote : PathBuf) : Detail :=
  let detail := (m.details.lookup remote).getD {}
  { status := if detail.isDir then m.dirStatusFromChildren remote else (m.statusOr remote).asStr
    sharing := m.sharing remote detail
    perms := detail.permissions.getD ""
    owner := detail.ownerDisplayName.getD ""
    size := detail.size }

/-! ## A directory -/

/-- The children a listing is made of: the index, or a scan of the details without an entry. -/
def dirChildren (m : StatusMaps) (dir : PathBuf) : List PathBuf :=
  match m.children dir with
  | some cs => cs.1
  | none => m.details.keys.filter (isChild dir)

/-- One child of the aggregation: a directory gets its counts. -/
def aggregate (m : StatusMaps) (aggs : AList fun _ : PathBuf => DirAgg) (child : PathBuf) :
    AList fun _ : PathBuf => DirAgg :=
  match m.details.lookup child with
  | some detail =>
    if detail.isDir then
      let agg := (aggs.lookup child).getD {}
      aggs.insert child
        (match m.children child with
        | some grandchildren => m.countSet agg grandchildren
        | none => agg)
    else aggs
  | none => aggs

/-- `dir_agg`. -/
def dirAgg (m : StatusMaps) (dirChildren : List PathBuf) : AList fun _ : PathBuf => DirAgg :=
  dirChildren.foldl m.aggregate ∅

/-- `detaildir_records`. -/
def detaildirRecords (m : StatusMaps) (dir : PathBuf) : List ChildRecord :=
  let children := m.dirChildren dir
  let aggs := m.dirAgg children
  let dirStatus := fun d => DirAgg.rollUp (m.status.lookup d) ((aggs.lookup d).getD {})
  children.filterMap fun child =>
    match m.details.lookup child, child.fileName with
    | some detail, some name => some
      { child := child
        name := name
        detail :=
          { status := if detail.isDir then dirStatus child else (m.statusOr child).asStr
            sharing := m.sharing child detail
            perms := detail.permissions.getD ""
            owner := detail.ownerDisplayName.getD ""
            size := detail.size } }
    | _, _ => none

end StatusMaps

end Ncrs
