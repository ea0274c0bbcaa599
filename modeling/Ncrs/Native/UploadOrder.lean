import Ncrs.ForStd.AList
import Ncrs.Native.Path

/-!
# Etags of our own uploads

`UploadOrder` holds for each path the etag of the daemon's latest upload of it, with the generation it was
recorded at, and `ServedVersions` the version the mount last handed out. A handle that was opened before an
upload sends the etag the upload got, not the one it read when it was opened. A rename re-keys both maps.

A generation is a `u64` that counts uploads, here a natural number.
-/

namespace Ncrs

/-! ## Served versions -/

/-- The version of a file last served, and the last ones that are this mount's own. -/
structure ServedVersion where
  served : Option String := none
  ours : List String := []
  deriving DecidableEq, Repr

/-- `ServedVersions`. -/
abbrev ServedVersions := AList fun _ : PathBuf => ServedVersion

namespace ServedVersions

variable (m : ServedVersions)

/-- `SERVED_VERSIONS_MAX`. -/
def servedVersionsMax : Nat := 20000

/-- The entry of a path, or a new one. -/
def entry (path : PathBuf) : ServedVersion := (m.lookup path).getD {}

/-- `serve`: a version was handed to a program. -/
def serve (path : PathBuf) (etag : String) : ServedVersions :=
  let m := if servedVersionsMax ≤ m.entries.length && (m.lookup path).isNone then
      ⟨m.entries.filter fun x => !x.2.ours.isEmpty, m.nodupKeys_filter _⟩
    else m
  m.insert path { ServedVersions.entry m path with served := some etag }

/-- `wrote`: a version is this mount's own. -/
def wrote (path : PathBuf) (etag : String) : ServedVersions :=
  let v := m.entry path
  let ours := v.ours ++ [etag]
  m.insert path { served := some etag, ours := ours.drop (ours.length - 4) }

/-- `moved`, with the keys below `src` in the order of the list. -/
def moved (src dst : PathBuf) : ServedVersions :=
  let m := m.erase dst
  let under := m.keys.filter fun p => src.isPrefixOf p
  under.foldl (fun (m : ServedVersions) p =>
    match m.lookup p with
    | some v => (m.erase p).insert (dst ++ p.drop src.length) v
    | none => m) m

/-- `forget`. -/
def forget (path : PathBuf) : ServedVersions := m.erase path

/-- `unknown`: what is on the server now was not served. -/
def unknown (path : PathBuf) : ServedVersions :=
  match m.lookup path with
  | some v => m.insert path { v with served := none }
  | none => m

end ServedVersions

/-! ## Recorded etags -/

/-- The etags of the last uploads, and the versions served. -/
structure UploadOrder where
  /-- The etag of the latest upload, and the generation it was recorded at. -/
  committed : AList fun _ : PathBuf => Nat × Option String := ∅
  gen : Nat := 0
  served : ServedVersions := ∅

namespace UploadOrder

variable (u : UploadOrder)

/-- `etag_for`. -/
def etagFor (path : PathBuf) (openedGen : Nat) (original : Option String) : Option String :=
  match u.committed.lookup path with
  | some (g, etag) => if openedGen < g then etag else original
  | none => original

/-- `record`: an upload has landed with this etag. -/
def record (path : PathBuf) (etag : Option String) : UploadOrder where
  served := match etag with
    | some e => u.served.wrote path e
    | none => u.served
  gen := u.gen + 1
  committed := u.committed.insert path (u.gen + 1, etag)

/-- `moved`: what is known of a path goes with it. -/
def moved (src dst : PathBuf) : UploadOrder :=
  let u := { u with served := u.served.moved src dst }
  match u.committed.lookup src with
  | some v => { u with committed := (u.committed.erase src).insert dst v }
  | none => u

/-- `forget`: nothing is known of a path any more. -/
def forget (path : PathBuf) : UploadOrder :=
  { u with served := u.served.forget path, committed := u.committed.erase path }

/-- What is done with the maps. -/
inductive Op where
  | record (path : PathBuf) (etag : Option String)
  | moved (src dst : PathBuf)
  | forget (path : PathBuf)
  | serve (path : PathBuf) (etag : String)
  | wrote (path : PathBuf) (etag : String)
  | unknown (path : PathBuf)
  deriving DecidableEq, Repr

/-- One call. -/
def apply : Op → UploadOrder
  | .record path etag => u.record path etag
  | .moved src dst => u.moved src dst
  | .forget path => u.forget path
  | .serve path etag => { u with served := u.served.serve path etag }
  | .wrote path etag => { u with served := u.served.wrote path etag }
  | .unknown path => { u with served := u.served.unknown path }

/-- Calls one after the other, from the start. -/
def run (ops : List Op) : UploadOrder := ops.foldl apply {}

end UploadOrder

end Ncrs
