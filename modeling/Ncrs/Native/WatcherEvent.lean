import Ncrs.Native.ChangeWatch
import Ncrs.Native.LoginFlow

/-!
# Messages of the push server

Model of `watcher_handle_event`: what the watcher makes of a text message of the push server, up to the
`ChangeEvent` it delivers. File ids are looked up by a search on the server, whose multistatus is seen here as
the remote path of each response, or nothing where its href is not below the files of the user. What the
search answers and what `serde_json` reads are arguments. Nothing reads `modified_files`.
-/

namespace Ncrs

namespace Watcher

/-- What `parse_multistatus_stream` takes for the collection itself, and the other entries. -/
def multistatusPaths : List (Option PathBuf) → Option PathBuf × List PathBuf
  | [] => (none, [])
  | first :: rest => (first, rest.filterMap id)

/-- What the search for these ids answers. -/
abbrev Search := List Nat → Except String (List (Option PathBuf))

/-- `search_fileids`, of which only the paths are used. -/
def searchFileids (search : Search) (ids : List Nat) : Except String (List PathBuf) :=
  if ids.isEmpty then .ok []
  else
    match search ids with
    | .ok responses =>
      -- the first response is an ordinary hit here
      match multistatusPaths responses with
      | (some p, hits) => .ok (if p ≠ [] then hits ++ [p] else hits)
      | (none, hits) => .ok hits
    | .error e => .error e

/-- `Path::parent`. -/
def parent? (p : PathBuf) : Option PathBuf := if p = [] then none else some p.dropLast

/-- `sort` and `dedup`. -/
def sortDedup (dirs : List PathBuf) : List PathBuf :=
  (dirs.mergeSort fun a b => decide (a ≤ b)).destutter (· ≠ ·)

/-- `trimmed.strip_prefix("notify_file_id ")`. -/
def idsJson (event : Line) : Option Line :=
  if "notify_file_id ".toList.isPrefixOf (trim event) then some ((trim event).drop 15) else none

/-- What is delivered for a list of ids, if anything is. -/
def fileIdEvent (search : Search) (ids : List Nat) : Option ChangeEvent :=
  match searchFileids search ids with
  | .ok paths =>
    if !paths.isEmpty then some { invalidatedDirs := sortDedup (paths.filterMap parent?) } else none
  | .error _ => some { invalidateAll := true }

/-- `watcher_handle_event`: what the callback is called with, if it is. -/
def handleEvent (parseIds : Line → Option (List Nat)) (search : Search) (event : Line) : Option ChangeEvent :=
  match idsJson event with
  | some json =>
    match parseIds json with
    | some ids => fileIdEvent search ids
    | none => some { invalidateAll := true }
  | none => if trim event = "notify_file".toList then some { invalidateAll := true } else none

end Watcher

end Ncrs
