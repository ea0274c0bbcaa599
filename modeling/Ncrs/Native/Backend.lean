import Ncrs.Native.FsCache
import Ncrs.Native.MutationJournal

/-!
# The server as the daemon's writers see it

Model of the write half of `backend.rs`: the requests a `CloudBackend` answers, as functions
on a server state `σ` of any type, and the error classes the callers branch on.
-/

namespace Ncrs

inductive BackendWriteError where
  | conflict
  | locked
  | network (msg : String)
  | forbidden
  | quotaExceeded
  | server (code : Nat) (msg : String)
  | unsupported
  | withdrawn
  deriving DecidableEq, Repr

namespace BackendWriteError

/-- The failure is temporary: it must not count against the journal's attempt budget. -/
def isTransient : BackendWriteError → Bool
  | network _ | locked => true
  | server code _ => decide (500 ≤ code) || code == 408 || code == 429
  | conflict | forbidden | quotaExceeded | unsupported | withdrawn => false

/-- `Display`. -/
def toText : BackendWriteError → String
  | conflict => "version conflict"
  | locked => "resource locked"
  | network e => s!"network: {e}"
  | forbidden => "permission denied"
  | quotaExceeded => "quota exceeded"
  | server code msg => s!"server error {code}: {msg}"
  | unsupported => "operation not supported by this backend"
  | withdrawn => "upload withdrawn before it was sent"

/-- The server no longer has the upload session. -/
def sessionGone : BackendWriteError → Bool
  | server code _ => code == 404 || code == 409
  | _ => false

end BackendWriteError

structure PutResult where
  newChangeToken : Option String
  deriving DecidableEq, Repr

/-- An answer to a request: its result and the server afterwards. -/
abbrev Answer (σ α : Type) := Except BackendWriteError α × σ

/-- The requests of `CloudBackend` the journal and the live workers send. Each is one
    atomic change of the server's state; a whole-file upload carries the staged file. -/
structure CloudBackend (σ : Type) where
  putFile : PathBuf → LocalFile → Option String → σ → Answer σ PutResult
  mkdir : PathBuf → σ → Answer σ Unit
  delete : PathBuf → σ → Answer σ Unit
  rename : PathBuf → PathBuf → Option String → σ → Answer σ Unit
  putChunk : String → Nat → Bytes → σ → Answer σ Unit
  finishChunkedUpload : String → PathBuf → Option String → Option Nat → Nat → σ →
    Answer σ PutResult
  abortChunkedUpload : String → σ → σ
  /-- `list_dir(path).ok().and_then(|(_, me, _)| me)`: the path's own entry. -/
  listSelf : PathBuf → σ → Option RemoteEntry × σ

namespace CloudBackend

variable {σ α β : Type}

/-- `?`: the rest of a function runs only when the request succeeded. -/
def andThen (a : Answer σ α) (k : α → σ → Answer σ β) : Answer σ β :=
  match a.1 with
  | .ok v => k v a.2
  | .error e => (.error e, a.2)

/-- `put_file_from_path`, and `put_file_settled` with a fixed destination: a staging file
    that cannot be read counts as a network failure. -/
def putFileFromPath (b : CloudBackend σ) (d : CacheDir) (path staging : PathBuf)
    (ifMatch : Option String) (s : σ) : Answer σ PutResult :=
  match d.files staging with
  | some f => b.putFile path f ifMatch s
  | none => (.error (.network "staging stat: No such file or directory"), s)

/-- `retry_chunk_write`: a chunk request is tried again while it fails transiently. -/
def retryChunkWrite (f : σ → Answer σ α) : Nat → σ → Answer σ α
  | 0, s => f s
  | retries + 1, s =>
    match f s with
    | (.ok v, s') => (.ok v, s')
    | (.error e, s') => if e.isTransient then retryChunkWrite f retries s' else (.error e, s')

end CloudBackend

/-- `retry_chunk_write`'s `MAX_RETRIES`. -/
def MAX_RETRIES : Nat := 2

/-- `webdav_ops::CHUNK_SIZE`: 10 MB. -/
def CHUNK_SIZE : Nat := 10 * 1024 * 1024

/-- The pieces of at most `chunk` bytes a tail goes up in; `fuel` bounds their number. -/
def pieces (chunk : Nat) : Nat → Bytes → List Bytes
  | 0, _ => []
  | fuel + 1, l => if l.isEmpty then [] else l.take chunk :: pieces chunk fuel (l.drop chunk)

/-- `file_stem` and `extension` of a file name: what is before and after its last dot, unless
    that dot starts the name. -/
def splitName (name : String) : String × Option String :=
  let ext := name.toList.reverse.takeWhile (· != '.')
  match name.toList.reverse.dropWhile (· != '.') with
  | _ :: stem =>
    if stem = [] then (name, none)
    else (String.ofList stem.reverse, some (String.ofList ext.reverse))
  | [] => (name, none)

/-- `make_conflict_name`, with the clock reading `chrono_timestamp` renders given. -/
def makeConflictName (stamp : String) (path : PathBuf) : PathBuf :=
  let (stem, ext) := match path.fileName with
    | some name => splitName name
    | none => ("file", none)
  path.withFileName <| match ext with
    | some e => s!"{stem} (conflicted copy {stamp}).{e}"
    | none => s!"{stem} (conflicted copy {stamp})"

/-- A token without the quotes around it (`trim_matches('"')`). -/
def trimQuotes (t : String) : List Char :=
  ((t.toList.dropWhile (· == '"')).reverse.dropWhile (· == '"')).reverse

/-- Whether the file the server lists is this upload's assembly. -/
def isOurAssembly (listed : RemoteEntry) (totalLen : Nat) (mtime : Option Nat)
    (ifMatch : Option String) : Bool :=
  match mtime with
  | none => false
  | some ours =>
    !listed.isDir && listed.size == totalLen && listed.modified == some ours
      && (ifMatch.isNone || listed.changeToken.map trimQuotes != ifMatch.map trimQuotes)

end Ncrs
