import Ncrs.ForStd.AList
import Ncrs.Native.Path

/-!
# Chunked uploads against one server

`put_file_from_path_settled` sends a file of more than `CHUNK_SIZE` bytes as a chunked upload: it opens a
session, which is a collection of the user on the server, puts one chunk after the other into it, and has the
server assemble them by index. Several uploads run at once, each a thread of its own, so that their requests
reach the server in any order.

The staging file keeps its bytes while it is uploaded. The URL of a session is its transfer id, as base URL
and user name are those of the account for all of them. Each request may be answered, refused without an
effect, or lost on its way to the server or back.
-/

namespace Ncrs

/-! ## The server -/

/-- The chunks of a session in the order of their names. -/
abbrev Chunks := List (Nat × List UInt8)

namespace Chunks

/-- A PUT of one chunk, over the one of that name if there is one. -/
def put (index : Nat) (body : List UInt8) : Chunks → Chunks
  | [] => [(index, body)]
  | (j, b) :: rest =>
    if index < j then (index, body) :: (j, b) :: rest
    else if index = j then (index, body) :: rest
    else (j, b) :: put index body rest

/-- All chunks, concatenated by index. -/
def assemble (c : Chunks) : List UInt8 := c.flatMap (·.2)

end Chunks

/-- The upload collections of the user. -/
abbrev UploadServer := AList fun _ : String => Chunks

namespace UploadServer

variable (srv : UploadServer)

/-- MKCOL, which answers 405 where the collection is there already. -/
def mkcol (uploadsBase : String) : Nat × UploadServer :=
  match srv.lookup uploadsBase with
  | some _ => (405, srv)
  | none => (201, srv.insert uploadsBase [])

/-- PUT of a chunk into a collection. -/
def putChunk (uploadsBase : String) (index : Nat) (body : List UInt8) : Nat × UploadServer :=
  match srv.lookup uploadsBase with
  | some chunks => (201, srv.insert uploadsBase (chunks.put index body))
  | none => (404, srv)

/-- MOVE of the `.file` of a collection: the bytes of the file at the destination, unless there is no such
    collection. -/
def move (uploadsBase : String) : Option (List UInt8) × UploadServer :=
  match srv.lookup uploadsBase with
  | some chunks => (some chunks.assemble, srv.erase uploadsBase)
  | none => (none, srv)

/-- DELETE of a collection. -/
def delete (uploadsBase : String) : UploadServer := srv.erase uploadsBase

end UploadServer

/-! ## The uploads -/

/-- `CHUNK_SIZE`. -/
def chunkSize : Nat := 10 * 1024 * 1024

/-- The name of a transfer. -/
def transferId (pid millis : Nat) : String := s!"ncrs-{pid}-{millis}"

/-- What becomes of a request. -/
inductive RequestFate where
  | reached
  /-- A 404 or 501, from a server without chunked uploads. -/
  | unsupported
  /-- Any other answer that is an error, 405 to an MKCOL apart. -/
  | refused
  | lost
  /-- The server has done it, and the answer is lost. -/
  | replyLost
  deriving DecidableEq, Repr

/-- Where an upload is. -/
inductive UploadPhase where
  | start
  /-- The session is open, and the chunks below `next` are up. -/
  | putting (uploadsBase : String) (next : Nat)
  /-- The single PUT of the whole file is next. -/
  | single
  /-- The upload has failed, and `cleanup_chunked_upload` is next. -/
  | cleaning (uploadsBase : String)
  | done (ok : Bool)
  deriving DecidableEq, Repr

/-- A call of `put_file_from_path_settled`. -/
structure FileUpload where
  staging : List UInt8
  phase : UploadPhase
  deriving DecidableEq, Repr

namespace FileUpload

variable (up : FileUpload)

/-- The number of chunks. -/
def totalChunks : Nat := (up.staging.length + chunkSize - 1) / chunkSize

/-- What `read_exact` reads for chunk `i`. -/
def chunk (i : Nat) : List UInt8 := (up.staging.drop (i * chunkSize)).take chunkSize

end FileUpload

/-- A file that the server has written, with the upload that asked for it. -/
structure Landed where
  upload : Nat
  path : PathBuf
  bytes : List UInt8
  deriving DecidableEq, Repr

/-- The uploads of one process, and their server. -/
structure UploadSystem where
  pid : Nat
  server : UploadServer
  uploads : List FileUpload := []
  landed : List Landed := []

/-- What an upload meets in its next step: the clock, the staging file, `settle` and the network. -/
structure StepInput where
  millis : Nat := 0
  readOk : Bool := true
  settle : Option PathBuf := none
  fate : RequestFate := .reached
  deriving DecidableEq, Repr

/-- What may happen next. -/
inductive UploadEvent where
  /-- An upload is called for a staging file. -/
  | begin (staging : List UInt8)
  /-- An upload takes its next step. -/
  | next (upload : Nat) (input : StepInput)
  deriving DecidableEq, Repr

namespace UploadSystem

variable (s : UploadSystem)

/-- Upload `i` gets to the phase. -/
def setPhase (i : Nat) (up : FileUpload) (phase : UploadPhase) : UploadSystem :=
  { s with uploads := s.uploads.set i { up with phase := phase } }

/-- The server after a request. -/
def setServer (server : UploadServer) : UploadSystem := { s with server := server }

/-- A file lands. -/
def land (i : Nat) (path : PathBuf) (bytes : List UInt8) : UploadSystem :=
  { s with landed := s.landed ++ [⟨i, path, bytes⟩] }

/-- `open_chunked_session`. -/
def openSession (i : Nat) (up : FileUpload) (x : StepInput) : UploadSystem :=
  let uploadsBase := transferId s.pid x.millis
  let (status, server) := s.server.mkcol uploadsBase
  match x.fate with
  | .reached =>
    if 200 ≤ status && status < 300 || status == 405 then
      (s.setServer server).setPhase i up (.putting uploadsBase 0)
    else s.setPhase i up (.done false)
  | .unsupported => s.setPhase i up .single
  | .refused | .lost => s.setPhase i up (.done false)
  | .replyLost => (s.setServer server).setPhase i up (.done false)

/-- `put_chunk`, after which a failed upload tears its session down. -/
def putChunk (i : Nat) (up : FileUpload) (uploadsBase : String) (next : Nat) (x : StepInput) : UploadSystem :=
  if !x.readOk then s.setPhase i up (.cleaning uploadsBase)
  else
    let (status, server) := s.server.putChunk uploadsBase next (up.chunk next)
    match x.fate with
    | .reached =>
      if status == 200 || status == 201 || status == 204 then
        (s.setServer server).setPhase i up (.putting uploadsBase (next + 1))
      else s.setPhase i up (.cleaning uploadsBase)
    | .unsupported | .refused | .lost => s.setPhase i up (.cleaning uploadsBase)
    | .replyLost => (s.setServer server).setPhase i up (.cleaning uploadsBase)

/-- `finish_chunked_upload`, with the destination that `settle` gives. -/
def finish (i : Nat) (up : FileUpload) (uploadsBase : String) (x : StepInput) : UploadSystem :=
  match x.settle with
  | none => s.setPhase i up (.cleaning uploadsBase)
  | some path =>
    match x.fate with
    | .unsupported | .refused | .lost => s.setPhase i up (.done false)
    | .reached | .replyLost =>
      match s.server.move uploadsBase with
      | (some bytes, server) =>
        ((s.setServer server).land i path bytes).setPhase i up (.done (x.fate == .reached))
      | (none, _) => s.setPhase i up (.done false)

/-- `put_file` and `put_file_streamed`. -/
def putFile (i : Nat) (up : FileUpload) (x : StepInput) : UploadSystem :=
  match x.settle with
  | none => s.setPhase i up (.done false)
  | some path =>
    match x.fate with
    | .unsupported | .refused | .lost => s.setPhase i up (.done false)
    | .reached | .replyLost =>
      (s.land i path up.staging).setPhase i up (.done (x.fate == .reached))

/-- `cleanup_chunked_upload`, whose result nobody looks at. -/
def cleanup (i : Nat) (up : FileUpload) (uploadsBase : String) (x : StepInput) : UploadSystem :=
  match x.fate with
  | .reached | .replyLost => (s.setServer (s.server.delete uploadsBase)).setPhase i up (.done false)
  | .unsupported | .refused | .lost => s.setPhase i up (.done false)

/-- The next step of `put_file_from_path_settled`. -/
def advance (i : Nat) (up : FileUpload) (x : StepInput) : UploadSystem :=
  match up.phase with
  | .start => if up.staging.length ≤ chunkSize then s.setPhase i up .single else s.openSession i up x
  | .putting uploadsBase next =>
    if next < up.totalChunks then s.putChunk i up uploadsBase next x else s.finish i up uploadsBase x
  | .single => s.putFile i up x
  | .cleaning uploadsBase => s.cleanup i up uploadsBase x
  | .done _ => s

/-- One step. -/
def step : UploadEvent → UploadSystem
  | .begin staging => { s with uploads := s.uploads ++ [⟨staging, .start⟩] }
  | .next i x =>
    match s.uploads[i]? with
    | some up => s.advance i up x
    | none => s

/-- A run of steps. -/
def run (events : List UploadEvent) : UploadSystem := events.foldl step s

end UploadSystem

end Ncrs
