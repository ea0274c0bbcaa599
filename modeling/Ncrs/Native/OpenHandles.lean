import Ncrs.Native.StreamUpload

/-!
# The handles of one file

Model of `open` with write access, `setattr` with a size, and the requests on the handles they open, for
all handles of one file. Each handle works on a staging file of its own (`StreamFile`). `current` is the
file apart from the handles: the newest queued upload, and when the queue has been sent what the server
has; a release that commits replaces it. Other clients and other operations on the path are left out.

Which content an open stages is `OpenWrite`'s subject. Here an open that stages it at once starts from
`current`; a staging file that is made at the first edit is the seed it will have.
-/

namespace Ncrs

/-- The handles of one file. -/
structure OpenHandles where
  nextFh : Nat := 0
  handles : Nat → Option StreamFile := fun _ => none
  current : Bytes
  /-- Answers to a `setattr` that reached no handle. -/
  replies : List Reply := []

inductive HandleEvent where
  /-- `seed`: what a staging file not made at the open will start with. -/
  | open (truncating seeded streamUploads : Bool) (seed : Bytes)
  | setattr (fh : Option Nat) (size : Nat)
  | request (fh : Nat) (e : StreamEvent)

namespace StreamFile

/-- `open` with write access: the handle it makes. -/
def opened (current : Bytes) (truncating seeded streamUploads : Bool) (seed : Bytes) : StreamFile :=
  let staged := if truncating then [] else if seeded then current else seed
  { remotePath := [], writePath := [], originalEtag := none, staging := staged, file := staged
    -- A truncating open changes the file even if nothing is written after it.
    dirty := truncating, stagedWhole := seeded || truncating
    streamEligible := streamUploads && (truncating || !seeded) }

/-- `newest_usable_writer`: its staged bytes are the file's content, if it is the newest. -/
def usable (f : StreamFile) : Bool := f.dirty && !f.uploadFailed

/-- The bytes of the upload a released handle has queued. -/
def committedBytes (f : StreamFile) : Option Bytes :=
  match f.commit with
  | some (.put ..) => some f.staging
  | some (.finishChunked _ _ nextIndex bytesConfirmed totalLen ..) =>
    f.session.map fun s => f.finishedBytes s nextIndex bytesConfirmed totalLen
  | _ => none

end StreamFile

/-- The requests that may change the staging file. -/
def StreamEvent.isWrite : StreamEvent → Bool
  | .write .. => true
  | _ => false

def StreamEvent.isResize : StreamEvent → Bool
  | .resize _ => true
  | _ => false

namespace OpenHandles

/-- No request is being served. -/
def quiet (w : OpenHandles) : Bool :=
  (List.range w.nextFh).all fun fh => (w.handles fh).all fun f => f.phase = .idle

/-- `newest_usable_writer` over all handles. -/
def newestWriter (w : OpenHandles) : Option StreamFile :=
  ((List.range w.nextFh).filterMap fun fh => (w.handles fh).filter StreamFile.usable).getLast?

/-- The file's content: the newest usable writer's, else what is committed. -/
def content (w : OpenHandles) : Bytes := (w.newestWriter.map StreamFile.file).getD w.current

def set (w : OpenHandles) (fh : Nat) (f : StreamFile) : OpenHandles :=
  { w with handles := Function.update w.handles fh (some f) }

/-- The handle leaves the table; what it committed is the file. -/
def close (w : OpenHandles) (fh : Nat) (f : StreamFile) : OpenHandles :=
  { w with handles := Function.update w.handles fh none, current := f.committedBytes.getD w.current }

/-- `setattr` with a size: with no handle, or one that is not in the table, nothing is done. -/
def setattr (w : OpenHandles) (fh : Option Nat) (size : Nat) : OpenHandles :=
  match fh.bind fun fh => (w.handles fh).map fun f => (fh, f) with
  | some (fh, f) => w.set fh (f.decideResize size)
  | none => { w with replies := w.replies ++ [.accepted (.resize size)] }

/-- A read is answered from the handle's own staging file: it has unsaved writes, or the whole file was
    staged and no other handle has (`staged_source`). -/
def readsOwn (w : OpenHandles) (f : StreamFile) : Bool := f.dirty || w.newestWriter.isNone

/-- The requests that change a file come one at a time (`fuse_dispatch`), and not beside its reads. -/
def step (c : ChunkSize) (w : OpenHandles) : HandleEvent → Option OpenHandles
  | .open truncating seeded streamUploads seed =>
    if w.quiet then
      some { w.set w.nextFh (.opened w.current truncating seeded streamUploads seed) with nextFh := w.nextFh + 1 }
    else none
  | .setattr fh size => if w.quiet then some (w.setattr fh size) else none
  | .request fh e =>
    match w.handles fh with
    | none => none
    | some f =>
      if e.isResize || e.isWrite && !w.quiet then none
      else if (match e with | .read .. => !w.readsOwn f | _ => false) then some w
      else (f.step c e).map fun g => if g.phase = .released then w.close fh g else w.set fh g

def steps (c : ChunkSize) (w : OpenHandles) : List HandleEvent → Option OpenHandles
  | [] => some w
  | e :: es => (w.step c e).bind fun w => w.steps c es

end OpenHandles

end Ncrs
