import Ncrs.Native.Path
import Ncrs.ForStd.AList

/-!
# The handoff log

Model of the records of `state_snapshot.rs`, of their replay, and of the log file as bytes, one
record a line. The text of a record is serde_json's, which is not part of the sources: a `Codec`.
The numbers of the records (`s`) and what they say are kept apart. A restored handle's `exact` state
comes from a planned hand-over's snapshot, not from the log, and is left out.
-/

namespace Ncrs

namespace Handoff

structure ConnDev where
  major : Nat
  minor : Nat
  deriving DecidableEq, Repr

inductive IoKind where
  | passthrough
  | cached
  | directIo
  deriving DecidableEq, Repr

/-- Identity of a write staging file. -/
structure StagingId where
  ino : Nat
  size : Nat
  ctime : Int
  ctimeNsec : Int
  deriving DecidableEq, Repr

structure OpenRecord where
  fh : Nat
  ino : Nat
  path : PathBuf
  writePath : Option PathBuf := none
  staging : Option StagingId := none
  dirty : Bool := false
  created : Bool := false
  stagedWhole : Bool := false
  unlinked : Bool := false
  originalEtag : Option String := none
  streamEligible : Bool := false
  ioKind : IoKind
  backingId : Option Nat := none
  mime : Option (String × Nat) := none
  deriving DecidableEq, Repr

/-- What a numbered record says. -/
inductive Entry where
  | ino (ino : Nat) (path : PathBuf)
  /-- Node ids below `upto` may have been handed out, logged or not. -/
  | reserve (upto : Nat)
  | mv (ino : Nat) (path : PathBuf) (dropped : Option Nat)
  | fh (next : Nat)
  | opened (rec : OpenRecord)
  | close (fh : Nat)
  | unlinked (fh : Nat)
  | retarget (fh : Nat) (path : PathBuf)
  | stream (writePath : PathBuf) (uploadsBase : String)
  deriving DecidableEq, Repr

inductive Record where
  | base (dev : ConnDev) (mountPoint : PathBuf)
  | entry (s : Nat) (e : Entry)
  deriving DecidableEq, Repr

/-! ## Replay -/

/-- The previous daemon's state, replayed from its log. -/
structure Restored where
  inodes : AList (fun _ : Nat => PathBuf) := ∅
  handles : AList (fun _ : Nat => Nat × OpenRecord) := ∅
  streams : AList (fun _ : PathBuf => Nat × String) := ∅
  maxSeq : Nat := 0
  maxIno : Nat := 0
  reserved : Nat := 0
  maxFh : Nat := 0
  fhMark : Nat := 0

/-- The first node id a restored filesystem may hand out. -/
def Restored.nextInode (r : Restored) : Nat := max (max (r.maxIno + 1) r.reserved) 2

structure Replayer extends Restored where
  paths : AList (fun _ : PathBuf => Nat) := ∅
  based : Bool := false

namespace Replayer

/-- The paths once `ino` has left the one it had for `path`. -/
def pathsLeft (r : Replayer) (ino : Nat) (path : PathBuf) : AList (fun _ : PathBuf => Nat) :=
  match r.inodes.lookup ino with
  | some prev => if prev ≠ path ∧ r.paths.lookup prev = some ino then r.paths.erase prev else r.paths
  | none => r.paths

/-- `ino` is at `path` now, and what was there no longer resolves. -/
def set (r : Replayer) (ino : Nat) (path : PathBuf) : Replayer :=
  let paths := r.pathsLeft ino path
  let inodes := r.inodes.insert ino path
  { r with
    inodes := match paths.lookup path with
      | some other => if other ≠ ino then inodes.erase other else inodes
      | none => inodes
    paths := paths.insert path ino }

/-- The node id a rename displaced. -/
def dropIno (r : Replayer) (d : Nat) : Replayer :=
  match r.inodes.lookup d with
  | some p => { r with
      inodes := r.inodes.erase d
      paths := if r.paths.lookup p = some d then r.paths.erase p else r.paths }
  | none => r

/-- `handles.get_mut(fh)` and what is done with the record. -/
def modifyHandle (r : Replayer) (fh : Nat) (f : OpenRecord → OpenRecord) : Replayer :=
  match r.handles.lookup fh with
  | some h => { r with handles := r.handles.insert fh (h.1, f h.2) }
  | none => r

def applyEntry (r : Replayer) (s : Nat) (e : Entry) : Replayer :=
  let r := { r with maxSeq := max r.maxSeq s }
  match e with
  | .ino ino path => ({ r with maxIno := max r.maxIno ino }).set ino path
  | .mv ino path dropped =>
    let r := ({ r with maxIno := max r.maxIno ino }).set ino path
    match dropped.filter (· ≠ ino) with
    | some d => r.dropIno d
    | none => r
  | .reserve upto => { r with reserved := max r.reserved upto }
  | .fh next => { r with fhMark := max r.fhMark next }
  | .opened rec => { r with maxFh := max r.maxFh rec.fh, handles := r.handles.insert rec.fh (s, rec) }
  | .close fh => { r with handles := r.handles.erase fh }
  | .unlinked fh => r.modifyHandle fh fun rec => { rec with unlinked := true }
  | .retarget fh path => r.modifyHandle fh fun rec => { rec with path := path }
  | .stream writePath uploadsBase =>
    { r with streams := r.streams.insert writePath (s, uploadsBase) }

/-- `Replayer::apply`: the first record says whose log this is. -/
def apply (dev : ConnDev) (mountPoint : PathBuf) (r : Replayer) (rec : Record) :
    Except String Replayer :=
  match r.based, rec with
  | false, .base d m =>
    if d = dev ∧ m = mountPoint then .ok { r with based := true }
    else
      let mount := m.display
      .error s!"log is for connection {d.major}:{d.minor} on {mount}, not this one"
  | false, .entry _ _ => .error "log does not start with its connection"
  | true, .base _ _ => .error "second Base record"
  | true, .entry s e => .ok (r.applyEntry s e)

/-- A stream is kept while a handle with its staging file is open. -/
def finish (r : Replayer) : Restored :=
  { r.toRestored with
    streams := r.streams.retain fun wp =>
      r.handles.entries.any fun h => h.2.2.writePath = some wp }

/-- The end of `load`. -/
def done (r : Replayer) : Except String Restored :=
  if r.based then .ok r.finish else .error "empty log"

end Replayer

/-- The replay of whole records, as `load` does it. -/
def loadRecords (dev : ConnDev) (mountPoint : PathBuf) (rs : List Record) :
    Except String Restored := do
  let rp ← rs.foldlM (Replayer.apply dev mountPoint) {}
  rp.done

/-! ## The file -/

/-- serde_json's text of a record, and its reader. -/
structure Codec where
  encode : Record → List UInt8
  decode : List UInt8 → Except String Record

/-- `b'\n'`. -/
def newline : UInt8 := 10

/-- One record a line. -/
def lines (c : Codec) (rs : List Record) : List UInt8 := rs.flatMap fun r => c.encode r ++ [newline]

/-- One turn of the loop of `load`. `torn` is the error of a line that did not parse. -/
def loadLine (c : Codec) (dev : ConnDev) (mountPoint : PathBuf)
    (st : Replayer × Option String) (line : List UInt8) :
    Except String (Replayer × Option String) :=
  if line = [] then .ok st
  else match c.decode line with
    | .ok rec =>
      match st.2 with
      | some e => .error s!"corrupt record in the middle of the log: {e}"
      | none => do
        let rp ← st.1.apply dev mountPoint rec
        .ok (rp, none)
    | .error e => .ok (st.1, some e)

/-- `load`. `file` is what opening the log gave. `BufRead::split` leaves out an empty piece at the
end, which the loop would skip. -/
def load (c : Codec) (dev : ConnDev) (mountPoint : PathBuf) (file : Except String (List UInt8)) :
    Except String Restored := do
  let bytes ← file
  let (rp, _) ← (bytes.splitOn newline).foldlM (loadLine c dev mountPoint) ({}, none)
  rp.done

/-- `BUF_MAX`: queued records are written once they reach this. -/
def bufMax : Nat := 64 * 1024

/-- The writer's file, opened for append, with the records not written yet. -/
structure LogFile where
  file : List UInt8
  buf : List UInt8 := []
  seq : Nat

namespace LogFile

def flush (w : LogFile) : LogFile := { w with file := w.file ++ w.buf, buf := [] }

/-- `Writer::append`: `sync` writes the record, and what is queued before it, now. -/
def append (c : Codec) (w : LogFile) (rec : Record) (sync : Bool) : LogFile :=
  let w := { w with buf := w.buf ++ (c.encode rec ++ [newline]) }
  if sync || bufMax ≤ w.buf.length then w.flush else w

/-- A hook's `next_seq` and `append`. -/
def log (c : Codec) (w : LogFile) (x : Entry × Bool) : LogFile :=
  append c { w with seq := w.seq + 1 } (.entry (w.seq + 1) x.1) x.2

/-- `start_resumed`: the log the restore came from is appended to as it is. -/
def startResumed (file : List UInt8) (r : Restored) : LogFile := { file, seq := r.maxSeq }

end LogFile

end Handoff

end Ncrs
