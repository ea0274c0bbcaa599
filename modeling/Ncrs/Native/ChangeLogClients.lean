import Ncrs.Native.StatusFeed

/-!
# The change log and its clients

Model of `change_log.rs` as a whole: the ring with a legacy cursor per client process, the count of
connections that share it, and the live readers for which the ring keeps its records. `Clients` puts
the ring beside everything ever appended (a record's place is its sequence number) and what each
process called and was given. That part is kept from the calls and their results alone: it does not
look at the cursors.
-/

namespace Ncrs

/-- What a process was last given, and the connections it holds. -/
structure LegacyCursor where
  status : Nat
  file : Nat
  /-- Open connections sharing this cursor. -/
  refs : Nat
  deriving DecidableEq, Repr

/-- `CursorKey`: the pid of the client process. -/
abbrev CursorKey := UInt32

/-- The log with its readers. -/
structure Ring extends ChangeLog where
  cursors : AList fun _ : CursorKey => LegacyCursor := ∅
  liveReaders : Nat := 0

/-- `usize::MAX`. -/
def usizeMax : Nat := 2 ^ 64 - 1

/-- The record is a change of a file. -/
def FeedRecord.isFile : FeedRecord → Bool
  | .file _ => true
  | .status _ => false

/-- The change of a file, if the record is one. -/
def FeedRecord.toFile : FeedRecord → Option FileChange
  | .file c => some c
  | .status _ => none

namespace Ring

/-- `ChangeLog::new`. -/
def new (cap : UInt64) : Ring := { cap := Nat.max cap.toNat 1 }

/-- Somebody could read what is appended. -/
def hasReader (r : Ring) : Bool := !(r.cursors.entries.isEmpty && r.liveReaders == 0)

/-- `append`: kept only while somebody may read it. -/
def append (r : Ring) (records : List FeedRecord) : Ring :=
  { r with toChangeLog := r.toChangeLog.append records r.hasReader }

/-- `pump`, once it has drained the producers' buffers. -/
def pump (r : Ring) (files : List FileChange) (paths : List PathBuf) : Ring :=
  if files.isEmpty && paths.isEmpty then r
  else r.append (files.map .file ++ paths.map .status)

/-- The loop of `read_locked`. -/
def readLoop (keep : FeedRecord → Bool) (max : Nat) :
    List FeedRecord → List FeedRecord → Nat → List FeedRecord × Nat
  | [], records, next => (records, next)
  | rec :: rest, records, next =>
    if max ≤ records.length then (records, next)
    else readLoop keep max rest (if keep rec then records ++ [rec] else records) (next + 1)

/-- `read_locked`. -/
def readLocked (r : Ring) (since max : Nat) (keep : FeedRecord → Bool) : ReadResult :=
  let start := Nat.min (Nat.max since r.base) r.head
  let (records, next) := readLoop keep max (r.entries.drop (start - r.base)) [] start
  { next := next, records := records, resync := decide (since < r.base) }

/-- `ChangeLog::read_since`. -/
def readSince (r : Ring) (since max : Nat) : ReadResult := r.readLocked since max fun _ => true

/-- A reader of the stream comes. -/
def addLiveReader (r : Ring) : Ring := { r with liveReaders := r.liveReaders + 1 }

/-- A reader of the stream goes. -/
def removeLiveReader (r : Ring) : Ring := { r with liveReaders := r.liveReaders - 1 }

/-- `attach`: a new cursor stands at the end of the log, and one more connection uses it. -/
def attach (r : Ring) (key : CursorKey) : Ring :=
  let c := (r.cursors.lookup key).getD { status := r.head, file := r.head, refs := 0 }
  { r with cursors := r.cursors.insert key { c with refs := c.refs + 1 } }

/-- `detach`: the cursor goes with its last connection. -/
def detach (r : Ring) (key : CursorKey) : Ring :=
  match r.cursors.lookup key with
  | some c =>
    if c.refs - 1 = 0 then { r with cursors := r.cursors.erase key }
    else { r with cursors := r.cursors.insert key { c with refs := c.refs - 1 } }
  | none => r

/-- The loop of `take_status`: a path already given in this call is passed over. -/
def statusLoop (max : Nat) : List FeedRecord → List PathBuf → Nat → List PathBuf × Nat
  | [], out, next => (out, next)
  | .status p :: rest, out, next =>
    if p ∈ out then statusLoop max rest out (next + 1)
    else if max ≤ out.length then (out, next)
    else statusLoop max rest (out ++ [p]) (next + 1)
  | .file _ :: rest, out, next => statusLoop max rest out (next + 1)

/-- `take_status`: up to `max` distinct status paths past this client's cursor. -/
def takeStatus (r : Ring) (key : CursorKey) (max : Nat) : List PathBuf × Ring :=
  match r.cursors.lookup key with
  | none => ([], r)
  | some c =>
    let start := Nat.min (Nat.max c.status r.base) r.head
    let (out, next) := statusLoop max (r.entries.drop (start - r.base)) [] start
    (out, { r with cursors := r.cursors.insert key { c with status := next } })

/-- `take_file_changes`: every structural change past this client's cursor. -/
def takeFileChanges (r : Ring) (key : CursorKey) : List FileChange × Ring :=
  match r.cursors.lookup key with
  | none => ([], r)
  | some c =>
    let res := r.readLocked c.file usizeMax FeedRecord.isFile
    (res.records.filterMap FeedRecord.toFile,
      { r with cursors := r.cursors.insert key { c with file := res.next } })

end Ring

/-! ## Clients -/

/-- A process of the calls: attached while it has connections. -/
structure Attached where
  conns : Nat := 0
  /-- How many records there were when it attached. -/
  start : Nat := 0
  /-- How many there were when it last asked for structural changes. -/
  asked : Nat := 0
  files : List FileChange := []
  /-- The places of the records that were pushed out before the process asked for them. -/
  missedFiles : List Nat := []
  /-- The paths it was given, each with the number of records appended by then. -/
  status : List (PathBuf × Nat) := []

/-- The ring, and what its processes have been given. -/
structure Clients where
  ring : Ring
  /-- What the ring was made to hold. -/
  cap : Nat
  history : List FeedRecord := []
  attached : CursorKey → Attached := fun _ => {}
  /-- The sequence numbers `head` and `read_since` have returned. -/
  given : List Nat := []

/-- A call of a process, or of the daemon. -/
inductive ClientEvent where
  | append (records : List FeedRecord)
  | pump (files : List FileChange) (paths : List PathBuf)
  | attach (key : CursorKey)
  | detach (key : CursorKey)
  | takeStatus (key : CursorKey) (max : Nat)
  | takeFileChanges (key : CursorKey)
  | addLiveReader
  | removeLiveReader
  | head
  | readSince (since max : Nat)
  deriving DecidableEq, Repr

namespace Clients

/-- The log at its start. -/
def start (cap : UInt64) : Clients := { ring := .new cap, cap := Nat.max cap.toNat 1 }

/-- The places from `from_` on that go over the capacity when `n` records are appended to `len`. -/
def pushedOut (cap len n from_ : Nat) : List Nat :=
  List.range' (Nat.max from_ (len - cap)) (len + n - cap - Nat.max from_ (len - cap))

/-- A process that has not asked for what the records push out has missed it. -/
def append (s : Clients) (records : List FeedRecord) (ring : Ring) : Clients :=
  { s with
    ring := ring
    history := s.history ++ records
    attached := fun k =>
      if 0 < (s.attached k).conns then
        { s.attached k with
          missedFiles := (s.attached k).missedFiles ++
            pushedOut s.cap s.history.length records.length (s.attached k).asked }
      else s.attached k }

/-- One call. -/
def step (s : Clients) : ClientEvent → Clients
  | .append records => s.append records (s.ring.append records)
  | .pump files paths =>
    s.append (files.map .file ++ paths.map .status) (s.ring.pump files paths)
  | .attach key =>
    { s with
      ring := s.ring.attach key
      attached := Function.update s.attached key
        (if 0 < (s.attached key).conns then { s.attached key with conns := (s.attached key).conns + 1 }
          else { conns := 1, start := s.history.length, asked := s.history.length }) }
  | .detach key =>
    { s with
      ring := s.ring.detach key
      attached := Function.update s.attached key
        { s.attached key with conns := (s.attached key).conns - 1 } }
  | .takeStatus key max =>
    let (out, ring) := s.ring.takeStatus key max
    { s with
      ring := ring
      attached := Function.update s.attached key
        { s.attached key with
          status := (s.attached key).status ++ out.map fun p => (p, s.history.length) } }
  | .takeFileChanges key =>
    let (out, ring) := s.ring.takeFileChanges key
    { s with
      ring := ring
      attached := Function.update s.attached key
        { s.attached key with files := (s.attached key).files ++ out, asked := s.history.length } }
  | .addLiveReader => { s with ring := s.ring.addLiveReader }
  | .removeLiveReader => { s with ring := s.ring.removeLiveReader }
  | .head => { s with given := s.given ++ [s.ring.head] }
  | .readSince since max => { s with given := s.given ++ [(s.ring.readSince since max).next] }

/-- Calls one after the other. -/
def steps (s : Clients) (es : List ClientEvent) : Clients := es.foldl step s

end Clients

end Ncrs
