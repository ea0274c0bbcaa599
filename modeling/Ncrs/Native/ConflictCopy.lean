import Ncrs.Native.Backend

/-!
# Conflicted copies

Model of what becomes of a save or a move whose condition the server refuses (412): the version
goes up under a name that `make_conflict_name` makes of its path and the clock, and once the
server accepted it there the local bytes are deleted.

The five callers (`commit_released`, the live streamed finish, `execute_op`'s PUT and finish,
`send_move`) choose the name and send the requests in steps of their own, so the steps of any
number of them interleave. A MOVE with a condition is one of a file (`rename` sends a folder's
without), so the server is a map from paths to file contents.
-/

namespace Ncrs

/-! ## The clock -/

def isLeapYear (y : Nat) : Bool := y % 4 == 0 && (y % 100 != 0 || y % 400 == 0)

def daysInYear (y : Nat) : Nat := if isLeapYear y then 366 else 365

def monthDays (y : Nat) : List Nat :=
  [31, if isLeapYear y then 29 else 28, 31, 30, 31, 30, 31, 31, 30, 31, 30, 31]

/-- The loop over the years: the year and the days left in it. Each turn takes a year off, so
    `days` turns are enough. -/
def countYears : Nat → Nat → Nat → Nat × Nat
  | 0, y, remaining => (y, remaining)
  | fuel + 1, y, remaining =>
    if remaining < daysInYear y then (y, remaining)
    else countYears fuel (y + 1) (remaining - daysInYear y)

/-- The loop over the months: how many are over, and the days left. -/
def countMonths : List Nat → Nat → Nat → Nat × Nat
  | [], m, remaining => (m, remaining)
  | md :: rest, m, remaining =>
    if remaining < md then (m, remaining) else countMonths rest (m + 1) (remaining - md)

/-- `{:0w}`. -/
def zeroPad (w n : Nat) : String :=
  String.ofList (List.replicate (w - (Nat.toDigits 10 n).length) '0' ++ Nat.toDigits 10 n)

/-- `chrono_timestamp`, of a clock that shows `secs` whole seconds since 1970. -/
def chronoTimestamp (secs : Nat) : String :=
  let days := secs / 86400
  let daySecs := secs % 86400
  let year := countYears days 1970 days
  let month := countMonths (monthDays year.1) 0 year.2
  s!"{zeroPad 4 year.1}-{zeroPad 2 (month.1 + 1)}-{zeroPad 2 (month.2 + 1)} " ++
    s!"{zeroPad 2 (daySecs / 3600)}-{zeroPad 2 (daySecs % 3600 / 60)}-{zeroPad 2 (daySecs % 60)}"

/-- `make_conflict_name` at that time. -/
def conflictNameAt (now : Nat) (path : PathBuf) : PathBuf :=
  makeConflictName (chronoTimestamp now) path

/-! ## The callers -/

/-- A save or a move that was answered 412. -/
inductive Conflicted where
  /-- `commit_released` and `execute_op`'s PUT: the whole staging file. -/
  | put (path staging : PathBuf)
  /-- A streamed finish, live or replayed: the chunks of its session. -/
  | finish (path : PathBuf) (uploadsBase : String) (tail : PathBuf) (whole : Bool)
  /-- `send_move`; `fromCopy`: the source is gone, and it was the PUT of the local copy that
      was refused. -/
  | move (src dst : PathBuf) (staging : Option PathBuf) (fromCopy : Bool)
  deriving DecidableEq, Repr

/-- The path the name is made of. -/
def Conflicted.dest : Conflicted → PathBuf
  | put path _ | finish path _ _ _ => path
  | move _ dst _ _ => dst

/-- The next request under the name. None of them has a condition. -/
inductive CopyRequest where
  | upload (staging : PathBuf)
  | assemble (uploadsBase : String) (tail : PathBuf) (whole : Bool)
  | rename (src : PathBuf) (staging : Option PathBuf)
  deriving DecidableEq, Repr

def Conflicted.firstRequest : Conflicted → CopyRequest
  | put _ staging => .upload staging
  | finish _ uploadsBase tail whole => .assemble uploadsBase tail whole
  | move _ _ (some staging) true => .upload staging
  | move src _ staging _ => .rename src staging

structure ConflictJob where
  name : PathBuf
  request : CopyRequest
  deriving DecidableEq, Repr

/-- What becomes of a request. -/
inductive CopyAnswer where
  | done
  /-- Carried out, but the answer never came. -/
  | lost
  | refused (e : BackendWriteError)
  deriving DecidableEq, Repr

/-- The server, the local staging files and the callers under way. Nothing reads `named` (the
    paths and times of the names chosen so far) and `saved` (where the versions are whose local
    bytes were deleted for their conflicted copy). -/
structure CopyWorld where
  server : PathBuf → Option Bytes
  sessions : String → Option Bytes
  files : PathBuf → Option Bytes
  jobs : List ConflictJob := []
  named : List (PathBuf × Nat) := []
  saved : List (PathBuf × Bytes) := []

inductive CopyEvent where
  /-- A 412: the name is chosen. -/
  | conflict (c : Conflicted) (now : Nat)
  | request (i : Nat) (answer : CopyAnswer)
  /-- Any other change of a file on the server. -/
  | other (path : PathBuf) (content : Option Bytes)
  /-- A staging file is written, or an upload session. -/
  | stage (staging : PathBuf) (content : Bytes)
  | chunks (uploadsBase : String) (content : Bytes)
  deriving DecidableEq, Repr

namespace CopyWorld

/-- The caller is done, or leaves the entry queued for a retry. -/
def endJob (w : CopyWorld) (i : Nat) : CopyWorld := { w with jobs := w.jobs.eraseIdx i }

def setRequest (w : CopyWorld) (i : Nat) (r : CopyRequest) : CopyWorld :=
  { w with jobs := w.jobs.modify i fun j => { j with request := r } }

/-- The server stores `content` as `name`. -/
def store (w : CopyWorld) (name : PathBuf) (content : Bytes) : CopyWorld :=
  { w with server := Function.update w.server name (some content) }

/-- The server moves `src` to `name`, over whatever is there (`Overwrite: T`). A saved version
    moves along. -/
def moveTo (w : CopyWorld) (src name : PathBuf) (content : Bytes) : CopyWorld :=
  { w with
    server := Function.update (Function.update w.server src none) name (some content)
    saved := w.saved.map fun v => if v.1 = src then (name, v.2) else v }

/-- The copy was accepted: its local bytes are deleted. -/
def settle (w : CopyWorld) (name : PathBuf) (content : Bytes) (staging : Option PathBuf) :
    CopyWorld :=
  match staging with
  | some s => { w with files := Function.update w.files s none, saved := (name, content) :: w.saved }
  | none => w

/-- `put_file_from_path(name, staging, None)`. -/
def upload (w : CopyWorld) (i : Nat) (name staging : PathBuf) (answer : CopyAnswer) :
    CopyWorld :=
  match w.files staging, answer with
  | some content, .done => ((w.store name content).settle name content (some staging)).endJob i
  | some content, .lost => (w.store name content).endJob i
  | _, _ => w.endJob i

/-- `assemble_conflicted_copy`: a session the server no longer has is made up for by the whole
    staging file. -/
def assemble (w : CopyWorld) (i : Nat) (name : PathBuf) (uploadsBase : String) (tail : PathBuf)
    (whole : Bool) (answer : CopyAnswer) : Option CopyWorld :=
  match w.sessions uploadsBase, answer with
  | some content, .done =>
    let w := { w with sessions := Function.update w.sessions uploadsBase none }
    some (((w.store name content).settle name content (some tail)).endJob i)
  | some content, .lost =>
    let w := { w with sessions := Function.update w.sessions uploadsBase none }
    some ((w.store name content).endJob i)
  | _, .refused e =>
    if whole && e.sessionGone then some (w.setRequest i (.upload tail)) else some (w.endJob i)
  | none, _ => none

/-- `send_move`'s MOVE of the file to the name, or the PUT of its local copy if it is gone. -/
def rename (w : CopyWorld) (i : Nat) (name src : PathBuf) (staging : Option PathBuf)
    (answer : CopyAnswer) : Option CopyWorld :=
  match w.server src, answer with
  | some content, .done => some (((w.moveTo src name content).settle name content staging).endJob i)
  | some content, .lost => some ((w.moveTo src name content).endJob i)
  | _, .refused e =>
    match e, staging with
    | .server 404 _, some s => some (w.setRequest i (.upload s))
    | _, _ => some (w.endJob i)
  | none, _ => none

def step (w : CopyWorld) : CopyEvent → Option CopyWorld
  | .conflict c now =>
    if c.dest = [] then none
    else
      some { w with
        jobs := w.jobs ++ [{ name := conflictNameAt now c.dest, request := c.firstRequest }]
        named := (c.dest, now) :: w.named }
  | .request i answer =>
    match w.jobs[i]? with
    | none => none
    | some j =>
      match j.request with
      | .upload staging => some (w.upload i j.name staging answer)
      | .assemble uploadsBase tail whole => w.assemble i j.name uploadsBase tail whole answer
      | .rename src staging => w.rename i j.name src staging answer
  | .other path content => some { w with server := Function.update w.server path content }
  | .stage staging content => some { w with files := Function.update w.files staging (some content) }
  | .chunks uploadsBase content =>
    some { w with sessions := Function.update w.sessions uploadsBase (some content) }

def steps (w : CopyWorld) : List CopyEvent → Option CopyWorld
  | [] => some w
  | e :: es => (w.step e).bind fun w => w.steps es

end CopyWorld

end Ncrs
