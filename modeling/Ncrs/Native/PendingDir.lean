import Ncrs.Native.FsCache

/-!
# Streaming listings

Model of the pending listings of one directory in `lib.rs`: a worker sends the entries as they
arrive, and its readers take them from the channel and store the finished listing. The end is
signalled on two channels. `list_dir_streaming` owns the entry channel's sender, which is gone when
it returns; the worker sends what it returned on the result channel after `note_listing_outcome`.

Readers hold the cache lock; the worker does not. A promotion is therefore cut between taking the
entries out of their channel and looking for the result. An entry a reader receives in a loop while
the worker goes on sending counts as sent before the loop.
-/

namespace Ncrs

/-- What `list_dir_streaming` returns: the directory's etag, or an error. -/
abbrev ListingResult := Except String (Option String)

structure ListingWorker where
  /-- The entries it has sent, and those of them not received yet. -/
  sent : List RemoteEntry := []
  rx : List RemoteEntry := []
  selfRx : List RemoteEntry := []
  /-- Whether the entry channel has its sender. -/
  entryTx : Bool := true
  result : Option ListingResult := none
  reported : Bool := false
  /-- The result channel. -/
  etagRx : Option ListingResult := none

structure PendingDir where
  entries : List RemoteEntry := []
  etag : Option String := none
  selfEntry : Option RemoteEntry := none
  failed : Option String := none
  /-- The worker at the other end of its channels. -/
  fetch : Nat

/-- A call of `put_dir_cache` by a promotion. -/
structure ListingPut where
  fetch : Nat
  etag : Option String
  selfEntry : Option RemoteEntry
  entries : List RemoteEntry
  deriving DecidableEq, Repr

structure Listing where
  path : PathBuf
  cache : FsCache
  pending : Option PendingDir := none
  /-- The listing of a promotion under way, and whether its entry channel was found closed. -/
  promoting : Option (PendingDir × Bool) := none
  workers : List ListingWorker := []
  /-- What promotions have stored, and the errors they have returned. -/
  puts : List ListingPut := []
  told : List (Nat × String) := []

inductive ListingEvent where
  /-- `start_pending`, and the worker is queued. -/
  | startPending
  /-- The worker sends an entry, or the directory's own. -/
  | sendEntry (i : Nat) (e : RemoteEntry)
  | sendSelf (i : Nat) (e : RemoteEntry)
  /-- `list_dir_streaming` returns. -/
  | finish (i : Nat) (result : ListingResult)
  /-- The worker gets no request slot: it still has the entry channel's sender. -/
  | noSlot (i : Nat) (err : String)
  | sendResult (i : Nat)
  /-- The worker is done and drops what it has. -/
  | exit (i : Nat)
  /-- `get_pending_snapshot`, `promote_pending` and the final drain of a reader that has waited. -/
  | snapshot
  | promotePending
  | drain
  /-- The second half of a promotion. -/
  | promote (now : Nat)
  /-- Anything else that changes the cache. -/
  | edit (cache : FsCache)

namespace Listing

def worker? (s : Listing) (i : Nat) : Option ListingWorker := s.workers[i]?

def setWorker (s : Listing) (i : Nat) (w : ListingWorker) : Listing :=
  { s with workers := s.workers.set i w }

/-- `try_recv` on the channel of the directory's own entry. -/
def receiveSelf (p : PendingDir) (w : ListingWorker) : PendingDir × ListingWorker :=
  match p.selfEntry, w.selfRx with
  | none, e :: rest => ({ p with selfEntry := some e }, { w with selfRx := rest })
  | _, _ => (p, w)

/-- `try_recv` on the entry channel until it has nothing. -/
def receiveEntries (p : PendingDir) (w : ListingWorker) : PendingDir × ListingWorker :=
  ({ p with entries := p.entries ++ w.rx }, { w with rx := [] })

/-- A reader that received what there is: a closed channel starts a promotion. -/
def received (s : Listing) (r : PendingDir × ListingWorker) : Listing :=
  let s := s.setWorker r.1.fetch r.2
  if r.2.entryTx then { s with pending := some r.1 }
  else { s with pending := none, promoting := some (r.1, true) }

/-- `promote_pending` past the entries: the result, if it has arrived, decides. -/
def promote (s : Listing) (p : PendingDir) (w : ListingWorker) (now : Nat) : Listing :=
  let p := match w.etagRx with
    | some (.ok etag) => { p with etag := etag }
    | some (.error e) => { p with failed := some e }
    | none => p
  let w := { w with etagRx := none }
  match p.failed with
  | some e => { s.setWorker p.fetch w with promoting := none, told := s.told ++ [(p.fetch, e)] }
  | none =>
    let r := receiveSelf p w
    { s.setWorker p.fetch r.2 with
      promoting := none
      cache := s.cache.putDirCache s.path r.1.etag r.1.selfEntry r.1.entries now
      puts := s.puts ++ [{ fetch := p.fetch, etag := r.1.etag, selfEntry := r.1.selfEntry
                           entries := r.1.entries }] }

/-- A step of worker `i`, which `f` says. -/
def work (s : Listing) (i : Nat) (f : ListingWorker → Option ListingWorker) : Option Listing :=
  (s.worker? i).bind fun w => (f w).map (s.setWorker i)

/-- A reader's step, on the pending listing and its worker; the lock must be free. -/
def read (s : Listing) (f : PendingDir → ListingWorker → Listing) : Option Listing :=
  match s.promoting, s.pending with
  | none, some p => (s.worker? p.fetch).map (f p)
  | _, _ => none

def step (s : Listing) : ListingEvent → Option Listing
  | .startPending =>
    match s.promoting, s.pending with
    | none, none => some { s with
        pending := some { fetch := s.workers.length }
        workers := s.workers ++ [{}] }
    | _, _ => none
  | .sendEntry i e => s.work i fun w =>
    if w.result.isNone then some { w with sent := w.sent ++ [e], rx := w.rx ++ [e] } else none
  | .sendSelf i e => s.work i fun w =>
    if w.result.isNone then some { w with selfRx := w.selfRx ++ [e] } else none
  | .finish i result => s.work i fun w =>
    if w.result.isNone then some { w with result := some result, entryTx := false } else none
  | .noSlot i err => s.work i fun w =>
    if w.result.isNone ∧ w.sent = [] then some { w with result := some (.error err) } else none
  | .sendResult i => s.work i fun w =>
    if w.result.isSome ∧ w.reported = false then
      some { w with reported := true, etagRx := w.result }
    else none
  | .exit i => s.work i fun w =>
    if w.reported then some { w with entryTx := false } else none
  | .snapshot => s.read fun p w =>
    let r := receiveSelf p w
    s.received (receiveEntries r.1 r.2)
  | .promotePending => s.read fun p w =>
    let r := receiveEntries p w
    { s.setWorker p.fetch r.2 with pending := none, promoting := some (r.1, !w.entryTx) }
  | .drain => s.read fun p w => s.received (receiveEntries p w)
  | .promote now =>
    s.promoting.bind fun r => (s.worker? r.1.fetch).map fun w => s.promote r.1 w now
  | .edit cache => if s.promoting.isNone then some { s with cache := cache } else none

def steps (s : Listing) : List ListingEvent → Option Listing
  | [] => some s
  | e :: es => (s.step e).bind (·.steps es)

end Listing

end Ncrs
