import Ncrs.Native.PathSeq
import Ncrs.Native.ReplayLoop

/-!
# Live workers beside the replay

While the mount is online a change is journaled and handed to a worker of its own: `release`,
`mkdir`, `unlink`, `rmdir` and `rename` enqueue their entry, take a `PathSeq` ticket and submit
the job. The worker waits for its ticket, an upload claims its entry, a request slot is taken,
the request goes out, and its answer removes or marks the entry. The connectivity monitor's
replay works on the same queue. This file is the system of both: one event for each section
that another thread can come between.

The request scheduler serves operations on one path one after the other, so a user operation
is one event. The waits of DELETE and MOVE for a running upload end after 30 s in any case, so
they may end in any state; so may the wait for a request slot.
-/

namespace Ncrs

/-- Where a worker is with its operation. -/
inductive WorkerPhase where
  /-- Waiting for its ticket. -/
  | queued
  /-- `ticket.wait()` has returned. -/
  | admitted
  /-- An upload has claimed its entry; any other change is past its waits. -/
  | claimed
  /-- The request is on its way, naming `dest` on condition `ifMatch`. -/
  | sent (dest : PathBuf) (ifMatch : Option String)
  deriving DecidableEq, Repr

/-- A live job and the operation it was submitted for. -/
structure Worker where
  seq : SeqId
  op : MutationOp
  ticket : Ticket
  phase : WorkerPhase := .queued
  deriving DecidableEq, Repr

/-- How a request ended. -/
inductive LiveAnswer where
  /-- It was successful. -/
  | landed (etag : Option String)
  /-- It was not, and there is nothing left to do (a DELETE answered with 404, a MOVE without
      its source, a save that became a conflicted copy, a dead upload session). -/
  | settled
  | deferred (error : String)
  | failed (error : String)
  deriving DecidableEq, Repr

/-- A request sent for an entry: whether it is still out, failed or was successful. -/
structure Request where
  seq : SeqId
  success : Option Bool := none
  deriving DecidableEq, Repr

namespace MutationOp

/-- The operations whose worker claims its entry. -/
def isUpload : MutationOp → Bool
  | put .. | finishChunked .. => true
  | _ => false

/-- `ticket_entry`, and the ticket a rename takes. -/
def ticketPaths : MutationOp → List (PathBuf × Access)
  | rename src dst _ _ =>
    [(src, .exclusive), (dst, .exclusive), (src.parent, .shared), (dst.parent, .shared)]
  | op => [(op.path, .exclusive), (op.path.parent, .shared)]

end MutationOp

/-- What a worker does to the journal when its request has been answered. -/
def LiveAnswer.liveOps (seq : SeqId) (op : MutationOp) (dest : PathBuf) (sent : Option String) :
    LiveAnswer → List LiveOp
  | landed etag =>
    match op with
    | .put _ staging _ =>
      [.handStagingToRename dest staging, .remove seq, .rebase dest sent etag]
    | .finishChunked _ _ _ _ _ tail _ _ _ whole =>
      .rebase dest sent etag ::
        (if whole then [.handStagingToRename dest tail, .remove seq] else [.remove seq])
    | .rename _ dst _ base => [.remove seq, .rebase dst base none]
    | _ => [.remove seq]
  | settled =>
    match op with
    -- A MKCOL that fails stays queued whatever the answer.
    | .mkDir _ => [.markFailed seq ""]
    | _ => [.remove seq]
  | deferred error =>
    match op with
    | .mkDir _ => [.markFailed seq error]
    | _ => [.markDeferred seq error]
  | failed error => [.markFailed seq error]

/-- The mount online: the replay, the live workers, and the requests they send. -/
structure LiveMount where
  loop : ReplayLoop
  /-- The replay's request for the entry it works on is out. -/
  replaySent : Bool := false
  offline : Bool := false
  order : PathSeq := {}
  workers : List Worker := []
  /-- The operation each entry was queued for, and the requests sent so far. -/
  asked : SeqId → Option MutationOp
  requests : List Request := []

/-- What may happen next. -/
inductive LiveEvent where
  /-- A user operation; a rename also knows whether its source is listed as on the server. -/
  | user (op : MutationOp) (sourceOnServer : Bool)
  | setOffline (b : Bool)
  | getTurn (seq : SeqId)
  | claim (seq : SeqId)
  | send (seq : SeqId) (etag : Option String)
  | expire (seq : SeqId)
  | answer (seq : SeqId) (a : LiveAnswer)
  | replay (step : ReplayStep)
  | replaySend
  deriving DecidableEq, Repr

namespace LiveMount

/-- The journal the replay and the workers share. -/
def journal (s : LiveMount) : MutationJournal := s.loop.journal

/-- The journal after a section. -/
def setJournal (s : LiveMount) (j : MutationJournal) : LiveMount :=
  { s with loop := { s.loop with journal := j } }

/-- The worker of an entry. -/
def worker (s : LiveMount) (seq : SeqId) : Option Worker :=
  s.workers.find? fun w => w.seq = seq

/-- The worker gets to the phase. -/
def setPhase (s : LiveMount) (seq : SeqId) (phase : WorkerPhase) : LiveMount :=
  { s with workers := s.workers.map fun w => if w.seq = seq then { w with phase := phase } else w }

/-- The worker returns; its ticket is dropped. -/
def endWorker (s : LiveMount) (w : Worker) : LiveMount :=
  { s with
    workers := s.workers.filter fun x => x.seq ≠ w.seq
    order := s.order.drop w.ticket }

/-- A request of `seq` goes out. -/
def sendRequest (s : LiveMount) (seq : SeqId) : LiveMount :=
  { s with requests := s.requests ++ [{ seq := seq }] }

/-- The request of `seq` that was out is answered. -/
def answerRequest (s : LiveMount) (seq : SeqId) (success : Bool) : LiveMount :=
  { s with requests := s.requests.map fun r =>
      if r.seq = seq ∧ r.success = none then { r with success := some success } else r }

/-- The journaled part of an operation: its entry is queued, and an upload replaces the
    queued ones of its file. -/
def record (s : LiveMount) (op : MutationOp) : LiveMount :=
  let queued := s.journal.enqueue op
  let j := if op.isUpload then queued.2.supersedeUploads op.path queued.1 else queued.2
  { s.setJournal j with asked := fun n => if n = queued.1 then some op else s.asked n }

/-- Its live part. -/
def submit (s : LiveMount) (seq : SeqId) (op : MutationOp) : LiveMount :=
  let t := s.order.ticket op.ticketPaths
  { s with order := t.2, workers := s.workers ++ [{ seq := seq, op := op, ticket := t.1 }] }

/-- An operation is queued, and while online handed to a worker. -/
def queueOp (s : LiveMount) (op : MutationOp) : LiveMount :=
  let recorded := s.record op
  if s.offline then recorded else recorded.submit s.journal.nextSeq op

/-- Whether a rename re-points the queued upload of its source instead of queueing a MOVE. -/
def repoints (s : LiveMount) (op : MutationOp) (sourceOnServer : Bool) : Bool :=
  match op with
  | .rename src dst _ base => !sourceOnServer && (s.journal.retargetUpload src dst base).1
  | _ => false

/-- A user's operation: queued, or its upload re-pointed. -/
def user (s : LiveMount) (op : MutationOp) (sourceOnServer : Bool) : LiveMount :=
  match op with
  | .rename src dst _ base =>
    if s.repoints op sourceOnServer then s.setJournal (s.journal.retargetUpload src dst base).2
    else s.queueOp op
  | _ => s.queueOp op

/-- A worker's ticket comes up. -/
def getTurn (s : LiveMount) (w : Worker) : LiveMount :=
  if w.phase = .queued && s.order.ready w.ticket then s.setPhase w.seq .admitted else s

/-- A worker claims its entry; an upload whose entry is gone or taken ends there. -/
def claim (s : LiveMount) (w : Worker) : LiveMount :=
  if w.phase ≠ .admitted then s
  else if w.op.isUpload then
    let claimed := s.journal.claim w.seq
    if claimed.1 then (s.setJournal claimed.2).setPhase w.seq .claimed else s.endWorker w
  else s.setPhase w.seq .claimed

/-- The request is sent. A whole-file upload settles its destination first. -/
def send (s : LiveMount) (w : Worker) (etag : Option String) : LiveMount :=
  if w.phase ≠ .claimed then s
  else
    match w.op with
    | .put path _ _ =>
      let settled := s.journal.settleUpload w.seq path etag
      let s := s.setJournal settled.2
      match settled.1 with
      | .go dest m => (s.setPhase w.seq (.sent dest m)).sendRequest w.seq
      | .wait => s
      | .deferred | .withdrawn => s.endWorker w
    | op => (s.setPhase w.seq (.sent op.path etag)).sendRequest w.seq

/-- An upload that waited too long for the changes before it is left to a replay. -/
def expire (s : LiveMount) (w : Worker) : LiveMount :=
  match w.phase, w.op with
  | .claimed, .put path _ etag =>
    match (s.journal.settleUpload w.seq path etag).1 with
    | .wait =>
      (s.setJournal (s.journal.markDeferred w.seq
        "an earlier change to the same file did not finish")).endWorker w
    | _ => s
  | _, _ => s

/-- A worker takes in its answer. -/
def answer (s : LiveMount) (w : Worker) (a : LiveAnswer) : LiveMount :=
  match w.phase with
  | .sent dest m =>
    let j := (a.liveOps w.seq w.op dest m).foldl LiveOp.apply s.journal
    let success := match a with
      | .landed _ => true
      | _ => false
    ((s.setJournal j).answerRequest w.seq success).endWorker w
  | _ => s

/-- The replay's request goes out. -/
def replaySend (s : LiveMount) : LiveMount :=
  match s.loop.phase with
  | .executing e =>
    if s.replaySent || decide (MAX_ATTEMPTS ≤ e.attempts) then s
    else { s.sendRequest e.seq with replaySent := true }
  | _ => s

/-- A section of the replay; its answer needs its request. -/
def replay (s : LiveMount) (step : ReplayStep) : LiveMount :=
  match s.loop.phase, step with
  | .executing e, .execute result =>
    if s.replaySent then
      let success := match result with
        | .ok | .uploaded _ => true
        | _ => false
      { s.answerRequest e.seq success with
        loop := s.loop.replayStep step, replaySent := false }
    else s
  | _, _ => { s with loop := s.loop.replayStep step }

/-- A step of an entry's worker, if it has one. -/
def onWorker (s : LiveMount) (seq : SeqId) (f : Worker → LiveMount) : LiveMount :=
  match s.worker seq with
  | some w => f w
  | none => s

/-- One step; an event that does not fit changes nothing. -/
def step (s : LiveMount) : LiveEvent → LiveMount
  | .user op sourceOnServer => s.user op sourceOnServer
  | .setOffline b => { s with offline := b }
  | .getTurn seq => s.onWorker seq s.getTurn
  | .claim seq => s.onWorker seq s.claim
  | .send seq etag => s.onWorker seq fun w => s.send w etag
  | .expire seq => s.onWorker seq s.expire
  | .answer seq a => s.onWorker seq fun w => s.answer w a
  | .replay st => s.replay st
  | .replaySend => s.replaySend

/-- A run of steps. -/
def steps (s : LiveMount) (events : List LiveEvent) : LiveMount := events.foldl step s

/-- A daemon that has loaded journal `j`. -/
def start (j : MutationJournal) (cacheDir : PathBuf) : LiveMount :=
  { loop := { journal := j, cacheDir := cacheDir }
    asked := fun n => (j.entries.find? fun e => e.seq = n).map (·.op) }

end LiveMount

end Ncrs
