import Ncrs.Native.Replay

/-!
# The replay loop among live workers

`replay_journal` takes the journal's lock several times per entry: to claim a copy of the
front entry, to rebase what was queued behind a change that landed, to move local bytes out
of the way, and to remove or mark the entry. It executes the entry with the journal unlocked.
Between any two of these sections the filesystem's threads may work on the journal. This file
is that system: the journal, where the loop stands, and the events of both sides. What the
server answers is part of the event `execute`, so every order of answers is a run.
-/

namespace Ncrs

/-- What the filesystem's own threads do to the journal, one locked section each. -/
inductive LiveOp where
  | enqueue (op : MutationOp)
  | retargetUpload (src dst : PathBuf) (base : Option String)
  | supersedeUploads (path : PathBuf) (newest : SeqId)
  | settleUpload (seq : SeqId) (startedAs : PathBuf) (ifMatch : Option String)
  | claim (seq : SeqId)
  | markFailed (seq : SeqId) (error : String)
  | markDeferred (seq : SeqId) (error : String)
  | remove (seq : SeqId)
  | handStagingToRename (uploadedAs staging : PathBuf)
  | rebase (path : PathBuf) (sent new : Option String)
  deriving DecidableEq, Repr

def LiveOp.apply (j : MutationJournal) : LiveOp → MutationJournal
  | enqueue op => (j.enqueue op).2
  | retargetUpload src dst base => (j.retargetUpload src dst base).2
  | supersedeUploads path newest => j.supersedeUploads path newest
  | settleUpload seq startedAs ifMatch => (j.settleUpload seq startedAs ifMatch).2
  | claim seq => (j.claim seq).2
  | markFailed seq error => j.markFailed seq error
  | markDeferred seq error => j.markDeferred seq error
  | remove seq => j.remove seq
  | handStagingToRename uploadedAs staging => (j.handStagingToRename uploadedAs staging).2
  | rebase path sent new => j.rebase path sent new

/-- Where the replay loop stands between two locked sections, with its copy of the entry. -/
inductive ReplayPhase where
  | idle
  | executing (e : JournalEntry)
  | executed (e : JournalEntry) (result : ReplayResult)
  | landed (e : JournalEntry) (result : ReplayResult)
  | settled (e : JournalEntry) (result : ReplayResult)
  | recovered (e : JournalEntry) (kept : Option PathBuf)
  deriving DecidableEq, Repr

/-- The seq of the entry the loop works on. -/
def ReplayPhase.seq : ReplayPhase → Option SeqId
  | idle => none
  | executing e | executed e _ | landed e _ | settled e _ | recovered e _ => some e.seq

/-- The sections of the loop body. -/
inductive ReplayStep where
  | claim
  | execute (result : ReplayResult)
  | land
  | settleBytes
  | finish
  | recover
  | giveUp
  deriving DecidableEq, Repr

inductive LoopEvent where
  | live (op : LiveOp)
  | replay (step : ReplayStep)
  deriving DecidableEq, Repr

structure ReplayLoop where
  journal : MutationJournal
  phase : ReplayPhase := .idle
  cacheDir : PathBuf

namespace ReplayLoop

/-- One section of the loop; a section that does not come next does nothing. -/
def replayStep (l : ReplayLoop) (step : ReplayStep) : ReplayLoop :=
  match l.phase, step with
  | .idle, .claim =>
    let claimed := claimFront l.journal
    match claimed.1 with
    | .paused | .complete => l
    | .entry e => { l with journal := claimed.2, phase := .executing e }
  | .executing e, .execute result =>
    if MAX_ATTEMPTS ≤ e.attempts then l else { l with phase := .executed e result }
  | .executed e result, .land =>
    { l with journal := noteLanded l.journal e.op result, phase := .landed e result }
  | .landed e result, .settleBytes =>
    { l with journal := settleBytes l.journal l.cacheDir e result, phase := .settled e result }
  | .settled e result, .finish =>
    -- Whether the run goes on or a later one starts, the next section is a claim.
    { l with journal := (settleEntry l.journal {} e result).2.1, phase := .idle }
  | .executing e, .recover =>
    if MAX_ATTEMPTS ≤ e.attempts then
      let r := recoverEntry l.journal l.cacheDir e
      { l with journal := r.2, phase := .recovered e r.1 }
    else l
  | .recovered e kept, .giveUp =>
    { l with journal := (dropEntry l.journal {} e kept).1, phase := .idle }
  | _, _ => l

def step (l : ReplayLoop) : LoopEvent → ReplayLoop
  | .live op => { l with journal := op.apply l.journal }
  | .replay s => l.replayStep s

def steps (l : ReplayLoop) (events : List LoopEvent) : ReplayLoop := events.foldl step l

/-- The seqs of the entries a section of the loop takes out of the queue. -/
def removedBy (l : ReplayLoop) (s : ReplayStep) : List SeqId :=
  (l.journal.entries.map (·.seq)).filter fun n =>
    decide (n ∉ (l.replayStep s).journal.entries.map (·.seq))

end ReplayLoop

end Ncrs
