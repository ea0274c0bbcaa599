import Mathlib.Data.List.Basic

/-!
# The push connection and the validations after it

Model of the push socket (`watcher_loop`, `watcher_connect_and_listen`), of the push-watch loop of
`mount_ncfs` that looks for new connections, and of the validations of the cached listings: the
one at boot and those after a reconnect, which run in the housekeeping pool.

A change message that comes while the socket is not listening, while the watcher's own flag is
set, or while the mount is paused or offline is dropped. The threads are cut at their accesses to
the shared flags. What a validation does to the listings is not modelled here, only when it starts
and ends.
-/

namespace Ncrs

/-- Where `watcher_connect_and_listen` is. -/
inductive SocketPhase where
  | down
  /-- Authenticated and counted, not yet published as connected. -/
  | counted
  | connected
  /-- The `listen` request is sent: from here on messages come. -/
  | listening
  deriving DecidableEq, Repr

/-- Where a turn of the push-watch loop is. -/
inductive WatchLoop where
  | top
  | seen (generation : Nat)
  | acted
  deriving DecidableEq, Repr

inductive Validation where
  | queued
  | running
  | ended
  deriving DecidableEq, Repr

/-- The watcher and the mount's flags. Nothing reads `time` (the steps so far), `lostAt` (the last
    time at which a change message could be lost) and `startedAt` (when the latest validation
    started). -/
structure PushMount where
  socket : SocketPhase := .down
  connected : Bool := false
  generation : Nat := 0
  watcherPaused : Bool := false
  paused : Bool := false
  isOffline : Bool := false
  loop : WatchLoop := .top
  lastGeneration : Nat := 0
  revalidating : Bool := false
  boot : Validation := .queued
  jobs : List Validation := []
  time : Nat := 0
  lostAt : Nat := 0
  startedAt : Option Nat := none
  deriving DecidableEq, Repr

inductive PushEvent where
  /-- The server authenticated the socket: the generation is counted up. -/
  | count
  | publish
  | listen (ok : Bool)
  | drop
  /-- The head of `watcher_loop`. -/
  | retry
  | setPaused (paused : Bool)
  | setOffline (offline : Bool)
  | look
  /-- The loop's branch for a new generation; `room`: the pool takes the job. -/
  | act (room : Bool)
  | sync
  | startBoot
  | endBoot
  | startJob (i : Nat)
  | endJob (i : Nat)
  deriving DecidableEq, Repr

namespace PushMount

/-- A change message that comes now is handled. -/
def handled (w : PushMount) : Bool :=
  decide (w.socket = .listening) && !w.watcherPaused && !w.paused && !w.isOffline

/-- The push-watch loop's check of a generation it read. -/
def actOn (w : PushMount) (generation : Nat) (room : Bool) : PushMount :=
  let w := { w with loop := .acted }
  if generation = w.lastGeneration then w
  else
    let w := { w with lastGeneration := generation }
    if 1 < generation && !w.revalidating && room then
      { w with revalidating := true, jobs := w.jobs ++ [.queued] }
    -- Refused by the pool, the job is dropped and its guard with it.
    else w

def start (w : PushMount) : PushMount := { w with startedAt := some (w.time + 1) }

def act (w : PushMount) : PushEvent → Option PushMount
  | .count =>
    if w.socket = .down then some { w with socket := .counted, generation := w.generation + 1 }
    else none
  | .publish =>
    if w.socket = .counted then some { w with socket := .connected, connected := true } else none
  | .listen ok =>
    -- A `listen` that cannot be sent leaves the flag up until the next turn of `watcher_loop`.
    if w.socket = .connected then some { w with socket := if ok then .listening else .down } else none
  | .drop =>
    if w.socket = .listening then some { w with socket := .down, connected := false } else none
  | .retry => if w.socket = .down then some { w with connected := false } else none
  | .setPaused paused => some { w with paused := paused }
  | .setOffline offline => some { w with isOffline := offline }
  | .look => if w.loop = .top then some { w with loop := .seen w.generation } else none
  | .act room =>
    match w.loop with
    | .seen generation => some (w.actOn generation room)
    | _ => none
  | .sync =>
    if w.loop = .acted then some { w with loop := .top, watcherPaused := w.isOffline || w.paused }
    else none
  | .startBoot => if w.boot = .queued then some { w.start with boot := .running } else none
  | .endBoot => if w.boot = .running then some { w with boot := .ended } else none
  | .startJob i =>
    if w.jobs[i]? = some .queued then some { w.start with jobs := w.jobs.set i .running } else none
  | .endJob i =>
    if w.jobs[i]? = some .running then
      some { w with jobs := w.jobs.eraseIdx i, revalidating := false }
    else none

/-- One step, and the time after it. -/
def step (w : PushMount) (e : PushEvent) : Option PushMount :=
  (w.act e).map fun g =>
    { g with time := w.time + 1, lostAt := if g.handled then g.lostAt else w.time + 1 }

def steps (w : PushMount) : List PushEvent → Option PushMount
  | [] => some w
  | e :: es => (w.step e).bind fun w => w.steps es

/-- A mount as it starts; an offline one has no validation at boot. -/
def mounted (offline : Bool) : PushMount :=
  { isOffline := offline, boot := if offline then .ended else .queued }

end PushMount

end Ncrs
