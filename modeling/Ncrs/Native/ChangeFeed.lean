import Ncrs.Native.StatusFeed

/-!
# A change-feed client across daemon restarts

Model of the `EVENTS` and `WATCH` verbs of `ipc.rs` over the log of `change_log.rs`, for one client
that keeps the cursor it was last given and presents it again. A restarted daemon starts with an
empty log that counts from 0. A cursor on the wire is a bare number; the model keeps the generation
that gave it beside it.

Both verbs pump the producers' buffers into the log first; a pump, of this or another connection, is
a step of its own. What the other clients do enters as whether the log has a reader besides this one.
-/

namespace Ncrs

/-- The client's connection. -/
inductive FeedConn where
  /-- It has asked for `EVENTS`. -/
  | polling
  /-- The `WATCH` loop, which reads from `since` next. -/
  | watching (since : Nat)
  deriving DecidableEq, Repr

/-- What became of the cursor of an earlier daemon since it was presented. -/
structure Follow where
  /-- The records this daemon's log had been given by then. -/
  headAt : Nat
  /-- Whether the first answer was `RESYNC`, and whether any was. -/
  first : Bool
  told : Bool
  /-- Where the next read starts, and the records the client was given. -/
  pos : Nat
  delivered : List FeedRecord
  deriving DecidableEq, Repr

/-- A read for the client; a `RESYNC` line carries no records. -/
def Follow.read (f : Follow) (res : ReadResult) : Follow :=
  { f with
    told := f.told || res.resync
    pos := res.next
    delivered := f.delivered ++ if res.resync then [] else res.records }

structure ChangeFeed where
  generation : Nat := 0
  log : ChangeLog
  /-- Every record this generation's log was given. -/
  history : List FeedRecord := []
  /-- The cursor the client was last given, and the generation it comes from. -/
  held : Option (Nat × Nat) := none
  conn : Option FeedConn := none
  follow : Option Follow := none

inductive ChangeFeedEvent where
  /-- A pump; `others`: the log has readers or legacy cursors besides this client's. -/
  | append (records : List FeedRecord) (others : Bool)
  /-- The daemon is replaced, by one whose log keeps `cap` records. -/
  | restart (cap : Nat)
  /-- `EVENTS` and `WATCH` without a cursor. -/
  | eventsHead
  | watchHead
  /-- `EVENTS` and `WATCH` with the cursor the client holds, up to the first read. -/
  | events
  | watch
  /-- Another read of the `WATCH` loop. -/
  | push
  | disconnect
  deriving DecidableEq, Repr

namespace ChangeFeed

def start (cap : Nat) : ChangeFeed := { log := { cap := cap } }

/-- The log is read from the cursor the client holds. -/
def present (s : ChangeFeed) (res : ReadResult) (g : Nat) : Option Follow :=
  if g < s.generation then
    some (Follow.read ⟨s.log.head, res.resync, false, 0, []⟩ res)
  else s.follow.map (·.read res)

def step (s : ChangeFeed) : ChangeFeedEvent → Option ChangeFeed
  | .append records others =>
    some { s with
      log := s.log.append records (s.conn.isSome || others)
      history := s.history ++ records }
  | .restart cap =>
    some { generation := s.generation + 1, log := { cap := cap }, held := s.held }
  | .eventsHead =>
    match s.conn with
    | some (.watching _) => none
    | _ => some { s with
        conn := some .polling
        held := some (s.generation, s.log.head)
        follow := none }
  | .watchHead =>
    match s.conn with
    | some (.watching _) => none
    | _ => some { s with
        conn := some (.watching s.log.head)
        held := some (s.generation, s.log.head)
        follow := none }
  | .events =>
    match s.conn, s.held with
    | some (.watching _), _ => none
    | _, none => none
    | _, some (g, c) =>
      let res := s.log.readSince c eventsPage
      some { s with
        conn := some .polling
        held := some (s.generation, res.next)
        follow := s.present res g }
  | .watch =>
    match s.conn, s.held with
    | some (.watching _), _ => none
    | _, none => none
    | _, some (g, c) =>
      let res := s.log.readSince c eventsPage
      some { s with
        conn := some (.watching res.next)
        -- the `WATCHING` line repeats the cursor; only an `EV` line gives a new one
        held := if res.resync || !res.records.isEmpty then some (s.generation, res.next) else s.held
        follow := s.present res g }
  | .push =>
    match s.conn with
    | some (.watching since) =>
      let res := s.log.readSince since eventsPage
      some { s with
        conn := some (.watching res.next)
        held := if res.resync || !res.records.isEmpty then some (s.generation, res.next) else s.held
        follow := s.follow.map (·.read res) }
    | _ => none
  | .disconnect => some { s with conn := none }

def steps (s : ChangeFeed) : List ChangeFeedEvent → Option ChangeFeed
  | [] => some s
  | e :: es => (s.step e).bind (·.steps es)

end ChangeFeed

end Ncrs
