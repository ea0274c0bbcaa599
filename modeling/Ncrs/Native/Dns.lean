import Mathlib.Logic.Function.Basic

/-!
# Name lookups

Model of the `PooledResolver` of `http_clients.rs`: one lookup in flight per host, run on the `dns`
pool, with a positive cache. Each section under the hosts lock is one step. Between them a lookup is
on its way to the pool, refused by it and not reported yet, queued, or in `getaddrinfo`; callers
come, wait and give up at any time, and time passes.

A reading of the clock in the same section can be later than the one before it (`gap`). `resolved`
and `answers` record every list of addresses that was looked up and everything callers were told.
-/

namespace Ncrs

namespace Dns

/-- Instants and durations, in nanoseconds. -/
abbrev Instant := Nat

/-- How long a successful lookup is reused without asking again. -/
def DNS_FRESH : Nat := 45 * 1000000000

/-- How old an answer may be and still be served. -/
def DNS_STALE_MAX : Nat := 3600 * 1000000000

/-- Why a lookup produced no addresses. -/
inductive LookupErr where
  | refused
  | failed (text : String)
  deriving DecidableEq, Repr

variable {A : Type}

/-- What a lookup ends with. -/
abbrev LookupResult (A : Type) := Except LookupErr (List A)

/-- What is kept of a host. -/
structure HostEntry (A : Type) where
  /-- The last good answer and when it was resolved. -/
  lastGood : Option (Instant × List A) := none
  freshUntil : Option Instant := none
  inFlight : Bool := false
  /-- Callers with no usable answer, waiting on the lookup in flight. -/
  waiting : List Nat := []

namespace HostEntry

/-- The last good answer, while it is young enough. -/
def staleAnswer (e : HostEntry A) (now : Instant) : Option (List A) :=
  match e.lastGood with
  | some (at_, addrs) => if now - at_ < DNS_STALE_MAX then some addrs else none
  | none => none

/-- What `complete` tells everyone waiting: a good answer, or the last good one, or why not. -/
def answer (e : HostEntry A) (result : LookupResult A) (now : Instant) : LookupResult A :=
  match result with
  | .ok (a :: as) => .ok (a :: as)
  | .ok [] =>
    match e.staleAnswer now with
    | some addrs => .ok addrs
    | none => .error (.failed "no addresses")
  | .error err =>
    match e.staleAnswer now with
    | some addrs => .ok addrs
    | none => .error err

/-- `complete`: the lookup in flight has ended with `result`. -/
def complete (e : HostEntry A) (result : LookupResult A) (now gap : Nat) : HostEntry A :=
  match result with
  | .ok (a :: as) =>
    { lastGood := some (now, a :: as)
      freshUntil := some (now + gap + DNS_FRESH)
      inFlight := false
      waiting := [] }
  | _ => { e with inFlight := false, waiting := [] }

/-- Whether the answer may be reused without asking again. -/
def fresh (e : HostEntry A) (now : Instant) : Bool := e.freshUntil.any fun t => now < t

end HostEntry

/-- Where a lookup is. -/
inductive Phase where
  /-- The caller that set `in_flight` is handing it to the pool. -/
  | submitting
  /-- The pool refused it; the caller has not completed it yet. -/
  | refused
  | queued
  /-- In `getaddrinfo`. -/
  | running
  deriving DecidableEq, Repr

/-- What a caller was told, and when. -/
structure Answer (A : Type) where
  caller : Nat
  host : String
  result : LookupResult A
  at_ : Instant

/-- The resolver, its lookups and callers. -/
structure Resolver (A : Type) where
  now : Instant := 0
  hosts : String → HostEntry A := fun _ => {}
  lookups : String → List Phase := fun _ => []
  /-- The hosts asked for so far; a caller is its place in this list. -/
  calls : List String := []
  /-- Callers that dropped their request. -/
  abandoned : List Nat := []
  resolved : List (String × Instant × List A) := []
  answers : List (Answer A) := []

/-- What may happen next. -/
inductive DnsEvent (A : Type) where
  | tick (d : Nat)
  /-- `resolve`, up to the end of its section. -/
  | resolve (host : String) (gap : Nat)
  /-- `DNS.submit` of the lookup at this place. -/
  | submit (host : String) (place : Nat) (accepted : Bool)
  /-- The caller reports a refused lookup. -/
  | reportRefused (host : String) (place : Nat)
  /-- The pool starts a lookup, which may find that nobody needs it. -/
  | start (host : String) (place : Nat)
  | finish (host : String) (place : Nat) (result : Except String (List A)) (gap : Nat)
  /-- The job unwinds: its guard completes the lookup. -/
  | panic (host : String) (place : Nat)
  | abandon (caller : Nat)
  | expireFreshDns

namespace Resolver

/-- A host's entry after a section. -/
def setHost (s : Resolver A) (host : String) (e : HostEntry A) : Resolver A :=
  { s with hosts := Function.update s.hosts host e }

/-- A host's lookups after a section. -/
def setLookups (s : Resolver A) (host : String) (l : List Phase) : Resolver A :=
  { s with lookups := Function.update s.lookups host l }

/-- The lookup at `place` ends with `result`. -/
def complete (s : Resolver A) (host : String) (place : Nat) (result : LookupResult A) (gap : Nat) :
    Resolver A :=
  let e := s.hosts host
  let answer := e.answer result s.now
  { (s.setHost host (e.complete result s.now gap)).setLookups host ((s.lookups host).eraseIdx place) with
    now := s.now + gap
    resolved :=
      match result with
      | .ok (a :: as) => s.resolved ++ [(host, s.now, a :: as)]
      | _ => s.resolved
    answers := s.answers ++ e.waiting.map fun c => ⟨c, host, answer, s.now⟩ }

/-- A caller that has no usable answer waits on the lookup in flight. -/
def wait (s : Resolver A) (host : String) (caller : Nat) : Resolver A :=
  let e := s.hosts host
  s.setHost host { e with waiting := e.waiting ++ [caller] }

/-- A lookup of `host` is started unless one is in flight. -/
def startLookup (s : Resolver A) (host : String) : Resolver A :=
  let e := s.hosts host
  if e.inFlight then s
  else (s.setHost host { e with inFlight := true }).setLookups host (s.lookups host ++ [.submitting])

/-- `resolve`: the section under the lock. -/
def resolve (s : Resolver A) (host : String) (gap : Nat) : Resolver A :=
  let e := s.hosts host
  let fresh := e.fresh s.now
  let caller := s.calls.length
  let s := { s with now := s.now + gap, calls := s.calls ++ [host] }
  match e.staleAnswer s.now with
  | some addrs =>
    let s := { s with answers := s.answers ++ [⟨caller, host, .ok addrs, s.now⟩] }
    if fresh then s else s.startLookup host
  | none => (s.wait host caller).startLookup host

/-- Whether a lookup that starts is still needed. -/
def wanted (s : Resolver A) (host : String) : Bool :=
  (s.hosts host).lastGood.isSome || (s.hosts host).waiting.any fun c => c ∉ s.abandoned

/-- One step; none where the event does not fit. -/
def step (s : Resolver A) : DnsEvent A → Option (Resolver A)
  | .tick d => some { s with now := s.now + d }
  | .resolve host gap => some (s.resolve host gap)
  | .submit host place accepted =>
    match (s.lookups host)[place]? with
    | some .submitting =>
      some (s.setLookups host
        ((s.lookups host).set place (if accepted then .queued else .refused)))
    | _ => none
  | .reportRefused host place =>
    match (s.lookups host)[place]? with
    | some .refused => some (s.complete host place (.error .refused) 0)
    | _ => none
  | .start host place =>
    match (s.lookups host)[place]? with
    | some .queued =>
      if s.wanted host then some (s.setLookups host ((s.lookups host).set place .running))
      else some (s.complete host place (.error .refused) 0)
    | _ => none
  | .finish host place result gap =>
    match (s.lookups host)[place]? with
    | some .running => some (s.complete host place (result.mapError .failed) gap)
    | _ => none
  | .panic host place =>
    match (s.lookups host)[place]? with
    | some .running => some (s.complete host place (.error .refused) 0)
    | _ => none
  | .abandon caller => some { s with abandoned := caller :: s.abandoned }
  | .expireFreshDns =>
    some { s with hosts := fun h => { s.hosts h with freshUntil := none } }

/-- A run of steps. -/
def steps (s : Resolver A) : List (DnsEvent A) → Option (Resolver A)
  | [] => some s
  | e :: es => (s.step e).bind (·.steps es)

end Resolver

end Dns

end Ncrs
