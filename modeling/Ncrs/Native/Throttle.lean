import Mathlib.Data.List.MinMax

/-!
# The request throttle

A `Throttle` hands out numbered slots. A permit is a guard that borrows the throttle or an `OwnedSlot` that
travels into a job; either gives its slot back when it is dropped. A stalled slot is quarantined, and then
used only where no other is free.

Every method holds the mutex from its last test to its end, so it is one step. A caller that waits has not
been granted anything; the test that ends its wait is in the step. `none` is a panic.
-/

namespace Ncrs

structure Slots where
  inUse : Nat
  busy : List Bool
  /-- Until when a slot is quarantined. -/
  badUntil : List (Option Nat)
  next : Nat
  deriving DecidableEq, Repr

namespace Slots

variable (s : Slots)

def isFree (i : Nat) : Bool := s.busy[i]? = some false

def quarantinedAt (now i : Nat) : Bool :=
  match s.badUntil[i]?.join with
  | some t => now < t
  | none => false

/-- The order of `Option<Instant>`, no instant first. -/
def badKey (i : Nat) : Nat :=
  match s.badUntil[i]?.join with
  | some t => t + 1
  | none => 0

/-- The free slot that `take` picks, if there is one. -/
def pick (now : Nat) : Option Nat :=
  let n := s.busy.length
  let healthy := ((List.range n).map fun i => (s.next + i) % n).find? fun i => s.isFree i && !s.quarantinedAt now i
  healthy.or (((List.range n).filter s.isFree).argmin s.badKey)

/-- `Slots::take`, with the time it reads. -/
def take (now : Nat) : Option (Nat × Slots) :=
  (s.pick now).map fun slot =>
    (slot, { s with
      busy := s.busy.set slot true, inUse := s.inUse + 1, next := (slot + 1) % s.busy.length })

end Slots

inductive PermitKind where
  /-- `ThrottleGuard`. -/
  | guard
  /-- `OwnedSlot`. -/
  | owned
  deriving DecidableEq, Repr

structure Permit where
  kind : PermitKind
  slot : Nat
  deriving DecidableEq, Repr

/-- A throttle with the live permits of the program. -/
structure Throttle where
  max : Nat
  slots : Slots
  permits : List Permit
  deriving DecidableEq, Repr

namespace Throttle

def new (max : Nat) : Throttle where
  max := max
  slots := { inUse := 0, busy := List.replicate max false, badUntil := List.replicate max none, next := 0 }
  permits := []

/-- A permit for the slot that is taken. -/
def grant (t : Throttle) (now : Nat) : Option (Option Nat × Throttle) :=
  (t.slots.take now).map fun x =>
    (some x.1, { t with slots := x.2, permits := t.permits ++ [{ kind := .guard, slot := x.1 }] })

/-- `acquire_leaving`; `acquire_timeout` spares none. -/
def acquireLeaving (t : Throttle) (spare now : Nat) : Option (Option Nat × Throttle) :=
  if t.max - spare ≤ t.slots.inUse then some (none, t) else t.grant now

/-- `acquire`, which goes on waiting where no slot is free. -/
def acquire (t : Throttle) (now : Nat) : Option (Option Nat × Throttle) :=
  if t.max ≤ t.slots.inUse then some (none, t) else t.grant now

def quarantine (t : Throttle) (slot untilTime : Nat) : Throttle :=
  { t with slots := { t.slots with badUntil := t.slots.badUntil.set slot (some untilTime) } }

/-- A permit of one kind turned into the other, with the same slot. -/
def convert (t : Throttle) (k : Nat) (kind : PermitKind) : Throttle :=
  match t.permits[k]? with
  | some p => { t with permits := t.permits.set k { p with kind := kind } }
  | none => t

/-- `into_owned`. -/
def intoOwned (t : Throttle) (k : Nat) : Throttle := t.convert k .owned

/-- `bind`. -/
def bind (t : Throttle) (k : Nat) : Throttle := t.convert k .guard

/-- `release`, which panics on a slot there is not and below zero. -/
def release (t : Throttle) (slot : Nat) : Option Throttle :=
  if slot < t.slots.busy.length ∧ 0 < t.slots.inUse then
    some { t with slots := { t.slots with busy := t.slots.busy.set slot false, inUse := t.slots.inUse - 1 } }
  else none

/-- The drop of a permit, whichever kind it is. -/
def drop (t : Throttle) (k : Nat) : Option Throttle :=
  match t.permits[k]? with
  | some p => { t with permits := t.permits.eraseIdx k }.release p.slot
  | none => some t

/-- What the program does next, with the permits by their place. -/
inductive Event where
  | acquire (now : Nat)
  | acquireLeaving (spare now : Nat)
  | quarantine (slot untilTime : Nat)
  | intoOwned (k : Nat)
  | bind (k : Nat)
  | drop (k : Nat)
  deriving DecidableEq, Repr

def step (t : Throttle) : Event → Option Throttle
  | .acquire now => (t.acquire now).map (·.2)
  | .acquireLeaving spare now => (t.acquireLeaving spare now).map (·.2)
  | .quarantine slot untilTime => some (t.quarantine slot untilTime)
  | .intoOwned k => some (t.intoOwned k)
  | .bind k => some (t.bind k)
  | .drop k => t.drop k

def run (t : Throttle) : List Event → Option Throttle
  | [] => some t
  | e :: es => (t.step e).bind fun t => t.run es

end Throttle

end Ncrs
