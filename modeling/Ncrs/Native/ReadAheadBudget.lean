import Ncrs.ForStd.List

/-!
# The read-ahead memory budget

Model of `READ_AHEAD_RESERVED` and the reservations counted in it. `up_to`, `exactly` and `grow_to` change the
counter by `fetch_update`: the closure is run on a value of the counter, and what it gives is exchanged for
that value if the counter still has it; if not, the closure is run again on the one it has. A step is one
access to the counter with what follows it up to the next, so that other reservations may come between the
closure and the exchange. `fetch_sub` is one access.

The arithmetic is that of `u64` in a release build, which wraps.
-/

namespace Ncrs

/-- `READ_AHEAD_BUDGET`. -/
def readAheadBudget : UInt64 := 512 * 1024 * 1024

/-- `u64::saturating_sub`. -/
def saturatingSub (a b : UInt64) : UInt64 := if a < b then 0 else a - b

structure BufferReservation where
  bytes : UInt64
  /-- The floor of the `up_to` it came from, else 0; nothing reads it. -/
  floor : UInt64 := 0
  deriving DecidableEq, Repr

/-- A reservation, or the call that is about to make or to grow one. -/
inductive Reserving where
  /-- `up_to`, with its floor capped: the closure was run on `used`. -/
  | upTo (want floor used grant next : UInt64)
  /-- `exactly`. -/
  | exactly (want used next : UInt64)
  | live (r : BufferReservation)
  /-- `grow_to`. -/
  | growing (r : BufferReservation) (want used next : UInt64)
  /-- Refused or dropped. -/
  | gone
  deriving DecidableEq, Repr

namespace Reserving

/-- The closure of `up_to`. -/
def runUpTo (want floor used : UInt64) : Reserving :=
  let grant := max (min (saturatingSub readAheadBudget used) want) floor
  .upTo want floor used grant (used + grant)

/-- The closure of `exactly` and of `grow_to`. -/
def takeAll (want used : UInt64) : Option UInt64 :=
  if used + want ≤ readAheadBudget then some (used + want) else none

def runExactly (want used : UInt64) : Reserving :=
  match takeAll want used with
  | some next => .exactly want used next
  | none => .gone

def runGrowTo (r : BufferReservation) (want used : UInt64) : Reserving :=
  match takeAll (want - r.bytes) used with
  | some next => .growing r want used next
  | none => .live r

end Reserving

/-- The counter, and the reservations by their place. -/
structure ReadAheadBudget where
  reserved : UInt64 := 0
  all : List Reserving := []
  deriving DecidableEq, Repr

namespace ReadAheadBudget

inductive Event where
  | upTo (want floor : UInt64)
  | exactly (want : UInt64)
  | growTo (k : Nat) (want : UInt64)
  /-- `compare_exchange_weak` may fail for no reason. -/
  | exchange (k : Nat) (spurious : Bool)
  | shrinkTo (k : Nat) (want : UInt64)
  | drop (k : Nat)
  deriving DecidableEq, Repr

def set (b : ReadAheadBudget) (k : Nat) (x : Reserving) : ReadAheadBudget := { b with all := b.all.set k x }

/-- The exchange of `next` for `used`, which makes `k` what is `done`; else the closure is run again. -/
def exchange (b : ReadAheadBudget) (k : Nat) (spurious : Bool) (used next : UInt64) (done : Reserving)
    (again : UInt64 → Reserving) : ReadAheadBudget :=
  if b.reserved = used ∧ spurious = false then { b.set k done with reserved := next }
  else b.set k (again b.reserved)

def growTo (b : ReadAheadBudget) (k : Nat) (r : BufferReservation) (want : UInt64) : ReadAheadBudget :=
  if want ≤ r.bytes then b else b.set k (.runGrowTo r want b.reserved)

def shrinkTo (b : ReadAheadBudget) (k : Nat) (r : BufferReservation) (want : UInt64) : ReadAheadBudget :=
  if want < r.bytes then { b.set k (.live { r with bytes := want }) with reserved := b.reserved - (r.bytes - want) }
  else b

def drop (b : ReadAheadBudget) (k : Nat) (r : BufferReservation) : ReadAheadBudget :=
  { b.set k .gone with reserved := b.reserved - r.bytes }

def step (b : ReadAheadBudget) : Event → Option ReadAheadBudget
  | .upTo want floor => some { b with all := b.all ++ [.runUpTo want (min floor want) b.reserved] }
  | .exactly want => some { b with all := b.all ++ [.runExactly want b.reserved] }
  | .growTo k want => match b.all[k]? with
    | some (.live r) => some (b.growTo k r want)
    | _ => none
  | .exchange k spurious => match b.all[k]? with
    | some (.upTo want floor used grant next) =>
      some (b.exchange k spurious used next (.live { bytes := grant, floor }) (.runUpTo want floor))
    | some (.exactly want used next) =>
      some (b.exchange k spurious used next (.live { bytes := want }) (.runExactly want))
    | some (.growing r want used next) =>
      some (b.exchange k spurious used next (.live { r with bytes := want }) (.runGrowTo r want))
    | _ => none
  | .shrinkTo k want => match b.all[k]? with
    | some (.live r) => some (b.shrinkTo k r want)
    | _ => none
  | .drop k => match b.all[k]? with
    | some (.live r) => some (b.drop k r)
    | _ => none

end ReadAheadBudget

end Ncrs
