import Ncrs.ForStd.AList

/-!
# The I/O mode of an inode's open handles

Model of `iomode.rs`. The kernel refuses an open that mixes passthrough with cached handles on one
inode, or that gives one inode two backing files; an open answered `DirectIo` is always allowed. The
daemon keeps a mirror of the handles of each inode and answers an open in a mode that fits.

`Opens` puts the mirror beside the handles the kernel holds: those a previous daemon opened on the
connection, and those granted here. `Arc::new` gives a backing its identity (`ptr`).
-/

namespace Ncrs

namespace IoMode

/-- On-disk identity of a backing file. -/
structure FileId where
  dev : Nat
  ino : Nat
  len : Nat
  mtimeNs : Int
  deriving DecidableEq, Repr

/-- How one open handle was answered. -/
inductive IoKind where
  | passthrough
  | cached
  | directIo
  deriving DecidableEq, Repr

/-- `Arc<B>`: two are the same (`ptr_eq`) when they come from one `Arc::new`. -/
structure Arc (B : Type) where
  ptr : Nat
  val : B
  deriving DecidableEq, Repr

/-- What an open is granted. -/
inductive IoGrant (B : Type) where
  | passthrough (backing : Arc B)
  | cached
  | directIo
  deriving DecidableEq, Repr

/-- How an inode is open. -/
inductive Mode (B : Type) where
  | passthrough (backing : Arc B) (file : FileId) (opens : Nat)
  | cached (opens : Nat)
  /-- Passthrough handles a previous daemon opened: no new open can share their backing. -/
  | foreign (opens : Nat)
  deriving DecidableEq, Repr

variable {B : Type}

/-- The kind of a grant. -/
def IoGrant.kind : IoGrant B → IoKind
  | .passthrough _ => .passthrough
  | .cached => .cached
  | .directIo => .directIo

namespace Mode

/-- The kind of the handles a mode counts. -/
def kind : Mode B → IoKind
  | .passthrough _ _ _ | .foreign _ => .passthrough
  | .cached _ => .cached

/-- The handles an inode has open. -/
def opens : Mode B → Nat
  | .passthrough _ _ n | .cached n | .foreign n => n

/-- The inode with another number of handles. -/
def setOpens (m : Mode B) (n : Nat) : Mode B :=
  match m with
  | .passthrough b f _ => .passthrough b f n
  | .cached _ => .cached n
  | .foreign _ => .foreign n

end Mode

/-- The modes of the open inodes. -/
structure InodeIoModes (B : Type) where
  modes : AList fun _ : Nat => Mode B := ∅

/-- An eligible open: the file it would be backed by, and what `register` answers if it is run. -/
abbrev Eligible (B : Type) := FileId × Except Int32 B

namespace InodeIoModes

/-- `acquire`: the grant, the error of a failed registration and the new mirror. A backing that is
    registered is allocated at `ptr`. -/
def acquire (m : InodeIoModes B) (ino : Nat) (passthrough : Option (Eligible B)) (ptr : Nat) :
    IoGrant B × Option Int32 × InodeIoModes B :=
  match m.modes.lookup ino with
  | some (.passthrough backing file opens) =>
    match passthrough with
    | some (f, _) =>
      if f = file then
        (.passthrough backing, none,
          { m with modes := m.modes.insert ino (.passthrough backing file (opens + 1)) })
      else (.directIo, none, m)
    | none => (.directIo, none, m)
  | some (.cached opens) =>
    (.cached, none, { m with modes := m.modes.insert ino (.cached (opens + 1)) })
  | some (.foreign _) => (.directIo, none, m)
  | none =>
    match passthrough with
    | some (file, .ok b) =>
      (.passthrough ⟨ptr, b⟩, none,
        { m with modes := m.modes.insert ino (.passthrough ⟨ptr, b⟩ file 1) })
    | some (_, .error e) => (.cached, some e, { m with modes := m.modes.insert ino (.cached 1) })
    | none => (.cached, none, { m with modes := m.modes.insert ino (.cached 1) })

/-- `release`: the mode goes with the last handle it counts. -/
def release (m : InodeIoModes B) (ino : Nat) (kind : IoKind) : InodeIoModes B :=
  match m.modes.lookup ino with
  | some mode =>
    if mode.kind = kind then
      if mode.opens - 1 = 0 then { m with modes := m.modes.erase ino }
      else { m with modes := m.modes.insert ino (mode.setOpens (mode.opens - 1)) }
    else m
  | none => m

/-- `adopt`: counts a handle a previous daemon opened and the kernel still holds in `kind`. -/
def adopt (m : InodeIoModes B) (ino : Nat) (kind : IoKind) : InodeIoModes B :=
  match kind with
  | .directIo => m
  | .cached =>
    match m.modes.lookup ino with
    | none => { m with modes := m.modes.insert ino (.cached 1) }
    | some (.cached opens) => { m with modes := m.modes.insert ino (.cached (opens + 1)) }
    | some (.passthrough _ _ _) | some (.foreign _) => m
  | .passthrough =>
    match m.modes.lookup ino with
    | none => { m with modes := m.modes.insert ino (.foreign 1) }
    | some (.foreign opens) => { m with modes := m.modes.insert ino (.foreign (opens + 1)) }
    | some (.passthrough _ _ _) | some (.cached _) => m

end InodeIoModes

/-! ## The handles the kernel holds -/

/-- A handle the kernel holds. -/
structure Handle (B : Type) where
  ino : Nat
  kind : IoKind
  /-- A previous daemon opened it. -/
  adopted : Bool
  /-- The backing of a passthrough handle granted here, and the file it was asked for. -/
  backing : Option (Arc B × FileId)
  deriving DecidableEq, Repr

/-- The mirror with the handles it stands for. -/
structure Opens (B : Type) where
  mirror : InodeIoModes B := {}
  /-- How many backings were allocated. -/
  allocated : Nat := 0
  /-- The handles that were not released. -/
  handles : List (Handle B) := []

/-- An open, or a release. -/
inductive OpenEvent (B : Type) where
  | acquire (ino : Nat) (passthrough : Option (Eligible B))
  /-- The handle at this place is released, with the kind it was granted. -/
  | release (place : Nat)

/-- The handle an open is answered with. -/
def handleOf (ino : Nat) (passthrough : Option (Eligible B)) (g : IoGrant B) : Handle B :=
  { ino := ino
    kind := g.kind
    adopted := false
    backing :=
      match g, passthrough with
      | .passthrough b, some (f, _) => some (b, f)
      | _, _ => none }

namespace Opens

/-- A handle of the daemon before is taken over. -/
def adopt (w : Opens B) (h : Nat × IoKind) : Opens B :=
  { w with
    mirror := w.mirror.adopt h.1 h.2
    handles := w.handles ++ [{ ino := h.1, kind := h.2, adopted := true, backing := none }] }

/-- A daemon that takes over a connection whose handles are `held`. -/
def inherit (held : List (Nat × IoKind)) : Opens B := held.foldl adopt {}

/-- One step; a handle that is not there cannot be released. -/
def step (w : Opens B) : OpenEvent B → Option (Opens B)
  | .acquire ino passthrough =>
    let (g, _, mirror) := w.mirror.acquire ino passthrough w.allocated
    some {
      mirror := mirror
      allocated := w.allocated + 1
      handles := w.handles ++ [handleOf ino passthrough g] }
  | .release place =>
    match w.handles[place]? with
    | some h => some { w with
        mirror := w.mirror.release h.ino h.kind
        handles := w.handles.eraseIdx place }
    | none => none

/-- A run of steps. -/
def steps (w : Opens B) : List (OpenEvent B) → Option (Opens B)
  | [] => some w
  | e :: es => (w.step e).bind (·.steps es)

end Opens

end IoMode

end Ncrs
