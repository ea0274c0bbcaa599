import Mathlib.Data.List.AList
import Mathlib.Data.Finset.Basic

/-!
# Desktop profiles

Model of the `Manager` of `desktop/mod.rs`, of its store file (`desktop/store.rs`) and of the one
component with side effects outside the process (`desktop/indexer/baloo.rs`). What the functions ask
of the system — installed programs, `balooctl`, the exclusions in `baloofilerc`, whether a file could
be written — is the `DesktopEnv` of the call. `Desktop` is a machine on which daemons run one after
the other over one store file; it keeps what every reconcile called and which components are applied
by what `activate` and `deactivate` reported.
-/

namespace Ncrs

/-- The components that integrate the mount with the desktop. -/
inductive ComponentId where
  | gio
  | kio
  | tracker
  | baloo
  deriving DecidableEq, Repr

/-- `ALL_COMPONENTS`, in the order in which a `BTreeSet` of them is read. -/
def allComponents : List ComponentId := [.gio, .kio, .tracker, .baloo]

namespace Desktop

/-! ## The store -/

/-- The user's choice for a profile. -/
inductive Mode where
  | auto
  | on
  | off
  deriving DecidableEq, Repr

/-- What is kept in the store file. -/
structure Store where
  /-- Explicit choices; absent means `auto`. -/
  modes : AList fun _ : String => Mode := ∅
  /-- Side effects applied by components. -/
  applied : AList fun _ : String => String := ∅

namespace Store

/-- The choice for a profile, `auto` unless it was made. -/
def mode (s : Store) (profile : String) : Mode := (s.modes.lookup profile).getD .auto

/-- A choice is stored; `auto` is stored as none. -/
def setMode (s : Store) (profile : String) (mode : Mode) : Store :=
  if mode = .auto then { s with modes := s.modes.erase profile }
  else { s with modes := s.modes.insert profile mode }

end Store

/-! ## Profiles -/

/-- What a call finds on the system. -/
structure DesktopEnv where
  findBinary : String → Bool
  hasDesktopFile : String → Bool
  pathExists : String → Bool
  /-- `balooctl config add` and `rm` exit with success. -/
  toolRuns : Bool
  /-- `baloofilerc` exists, and the folders it excludes now and once `balooctl` has run. -/
  rcExists : Bool
  excludes : String → Bool
  excludesAfter : String → Bool
  writeRc : Except String Unit
  /-- The store file can be written: for `set`'s first save, and for a reconcile's. -/
  savesChoice : Bool
  saves : Bool

/-- How a profile is recognized on the machine. -/
structure Detect where
  binaries : List String := []
  desktopFiles : List String := []
  libraries : List String := []

/-- One of the signs is there. -/
def Detect.isInstalled (d : Detect) (env : DesktopEnv) : Bool :=
  d.binaries.any env.findBinary || d.desktopFiles.any env.hasDesktopFile ||
    d.libraries.any fun l => env.pathExists ("@lib/" ++ l)

/-- A desktop, with the components it needs. -/
structure Profile where
  id : String
  detect : Detect
  components : List ComponentId := []
  /-- Profiles kept enabled while this one is. -/
  requires : List String := []

/-- `PROFILES`, as far as the manager's decisions read it. -/
def PROFILES : List Profile :=
  [{ id := "gio"
     detect := { libraries := ["libgio-2.0.so.0"] }
     components := [.gio, .tracker] },
   { id := "kio"
     detect := { libraries := ["libKF6KIOCore.so.6", "libKF5KIOCore.so.5"] }
     components := [.kio, .baloo] },
   { id := "nautilus"
     detect := { binaries := ["nautilus"], desktopFiles := ["org.gnome.Nautilus.desktop"] }
     requires := ["gio"] },
   { id := "dolphin"
     detect := { binaries := ["dolphin", "org.kde.dolphin"], desktopFiles := ["org.kde.dolphin.desktop"] }
     requires := ["kio"] },
   { id := "nemo"
     detect := { binaries := ["nemo"], desktopFiles := ["nemo.desktop"] }
     requires := ["gio"] }]

/-! ## Components -/

namespace Baloo

/-- The key under which the excluded folder is stored. -/
def APPLIED_KEY : String := "baloo.exclude"

/-- `balooctl` finds a tool. -/
def balooctl (env : DesktopEnv) : Bool := env.findBinary "balooctl6" || env.findBinary "balooctl"

/-- `Baloo::activate`: the folder is excluded from indexing, once. -/
def activate (env : DesktopEnv) (folder : String) (store : Store) : Except String Store :=
  if !balooctl env && !env.findBinary "baloo_file" && !env.rcExists then .ok store
  -- already excluded, by us earlier or by the user
  else if env.excludes folder then .ok store
  else
    let applied := { store with applied := store.applied.insert APPLIED_KEY folder }
    if balooctl env && env.toolRuns then .ok applied
    else
      match env.writeRc with
      | .ok () => .ok applied
      | .error e => .error e

/-- `Baloo::deactivate`: an exclusion made earlier is taken back. -/
def deactivate (env : DesktopEnv) (store : Store) : Except String Store :=
  match store.applied.lookup APPLIED_KEY with
  | none => .ok store
  | some folder =>
    let removed := { store with applied := store.applied.erase APPLIED_KEY }
    if env.excludesAfter folder then
      match env.writeRc with
      | .ok () => .ok removed
      | .error e => .error e
    else .ok removed

end Baloo

/-- `Component::activate`; only Baloo overrides the default. -/
def activate (id : ComponentId) (env : DesktopEnv) (folder : String) (store : Store) :
    Except String Store :=
  match id with
  | .baloo => Baloo.activate env folder store
  | _ => .ok store

/-- `Component::deactivate`. -/
def deactivate (id : ComponentId) (env : DesktopEnv) (store : Store) : Except String Store :=
  match id with
  | .baloo => Baloo.deactivate env store
  | _ => .ok store

/-! ## The manager -/

/-- What the manager keeps under its lock. -/
structure State where
  store : Store
  /-- Components whose side effects are currently applied. -/
  active : Finset ComponentId := ∅
  /-- Last detection result per profile id. -/
  installed : AList fun _ : String => Bool := ∅
  /-- No reconcile has run yet in this process. -/
  first : Bool := true

/-- `folder_entry` of the mount point, and the profile table. -/
structure Manager where
  folder : String
  profiles : List Profile

/-- One call of a component, and whether it succeeded. -/
inductive Call where
  | activate (id : ComponentId) (ok : Bool)
  | deactivate (id : ComponentId) (ok : Bool)
  deriving DecidableEq, Repr

/-- The call succeeded. -/
def Call.ok : Call → Bool
  | .activate _ ok => ok
  | .deactivate _ ok => ok

/-- The loops of `reconcile_locked`. -/
structure Pass where
  st : State
  storeChanged : Bool := false
  calls : List Call := []

namespace Manager

variable (m : Manager)

/-- `detect_locked`: the profiles are looked for again. -/
def detectLocked (env : DesktopEnv) (st : State) : State :=
  { st with installed := m.profiles.foldl (fun i p => i.insert p.id (p.detect.isInstalled env)) st.installed }

/-- The profile is chosen, or found with the choice left open. -/
def ownEnabled (st : State) (p : Profile) : Bool :=
  match st.store.mode p.id with
  | .on => true
  | .off => false
  | .auto => (st.installed.lookup p.id).getD false

/-- The enabled profiles that require `p`. -/
def requiredBy (st : State) (p : Profile) : List String :=
  (m.profiles.filter fun q => decide (p.id ∈ q.requires) && ownEnabled st q).map (·.id)

/-- The profile is enabled by itself, or required by one that is. -/
def enabledLocked (st : State) (p : Profile) : Bool :=
  ownEnabled st p || !(m.requiredBy st p).isEmpty

/-- The components of the enabled profiles. -/
def wantedComponents (st : State) : Finset ComponentId :=
  ((m.profiles.filter (m.enabledLocked st)).flatMap (·.components)).toFinset

/-- The components that are wanted and not applied. -/
def toStart (st : State) : List ComponentId :=
  allComponents.filter fun c => decide (c ∈ m.wantedComponents st ∧ c ∉ st.active)

/-- On the first pass every unwanted component is stopped. -/
def toStop (st : State) : List ComponentId :=
  allComponents.filter fun c =>
    decide (c ∉ m.wantedComponents st) && (st.first || decide (c ∈ st.active))

/-- A component is stopped; one that fails stays in `active`. -/
def stop (env : DesktopEnv) (p : Pass) (id : ComponentId) : Pass :=
  match deactivate id env p.st.store with
  | .ok store =>
    { st := { p.st with store := store, active := p.st.active.erase id }
      storeChanged := true
      calls := p.calls ++ [.deactivate id true] }
  | .error _ => { p with calls := p.calls ++ [.deactivate id false] }

/-- A component whose activation fails counts as active all the same. -/
def start (env : DesktopEnv) (p : Pass) (id : ComponentId) : Pass :=
  match activate id env m.folder p.st.store with
  | .ok store =>
    { st := { p.st with store := store, active := insert id p.st.active }
      storeChanged := true
      calls := p.calls ++ [.activate id true] }
  | .error _ =>
    { st := { p.st with active := insert id p.st.active }
      storeChanged := true
      calls := p.calls ++ [.activate id false] }

/-- `reconcile_locked`: the stops, then the starts. -/
def reconcileLocked (env : DesktopEnv) (st : State) : Pass :=
  let stopped := (m.toStop st).foldl (stop env) { st := { st with first := false } }
  (m.toStart st).foldl (m.start env) stopped

end Manager

/-! ## Daemon sessions -/

/-- One reconcile: what was wanted, what it called, and what is applied after it. -/
structure Round where
  wanted : Finset ComponentId
  calls : List Call
  applied : Finset ComponentId
  deriving DecidableEq

/-- The machine: the store file, the running daemon, and what its calls have done. -/
structure Machine where
  /-- The store file. -/
  file : Option Store := none
  /-- The running daemon's state. -/
  st : State
  /-- The components whose last successful call was `activate`. -/
  applied : Finset ComponentId := ∅
  rounds : List Round := []

/-- What may happen to the manager. -/
inductive Event where
  | refresh (env : DesktopEnv)
  | list (env : DesktopEnv)
  | set (id : String) (mode : Mode) (env : DesktopEnv)
  /-- The daemon is replaced by a new one; `readable`: its store file can be read and parsed. -/
  | restart (readable : Bool)

/-- What a component's own call says about its side effects. -/
def record (applied : Finset ComponentId) : Call → Finset ComponentId
  | .activate id true => insert id applied
  | .deactivate id true => applied.erase id
  | _ => applied

namespace Machine

/-- A daemon starts with what it can read of its store. -/
def load (file : Option Store) (readable : Bool) : State :=
  { store := if readable then file.getD {} else {} }

/-- The first daemon, on a machine where earlier ones left `file` and `applied`. -/
def fresh (file : Option Store) (applied : Finset ComponentId) : Machine :=
  { file := file, st := load file true, applied := applied }

/-- `detect_locked` and `reconcile_locked`, and the store when it changed. -/
def reconcile (m : Manager) (env : DesktopEnv) (s : Machine) : Machine :=
  let st := m.detectLocked env s.st
  let pass := m.reconcileLocked env st
  let applied := pass.calls.foldl record s.applied
  { file := if pass.storeChanged && env.saves then some pass.st.store else s.file
    st := pass.st
    applied := applied
    rounds := s.rounds ++ [{ wanted := m.wantedComponents st, calls := pass.calls, applied := applied }] }

/-- The state in which `set` reconciles. -/
def choose (env : DesktopEnv) (id : String) (mode : Mode) (s : Machine) : Machine :=
  let store := s.st.store.setMode id mode
  { s with
    file := if env.savesChoice then some store else s.file
    st := { s.st with store := store } }

/-- One step: a refresh, a listing, a choice or a restart. -/
def step (m : Manager) (s : Machine) : Event → Machine
  | .refresh env => s.reconcile m env
  | .list env => s.reconcile m env
  | .set id mode env =>
    if m.profiles.any (fun p => decide (p.id = id)) then (s.choose env id mode).reconcile m env else s
  | .restart readable => { s with st := load s.file readable }

/-- A run of steps. -/
def steps (m : Manager) (s : Machine) (es : List Event) : Machine := es.foldl (step m) s

end Machine

end Desktop

end Ncrs
