import Mathlib.Algebra.GroupWithZero.Nat
import Ncrs.Native.Leftovers

/-!
# Taking leftovers over

The scan changes nothing, so that a mount point it turns down is left alone. After it the nodes are handled
from the last one that was met to the first. A step that fails ends it there: what comes after that node has
been moved away. Junk that is a directory, or cannot be removed, stays; the directory it is in is then not
removed, and at the top nobody notices.

## Key results

- `scanLeftovers_ok_iff`: what is scanned, and which mount points are not turned down.
- `relocateFrom_spec`: what has been moved when a step fails, or at the end.
- `adopts_all_or_nothing_iff`: when the files are taken over together or not at all.
-/

namespace Ncrs

namespace Leftovers

open Forest (nodes visited visited_leaf visited_branch stops)

variable {ν : Type} (io : FolderIo ν) (lossy : ν → List Char)

/-! ## Scanning -/

/-- The node's name is one of those that are junk. -/
def isJunk (x : Node ν) : Bool := stops (junkName lossy) x.1

/-- What the scan notes of a node. -/
def entryOf (x : Node ν) : LeftoverEntry ν :=
  if isJunk lossy x then .junk x.1
  else
    match x.2 with
    | none => .dir x.1
    | some _ => .file x.1

/-- The bytes an entry counts for. -/
def sizeOf (x : Node ν) : Nat :=
  match x.2 with
  | some (.file content) => if isJunk lossy x || io.metadataFails x.1 then 0 else content.length
  | some .other | none => 0

/-- The scan after the nodes that it has come to. -/
def Scan.after (s : Scan ν) (xs : List (Node ν)) : Scan ν where
  out := s.out ++ xs.map (entryOf lossy)
  totalBytes := s.totalBytes + (xs.map (sizeOf io lossy)).sum

/-- Everything that is looked at can be, and is a file, a directory or junk. -/
def Readable (rel : List ν) : Forest ν Leaf → Prop
  | .nil => io.endFails rel = false
  | .leaf name l rest =>
    statEntry io rel (rel ++ [name]) = .ok () ∧ (junkName lossy name = true ∨ l ≠ .other) ∧ Readable rel rest
  | .branch name sub rest =>
    statEntry io rel (rel ++ [name]) = .ok () ∧
      (junkName lossy name = true ∨ io.readFails (rel ++ [name]) = false ∧ Readable (rel ++ [name]) sub) ∧
      Readable rel rest

variable {io lossy} {s s' : Scan ν} {f : Forest ν Leaf} {rel : List ν}

theorem Scan.after_out (s : Scan ν) (xs : List (Node ν)) :
    (s.after io lossy xs).out = s.out ++ xs.map (entryOf lossy) := rfl

theorem Scan.after_totalBytes (s : Scan ν) (xs : List (Node ν)) :
    (s.after io lossy xs).totalBytes = s.totalBytes + (xs.map (sizeOf io lossy)).sum := rfl

@[simp] theorem Scan.after_nil (s : Scan ν) : s.after io lossy [] = s := by simp [Scan.after]

theorem Scan.after_append (s : Scan ν) (xs ys : List (Node ν)) :
    s.after io lossy (xs ++ ys) = (s.after io lossy xs).after io lossy ys := by
  simp [Scan.after, Nat.add_assoc]

theorem Scan.after_cons (s : Scan ν) (x : Node ν) (ys : List (Node ν)) :
    s.after io lossy (x :: ys) = (s.after io lossy [x]).after io lossy ys := Scan.after_append s [x] ys

theorem Scan.after_singleton (s : Scan ν) (x : Node ν) : s.after io lossy [x] =
    { out := s.out ++ [entryOf lossy x], totalBytes := s.totalBytes + sizeOf io lossy x } := rfl

/-- A scan exceeds nothing within its two bounds. -/
theorem Scan.exceeds_eq_false_iff :
    s.exceeds = false ↔ s.out.length ≤ adoptMaxFiles ∧ s.totalBytes ≤ adoptMaxBytes := by
  simp [Scan.exceeds]

/-- What is too much stays too much. -/
theorem Scan.exceeds_of_after {xs : List (Node ν)} (h : (s.after io lossy xs).exceeds = false) :
    s.exceeds = false := by
  rw [Scan.exceeds_eq_false_iff] at h ⊢
  rw [Scan.after_out, Scan.after_totalBytes, List.length_append] at h
  exact ⟨by omega, by omega⟩

/-- The check passes a scan that exceeds nothing. -/
theorem Scan.check_ok_iff : s.check = .ok s' ↔ s' = s ∧ s.exceeds = false := by
  unfold Scan.check
  cases s.exceeds <;> simp [eq_comm]

/-- A step that succeeds, followed by another that does. -/
theorem bind_eq_ok_iff {ε α β : Type} {x : Except ε α} {g : α → Except ε β} {b : β} :
    (x >>= g) = .ok b ↔ ∃ a, x = .ok a ∧ g a = .ok b := by
  cases x <;> simp [bind, Except.bind]

/-- What the scan adds for a file, or for anything else that is no directory. -/
theorem after_leaf (name : ν) (l : Leaf) : s.after io lossy [(rel ++ [name], some l)] =
    if junkName lossy name then s.push (.junk (rel ++ [name]))
    else
      match l with
      | .file content =>
        let len := if io.metadataFails (rel ++ [name]) then 0 else content.length
        { out := s.out ++ [.file (rel ++ [name])], totalBytes := s.totalBytes + len }
      | .other => s.push (.file (rel ++ [name])) := by
  cases hjunk : junkName lossy name <;> cases l <;>
    simp [Scan.after_singleton, entryOf, isJunk, sizeOf, hjunk, Scan.push]

/-- What it adds for a directory. -/
theorem after_branch (name : ν) : s.after io lossy [(rel ++ [name], none)] =
    s.push (if junkName lossy name then .junk (rel ++ [name]) else .dir (rel ++ [name])) := by
  have hentry : entryOf lossy (rel ++ [name], (none : Option Leaf)) =
      if junkName lossy name then .junk (rel ++ [name]) else .dir (rel ++ [name]) := by
    show (if stops (junkName lossy) (rel ++ [name]) then LeftoverEntry.junk _ else .dir _) = _
    rw [Forest.stops_append_singleton]
  rw [Scan.after_singleton, hentry]
  rfl

theorem exists_unit_iff {P : Unit → Prop} : (∃ u, P u) ↔ P () := ⟨fun ⟨_, h⟩ => h, fun h => ⟨(), h⟩⟩

/-- At the end of a directory the scan stays as it is. -/
theorem scan_nil_iff :
    scanLeftoversRec io lossy rel .nil s = .ok s' ↔ io.endFails rel = false ∧ s' = s := by
  show (if io.endFails rel then Except.error (ScanError.cannotRead rel) else .ok s) = .ok s' ↔ _
  cases io.endFails rel <;> simp [eq_comm]

/-- One step over a leaf. -/
theorem scan_leaf_iff {name : ν} {l : Leaf} {rest : Forest ν Leaf} :
    scanLeftoversRec io lossy rel (.leaf name l rest) s = .ok s' ↔
      statEntry io rel (rel ++ [name]) = .ok () ∧ (junkName lossy name = true ∨ l ≠ .other) ∧
        (s.after io lossy [(rel ++ [name], some l)]).exceeds = false ∧
        scanLeftoversRec io lossy rel rest (s.after io lossy [(rel ++ [name], some l)]) = .ok s' := by
  simp only [scanLeftoversRec, bind_eq_ok_iff, after_leaf, exists_unit_iff]
  cases hjunk : junkName lossy name with
  | true => simp [pure, Except.pure, bind_eq_ok_iff, Scan.check_ok_iff]
  | false =>
    cases l with
    | file content => simp [pure, Except.pure, bind_eq_ok_iff, Scan.check_ok_iff]
    | other => simp [throw, throwThe, MonadExceptOf.throw, bind_eq_ok_iff]

/-- One step over a directory. -/
theorem scan_branch_iff {name : ν} {sub rest : Forest ν Leaf} :
    scanLeftoversRec io lossy rel (.branch name sub rest) s = .ok s' ↔
      statEntry io rel (rel ++ [name]) = .ok () ∧
        ∃ s₁, (if junkName lossy name then s₁ = s.after io lossy [(rel ++ [name], none)]
          else io.readFails (rel ++ [name]) = false ∧
            scanLeftoversRec io lossy (rel ++ [name]) sub (s.after io lossy [(rel ++ [name], none)]) = .ok s₁) ∧
          s₁.exceeds = false ∧ scanLeftoversRec io lossy rel rest s₁ = .ok s' := by
  have hstep : scanLeftoversRec io lossy rel (.branch name sub rest) s = (do
      statEntry io rel (rel ++ [name])
      let s ←
        if junkName lossy name then pure (s.push (.junk (rel ++ [name])))
        else if io.readFails (rel ++ [name]) then throw (.cannotRead (rel ++ [name]))
        else scanLeftoversRec io lossy (rel ++ [name]) sub (s.push (.dir (rel ++ [name])))
      let s ← s.check
      scanLeftoversRec io lossy rel rest s) := rfl
  simp only [hstep, bind_eq_ok_iff, after_branch, exists_unit_iff]
  cases hjunk : junkName lossy name with
  | true => simp [pure, Except.pure, bind_eq_ok_iff, Scan.check_ok_iff]
  | false =>
    cases io.readFails (rel ++ [name]) with
    | true => simp [throw, throwThe, MonadExceptOf.throw, bind_eq_ok_iff]
    | false => simp [bind_eq_ok_iff, Scan.check_ok_iff]

/-- A scan that succeeds has read everything and stayed within its bounds. -/
theorem scan_ok (h : scanLeftoversRec io lossy rel f s = .ok s') :
    Readable io lossy rel f ∧ s' = s.after io lossy (f.visited (junkName lossy) rel) ∧
      (s.exceeds = false → s'.exceeds = false) := by
  induction f generalizing rel s s' with
  | nil =>
    obtain ⟨hend, rfl⟩ := scan_nil_iff.mp h
    exact ⟨hend, (Scan.after_nil _).symm, id⟩
  | leaf name l rest ih =>
    obtain ⟨hstat, hkind, hlimit, hrest⟩ := scan_leaf_iff.mp h
    obtain ⟨hreadable, hs', hexceeds⟩ := ih hrest
    exact ⟨⟨hstat, hkind, hreadable⟩, by rw [hs', ← Scan.after_cons, visited_leaf], fun _ => hexceeds hlimit⟩
  | branch name sub rest ihsub ih =>
    obtain ⟨hstat, s₁, hsub, hlimit, hrest⟩ := scan_branch_iff.mp h
    obtain ⟨hreadable, hs', hexceeds⟩ := ih hrest
    split at hsub
    · rename_i hjunk
      refine ⟨⟨hstat, .inl hjunk, hreadable⟩, ?_, fun _ => hexceeds hlimit⟩
      rw [hs', hsub, ← Scan.after_cons, visited_branch, if_pos hjunk, List.nil_append]
    · rename_i hjunk
      obtain ⟨hsubReadable, hs₁, -⟩ := ihsub hsub.2
      refine ⟨⟨hstat, .inr ⟨hsub.1, hsubReadable⟩, hreadable⟩, ?_, fun _ => hexceeds hlimit⟩
      rw [hs', hs₁, ← Scan.after_cons, ← Scan.after_append, visited_branch, if_neg hjunk, List.cons_append]

/-- A scan that can read everything, and stays within its bounds, succeeds. -/
theorem scan_of_readable (h : Readable io lossy rel f)
    (hlimit : (s.after io lossy (f.visited (junkName lossy) rel)).exceeds = false) :
    scanLeftoversRec io lossy rel f s = .ok (s.after io lossy (f.visited (junkName lossy) rel)) := by
  induction f generalizing rel s with
  | nil => exact scan_nil_iff.mpr ⟨h, Scan.after_nil s⟩
  | leaf name l rest ih =>
    obtain ⟨hstat, hkind, hrest⟩ := h
    rw [visited_leaf, Scan.after_cons] at hlimit ⊢
    exact scan_leaf_iff.mpr ⟨hstat, hkind, Scan.exceeds_of_after hlimit, ih hrest hlimit⟩
  | branch name sub rest ihsub ih =>
    obtain ⟨hstat, hsub, hrest⟩ := h
    rw [visited_branch, Scan.after_cons, Scan.after_append] at hlimit ⊢
    refine scan_branch_iff.mpr ⟨hstat, _, ?_, Scan.exceeds_of_after hlimit, ih hrest hlimit⟩
    split
    · rw [Scan.after_nil]
    · rename_i hjunk
      rw [if_neg hjunk] at hlimit
      obtain ⟨hread, hsub⟩ := hsub.resolve_left hjunk
      exact ⟨hread, ihsub hsub (Scan.exceeds_of_after hlimit)⟩

/-! ## The walk -/

/-- The nodes of a folder that are handled, in the order in which they are met. -/
def walk (lossy : ν → List Char) (folder : Folder ν) : List (Node ν) :=
  folder.entries.visited (junkName lossy) []

/-- A mount point that is not turned down. -/
structure Scannable (io : FolderIo ν) (lossy : ν → List Char) (folder : Folder ν) : Prop where
  opened : io.readFails [] = false
  readable : Readable io lossy [] folder.entries
  files : (walk lossy folder).length ≤ adoptMaxFiles
  bytes : ((walk lossy folder).map (sizeOf io lossy)).sum ≤ adoptMaxBytes

/-- The scan succeeds on the folders that can be scanned, and then has what a walk finds. -/
theorem scanLeftovers_ok_iff {folder : Folder ν} {leftovers : List (LeftoverEntry ν)} :
    scanLeftovers io lossy folder.entries = .ok leftovers ↔
      Scannable io lossy folder ∧ leftovers = (walk lossy folder).map (entryOf lossy) := by
  -- the bounds of the scan are those of the walk
  have hbounds : (({} : Scan ν).after io lossy (walk lossy folder)).exceeds = false ↔
      (walk lossy folder).length ≤ adoptMaxFiles ∧
        ((walk lossy folder).map (sizeOf io lossy)).sum ≤ adoptMaxBytes := by
    rw [Scan.exceeds_eq_false_iff]
    simp [Scan.after_out, Scan.after_totalBytes]
  unfold scanLeftovers
  cases hopen : io.readFails [] with
  | true =>
    constructor
    · intro h
      cases h
    · intro h
      rw [h.1.opened] at hopen
      cases hopen
  | false =>
    constructor
    · -- what was read, and how much
      intro h
      obtain ⟨s, hs, hout⟩ := bind_eq_ok_iff.mp h
      obtain ⟨hreadable, hafter, hexceeds⟩ := scan_ok hs
      have hlimit := hexceeds rfl
      rw [hafter] at hlimit
      obtain ⟨hfiles, hbytes⟩ := hbounds.mp hlimit
      refine ⟨⟨hopen, hreadable, hfiles, hbytes⟩, ?_⟩
      cases hout
      rw [hafter]
      simp [Scan.after, walk]
    · intro h
      obtain ⟨⟨-, hreadable, hfiles, hbytes⟩, hout⟩ := h
      refine bind_eq_ok_iff.mpr ⟨_, scan_of_readable hreadable (hbounds.mpr ⟨hfiles, hbytes⟩), ?_⟩
      rw [hout]
      simp [Scan.after, walk, pure, Except.pure]

/-! ## One step of the relocation -/

/-- Junk that is not removed. -/
def stays (io : FolderIo ν) (lossy : ν → List Char) (x : Node ν) : Bool :=
  isJunk lossy x && (io.removeFileFails x.1 || x.2.isNone)

/-- A plain file that is not lock junk. -/
def plainFile? (lossy : ν → List Char) (x : Node ν) : Option (List UInt8) :=
  if isJunk lossy x then none
  else
    match x.2 with
    | some (.file content) => some content
    | some .other | none => none

variable [DecidableEq ν] {folder : Folder ν} {d : Disk ν} {x y : Node ν}

/-- A node whose step fails: a file that cannot be moved, a directory that cannot be removed or has junk in
    it that stays. -/
def faulty (io : FolderIo ν) (lossy : ν → List Char) (folder : Folder ν) (x : Node ν) : Bool :=
  !isJunk lossy x &&
    match x.2 with
    | some _ => io.renameFails x.1
    | none => io.removeDirFails x.1 || (walk lossy folder).any fun y => stays io lossy y && x.1.isPrefixOf y.1

/-- The mount point after the steps for `done`. -/
def Cleared (io : FolderIo ν) (lossy : ν → List Char) (folder : Folder ν) (done : List (Node ν)) (d : Disk ν) :
    Prop :=
  d.mount = (folder.entries.nodes []).filter fun x => x ∉ done || stays io lossy x

omit [DecidableEq ν] in
/-- What a walk finds is in the folder. -/
theorem mem_walk_nodes (h : x ∈ walk lossy folder) : x ∈ folder.entries.nodes [] :=
  Forest.mem_nodes_of_mem_visited h

/-- In a list without repeated paths what is found is what is there. -/
theorem lookup_eq_of_mem {α : Type} {l : List (List ν × α)} (hl : (l.map Prod.fst).Nodup) {p : List ν} {a : α}
    (h : (p, a) ∈ l) : l.lookup p = some a := by
  induction l with
  | nil => cases h
  | cons e es ih =>
    rw [List.map_cons, List.nodup_cons] at hl
    rw [List.lookup_cons]
    obtain rfl | h := List.mem_cons.mp h
    · simp
    · have hne : p ≠ e.1 := fun heq => hl.1 (heq ▸ List.mem_map_of_mem h)
      rw [beq_eq_false_iff_ne.mpr hne]
      exact ih hl.2 h

/-- What is left of the folder: what was not handled, and the junk that stays. -/
theorem Cleared.mem_iff {done : List (Node ν)} (h : Cleared io lossy folder done d) :
    x ∈ d.mount ↔ x ∈ folder.entries.nodes [] ∧ (x ∉ done ∨ stays io lossy x = true) := by
  rw [h, List.mem_filter]
  simp

/-- A node that was not handled is where it was. -/
theorem Cleared.lookup_eq {done : List (Node ν)} (h : Cleared io lossy folder done d)
    (hx : x ∈ walk lossy folder) (hdone : x ∉ done) : d.mount.lookup x.1 = some x.2 := by
  apply lookup_eq_of_mem
  · have hsub : d.mount.Sublist (folder.entries.nodes []) := by
      rw [h]
      exact List.filter_sublist
    exact (hsub.map Prod.fst).nodup (Forest.nodup_paths folder.distinct)
  · exact h.mem_iff.mpr ⟨mem_walk_nodes hx, .inl hdone⟩

/-- Taking out a node that does not stay. -/
theorem Cleared.without {done : List (Node ν)} (h : Cleared io lossy folder done d) (hx : x ∈ walk lossy folder)
    (hstays : stays io lossy x = false) : Cleared io lossy folder (x :: done) (d.without x.1) := by
  unfold Cleared Disk.without at *
  rw [h, List.filter_filter]
  refine List.filter_congr fun y hy => ?_
  have hpath : y.1 = x.1 ↔ y = x :=
    ⟨Forest.eq_of_mem_nodes folder.distinct hy (mem_walk_nodes hx), fun heq => by rw [heq]⟩
  by_cases hyx : y = x
  · simp [hyx, hstays]
  · simp [hyx, hpath]

/-- Handling junk that stays. -/
theorem Cleared.keep {done : List (Node ν)} (h : Cleared io lossy folder done d)
    (hstays : stays io lossy x = true) :
    Cleared io lossy folder (x :: done) d := by
  unfold Cleared at *
  rw [h]
  refine List.filter_congr fun y _ => ?_
  by_cases hyx : y = x
  · simp [hyx, hstays]
  · simp [hyx]

omit [DecidableEq ν] in
/-- What can be scanned has other things than files and directories as junk only. -/
theorem isJunk_of_other {f : Forest ν Leaf} {rel : List ν} (h : Readable io lossy rel f)
    (hx : x ∈ f.visited (junkName lossy) rel) (hother : x.2 = some .other) : isJunk lossy x = true := by
  induction f generalizing rel with
  | nil => cases hx
  | leaf name l rest ih =>
    obtain ⟨-, hkind, hrest⟩ := h
    obtain rfl | hx := List.mem_cons.mp hx
    · obtain hjunk | hne := hkind
      · simpa [isJunk] using hjunk
      · exact absurd (Option.some.inj hother) hne
    · exact ih hrest hx
  | branch name sub rest ihsub ih =>
    obtain ⟨-, hsub, hrest⟩ := h
    obtain rfl | hx := List.mem_cons.mp hx
    · cases hother
    · obtain hx | hx := List.mem_append.mp hx
      · split at hx
        · cases hx
        · rename_i hjunk
          exact ihsub (hsub.resolve_left hjunk).2 hx
      · exact ih hrest hx

/-- What is left below a directory when its turn comes. -/
theorem exists_below_iff {l done : List (Node ν)} (h : Cleared io lossy folder done d)
    (hwalk : walk lossy folder = l ++ x :: done) (hjunk : isJunk lossy x = false) :
    (∃ y ∈ d.mount, y.1 ≠ x.1 ∧ x.1 <+: y.1) ↔ ∃ y ∈ walk lossy folder, stays io lossy y = true ∧
    x.1 <+: y.1 := by
  -- the walk comes to a directory behind all that is below it
  have hpairs : (l ++ x :: done).Pairwise (Forest.Before (junkName lossy)) :=
    hwalk ▸ Forest.pairwise_visited folder.distinct
  obtain ⟨-, hafter, hbefore⟩ := List.pairwise_append.mp hpairs
  have hx : x ∈ walk lossy folder := by simp [hwalk]
  have hjunk_ne : ∀ y, isJunk lossy y = true → y ≠ x := by
    rintro y hy rfl
    rw [hjunk] at hy
    cases hy
  constructor
  · intro ⟨y, hy, hne, hbelow⟩
    obtain ⟨hnodes, hleft⟩ := h.mem_iff.mp hy
    -- what is still there was met behind `x`, or lies below a junk directory
    obtain hmem | ⟨z, hz, hdir, hstop, habove⟩ := Forest.visited_or_below_stop hnodes
    · have hmem : y ∈ l ++ x :: done := hwalk ▸ hmem
      obtain hmem | hmem := List.mem_append.mp hmem
      · exact absurd hbelow (hbefore y hmem x (List.mem_cons_self ..)).notAbove
      · obtain rfl | hmem := List.mem_cons.mp hmem
        · exact absurd rfl hne
        · exact ⟨y, by simp [hwalk, hmem], hleft.resolve_left (fun hnot => hnot hmem), hbelow⟩
    · -- a junk directory above `y` is below `x`, as nothing is met below it
      refine ⟨z, hz, by simp [stays, isJunk, hstop, hdir], ?_⟩
      obtain hxz | hzx := List.prefix_or_prefix_of_prefix hbelow habove
      · exact hxz
      · have hmem : z ∈ l ++ x :: done := hwalk ▸ hz
        obtain hmem | hmem := List.mem_append.mp hmem
        · have hgone := (hbefore z hmem x (List.mem_cons_self ..)).below hzx
          rw [hstop] at hgone
          cases hgone.2
        · obtain rfl | hmem := List.mem_cons.mp hmem
          · exact absurd rfl (hjunk_ne z hstop)
          · exact absurd hzx ((List.pairwise_cons.mp hafter).1 z hmem).notAbove
  · -- what stays is still there, below `x`
    intro ⟨y, hy, hstays, hbelow⟩
    have hyjunk : isJunk lossy y = true := by
      rw [stays, Bool.and_eq_true] at hstays
      exact hstays.1
    refine ⟨y, h.mem_iff.mpr ⟨mem_walk_nodes hy, .inr hstays⟩, fun heq => ?_, hbelow⟩
    exact hjunk_ne y hyjunk (Forest.eq_of_mem_nodes folder.distinct (mem_walk_nodes hy) (mem_walk_nodes hx) heq)

omit [DecidableEq ν] in
/-- A node is handled once. -/
theorem notMem_of_walk {l done : List (Node ν)} (hwalk : walk lossy folder = l ++ x :: done) : x ∉ done := by
  have hnodup : (walk lossy folder).Nodup :=
    (Forest.visited_sublist.nodup (List.Nodup.of_map _ (Forest.nodup_paths folder.distinct)))
  rw [hwalk, List.nodup_append, List.nodup_cons] at hnodup
  exact hnodup.2.1.1

/-- The step of a directory. -/
theorem removeDir_eq {l done : List (Node ν)} (h : Cleared io lossy folder done d)
    (hwalk : walk lossy folder = l ++ x :: done) (hjunk : isJunk lossy x = false) (hdir : x.2 = none) :
    d.removeDir io x.1 = if faulty io lossy folder x then none else some (d.without x.1) := by
  have hlookup := h.lookup_eq (x := x) (by simp [hwalk]) (notMem_of_walk hwalk)
  have hany : (d.mount.any fun y => y.1 ≠ x.1 && x.1.isPrefixOf y.1) =
      (walk lossy folder).any fun y => stays io lossy y && x.1.isPrefixOf y.1 := by
    rw [Bool.eq_iff_iff]
    simpa using exists_below_iff h hwalk hjunk
  unfold Disk.removeDir faulty
  rw [hlookup, hjunk, hdir]
  simp only [hany]
  cases io.removeDirFails x.1 <;> rfl

/-- The step of a file. -/
theorem renameToStaging_eq {l done : List (Node ν)} {content : List UInt8} (h : Cleared io lossy folder done d)
    (hwalk : walk lossy folder = l ++ x :: done) (hfile : plainFile? lossy x = some content) (n : Nat) :
    d.renameToStaging io x.1 n = if faulty io lossy folder x then none
      else some { d.without x.1 with staging := (n, content) :: d.staging.filter fun y => y.1 ≠ n } := by
  have hlookup := h.lookup_eq (x := x) (by simp [hwalk]) (notMem_of_walk hwalk)
  unfold plainFile? at hfile
  split at hfile
  · cases hfile
  · rename_i hjunk
    split at hfile
    · rename_i c hx
      cases hfile
      unfold Disk.renameToStaging faulty
      rw [hlookup, hx]
      simp [hjunk]
    · cases hfile
    · cases hfile

/-- The step of junk. -/
theorem Cleared.removeFile {l done : List (Node ν)} (h : Cleared io lossy folder done d)
    (hwalk : walk lossy folder = l ++ x :: done) (hjunk : isJunk lossy x = true) :
    Cleared io lossy folder (x :: done) ((d.removeFile io x.1).getD d) ∧
      ((d.removeFile io x.1).getD d).staging = d.staging := by
  have hx : x ∈ walk lossy folder := by simp [hwalk]
  have hlookup := h.lookup_eq hx (notMem_of_walk hwalk)
  unfold Disk.removeFile
  rw [hlookup]
  cases hfails : io.removeFileFails x.1 with
  | true => exact ⟨h.keep (by simp [stays, hjunk, hfails]), rfl⟩
  | false =>
    cases hkind : x.2 with
    | none => exact ⟨h.keep (by simp [stays, hkind, hjunk]), rfl⟩
    | some l => exact ⟨h.without hx (by simp [stays, hfails, hkind]), rfl⟩

/-! ## The whole relocation -/

/-- What has been taken over with the steps for `done`. -/
structure Adopted (lossy : ν → List Char) (done : List (Node ν)) (d : Disk ν) (adopted : List (AdoptedFile ν))
    (nextId : Nat) : Prop where
  files : ∀ x ∈ done, ∀ content, plainFile? lossy x = some content →
    ∃ a ∈ adopted, a.remotePath = x.1 ∧ d.staging.lookup a.stagingPath = some content
  remote : ∀ a ∈ adopted, ∃ x ∈ done, (plainFile? lossy x).isSome ∧ a.remotePath = x.1
  remote_nodup : (adopted.map (·.remotePath)).Nodup
  staging_nodup : (adopted.map (·.stagingPath)).Nodup
  bounded : ∀ a ∈ adopted, a.stagingPath ≤ nextId

variable {adopted : List (AdoptedFile ν)} {done : List (Node ν)} {nextId : Nat}

omit [DecidableEq ν] in
/-- Nothing has been adopted yet. -/
theorem Adopted.nil (d : Disk ν) : Adopted lossy [] d [] 0 :=
  ⟨nofun, nofun, List.nodup_nil, List.nodup_nil, nofun⟩

omit [DecidableEq ν] in
/-- A step that moves no file. -/
theorem Adopted.skip {d' : Disk ν} (h : Adopted lossy done d adopted nextId) (hx : plainFile? lossy x = none)
    (hstaging : d'.staging = d.staging) : Adopted lossy (x :: done) d' adopted nextId where
  files y hy content hfile := by
    obtain rfl | hy := List.mem_cons.mp hy
    · rw [hx] at hfile
      cases hfile
    · rw [hstaging]
      exact h.files y hy content hfile
  remote a ha := by
    obtain ⟨y, hy, hrest⟩ := h.remote a ha
    exact ⟨y, List.mem_cons_of_mem _ hy, hrest⟩
  remote_nodup := h.remote_nodup
  staging_nodup := h.staging_nodup
  bounded := h.bounded

omit [DecidableEq ν] in
/-- Another number is still found. -/
theorem lookup_filter_ne {β : Type} (l : List (Nat × β)) {n m : Nat} (h : m ≠ n) :
    (l.filter fun y => y.1 ≠ n).lookup m = l.lookup m := by
  induction l with
  | nil => rfl
  | cons e es ih =>
    by_cases he : e.1 = n
    · have hm : (m == e.1) = false := beq_eq_false_iff_ne.mpr (he ▸ h)
      rw [List.filter_cons_of_neg (by simpa using he), ih, List.lookup_cons, hm]
    · rw [List.filter_cons_of_pos (by simpa using he), List.lookup_cons, List.lookup_cons, ih]

omit [DecidableEq ν] in
/-- A file that is moved. -/
theorem Adopted.move {d' : Disk ν} {content : List UInt8} (h : Adopted lossy done d adopted nextId)
    (hx : plainFile? lossy x = some content) (hnew : ∀ y ∈ done, y.1 ≠ x.1)
    (hstaging : d'.staging = (nextId + 1, content) :: d.staging.filter fun y => y.1 ≠ nextId + 1) :
    Adopted lossy (x :: done) d' (adopted ++ [{ remotePath := x.1, stagingPath := nextId + 1 }])
    (nextId + 1) where
  files y hy content' hfile := by
    obtain rfl | hy := List.mem_cons.mp hy
    · rw [hx] at hfile
      cases hfile
      exact ⟨_, List.mem_append_right _ (List.mem_singleton_self _), rfl, by simp [hstaging]⟩
    · obtain ⟨a, ha, hpath, hlookup⟩ := h.files y hy content' hfile
      refine ⟨a, List.mem_append_left _ ha, hpath, ?_⟩
      -- the number of the new staging file is larger than those before
      have hne : a.stagingPath ≠ nextId + 1 := by
        have := h.bounded a ha
        omega
      rw [hstaging, List.lookup_cons, beq_eq_false_iff_ne.mpr hne]
      exact (lookup_filter_ne _ hne).trans hlookup
  remote a ha := by
    obtain ha | ha := List.mem_append.mp ha
    · obtain ⟨y, hy, hrest⟩ := h.remote a ha
      exact ⟨y, List.mem_cons_of_mem _ hy, hrest⟩
    · rw [List.mem_singleton.mp ha]
      exact ⟨x, List.mem_cons_self .., by simp [hx], rfl⟩
  remote_nodup := by
    rw [List.map_append]
    -- no other adopted file has its path
    refine List.nodup_append.mpr ⟨h.remote_nodup, List.nodup_singleton _, fun p hp q hq => ?_⟩
    obtain ⟨a, ha, rfl⟩ := List.mem_map.mp hp
    obtain ⟨y, hy, -, hpath⟩ := h.remote a ha
    rw [List.mem_singleton.mp hq, hpath]
    exact hnew y hy
  staging_nodup := by
    rw [List.map_append]
    refine List.nodup_append.mpr ⟨h.staging_nodup, List.nodup_singleton _, fun p hp q hq => ?_⟩
    obtain ⟨a, ha, rfl⟩ := List.mem_map.mp hp
    have hle := h.bounded a ha
    rw [List.mem_singleton.mp hq]
    exact (Nat.lt_succ_of_le hle).ne
  bounded a ha := by
    obtain ha | ha := List.mem_append.mp ha
    · have := h.bounded a ha
      omega
    · rw [List.mem_singleton.mp ha]

/-- How the steps for the nodes `l` end, after those for `done`. -/
inductive Relocated (io : FolderIo ν) (lossy : ν → List Char) (folder : Folder ν) (l done : List (Node ν)) :
    Except (RelocateError ν) (List (AdoptedFile ν)) × Disk ν → Prop where
  | all {adopted : List (AdoptedFile ν)} {d : Disk ν} {nextId : Nat} :
      (∀ x ∈ l, faulty io lossy folder x = false) → Cleared io lossy folder (l ++ done) d →
      Adopted lossy (l ++ done) d adopted nextId → Relocated io lossy folder l done (.ok adopted, d)
  | upTo {l₁ l₂ : List (Node ν)} {x : Node ν} {e : RelocateError ν} {d : Disk ν} :
    l = l₁ ++ x :: l₂ → faulty io lossy folder x = true →
      (∀ y ∈ l₂, faulty io lossy folder y = false) → Cleared io lossy folder (l₂ ++ done) d →
      Relocated io lossy folder l done (.error e, d)

/-- One more node that makes no fault. -/
theorem Relocated.append {l : List (Node ν)} {r : Except (RelocateError ν) (List (AdoptedFile ν)) × Disk ν}
    (h : Relocated io lossy folder l (x :: done) r) (hx : faulty io lossy folder x = false) :
    Relocated io lossy folder (l ++ [x]) done r := by
  have hassoc : ∀ l : List (Node ν), l ++ x :: done = l ++ [x] ++ done := fun l => by simp
  cases h with
  | all hok hcleared hadopted =>
    rw [hassoc] at hcleared hadopted
    refine .all (fun y hy => ?_) hcleared hadopted
    obtain hy | hy := List.mem_append.mp hy
    · exact hok y hy
    · rw [List.mem_singleton.mp hy]
      exact hx
  | @upTo l₁ l₂ z e d hl hz hok hcleared =>
    rw [hassoc] at hcleared
    refine @Relocated.upTo _ _ _ _ _ _ _ l₁ (l₂ ++ [x]) z _ _ (by simp [hl]) hz (fun y hy => ?_) hcleared
    obtain hy | hy := List.mem_append.mp hy
    · exact hok y hy
    · rw [List.mem_singleton.mp hy]
      exact hx

/-- The steps, from the last node that was met to the first. -/
theorem relocateFrom_spec (hscan : Scannable io lossy folder) {l : List (Node ν)}
    (hwalk : walk lossy folder = l ++ done) (h : Cleared io lossy folder done d)
    (ha : Adopted lossy done d adopted nextId) :
    Relocated io lossy folder l done (relocateFrom io (l.map (entryOf lossy)).reverse d adopted nextId) := by
  -- the walk is undone from its end, so that a directory is empty when its turn comes
  induction l using List.reverseRecOn generalizing done d adopted nextId with
  | nil => exact .all nofun h ha
  | append_singleton l x ih =>
    have hwalk' : walk lossy folder = l ++ x :: done := by simp [hwalk]
    have hx : x ∈ walk lossy folder := by simp [hwalk']
    rw [List.map_append, List.reverse_append, List.map_singleton, List.reverse_singleton, List.singleton_append]
    cases hjunk : isJunk lossy x with
    | true =>
      -- junk is removed, and whether that succeeds is not asked
      have hentry : entryOf lossy x = .junk x.1 := by simp [entryOf, hjunk]
      obtain ⟨hcleared, hstaging⟩ := h.removeFile hwalk' hjunk
      rw [hentry, relocateFrom]
      refine (ih hwalk' hcleared (ha.skip ?_ hstaging)).append ?_
      · simp [plainFile?, hjunk]
      · simp [faulty, hjunk]
    | false =>
      have hstays : stays io lossy x = false := by simp [stays, hjunk]
      cases hkind : x.2 with
      | none =>
        -- a directory, which can be removed if it is empty
        have hentry : entryOf lossy x = .dir x.1 := by simp [entryOf, hjunk, hkind]
        rw [hentry, relocateFrom, removeDir_eq h hwalk' hjunk hkind]
        cases hfaulty : faulty io lossy folder x with
        | true => exact .upTo rfl hfaulty nofun h
        | false =>
          refine (ih hwalk' (h.without hx hstays) (ha.skip ?_ rfl)).append hfaulty
          simp [plainFile?, hkind]
      | some leaf =>
        cases leaf with
        | other =>
          -- neither a file nor a directory: the scan would have refused it unless it is junk
          rw [isJunk_of_other hscan.readable hx hkind] at hjunk
          cases hjunk
        | file content =>
          -- a file moves to the staging area
          have hentry : entryOf lossy x = .file x.1 := by simp [entryOf, hjunk, hkind]
          have hfile : plainFile? lossy x = some content := by simp [plainFile?, hjunk, hkind]
          rw [hentry, relocateFrom, renameToStaging_eq h hwalk' hfile]
          cases hfaulty : faulty io lossy folder x with
          | true => exact .upTo rfl hfaulty nofun h
          | false =>
            have hnew : ∀ y ∈ done, y.1 ≠ x.1 := by
              intro y hy heq
              have hmem : y ∈ walk lossy folder := by simp [hwalk', hy]
              have hyx := Forest.eq_of_mem_nodes folder.distinct (mem_walk_nodes hmem) (mem_walk_nodes hx) heq
              exact notMem_of_walk hwalk' (hyx ▸ hy)
            have hcleared : Cleared io lossy folder (x :: done) { d.without x.1 with
                staging := (nextId + 1, content) :: d.staging.filter fun y => y.1 ≠ nextId + 1 } :=
              h.without hx hstays
            exact (ih hwalk' hcleared (ha.move hfile hnew rfl)).append hfaulty

/-! ## All or nothing -/

/-- The mount point is gone through because an earlier session was mounted there. -/
structure Adopts (start : StartIo) (folder : Folder ν) : Prop where
  notMounted : start.stale = true ∨ start.live = false
  created : start.created = true
  readable : start.readable = true
  notEmpty : folder.entries.names ≠ [] ∨ start.firstFails = true
  owned : start.owned = true

/-- Either every plain file is in its own staging file, under its path, and the mount point is empty; or
    every one is where it was. -/
def AllOrNothing (lossy : ν → List Char) (folder : Folder ν) :
    Except (PrepareError ν) (List (AdoptedFile ν)) × Disk ν → Prop
  | (.ok adopted, d) =>
    d.mount = [] ∧
      (∀ x ∈ folder.entries.nodes [], ∀ content, plainFile? lossy x = some content →
        ∃ a ∈ adopted, a.remotePath = x.1 ∧ d.staging.lookup a.stagingPath = some content) ∧
      (∀ a ∈ adopted, ∃ x ∈ folder.entries.nodes [], (plainFile? lossy x).isSome ∧ a.remotePath = x.1) ∧
      (adopted.map (·.remotePath)).Nodup ∧ (adopted.map (·.stagingPath)).Nodup
  | (.error _, d) => ∀ x ∈ folder.entries.nodes [], (plainFile? lossy x).isSome → x ∈ d.mount

/-- Nothing fails that is tried, and no junk stays at the top. -/
def NothingFails (io : FolderIo ν) (lossy : ν → List Char) (folder : Folder ν) : Prop :=
  (∀ x ∈ walk lossy folder, faulty io lossy folder x = false) ∧
    ∀ x ∈ walk lossy folder, x.1.length = 1 → stays io lossy x = false

/-- Some step fails, with no plain file among the nodes that are met later. -/
def FailsFirst (io : FolderIo ν) (lossy : ν → List Char) (folder : Folder ν) : Prop :=
  ∃ l x l', walk lossy folder = l ++ x :: l' ∧ faulty io lossy folder x = true ∧
    ∀ y ∈ l', plainFile? lossy y = none

variable {staging : List (Nat × List UInt8)} {start : StartIo}

omit [DecidableEq ν] in
/-- A forest without names has no nodes. -/
theorem names_eq_nil_iff {f : Forest ν Leaf} : f.names = [] ↔ f.nodes [] = [] := by
  cases f <;> simp [Forest.names, nodes]

omit [DecidableEq ν] in
/-- A folder that was not touched still has everything. -/
theorem allOrNothing_untouched (folder : Folder ν) (e : PrepareError ν) :
    AllOrNothing lossy folder (.error e, folder.disk staging) := fun _ hx _ => hx

/-- Where nothing is adopted, the folder is left alone. -/
theorem allOrNothing_of_not_adopts (h : ¬ Adopts start folder) :
    AllOrNothing lossy folder (prepareMountPoint io lossy start folder staging) := by
  unfold prepareMountPoint
  dsimp only
  split
  · exact allOrNothing_untouched _ _
  · rename_i hmounted
    split
    · exact allOrNothing_untouched _ _
    · rename_i hcreated
      split
      · exact allOrNothing_untouched _ _
      · rename_i hreadable
        split
        · -- an empty folder: nothing has to be adopted
          rename_i hempty
          simp only [Bool.and_eq_true, List.isEmpty_iff] at hempty
          have hnodes := names_eq_nil_iff.mp hempty.1
          refine ⟨hnodes, fun x hx => ?_, nofun, List.nodup_nil, List.nodup_nil⟩
          rw [hnodes] at hx
          cases hx
        · rename_i hempty
          split
          · exact allOrNothing_untouched _ _
          · rename_i howned
            refine absurd ⟨?_, by simpa using hcreated, by simpa using hreadable, ?_, by simpa using howned⟩ h
            · cases hstale : start.stale <;> simp_all
            · cases hfirst : start.firstFails <;> simp_all

/-- A mount point that is gone through. -/
theorem prepareMountPoint_of_adopts (h : Adopts start folder) :
    prepareMountPoint io lossy start folder staging =
      match scanLeftovers io lossy folder.entries with
      | .error e => (.error (.notAdopted e), folder.disk staging)
      | .ok leftovers =>
        match relocateLeftovers io leftovers (folder.disk staging) with
        | (.error e, d) => (.error (.relocate e), d)
        | (.ok adopted, d) => (.ok adopted, d) := by
  have hmounted : (!start.stale && start.live) = false := by
    obtain hstale | hlive := h.notMounted
    · simp [hstale]
    · simp [hlive]
  have hempty : (folder.entries.names.isEmpty && !start.firstFails) = false := by
    obtain hnames | hfirst := h.notEmpty
    · simp [hnames]
    · simp [hfirst]
  unfold prepareMountPoint
  cases scanLeftovers io lossy folder.entries with
  | error e => simp [hmounted, hempty, h.created, h.readable, h.owned]
  | ok leftovers =>
    cases hmoved : relocateLeftovers io leftovers (folder.disk staging) with
    | mk res d => cases res <;> simp [hmounted, hempty, h.created, h.readable, h.owned, hmoved]

/-- At the start everything is there. -/
theorem cleared_start : Cleared io lossy folder [] (folder.disk staging) := by
  simp [Cleared, Folder.disk]

omit [DecidableEq ν] in
/-- A file that is adopted is no junk. -/
theorem plainFile?_isJunk (h : (plainFile? lossy x).isSome) : isJunk lossy x = false := by
  unfold plainFile? at h
  split at h
  · cases h
  · rename_i hjunk
    simpa using hjunk

omit [DecidableEq ν] in
/-- What stays is junk. -/
theorem isJunk_of_stays (h : stays io lossy x = true) : isJunk lossy x = true := by
  rw [stays, Bool.and_eq_true] at h
  exact h.1

/-- With nothing that fails no junk stays at all. -/
theorem NothingFails.stays_eq_false (h : NothingFails io lossy folder) (hx : x ∈ walk lossy folder) :
    stays io lossy x = false := by
  obtain ⟨n, hn⟩ | ⟨y, hy, hdir, hstop, habove⟩ := Forest.exists_parent hx
  · exact h.2 x hx (by simp [hn])
  · -- the directory it is in would not be removed
    rw [← Bool.not_eq_true]
    intro hstays
    have hfaulty := h.1 y hy
    have hany : ((walk lossy folder).any fun z => stays io lossy z && y.1.isPrefixOf z.1) = true :=
      List.any_eq_true.mpr ⟨x, hx, by simp [hstays, habove]⟩
    rw [faulty, hdir] at hfaulty
    simp only [hany] at hfaulty
    simp [isJunk, hstop] at hfaulty

/-- Where nothing fails a walk finds every node. -/
theorem NothingFails.mem_walk (h : NothingFails io lossy folder) (hx : x ∈ folder.entries.nodes []) :
    x ∈ walk lossy folder := by
  obtain hx | ⟨y, hy, hdir, hstop, -⟩ := Forest.visited_or_below_stop hx
  · exact hx
  · have hstays := h.stays_eq_false hy
    simp [stays, isJunk, hstop, hdir] at hstays

/-- Of two places in a list, one with a failing step and nothing that fails after it. -/
theorem mem_of_split {α : Type} {l₁ l₂ l₁' l₂' : List α} {x x' : α} {P : α → Prop}
    (h : l₁ ++ x :: l₂ = l₁' ++ x' :: l₂') (hx : P x) (hok : ∀ y ∈ l₂', ¬ P y) : ∀ y ∈ l₂', y ∈ l₂ := by
  obtain ⟨a, -, ha⟩ | ⟨c, -, hc⟩ := List.append_eq_append_iff.mp h
  · cases a with
    | nil =>
      obtain ⟨-, rfl⟩ := List.cons.inj ha
      exact fun _ hy => hy
    | cons b a =>
      obtain ⟨-, rfl⟩ := List.cons.inj ha
      exact fun y hy => by simp [hy]
  · cases c with
    | nil =>
      obtain ⟨-, rfl⟩ := List.cons.inj hc
      exact fun _ hy => hy
    | cons b c =>
      obtain ⟨-, rfl⟩ := List.cons.inj hc
      exact absurd hx (hok x (by simp))

/-- Leftovers are taken over together or not at all if and only if the mount point is not gone through or
    is turned down, nothing fails, or something fails before any file is moved. -/
theorem adopts_all_or_nothing_iff (io : FolderIo ν) (lossy : ν → List Char) (start : StartIo)
    (folder : Folder ν)
    (staging : List (Nat × List UInt8)) :
    AllOrNothing lossy folder (prepareMountPoint io lossy start folder staging) ↔
      ¬ Adopts start folder ∨ ¬ Scannable io lossy folder ∨ NothingFails io lossy folder ∨
        FailsFirst io lossy folder := by
  by_cases hadopts : Adopts start folder
  swap
  · exact iff_of_true (allOrNothing_of_not_adopts hadopts) (.inl hadopts)
  rw [prepareMountPoint_of_adopts hadopts]
  by_cases hscan : Scannable io lossy folder
  swap
  · refine iff_of_true ?_ (.inr (.inl hscan))
    cases hresult : scanLeftovers io lossy folder.entries with
    | error e => exact allOrNothing_untouched _ _
    | ok leftovers => exact absurd (scanLeftovers_ok_iff.mp hresult).1 hscan
  rw [scanLeftovers_ok_iff.mpr ⟨hscan, rfl⟩]
  simp only [hadopts, hscan, not_true_eq_false, false_or]
  have hspec : Relocated io lossy folder (walk lossy folder) []
      (relocateLeftovers io ((walk lossy folder).map (entryOf lossy)) (folder.disk staging)) :=
    relocateFrom_spec hscan (List.append_nil _).symm cleared_start (.nil _)
  generalize relocateLeftovers io ((walk lossy folder).map (entryOf lossy)) (folder.disk staging) = r at hspec ⊢
  cases hspec with
  | @all adopted d nextId hok hcleared hadopted =>
    -- every node was handled: the folder is empty exactly when nothing stays
    rw [List.append_nil] at hcleared hadopted
    constructor
    · intro ⟨hempty, _⟩
      refine .inl ⟨hok, fun x hx _ => ?_⟩
      rw [← Bool.not_eq_true]
      intro hstays
      have hmem := hcleared.mem_iff.mpr ⟨mem_walk_nodes hx, .inr hstays⟩
      rw [hempty] at hmem
      cases hmem
    · intro h
      obtain h | ⟨l, x, l', hsplit, hx, -⟩ := h
      · refine ⟨?_, fun x hx => hadopted.files x (h.mem_walk hx), fun a ha => ?_, hadopted.remote_nodup,
          hadopted.staging_nodup⟩
        · rw [List.eq_nil_iff_forall_not_mem]
          intro x hx
          obtain ⟨hnodes, hleft⟩ := hcleared.mem_iff.mp hx
          have hmem := h.mem_walk hnodes
          rw [h.stays_eq_false hmem] at hleft
          exact hleft.elim (fun hnot => hnot hmem) Bool.false_ne_true
        · obtain ⟨x, hx, hrest⟩ := hadopted.remote a ha
          exact ⟨x, mem_walk_nodes hx, hrest⟩
      · rw [hok x (by simp [hsplit])] at hx
        cases hx
  | @upTo l₁ l₂ x e d hl hx hok hcleared =>
    -- it stopped at `x`: nothing is lost only if no file had been moved before
    rw [List.append_nil] at hcleared
    have hx_mem : x ∈ walk lossy folder := by simp [hl]
    constructor
    · intro h
      refine .inr ⟨l₁, x, l₂, hl, hx, fun y hy => ?_⟩
      -- a file among the nodes that were handled is gone
      rw [← Option.not_isSome_iff_eq_none]
      intro hfile
      have hy_mem : y ∈ walk lossy folder := by simp [hl, hy]
      obtain ⟨-, hleft⟩ := hcleared.mem_iff.mp (h y (mem_walk_nodes hy_mem) hfile)
      obtain hnot | hstays := hleft
      · exact hnot hy
      · have hjunk := isJunk_of_stays hstays
        rw [plainFile?_isJunk hfile] at hjunk
        cases hjunk
    · intro h
      obtain h | ⟨l, z, l', hsplit, hz, hnone⟩ := h
      · rw [h.1 x hx_mem] at hx
        cases hx
      · -- the first fault is the one that it stopped at
        have hsub : ∀ y ∈ l₂, y ∈ l' :=
          mem_of_split (P := fun y => faulty io lossy folder y = true) (hsplit.symm.trans hl) hz
            (fun y hy => by simp [hok y hy])
        intro y hy hfile
        refine hcleared.mem_iff.mpr ⟨hy, .inl fun hy => ?_⟩
        rw [hnone y (hsub y hy)] at hfile
        cases hfile

/-! ## A folder that is left -/

/-- A junk directory with a file in it, beside a file. -/
def junkFolder : Folder String where
  entries := .branch ".goutputstream-A" (.leaf "notes.txt" (.file [1]) .nil) (.leaf "b.txt" (.file [2]) .nil)
  distinct := by simp [Forest.Distinct, Forest.names]

/-- Two files. -/
def twoFiles : Folder String where
  entries := .leaf "a.txt" (.file [1]) (.leaf "b.txt" (.file [2]) .nil)
  distinct := by simp [Forest.Distinct, Forest.names]

/-- The mount point is reported ready with a directory and a file in it; and where the second of two moves
    fails, the first file is gone. -/
theorem junk_directory_is_left :
    prepareMountPoint {} String.toList {} junkFolder [] =
        (.ok [⟨["b.txt"], 1⟩], { mount := [([".goutputstream-A"], none),
          ([".goutputstream-A", "notes.txt"], some (.file [1]))], staging := [(1, [2])] }) ∧
      prepareMountPoint { renameFails := fun p => p = ["a.txt"] } String.toList {} twoFiles [] =
        (.error (.relocate (.failedToAdopt ["a.txt"])),
          { mount := [(["a.txt"], some (.file [1]))], staging := [(1, [2])] }) := by
  decide

end Leftovers

end Ncrs
