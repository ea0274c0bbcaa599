import Ncrs.Native.FuseDispatch
import Ncrs.Spec.FuseSchedCorrect

/-!
# Requests inside a moved folder

A rename is queued on the inode it moves, exclusively, and so is every inode under its folder that
was busy; a request inside a registered move is queued on the moved inode as well. So the two clash
in the scheduler, which runs clashing tasks in the order they came in.

The moves are registered by path. Another rename, of a folder above, can re-point the table while
the first one waits: its folder is then somewhere else, and the registered path names nothing.

## Key results

- `Request.busy_clashes`: a rename clashes with what is in flight under its folder
- `orderUnderMoves_clashes`: a request inside a registered move clashes with the rename
- `SchedFs.Inv.step`: in every state, what a request must wait for clashes with it
- `SchedFs.moves_are_not_overlapped`: over all runs, while registered paths stay true
-/

namespace Ncrs

namespace FuseDispatch

open FuseSched (Mode Happening Clash)

variable {c : FsCache} {busy : List Key} {listed : Bool} {req : Request}

/-! ## Keys -/

/-- The inodes a request names are those it has keys of. -/
theorem mem_named {i : Nat} : i ∈ req.named c ↔ .ino i ∈ (req.keys c [] true).map (·.1) := by
  unfold Request.named
  rw [List.mem_filterMap, List.mem_map]
  refine exists_congr fun x => and_congr_right fun _ => ?_
  obtain ⟨k, m⟩ := x
  cases k with
  | ino n => simp
  | fh n => simp

/-- What a request names it brings a key of. -/
theorem Request.named_keys {i : Nat} (hi : i ∈ req.named c) : ∃ m, (.ino i, m) ∈ req.keys c busy listed := by
  have hkey : .ino i ∈ (req.keys c busy listed).map (·.1) := by
    rw [mem_named] at hi
    cases req with
    | lookup parent name => exact hi
    | rename parent name newparent newname =>
      simp only [Request.keys, renameKeys, List.map_append, List.mem_append] at hi ⊢
      refine hi.imp id fun hnone => ?_
      split at hnone <;> simp [busyUnder] at hnone
    | _ => exact hi
  obtain ⟨x, hx, hxi⟩ := List.mem_map.mp hkey
  exact ⟨x.2, hxi ▸ hx⟩

/-- What a rename registers is what it moves. -/
theorem Request.tree_eq_some {ino : Nat} {src dst : PathBuf} (h : req.tree c = some (ino, src, dst)) :
    (.ino ino, .exclusive) ∈ req.keys c busy listed := by
  cases req with
  | rename parent name newparent newname =>
    simp only [Request.tree] at h
    split at h
    · rename_i ino' src' dst' hino hsrc hdst
      obtain ⟨rfl, -, -⟩ := Prod.mk.inj (Option.some.inj h)
      simp [Request.keys, renameKeys, hino]
    · cases h
  | _ => cases h

/-- A rename of a known folder takes what is busy under it for itself. -/
theorem Request.busy_key {parent newparent : Nat} {name newname : String} {base : PathBuf} {i : Nat}
    (hknown : (child c parent name).isSome) (hbase : entryPath c parent name = some base)
    (hbusy : .ino i ∈ busy) (hunder : under c base i = true) :
    (.ino i, .exclusive) ∈ (Request.rename parent name newparent newname).keys c busy listed := by
  obtain ⟨src, hsrc⟩ := Option.isSome_iff_exists.mp hknown
  show (.ino i, .exclusive) ∈ renameKeys c busy parent name newparent newname
  by_cases hi : i = src
  · simp [renameKeys, hsrc, hi]
  · have hmem : (Key.ino i, Mode.exclusive) ∈ busyUnder c src base busy := by
      refine List.mem_filterMap.mpr ⟨.ino i, hbusy, ?_⟩
      exact if_pos ⟨hi, hunder⟩
    simp only [renameKeys, hsrc, hbase, List.mem_append]
    exact .inr hmem

/-- Ordering a request under the moves adds keys and drops none. -/
theorem subset_orderUnderMoves (moves : Moves) {keys : List (Key × Mode)} {x : Key × Mode} (hx : x ∈ keys) :
    x ∈ orderUnderMoves c moves keys := List.mem_append_left _ hx

/-- A request inside a registered move is queued on the moved inode. -/
theorem mem_orderUnderMoves {moves : Moves} {keys : List (Key × Mode)} {i : Nat} {m : Mode} {v : Move}
    (hi : (.ino i, m) ∈ keys) (hv : v ∈ moves.live) (hunder : under c v.src i = true ∨ under c v.dst i = true) :
    (.ino v.ino, .shared) ∈ orderUnderMoves c moves keys := by
  refine List.mem_append_right _ (List.mem_flatMap.mpr ⟨(.ino i, m), hi, ?_⟩)
  refine List.mem_map.mpr ⟨v, List.mem_filter.mpr ⟨hv, ?_⟩, rfl⟩
  rw [Bool.or_eq_true]
  exact hunder

/-- A clash stays one when keys are added. -/
theorem clash_append_right {a b b' : List (Key × Mode)} (h : Clash a b) (hb : ∀ x ∈ b, x ∈ b') :
    Clash a b' := by
  obtain ⟨k, m, n, hm, hn, hstrong⟩ := h
  exact ⟨k, m, n, hm, hb _ hn, hstrong⟩

/-- Whether the path registered for the folder the rename moves now is the one it has. -/
def RenameJob.registeredAt (r : RenameJob) (c : FsCache) : Bool :=
  r.done.any fun v => r.folder c = some (if r.moved then v.dst else v.src)

/-! ## The invariant -/

namespace SchedFs

variable {s s' : SchedFs} {p : Placed}

/-- A request on its way to the scheduler: it brings a key of every inode it names, a rename's
    `Move` is its own and still there, and what it must wait for has been submitted and clashes
    with it. -/
structure Pending (s : SchedFs) (p : Placed) : Prop where
  named : ∀ i ∈ p.named, ∃ m, (.ino i, m) ∈ p.keys
  live : ∀ v, p.done = some v → v ∈ s.moves.live
  taken : ∀ v, p.done = some v → (.ino v.ino, .exclusive) ∈ p.keys
  bounded : ∀ v, p.done = some v → v.id ≤ s.moves.nextId
  fresh : ∀ r ∈ s.renames, ∀ v w, r.done = some v → p.done = some w → v.id ≠ w.id
  after : ∀ t ∈ p.ahead ++ p.behind, ∃ keys, (t, keys) ∈ s.run.submitted ∧ Clash keys p.keys

/-- What the dispatch thread goes by still holds: every key of a task in flight is among the busy
    ones it has read. -/
def Standing (s : SchedFs) : Thread → Prop
  | .idle => True
  | .arrived _ busy _ => ∀ n keys, (n, keys) ∈ s.run.submitted → .completed n ∉ s.run.log →
      ∀ x ∈ keys, x.1 ∈ busy
  | .keyed p => s.Pending p
  | .ordered p => s.Pending p

/-- A request that was submitted: what it must wait for came in before it and clashes with it. -/
structure Queued (s : SchedFs) (task : Nat) (p : Placed) : Prop where
  submitted : (task, p.keys) ∈ s.run.submitted
  named : ∀ i ∈ p.named, ∃ m, (.ino i, m) ∈ p.keys
  after : ∀ t ∈ p.ahead ++ p.behind, ∃ keys, (t, keys) ∈ s.run.submitted ∧ t < task ∧ Clash keys p.keys

/-- The invariant of the dispatcher: renames are registered as long as they run and by numbers of
    their own, and every request waits for what it must. -/
structure Inv (s : SchedFs) : Prop where
  run : s.run.Inv
  /-- A rename is registered until its job has ended. -/
  live : ∀ r ∈ s.renames, r.ended = false → ∀ v, r.done = some v → v ∈ s.moves.live
  taken : ∀ r ∈ s.renames, ∀ v, r.done = some v →
    ∃ keys, (r.task, keys) ∈ s.run.submitted ∧ (.ino v.ino, .exclusive) ∈ keys
  bounded : ∀ r ∈ s.renames, ∀ v, r.done = some v → v.id ≤ s.moves.nextId
  inj : ∀ r ∈ s.renames, ∀ r' ∈ s.renames, ∀ v v', r.done = some v → r'.done = some v' →
    v.id = v'.id → r.task = r'.task
  served : ∀ x ∈ s.served, s.Queued x.1 x.2
  thread : s.Standing s.thread

/-- A daemon that starts meets the invariant. -/
theorem Inv.init (c : FsCache) : Inv { cache := c } where
  run := FuseSched.Run.Inv.empty
  live := fun _ h => (by cases h)
  taken := fun _ h => (by cases h)
  bounded := fun _ h => (by cases h)
  inj := fun _ h => (by cases h)
  served := fun _ h => (by cases h)
  thread := trivial

/-! ### The workers -/

/-- What the workers do: tasks start and complete, jobs of renames go on, and only a job that has
    ended takes its `Move` off. -/
structure Works (s s' : SchedFs) : Prop where
  submitted : s'.run.submitted = s.run.submitted
  log : ∀ x ∈ s.run.log, x ∈ s'.run.log
  nextId : s'.moves.nextId = s.moves.nextId
  renames : ∀ r' ∈ s'.renames, ∃ r ∈ s.renames, r'.task = r.task ∧ r'.done = r.done ∧
    (r'.ended = false → r.ended = false)
  live : ∀ v ∈ s.moves.live, v ∈ s'.moves.live ∨ ∃ r ∈ s.renames, (∃ d, r.done = some d ∧ d.id = v.id) ∧
    ∀ r' ∈ s'.renames, r'.task = r.task → r'.ended = true
  thread : s'.thread = s.thread
  served : s'.served = s.served

/-- What the workers do leaves a request on its way as it is. -/
theorem Pending.works (h : s.Pending p) (hw : Works s s') : s'.Pending p where
  named := h.named
  live v hv := by
    rcases hw.live v (h.live v hv) with hlive | ⟨r, hr, ⟨d, hd, hid⟩, -⟩
    · exact hlive
    · exact absurd hid (h.fresh r hr d v hd hv)
  taken := h.taken
  bounded v hv := by
    rw [hw.nextId]
    exact h.bounded v hv
  fresh r' hr' v w hv hp := by
    obtain ⟨r, hr, -, hdone, -⟩ := hw.renames r' hr'
    exact h.fresh r hr v w (hdone ▸ hv) hp
  after := by
    rw [hw.submitted]
    exact h.after

/-- What the workers do leaves the dispatch thread as it is. -/
theorem Standing.works {t : Thread} (h : s.Standing t) (hw : Works s s') : s'.Standing t := by
  cases t with
  | idle => trivial
  | arrived req busy listed =>
    intro n keys hn hlive
    rw [hw.submitted] at hn
    exact h n keys hn fun hdone => hlive (hw.log _ hdone)
  | keyed p => exact Pending.works h hw
  | ordered p => exact Pending.works h hw

/-- More submissions leave a submitted request as it was. -/
theorem Queued.of_submitted {task : Nat} (h : s.Queued task p)
    (hsub : ∀ x ∈ s.run.submitted, x ∈ s'.run.submitted) : s'.Queued task p := by
  refine ⟨hsub _ h.submitted, h.named, fun t ht => ?_⟩
  obtain ⟨keys, hkeys, hlt, hclash⟩ := h.after t ht
  exact ⟨keys, hsub _ hkeys, hlt, hclash⟩

theorem Inv.works (h : s.Inv) (hw : Works s s') (hrun : s'.run.Inv) : s'.Inv where
  run := hrun
  live r' hr' hended v hv := by
    obtain ⟨r, hr, htask, hdone, hstill⟩ := hw.renames r' hr'
    have hv : r.done = some v := hdone ▸ hv
    rcases hw.live v (h.live r hr (hstill hended) v hv) with hlive | ⟨r₂, hr₂, ⟨d, hd, hid⟩, hend⟩
    · exact hlive
    · -- the `Move` taken off is the one of a job that has ended, and no other job has its id
      have hsame : r₂.task = r.task := h.inj r₂ hr₂ r hr d v hd hv hid
      rw [hend r' hr' (htask.trans hsame.symm)] at hended
      cases hended
  taken r' hr' v hv := by
    obtain ⟨r, hr, htask, hdone, -⟩ := hw.renames r' hr'
    rw [hw.submitted, htask]
    exact h.taken r hr v (hdone ▸ hv)
  bounded r' hr' v hv := by
    obtain ⟨r, hr, -, hdone, -⟩ := hw.renames r' hr'
    rw [hw.nextId]
    exact h.bounded r hr v (hdone ▸ hv)
  -- the jobs are those from before, so their moves still have numbers of their own
  inj r₁ hr₁ r₂ hr₂ v w hv hw' hid := by
    obtain ⟨q₁, hq₁, htask₁, hdone₁, -⟩ := hw.renames r₁ hr₁
    obtain ⟨q₂, hq₂, htask₂, hdone₂, -⟩ := hw.renames r₂ hr₂
    rw [htask₁, htask₂]
    exact h.inj q₁ hq₁ q₂ hq₂ v w (hdone₁ ▸ hv) (hdone₂ ▸ hw') hid
  served x hx := by
    rw [hw.served] at hx
    exact (h.served x hx).of_submitted fun y hy => hw.submitted.symm ▸ hy
  thread := by
    rw [hw.thread]
    exact h.thread.works hw

/-- Nothing but the table or a listing changes. -/
theorem Works.cache (s : SchedFs) (c : FsCache) : Works s { s with cache := c } where
  submitted := rfl
  log _ hx := hx
  nextId := rfl
  renames r hr := ⟨r, hr, rfl, rfl, id⟩
  live _ hv := .inl hv
  thread := rfl
  served := rfl

/-- A task starts or completes. -/
theorem Works.run (s : SchedFs) {run : FuseSched.Run Key} (hsub : run.submitted = s.run.submitted)
    (hlog : ∀ x ∈ s.run.log, x ∈ run.log) : Works s { s with run } where
  submitted := hsub
  log := hlog
  nextId := rfl
  renames r hr := ⟨r, hr, rfl, rfl, id⟩
  live _ hv := .inl hv
  thread := rfl
  served := rfl

/-- A job after the update is one from before, updated if it is the one. -/
theorem mem_updateJob {task : Nat} {f : RenameJob → RenameJob} {r' : RenameJob}
    (h : r' ∈ (s.updateJob task f).renames) :
    ∃ r ∈ s.renames, r' = if r.task = task then f r else r := by
  obtain ⟨r, hr, hf⟩ := List.mem_map.mp h
  exact ⟨r, hr, hf.symm⟩

/-- The job of a task is among the jobs, with that task. -/
theorem job?_mem {task : Nat} {r : RenameJob} (h : s.job? task = some r) : r ∈ s.renames ∧ r.task = task :=
  ⟨List.mem_of_find?_eq_some h, by simpa using List.find?_some h⟩

/-- Re-pointing inodes is work of a worker. -/
theorem Works.repoint {r : RenameJob} {movedDir : Bool} (h : s.repoint r movedDir = some s') : Works s s' := by
  unfold SchedFs.repoint at h
  split at h
  · obtain rfl := Option.some.inj h
    refine ⟨rfl, fun _ hx => hx, rfl, fun r' hr' => ?_, fun _ hv => .inl hv, rfl, rfl⟩
    obtain ⟨q, hq, rfl⟩ := mem_updateJob hr'
    refine ⟨q, hq, ?_⟩
    split <;> simp
  · cases h

/-- The end of a rename's job is work of a worker. -/
theorem Works.moveDone {task : Nat} {r : RenameJob} (h : s.job? task = some r) :
    Works s { s.updateJob task (fun r => { r with ended := true }) with moves := s.moves.finish r.done } := by
  obtain ⟨hr, htask⟩ := job?_mem h
  refine ⟨rfl, fun _ hx => hx, ?_, fun r' hr' => ?_, fun v hv => ?_, rfl, rfl⟩
  · show (s.moves.finish r.done).nextId = s.moves.nextId
    cases r.done <;> rfl
  · obtain ⟨q, hq, rfl⟩ := mem_updateJob hr'
    refine ⟨q, hq, ?_⟩
    split <;> simp
  · show v ∈ (s.moves.finish r.done).live ∨ _
    cases hdone : r.done with
    | none => exact .inl hv
    | some d =>
      by_cases hid : v.id = d.id
      · refine .inr ⟨r, hr, ⟨d, hdone, hid.symm⟩, fun r' hr' heq => ?_⟩
        obtain ⟨q, hq, rfl⟩ := mem_updateJob hr'
        split at heq
        · rename_i hqt
          rw [if_pos hqt]
        · rename_i hqt
          exact absurd (heq.trans htask) hqt
      · exact .inl (List.mem_filter.mpr ⟨hv, decide_eq_true hid⟩)

/-! ### The dispatch thread -/

/-- Every key of a task in flight is busy. -/
theorem Inv.arrive (h : s.Inv) (req : Request) (listed : Bool) :
    ({ s with thread := .arrived req s.run.sched.busyKeys listed } : SchedFs).Inv := by
  refine ⟨h.run, h.live, h.taken, h.bounded, h.inj, ?_, ?_⟩
  · exact fun x hx => (h.served x hx).of_submitted fun _ hy => hy
  · intro n keys hn hlive x hx
    obtain hdone | ⟨u, hu, -, hkeys⟩ := h.run.live n keys hn
    · exact absurd hdone hlive
    · refine List.mem_flatMap.mpr ⟨u, hu, ?_⟩
      rw [hkeys, FuseSched.mergeKeys_eq, KeyedQueues.key_mem_mergeAll]
      exact List.mem_map_of_mem hx

/-- The source of a rename has an inode whenever a request is in flight under it. -/
def sourceKnown (s : SchedFs) (req : Request) : Bool :=
  (s.ahead req).isEmpty || ((req.source s.cache).bind s.cache.paths).isSome

/-- A rename clashes with every request that is in flight under the folder it moves. -/
theorem Inv.ahead_clashes (h : s.Inv) {req : Request} {busy : List Key} {listed : Bool}
    (hthread : s.thread = .arrived req busy listed) (hknown : s.sourceKnown req = true) {t : Nat}
    (ht : t ∈ s.ahead req) :
    ∃ keys, (t, keys) ∈ s.run.submitted ∧ Clash keys (req.keys s.cache busy listed) := by
  -- the source is known: otherwise nothing is ahead of the request
  have hknown : ((req.source s.cache).bind s.cache.paths).isSome := by
    rcases Bool.or_eq_true_iff.mp hknown with hnone | hknown
    · rw [List.isEmpty_iff.mp hnone] at ht
      cases ht
    · exact hknown
  unfold SchedFs.ahead at ht
  cases req with
  | rename parent name newparent newname =>
    cases hbase : entryPath s.cache parent name with
    | none => simp [Request.source, hbase] at ht
    | some base =>
      simp only [Request.source, hbase] at ht hknown
      obtain ⟨x, hx, rfl⟩ := List.mem_map.mp ht
      obtain ⟨hx, hin⟩ := List.mem_filter.mp hx
      -- an inode of the task lies below the source
      rw [Bool.and_eq_true, decide_eq_true_eq, List.any_eq_true] at hin
      obtain ⟨hlive, i, hi, hunder⟩ := hin
      have hq := h.served x hx
      obtain ⟨m, hm⟩ := hq.named i hi
      have hstanding := h.thread
      rw [hthread] at hstanding
      -- the task is in flight, so its keys are busy, and the rename takes that one
      have hbusy : .ino i ∈ busy := hstanding x.1 x.2.keys hq.submitted hlive _ hm
      have hchild : (child s.cache parent name).isSome := by
        unfold child
        rw [hbase]
        exact hknown
      exact ⟨x.2.keys, hq.submitted, .ino i, m, .exclusive, hm,
        Request.busy_key hchild hbase hbusy hunder, .inr rfl⟩
  -- only renames have requests ahead of them
  | _ => exact absurd ht List.not_mem_nil

theorem Inv.name (h : s.Inv) {req : Request} {busy : List Key} {listed : Bool}
    (hthread : s.thread = .arrived req busy listed) (hknown : s.sourceKnown req = true) :
    (s.nameInodes req busy listed).Inv := by
  -- registering the request's own tree keeps what was registered
  have hlive : ∀ v ∈ s.moves.live, v ∈ (s.moves.register (req.tree s.cache)).1.live := by
    intro v hv
    cases req.tree s.cache with
    | none => exact hv
    | some tree => exact List.mem_append_left _ hv
  have hnext : s.moves.nextId ≤ (s.moves.register (req.tree s.cache)).1.nextId := by
    cases req.tree s.cache with
    | none => exact Nat.le_refl _
    | some tree => exact Nat.le_succ _
  refine ⟨h.run, fun r hr hended v hv => hlive v (h.live r hr hended v hv), h.taken,
    fun r hr v hv => Nat.le_trans (h.bounded r hr v hv) hnext, h.inj, ?_, ?_⟩
  · exact fun x hx => (h.served x hx).of_submitted fun _ hy => hy
  · -- the request is placed with its keys, and what is ahead of it clashes with them
    have hafter : ∀ t ∈ s.ahead req ++ [], ∃ keys, (t, keys) ∈ s.run.submitted ∧
        Clash keys (req.keys s.cache busy listed) := by
      intro t ht
      rw [List.append_nil] at ht
      exact h.ahead_clashes hthread hknown ht
    cases htree : req.tree s.cache with
    | none =>
      -- no rename: there is no `Move` of its own
      have hnone : (s.moves.register (req.tree s.cache)).2 = none := by rw [htree]; rfl
      refine ⟨fun i hi => Request.named_keys hi, ?_, ?_, ?_, ?_, hafter⟩
      · exact fun v hv => absurd (hnone.symm.trans hv) (by simp)
      · exact fun v hv => absurd (hnone.symm.trans hv) (by simp)
      · exact fun v hv => absurd (hnone.symm.trans hv) (by simp)
      · exact fun _ _ _ w _ hw => absurd (hnone.symm.trans hw) (by simp)
    | some tree =>
      obtain ⟨ino, src, dst⟩ := tree
      -- a rename registers its tree under the next number
      have hdone : ∀ v, (s.moves.register (req.tree s.cache)).2 = some v →
          v = { id := s.moves.nextId + 1, ino, src, dst } := by
        intro v hv
        rw [htree] at hv
        exact (Option.some.inj hv).symm
      refine ⟨fun i hi => Request.named_keys hi, fun v hv => ?_, fun v hv => ?_, fun v hv => ?_,
        fun r hr v w hv hw => ?_, hafter⟩
      · obtain rfl := hdone v hv
        show _ ∈ (s.moves.register (req.tree s.cache)).1.live
        rw [htree]
        exact List.mem_append_right _ (List.mem_singleton_self _)
      · -- it takes the folder that moves exclusively
        obtain rfl := hdone v hv
        exact Request.tree_eq_some htree
      · obtain rfl := hdone v hv
        show _ ≤ (s.moves.register (req.tree s.cache)).1.nextId
        rw [htree]
        exact Nat.le_refl _
      · -- ids are handed out in order
        obtain rfl := hdone w hw
        have := h.bounded r hr v hv
        show v.id ≠ s.moves.nextId + 1
        omega

/-- The paths registered for a rename in flight are still those of its folder, for each one an inode
    the request names lies inside of. -/
def pathsKept (s : SchedFs) (named : List Nat) : Bool :=
  s.renames.all fun r => r.ended || !named.any (r.holds s.cache) || r.registeredAt s.cache

/-- A request clashes with every rename in flight whose folder it lies inside of. -/
theorem Inv.behind_clashes (h : s.Inv) (hnamed : ∀ i ∈ p.named, ∃ m, (.ino i, m) ∈ p.keys)
    (hkept : s.pathsKept p.named = true) {t : Nat} (ht : t ∈ s.behind p.named) :
    ∃ keys, (t, keys) ∈ s.run.submitted ∧ Clash keys (orderUnderMoves s.cache s.moves p.keys) := by
  obtain ⟨r, hr, rfl⟩ := List.mem_map.mp ht
  obtain ⟨hr, hin⟩ := List.mem_filter.mp hr
  rw [Bool.and_eq_true, Bool.not_eq_true'] at hin
  obtain ⟨hended, hin⟩ := hin
  have hreg : r.registeredAt s.cache = true := by
    simpa [hended, hin] using List.all_eq_true.mp hkept r hr
  obtain ⟨i, hi, hholds⟩ := List.any_eq_true.mp hin
  obtain ⟨v, hv, hfolder⟩ := (Option.any_eq_true _ _).mp hreg
  obtain ⟨m, hm⟩ := hnamed i hi
  obtain ⟨keys, hsub, hstrong⟩ := h.taken r hr v hv
  have hunder : under s.cache v.src i = true ∨ under s.cache v.dst i = true := by
    rw [RenameJob.holds, of_decide_eq_true hfolder] at hholds
    cases hmoved : r.moved with
    | false => exact .inl (by simpa [hmoved] using hholds)
    | true => exact .inr (by simpa [hmoved] using hholds)
  exact ⟨keys, hsub, .ino v.ino, .exclusive, .shared, hstrong,
    mem_orderUnderMoves hm (h.live r hr hended v hv) hunder, .inl rfl⟩

/-- A request is put behind the moves it lies inside of. -/
theorem Inv.order (h : s.Inv) (hthread : s.thread = .keyed p) (hkept : s.pathsKept p.named = true) :
    ({ s with thread := .ordered { p with
        keys := orderUnderMoves s.cache s.moves p.keys
        behind := s.behind p.named } } : SchedFs).Inv := by
  have hp : s.Pending p := by
    have := h.thread
    rwa [hthread] at this
  refine ⟨h.run, h.live, h.taken, h.bounded, h.inj, ?_, ?_⟩
  · exact fun x hx => (h.served x hx).of_submitted fun _ hy => hy
  · refine ⟨fun i hi => ?_, hp.live, fun v hv => subset_orderUnderMoves _ (hp.taken v hv), hp.bounded,
      hp.fresh, fun t ht => ?_⟩
    · obtain ⟨m, hm⟩ := hp.named i hi
      exact ⟨m, subset_orderUnderMoves _ hm⟩
    · rcases List.mem_append.mp ht with ht | ht
      · obtain ⟨keys, hsub, hclash⟩ := hp.after t (List.mem_append_left _ ht)
        exact ⟨keys, hsub, clash_append_right hclash fun _ hx => subset_orderUnderMoves _ hx⟩
      · exact h.behind_clashes hp.named hkept ht

/-- The job of a rename has its task and its `Move`. -/
theorem mem_jobOf {task : Nat} {r : RenameJob} (h : r ∈ jobOf task p) : r.task = task ∧ r.done = p.done := by
  unfold jobOf at h
  split at h
  · obtain rfl := List.mem_singleton.mp h
    exact ⟨rfl, rfl⟩
  · cases h

/-- What was submitted before the task has a smaller id. -/
theorem Inv.submit (h : s.Inv) (hthread : s.thread = .ordered p) {run : FuseSched.Run Key}
    (hrun : s.run.step (.submit p.keys) = some run) :
    ({ s with
        run
        thread := .idle
        renames := s.renames ++ jobOf (s.run.sched.nextId + 1) p
        served := s.served ++ [(s.run.sched.nextId + 1, p)] } : SchedFs).Inv := by
  have hp : s.Pending p := by
    have := h.thread
    rwa [hthread] at this
  -- the request is the newest submission, after all old ones
  have hsub : run.submitted = s.run.submitted ++ [(s.run.sched.nextId + 1, p.keys)] := by
    rw [← Option.some.inj hrun]
  have hold : ∀ x ∈ s.run.submitted, x ∈ run.submitted := by
    intro x hx
    rw [hsub]
    exact List.mem_append_left _ hx
  have hnew : (s.run.sched.nextId + 1, p.keys) ∈ run.submitted := by
    rw [hsub]
    exact List.mem_append_right _ (List.mem_singleton_self _)
  refine ⟨h.run.step hrun, fun r hr hended v hv => ?_, fun r hr v hv => ?_, fun r hr v hv => ?_,
    fun r hr r' hr' v v' hv hv' hid => ?_, fun x hx => ?_, trivial⟩
  · -- a rename that runs is registered: an old one, or this one
    rcases List.mem_append.mp hr with hr | hr
    · exact h.live r hr hended v hv
    · exact hp.live v ((mem_jobOf hr).2 ▸ hv)
  · -- and its task has the moved inode
    rcases List.mem_append.mp hr with hr | hr
    · obtain ⟨keys, hkeys, hstrong⟩ := h.taken r hr v hv
      exact ⟨keys, hold _ hkeys, hstrong⟩
    · obtain ⟨htask, hdone⟩ := mem_jobOf hr
      exact ⟨p.keys, htask ▸ hnew, hp.taken v (hdone ▸ hv)⟩
  · -- numbers are those given out so far
    rcases List.mem_append.mp hr with hr | hr
    · exact h.bounded r hr v hv
    · exact hp.bounded v ((mem_jobOf hr).2 ▸ hv)
  · -- and the new rename's is none of the old ones
    rcases List.mem_append.mp hr with hr | hr
    · rcases List.mem_append.mp hr' with hr' | hr'
      · exact h.inj r hr r' hr' v v' hv hv' hid
      · exact absurd hid (hp.fresh r hr v v' hv ((mem_jobOf hr').2 ▸ hv'))
    · rcases List.mem_append.mp hr' with hr' | hr'
      · exact absurd hid.symm (hp.fresh r' hr' v' v hv' ((mem_jobOf hr).2 ▸ hv))
      · exact (mem_jobOf hr).1.trans (mem_jobOf hr').1.symm
  · -- the new request waits for what came before it
    rcases List.mem_append.mp hx with hx | hx
    · exact (h.served x hx).of_submitted hold
    · obtain rfl := List.mem_singleton.mp hx
      refine ⟨hnew, hp.named, fun t ht => ?_⟩
      obtain ⟨keys, hkeys, hclash⟩ := hp.after t ht
      exact ⟨keys, hold _ hkeys, Nat.lt_succ_of_le (h.run.bounded _ hkeys), hclash⟩

/-! ## Runs -/

/-- What must hold when a request is put in order: a rename finds its source, and the paths
    registered for the renames the request lies inside of are still those of their folders. -/
def meets (s : SchedFs) (e : Event) : Bool :=
  match e, s.thread with
  | .name, .arrived req _ _ => s.sourceKnown req
  | .order, .keyed p => s.pathsKept p.named
  | _, _ => true

/-- Every step of the run meets its condition. -/
def allMeet (s : SchedFs) : List Event → Bool
  | [] => true
  | e :: es => s.meets e && (s.step e).all (·.allMeet es)

/-- A task starts or completes: nothing is submitted, and nothing forgotten. -/
theorem run_step {run run' : FuseSched.Run Key} {e : FuseSched.Event Key} (h : run.step e = some run')
    (he : ∀ keys, e ≠ .submit keys) :
    run'.submitted = run.submitted ∧ ∀ x ∈ run.log, x ∈ run'.log := by
  cases e with
  | submit keys => exact absurd rfl (he keys)
  | handOver id =>
    simp only [FuseSched.Run.step, Option.ite_none_right_eq_some, Option.some.injEq] at h
    obtain ⟨-, rfl⟩ := h
    exact ⟨rfl, fun _ hx => List.mem_append_left _ hx⟩
  | complete id =>
    simp only [FuseSched.Run.step, Option.ite_none_right_eq_some, Option.some.injEq] at h
    obtain ⟨-, rfl⟩ := h
    exact ⟨rfl, fun _ hx => List.mem_append_left _ hx⟩

/-- A task starts or completes. -/
theorem Inv.run_step (h : s.Inv) {e : FuseSched.Event Key} (he : ∀ keys, e ≠ .submit keys)
    (hs : ((s.run.step e).map fun run => { s with run }) = some s') : s'.Inv := by
  obtain ⟨run, hrun, rfl⟩ := Option.map_eq_some_iff.mp hs
  obtain ⟨hsub, hlog⟩ := SchedFs.run_step hrun he
  exact h.works (.run s hsub hlog) (h.run.step hrun)

/-- Every step keeps the invariant, under its condition. -/
theorem Inv.step (h : s.Inv) {e : Event} (hmeets : s.meets e = true) (hs : s.step e = some s') : s'.Inv := by
  cases e with
  | arrive req =>
    simp only [SchedFs.step] at hs
    split at hs
    · obtain rfl := Option.some.inj hs
      exact h.arrive req _
    · cases hs
  | name =>
    simp only [SchedFs.step] at hs
    split at hs
    · rename_i req busy listed hthread
      obtain rfl := Option.some.inj hs
      -- the condition is the one of the request that is named
      simp only [meets, hthread] at hmeets
      exact h.name hthread hmeets
    · cases hs
  | order =>
    simp only [SchedFs.step] at hs
    split at hs
    · rename_i p hthread
      obtain rfl := Option.some.inj hs
      -- the condition is the one of the request that is ordered
      simp only [meets, hthread] at hmeets
      exact h.order hthread hmeets
    · cases hs
  | submit =>
    simp only [SchedFs.step] at hs
    split at hs
    · rename_i p hthread
      obtain ⟨run, hrun, rfl⟩ := Option.map_eq_some_iff.mp hs
      exact h.submit hthread hrun
    · cases hs
  | handOver task => exact h.run_step (fun _ he => by cases he) hs
  | repoint task movedDir =>
    simp only [SchedFs.step] at hs
    split at hs
    · split at hs
      · -- re-pointing is the worker's, and touches no task
        have hw := Works.repoint hs
        have hrun : s'.run = s.run := by
          unfold SchedFs.repoint at hs
          split at hs
          · exact Option.some.inj hs ▸ rfl
          · cases hs
        exact h.works hw (hrun ▸ h.run)
      · cases hs
    · cases hs
  | moveDone task =>
    simp only [SchedFs.step] at hs
    split at hs
    · rename_i r hjob
      split at hs
      · obtain rfl := Option.some.inj hs
        -- the job has ended: its `Move` goes
        exact h.works (.moveDone hjob) h.run
      · cases hs
    · cases hs
  | complete task =>
    simp only [SchedFs.step] at hs
    split at hs
    · exact h.run_step (fun _ he => by cases he) hs
    · cases hs
  | allocate path =>
    obtain rfl := Option.some.inj hs
    exact h.works (.cache s _) h.run
  | listing path d =>
    cases d with
    | some d =>
      obtain rfl := Option.some.inj hs
      exact h.works (.cache s _) h.run
    | none =>
      obtain rfl := Option.some.inj hs
      exact h.works (.cache s _) h.run

/-- Every run keeps the invariant, under its conditions. -/
theorem Inv.steps {es : List Event} :
    ∀ {s s' : SchedFs}, s.Inv → s.allMeet es = true → s.steps es = some s' → s'.Inv := by
  induction es with
  | nil => exact fun h _ hs => Option.some.inj hs ▸ h
  | cons e es ih =>
    intro s s' h hmeets hs
    obtain ⟨s₁, h₁, hs⟩ := Option.bind_eq_some_iff.mp hs
    simp only [allMeet, h₁, Option.all_some, Bool.and_eq_true] at hmeets
    exact ih (h.step hmeets.1 h₁) hmeets.2 hs

/-- A request that came while a rename of a folder it lies inside of was in flight starts after that
    rename has completed, and a rename starts after what was in flight under its folder when it
    came has. -/
def MovesNotOverlapped (s : SchedFs) : Prop :=
  ∀ task p, (task, p) ∈ s.served →
    (∀ r ∈ p.behind, ∀ pre post, s.run.log = pre ++ .started task :: post → .completed r ∈ pre) ∧
    ∀ t ∈ p.ahead, ∀ pre post, s.run.log = pre ++ .started task :: post → .completed t ∈ pre

/-- Over every run in which each rename with requests under its folder finds its source, and each
    request inside a folder on the move finds it at the path that was registered. -/
theorem moves_are_not_overlapped (c : FsCache) {es : List Event} {s : SchedFs}
    (hrun : ({ cache := c } : SchedFs).steps es = some s)
    (hmeets : ({ cache := c } : SchedFs).allMeet es = true) : s.MovesNotOverlapped := by
  have h := (Inv.init c).steps hmeets hrun
  intro task p hp
  have hq := h.served (task, p) hp
  have horder : ∀ t ∈ p.ahead ++ p.behind, ∀ pre post,
      s.run.log = pre ++ .started task :: post → .completed t ∈ pre := by
    intro t ht
    obtain ⟨keys, hkeys, hlt, hclash⟩ := hq.after t ht
    exact h.run.order t keys task p.keys hkeys hq.submitted hlt hclash
  exact ⟨fun r hr => horder r (List.mem_append_right _ hr),
    fun t ht => horder t (List.mem_append_left _ ht)⟩

/-- `/a/b/f` and the folders above it. -/
def nestedTable : FsCache :=
  { inodes := fun i =>
      if i = 1 then some [] else if i = 2 then some ["a"] else if i = 3 then some ["a", "b"]
      else if i = 4 then some ["a", "b", "f"] else none
    paths := fun p =>
      if p = [] then some 1 else if p = ["a"] then some 2 else if p = ["a", "b"] then some 3
      else if p = ["a", "b", "f"] then some 4 else none
    nextInode := 5 }

/-- A read of the file, a rename of its folder while it runs, and a release of the file after the
    folder has moved. -/
def renameOfBusyFolder : List Event :=
  [.arrive (.read 4 7), .name, .order, .submit, .handOver 1,
    .arrive (.rename 2 "b" 2 "c"), .name, .order, .submit, .complete 1, .handOver 2, .repoint 2 true,
    .arrive (.release 4), .name, .order, .submit, .moveDone 2, .complete 2, .handOver 3]

/-- The rename waits for the read, and the release for the rename. -/
theorem renameOfBusyFolder_is_ordered : ∃ s : SchedFs,
    ({ cache := nestedTable } : SchedFs).steps renameOfBusyFolder = some s ∧
    s.served.map (fun x => (x.1, x.2.ahead, x.2.behind)) = [(1, [], []), (2, [1], []), (3, [], [2])] ∧
    s.MovesNotOverlapped := by
  obtain ⟨s, hs, hserved⟩ : ∃ s : SchedFs,
      ({ cache := nestedTable } : SchedFs).steps renameOfBusyFolder = some s ∧
      s.served.map (fun x => (x.1, x.2.ahead, x.2.behind)) = [(1, [], []), (2, [1], []), (3, [], [2])] :=
    ⟨_, rfl, by decide⟩
  exact ⟨s, hs, hserved, moves_are_not_overlapped nestedTable hs (by decide)⟩

/-- `/a` is renamed to `/z` while a rename of `/a/b` waits behind it; the release of the file comes
    when that runs. -/
def renameOfNestedFolder : List Event :=
  [.arrive (.rename 1 "a" 1 "z"), .name, .order, .submit, .handOver 1,
    .arrive (.rename 2 "b" 2 "c"), .name, .order, .submit,
    .repoint 1 true, .moveDone 1, .complete 1, .handOver 2,
    .arrive (.release 4), .name, .order, .submit, .handOver 3]

/-- The second rename is registered from `/a/b`, which is `/z/b` by then: the release of `/z/b/f` is
    not queued behind it and starts while it runs. -/
theorem release_overlaps_nested_rename : ∃ s : SchedFs,
    ({ cache := nestedTable } : SchedFs).steps renameOfNestedFolder = some s ∧ ¬ s.MovesNotOverlapped := by
  obtain ⟨s, hs, p, hp, hbehind, hlog⟩ : ∃ s : SchedFs,
      ({ cache := nestedTable } : SchedFs).steps renameOfNestedFolder = some s ∧
      ∃ p, (3, p) ∈ s.served ∧ 2 ∈ p.behind ∧
        s.run.log = [.started 1, .completed 1, .started 2] ++ .started 3 :: [] :=
    ⟨_, rfl, _, List.mem_of_getElem? (i := 2) rfl, by decide, rfl⟩
  refine ⟨s, hs, fun h => ?_⟩
  have hdone := (h 3 p hp).1 2 hbehind _ _ hlog
  simp at hdone

end SchedFs

end FuseDispatch

end Ncrs
