import Ncrs.Native.FusePool
import Ncrs.Spec.FuseSchedCorrect
import Ncrs.ForStd.List
import Mathlib.Data.List.Perm.Subperm

/-!
# No runnable request is refused

The jobs in the pool's queue, those about to be handed to it and those running belong to live tasks
of the scheduler, each to its own, so that a queue as long as the scheduler's limit has room for one
more. A job the pool took on is in its queue, with a worker, or counted as completed, and the queue
is empty when there is no worker.

What the threads have left to do enters the invariant as one list of actions, in any order
(`FusePool.InvWith`); each transition changes the actions of one thread.

## Key results

- `Jobs.submit`, `Jobs.complete`: what the scheduler starts is new
- `FusePool.InvWith.perform`: one action of any thread
- `FusePool.runnable_requests_are_not_refused`: the property in every run
-/

namespace Ncrs

namespace FuseSched

variable {K : Type} [DecidableEq K]

/-! ## Jobs and tasks -/

/-- The jobs `held` belong to live tasks that were started, and no task that waits has its job among
    the ones `known`. -/
structure Jobs (sched : Scheduler K) (held known : List Nat) : Prop where
  inv : sched.Inv
  live : ∀ c ∈ held, ∃ u ∈ sched.tasks, u.id = c ∧ u.waiting = false
  waits : ∀ u ∈ sched.tasks, u.waiting = true → u.id ∉ known
  bounded : ∀ c ∈ known, c ≤ sched.nextId

namespace Jobs

variable {sched : Scheduler K} {held known : List Nat}

omit [DecidableEq K] in
/-- The jobs a critical section of the scheduler takes are new. -/
theorem starts {ts : List (Task K)} {sched' : Scheduler K} {l : List Nat}
    (hinv : sched'.Inv) (hstarts : Scheduler.Starts ts sched' l)
    (hlive : ∀ c ∈ held, ∃ u ∈ ts, u.id = c ∧ u.waiting = false)
    (hwaits : ∀ u ∈ ts, u.waiting = true → u.id ∉ known)
    (hbounded : ∀ c ∈ known, c ≤ sched'.nextId) :
    Jobs sched' (held ++ l) (known ++ l) ∧ (known.Nodup → (known ++ l).Nodup) := by
  refine ⟨⟨hinv, fun c hc => ?_, fun u' hu' hw => ?_, fun c hc => ?_⟩, fun hnodup => ?_⟩
  · -- a task that is still live and was running keeps running: starting others marks only them
    rcases List.mem_append.mp hc with hc | hc
    · exact hstarts.runs (.inr (hlive c hc))
    · exact hstarts.runs (.inl hc)
  · obtain ⟨u, hu, rfl⟩ := hstarts.exists_of_mem hu'
    -- a task that still waits was neither running nor among the ones that start now
    have hnot : ¬ (u.waiting = false ∨ u.id ∈ l) := fun hrun => by
      rw [Scheduler.mark_waiting.mpr hrun] at hw
      cases hw
    rw [not_or, Bool.not_eq_false] at hnot
    exact fun hmem => (List.mem_append.mp hmem).elim (hwaits u hu hnot.1) hnot.2
  · rcases List.mem_append.mp hc with hc | hc
    · exact hbounded c hc
    · obtain ⟨u, hu, rfl, -⟩ := hstarts.runs (.inl hc)
      exact hinv.ordered.bounded u hu
  · have hnew : ((known ++ l) ++ []).Nodup :=
      hstarts.nodup_append (by rwa [List.append_nil]) fun u hu hw => ⟨hwaits u hu hw, List.not_mem_nil⟩
    rwa [List.append_nil] at hnew

/-- A submission hands its new jobs to the dispatcher: they are live, new, and one task more. -/
theorem submit (h : Jobs sched held known) (keys : List (K × Mode)) :
    Jobs (sched.submit keys).1 (held ++ (sched.submit keys).2) (known ++ (sched.submit keys).2) ∧
      (known.Nodup → (known ++ (sched.submit keys).2).Nodup) ∧
      (sched.submit keys).1.tasks.length = sched.tasks.length + 1 := by
  obtain ⟨hinv, hnext, hstarts⟩ := h.inv.submit keys
  have hlive : ∀ c ∈ held, ∃ u ∈ (sched.enqueue keys).tasks, u.id = c ∧ u.waiting = false := by
    intro c hc
    obtain ⟨u, hu, hid⟩ := h.live c hc
    exact ⟨u, List.mem_append_left _ hu, hid⟩
  -- the new task's id is above every job known so far
  have hwaits : ∀ u ∈ (sched.enqueue keys).tasks, u.waiting = true → u.id ∉ known := by
    intro u hu hw
    rcases List.mem_append.mp hu with hu | hu
    · exact h.waits u hu hw
    · rw [List.mem_singleton.mp hu]
      intro hmem
      have : sched.nextId + 1 ≤ sched.nextId := h.bounded _ hmem
      -- the marked tasks are the enqueued ones, so only the new one was added
      omega
  have hbounded : ∀ c ∈ known, c ≤ (sched.submit keys).1.nextId := by
    intro c hc
    have := h.bounded c hc
    omega
  obtain ⟨hjobs, hnodup⟩ := starts hinv hstarts hlive hwaits hbounded
  refine ⟨hjobs, hnodup, ?_⟩
  rw [hstarts.tasks, List.length_map]
  exact List.length_append

/-- A task completes: its job is held no longer, and the tasks it held back are newer. -/
theorem complete (h : Jobs sched held known) {id : Nat} {held' : List Nat}
    (hid : ∃ u ∈ sched.tasks, u.id = id ∧ u.waiting = false)
    (hheld : ∀ c ∈ held', c ∈ held ∧ c ≠ id) :
    Jobs (sched.complete id).1 (held' ++ (sched.complete id).2) (known ++ (sched.complete id).2) ∧
      (known.Nodup → (known ++ (sched.complete id).2).Nodup) ∧
      (sched.complete id).1.tasks.length ≤ sched.tasks.length ∧
      (sched.complete id).1.nextId = sched.nextId ∧ ∀ c ∈ (sched.complete id).2, id < c := by
  obtain ⟨t, ht, rfl, hw⟩ := hid
  obtain ⟨hinv, hnext, hstarts⟩ := h.inv.complete ht hw
  have hsub : ∀ u, u ∈ sched.tasks.filter (fun u => u.id ≠ t.id) ↔ u ∈ sched.tasks ∧ u.id ≠ t.id := by
    intro u
    rw [List.mem_filter, decide_eq_true_eq]
  -- completing `t` leaves the other running tasks as they are
  have hlive : ∀ c ∈ held', ∃ u ∈ sched.tasks.filter (fun u => u.id ≠ t.id),
      u.id = c ∧ u.waiting = false := by
    intro c hc
    obtain ⟨hmem, hne⟩ := hheld c hc
    obtain ⟨u, hu, rfl, huw⟩ := h.live c hmem
    exact ⟨u, (hsub u).mpr ⟨hu, hne⟩, rfl, huw⟩
  obtain ⟨hjobs, hnodup⟩ := starts hinv hstarts hlive
    (fun u hu hw => h.waits u ((hsub u).mp hu).1 hw) fun c hc => hnext ▸ h.bounded c hc
  refine ⟨hjobs, hnodup, ?_, hnext, fun c hc => ?_⟩
  · rw [hstarts.tasks, List.length_map]
    exact List.length_filter_le _ _
  · -- what starts now was held back before, and by nothing that is left
    obtain ⟨u, hu, rfl, hwait⟩ := hstarts.waited c hc
    have hfree : Free (sched.complete t.id).1.tasks (Scheduler.mark (sched.complete t.id).2 u) :=
      (hinv.started _ (hstarts.mark_mem hu)).mp (Scheduler.mark_waiting.mpr (.inr hc))
    -- it is free now, among the tasks that are left
    rw [hstarts.tasks, Scheduler.free_map_mark] at hfree
    have hheldback : ¬ Free sched.tasks u := fun hf => by
      rw [(h.inv.started u ((hsub u).mp hu).1).mpr hf] at hwait
      cases hwait
    by_contra hge
    -- a task that kept it back before is `t`, or is left and keeps it back still
    refine hheldback fun v hv hlt hclash => ?_
    by_cases hvt : v.id = t.id
    · omega
    · exact hfree v ((hsub v).mpr ⟨hv, hvt⟩) hlt hclash

omit [DecidableEq K] in
/-- Fewer jobs with the threads, and fewer known ones, are no harder to account for. -/
theorem mono (h : Jobs sched held known) {held' known' : List Nat} (hheld : held' ⊆ held)
    (hknown : known' ⊆ known) : Jobs sched held' known' :=
  ⟨h.inv, fun c hc => h.live c (hheld hc), fun u hu hw hmem => h.waits u hu hw (hknown hmem),
    fun c hc => h.bounded c (hknown hc)⟩

omit [DecidableEq K] in
/-- Jobs held at once are no more than the tasks. -/
theorem length_le (h : Jobs sched held known) (hnodup : held.Nodup) :
    held.length ≤ sched.tasks.length := by
  have hsub : held ⊆ sched.tasks.map (·.id) := by
    intro c hc
    obtain ⟨u, hu, rfl, -⟩ := h.live c hc
    exact List.mem_map_of_mem hu
  have := (List.subperm_of_subset hnodup hsub).length_le
  rwa [List.length_map] at this

end Jobs

/-! ## The invariant -/

/-- The job an action still has to hand to a worker. -/
def Action.job : Action → Option Nat
  | .start id => some id
  | .spawn id => some id
  | .giveBack => none

/-- The action holds a worker slot that has no thread. -/
def Action.isSlot : Action → Bool
  | .start _ => false
  | _ => true

/-- The jobs the actions `acts` still have to hand to a worker. -/
def jobsOf (acts : List Action) : List Nat := acts.filterMap Action.job

/-- The jobs of two runs of actions are the jobs of both. -/
@[simp] theorem jobsOf_append (a b : List Action) : jobsOf (a ++ b) = jobsOf a ++ jobsOf b :=
  List.filterMap_append

/-- The first action's job comes first. -/
@[simp] theorem jobsOf_cons (a : Action) (l : List Action) :
    jobsOf (a :: l) = (a.job.elim [] fun id => [id]) ++ jobsOf l := by
  cases a <;> rfl

/-- Each of a task's starts hands over its own job. -/
@[simp] theorem jobsOf_starts (l : List Nat) : jobsOf (l.map .start) = l := by
  unfold jobsOf
  rw [List.filterMap_map]
  exact List.filterMap_some

/-- A job that is only to be started holds no slot yet. -/
@[simp] theorem isSlot_starts (l : List Nat) : (l.map Action.start).countP Action.isSlot = 0 := by
  rw [List.countP_map]
  exact List.countP_eq_zero.mpr fun _ _ => by simp [Action.isSlot]

/-- The job a worker has not been counted for. -/
def Worker.job : Worker → Option Nat
  | .running job => some job
  | .ending job _ => some job
  | .lingering => none

/-- The job whose closure the worker is in. -/
def Worker.runs : Worker → Option Nat
  | .running job => some job
  | _ => none

/-- The worker waits for its next job. -/
def Worker.isLingering : Worker → Bool
  | .lingering => true
  | _ => false

namespace FusePool

/-- The jobs with a worker, and those of them that have not returned. -/
def held (s : FusePool K) : List Nat := s.workers.filterMap Worker.job

/-- The jobs whose closure a worker is in. -/
def running (s : FusePool K) : List Nat := s.workers.filterMap Worker.runs

/-- What all threads have left to do. -/
def actions (s : FusePool K) : List Action := s.dispatch ++ s.workers.flatMap Worker.todo

variable {s s' : FusePool K} {acts acts' : List Action}

/-- The invariant, with `acts` left to do. -/
structure InvWith (s : FusePool K) (acts : List Action) : Prop where
  jobs : Jobs s.sched (s.queue ++ jobsOf acts ++ s.running) (s.accepted ++ jobsOf acts)
  once : ∀ c, s.accepted.count c + (jobsOf acts).count c ≤ 1
  parts : ∀ c, s.accepted.count c = s.queue.count c + s.held.count c + s.completed.count c
  room : s.sched.tasks.length ≤ s.maxInflight
  refused : s.refusedFull = []
  slots : s.active = s.workers.length + acts.countP Action.isSlot
  cap : s.active ≤ s.maxWorkers
  idle : s.idle = s.workers.countP Worker.isLingering
  queued : s.queue ≠ [] → s.workers ≠ []

omit [DecidableEq K] in
/-- The order of what is left to do does not matter. -/
theorem InvWith.perm (h : s.InvWith acts) (hp : acts.Perm acts') : s.InvWith acts' := by
  have hjobs : (jobsOf acts).Perm (jobsOf acts') := hp.filterMap _
  refine ⟨?_, fun c => hjobs.count_eq c ▸ h.once c, h.parts, h.room, h.refused,
    hp.countP_eq Action.isSlot ▸ h.slots, h.cap, h.idle, h.queued⟩
  refine h.jobs.mono ?_ ?_
  · exact ((hjobs.symm.append_left _).append_right _).subset
  · exact (hjobs.symm.append_left _).subset

omit [DecidableEq K] in
/-- A job that runs is with its worker. -/
theorem running_subset : s.running ⊆ s.held := by
  intro c hc
  obtain ⟨w, hw, hr⟩ := List.mem_filterMap.mp hc
  refine List.mem_filterMap.mpr ⟨w, hw, ?_⟩
  cases w with
  | running job => exact hr
  | ending job todo => cases hr
  | lingering => cases hr

omit [DecidableEq K] in
/-- A job that is still to be handed over is neither queued nor running. -/
theorem InvWith.not_mem (h : s.InvWith acts) {c : Nat} (hc : c ∈ jobsOf acts) :
    c ∉ s.queue ∧ c ∉ s.running := by
  have hone := h.once c
  have hparts := h.parts c
  have hpos := List.count_pos_iff.mpr hc
  constructor
  · intro hmem
    have := List.count_pos_iff.mpr hmem
    omega
  · intro hmem
    have := List.count_pos_iff.mpr (running_subset hmem)
    omega

/-! ## One action -/

omit [DecidableEq K] in
/-- A job goes to the queue, which some worker will look at. -/
theorem InvWith.push {id : Nat} (h : s.InvWith (.start id :: acts)) (hw : s.workers ≠ []) :
    (s.push id).InvWith acts := by
  refine ⟨h.jobs.mono ?_ ?_, fun c => ?_, fun c => ?_, h.room, h.refused, ?_, h.cap, h.idle, fun _ => hw⟩
  · intro c hc
    simp only [FusePool.push, List.mem_append, List.mem_singleton] at hc
    simp only [jobsOf_cons, Action.job, Option.elim_some, List.mem_append, List.mem_singleton]
    tauto
  · intro c hc
    simp only [FusePool.push, List.mem_append, List.mem_singleton] at hc
    simp only [jobsOf_cons, Action.job, Option.elim_some, List.mem_append, List.mem_singleton]
    tauto
  · have := h.once c
    simp only [jobsOf_cons, Action.job, Option.elim_some, List.count_append] at this
    simp only [FusePool.push, List.count_append]
    omega
  · have := h.parts c
    simp only [FusePool.push, List.count_append]
    show _ = s.queue.count c + [id].count c + s.held.count c + s.completed.count c
    omega
  · have := h.slots
    rwa [List.countP_cons_of_neg (by simp [Action.isSlot])] at this

/-- A task whose job is dropped completes, and what it held back is to be started. -/
theorem InvWith.dropJob {a : Action} {id : Nat} (h : s.InvWith (a :: acts)) (ha : a.job = some id) :
    Jobs (s.sched.complete id).1 (s.queue ++ jobsOf ((s.sched.complete id).2.map .start ++ acts) ++ s.running)
        (s.accepted ++ jobsOf ((s.sched.complete id).2.map .start ++ acts)) ∧
      (∀ c, s.accepted.count c + (jobsOf ((s.sched.complete id).2.map .start ++ acts)).count c ≤ 1) ∧
      (s.sched.complete id).1.tasks.length ≤ s.maxInflight ∧
      (s.sched.complete id).1.nextId = s.sched.nextId ∧ ∀ c ∈ (s.sched.complete id).2, id < c := by
  have hid : id ∈ jobsOf (a :: acts) := by
    rw [jobsOf_cons, ha]
    exact List.mem_append_left _ (List.mem_singleton_self _)
  have hnot := h.not_mem hid
  -- the job leaves the actions; the tasks know it until `complete` is done with it
  have hkeep : Jobs s.sched (s.queue ++ jobsOf (a :: acts) ++ s.running) (s.accepted ++ jobsOf acts) := by
    refine h.jobs.mono (List.Subset.refl _) ?_
    rw [jobsOf_cons, ha]
    exact List.append_subset.mpr ⟨List.subset_append_left _ _,
      fun c hc => List.mem_append_right _ (List.mem_append_right _ hc)⟩
  have hheld : ∀ c ∈ s.queue ++ jobsOf acts ++ s.running,
      c ∈ s.queue ++ jobsOf (a :: acts) ++ s.running ∧ c ≠ id := by
    intro c hc
    rw [List.mem_append, List.mem_append] at hc
    rw [jobsOf_cons, ha]
    simp only [Option.elim_some, List.mem_append, List.mem_singleton]
    refine ⟨by tauto, ?_⟩
    -- the job is not queued and not running, and among the other actions it is not a second time
    rintro rfl
    rcases hc with (hc | hc) | hc
    · exact hnot.1 hc
    · have hone := h.once c
      have hpos := List.count_pos_iff.mpr hc
      simp only [jobsOf_cons, ha, Option.elim_some, List.count_append, List.count_singleton_self] at hone
      omega
    · exact hnot.2 hc
  obtain ⟨hjobs, hnodup, hlen, hnext, hnewer⟩ :=
    hkeep.complete (h.jobs.live id (List.mem_append_left _ (List.mem_append_right _ hid))) hheld
  refine ⟨hjobs.mono ?_ ?_, fun c => ?_, Nat.le_trans hlen h.room, hnext, hnewer⟩
  · intro c hc
    simp only [jobsOf_append, jobsOf_starts, List.mem_append] at hc ⊢
    tauto
  · intro c hc
    simp only [jobsOf_append, jobsOf_starts, List.mem_append] at hc ⊢
    tauto
  · -- the accepted jobs and what is left are all different: the dropped job's entry is gone
    have hbefore : (s.accepted ++ jobsOf acts).Nodup := by
      refine List.nodup_iff_count_le_one.mpr fun c => ?_
      have := h.once c
      simp only [jobsOf_cons, List.count_append] at this ⊢
      omega
    have := List.nodup_iff_count_le_one.mp (hnodup hbefore) c
    simp only [jobsOf_append, jobsOf_starts, List.count_append] at this ⊢
    omega

omit [DecidableEq K] in
/-- With a queue as long as the scheduler's limit there is room for the job of a live task. -/
theorem InvWith.queue_lt {id : Nat} (h : s.InvWith (.start id :: acts))
    (hcap : s.maxInflight ≤ s.queueCap) : s.queue.length < s.queueCap := by
  have hsub : s.queue ++ [id] ⊆ s.queue ++ jobsOf (.start id :: acts) ++ s.running := by
    intro c hc
    simp only [jobsOf_cons, Action.job, Option.elim_some, List.mem_append, List.mem_singleton] at hc ⊢
    tauto
  have hnodup : (s.queue ++ [id]).Nodup := by
    refine List.nodup_iff_count_le_one.mpr fun c => ?_
    have hone := h.once c
    have hparts := h.parts c
    simp only [jobsOf_cons, Action.job, Option.elim_some, List.count_append] at hone ⊢
    omega
  have hlen := (h.jobs.mono hsub (List.Subset.refl _)).length_le hnodup
  have hroom := h.room
  rw [List.length_append, List.length_singleton] at hlen
  omega

/-- One action of any thread keeps the invariant: a job goes to the queue, to a new thread, or is
    dropped with its task completed. -/
theorem InvWith.perform {a : Action} (h : s.InvWith (a :: acts)) (hcap : s.maxInflight ≤ s.queueCap)
    (hworker : ∀ id, a = .start id → s.maxWorkers ≤ s.active → s.workers ≠ []) (ok : Bool) :
    (s.perform a ok).1.InvWith ((s.perform a ok).2 ++ acts) := by
  cases a with
  | start id =>
    simp only [FusePool.perform]
    split
    · -- a lingering worker is free
      rename_i hidle
      -- the idle count is the number of lingering workers, so there is one
      refine h.push fun hnone => ?_
      rw [h.idle, hnone] at hidle
      exact absurd hidle (Nat.not_lt_zero _)
    · split
      · -- below the cap a slot is taken for a thread that does not run yet
        rename_i hlt
        refine ⟨h.jobs, h.once, h.parts, h.room, h.refused, ?_, hlt, h.idle, h.queued⟩
        have := h.slots
        rw [List.countP_cons_of_neg (by simp [Action.isSlot])] at this
        show s.active + 1 = s.workers.length + (Action.spawn id :: acts).countP Action.isSlot
        rw [List.countP_cons_of_pos (by rfl)]
        omega
      · rename_i hfull
        -- all slots taken: the job waits for a worker, and the queue has room for it
        split
        · exact h.push (hworker id rfl (Nat.le_of_not_lt hfull))
        · rename_i hno
          exact absurd (h.queue_lt hcap) hno
  | spawn id =>
    simp only [FusePool.perform]
    split
    · -- the thread starts with the job
      refine ⟨h.jobs.mono ?_ ?_, fun c => ?_, fun c => ?_, h.room, h.refused, ?_, h.cap, ?_, fun _ => by simp⟩
      · intro c hc
        -- the job moves from the actions to the workers, and stays a live one
        simp only [List.nil_append, FusePool.running, List.filterMap_append, List.mem_append,
          List.filterMap_cons, List.filterMap_nil, Worker.runs, List.mem_singleton] at hc
        simp only [jobsOf_cons, Action.job, Option.elim_some, List.mem_append, List.mem_singleton,
          FusePool.running]
        tauto
      · intro c hc
        simp only [List.nil_append, List.mem_append, List.mem_singleton] at hc
        simp only [jobsOf_cons, Action.job, Option.elim_some, List.mem_append, List.mem_singleton]
        tauto
      · -- it is accepted where it was only on its way before
        have := h.once c
        simp only [jobsOf_cons, Action.job, Option.elim_some, List.count_append] at this
        simp only [List.nil_append, List.count_append]
        omega
      · have := h.parts c
        simp only [FusePool.held, List.filterMap_append, List.filterMap_cons, List.filterMap_nil,
          Worker.job, List.count_append] at this ⊢
        omega
      · have := h.slots
        rw [List.countP_cons_of_pos (by rfl)] at this
        show s.active = (s.workers ++ [Worker.running id]).length + acts.countP Action.isSlot
        rw [List.length_append, List.length_singleton]
        omega
      · show s.idle = (s.workers ++ [Worker.running id]).countP Worker.isLingering
        rw [List.countP_append, h.idle]
        rfl
    · -- the job is dropped, and the slot is given back after that
      obtain ⟨hjobs, honce, hroom, -⟩ := h.dropJob rfl
      have hacts : ((s.sched.complete id).2.map Action.start ++ [Action.giveBack] ++ acts).Perm
          (Action.giveBack :: ((s.sched.complete id).2.map Action.start ++ acts)) := by
        rw [List.append_assoc]
        exact List.perm_middle
      refine InvWith.perm ⟨?_, ?_, h.parts, hroom, h.refused, ?_, h.cap, h.idle, h.queued⟩ hacts.symm
      · exact hjobs
      · exact honce
      · -- the slot is given back with no thread behind it: the counter still is one too high
        have := h.slots
        rw [List.countP_cons_of_pos (by rfl)] at this ⊢
        rw [List.countP_append, isSlot_starts]
        show s.active = s.workers.length + _
        omega
  | giveBack =>
    refine ⟨h.jobs, h.once, h.parts, h.room, h.refused, ?_, ?_, h.idle, h.queued⟩
    · -- the slot without a thread is the one that is given back
      have := h.slots
      rw [List.countP_cons_of_pos (by rfl)] at this
      show s.active - 1 = s.workers.length + acts.countP Action.isSlot
      omega
    · have := h.cap
      show s.active - 1 ≤ s.maxWorkers
      omega

/-! ## The threads -/

omit [DecidableEq K] in
/-- What the other threads have left to do does not change with `thread`'s actions. -/
theorem actions_setTodo {thread : Option Nat} {a : Action} {rest : List Action}
    (h : s.todo thread = a :: rest) : ∃ others, s.actions.Perm (a :: rest ++ others) ∧
      ∀ (s' : FusePool K) (extra : List Worker), s'.dispatch = s.dispatch →
        s'.workers = s.workers ++ extra → extra.flatMap Worker.todo = [] →
        ∀ l, (s'.setTodo thread l).actions.Perm (l ++ others) := by
  cases thread with
  | none =>
    refine ⟨s.workers.flatMap Worker.todo, ?_, fun s' extra _ hw hextra l => ?_⟩
    · rw [show s.actions = s.dispatch ++ _ from rfl, show s.dispatch = a :: rest from h]
    · show (l ++ s'.workers.flatMap Worker.todo).Perm _
      -- the workers added are without actions of their own
      rw [hw, List.flatMap_append, hextra, List.append_nil]
  | some i =>
    cases hwi : s.workers[i]? with
    | none => simp [FusePool.todo, hwi] at h
    | some w =>
      have hw : w.todo = a :: rest := by simpa [FusePool.todo, hwi] using h
      -- only a worker whose job has ended has actions left
      obtain ⟨job, rfl⟩ : ∃ job, w = .ending job (a :: rest) := by
        cases w with
        | running job => cases hw
        | ending job todo => exact ⟨job, by rw [← hw]; rfl⟩
        | lingering => cases hw
      obtain ⟨pre, post, hsplit, hlen, -⟩ := List.exists_split_of_getElem? hwi
      refine ⟨s.dispatch ++ pre.flatMap Worker.todo ++ post.flatMap Worker.todo, ?_,
        fun s' extra hd hws hextra l => ?_⟩
      · -- move the actions of worker `i` in front of everyone else's
        show (s.dispatch ++ s.workers.flatMap Worker.todo).Perm _
        rw [hsplit, List.flatMap_append, List.flatMap_cons, ← List.append_assoc]
        show (s.dispatch ++ pre.flatMap Worker.todo ++ (a :: rest ++ post.flatMap Worker.todo)).Perm _
        rw [← List.append_assoc, ← List.append_assoc]
        exact List.perm_append_comm.append_right _
      · -- the worker is found at the same place after others were added behind
        have hget : (s.workers ++ extra)[i]? = some (.ending job (a :: rest)) := by
          rw [List.getElem?_append_left (List.getElem?_eq_some_iff.mp hwi).1, hwi]
        obtain ⟨pre', post', hsplit', hlen', -, -, hmodify⟩ := List.exists_split_of_getElem? hget
        rw [hsplit, List.append_assoc, List.cons_append] at hsplit'
        obtain ⟨rfl, htail⟩ := List.append_inj hsplit' (hlen.trans hlen'.symm)
        obtain rfl : post ++ extra = post' := (List.cons.inj htail).2
        show (s'.dispatch ++ (s'.workers.modify i _).flatMap Worker.todo).Perm _
        rw [hd, hws, hmodify, List.flatMap_append, List.flatMap_cons, List.flatMap_append, hextra,
          List.append_nil, ← List.append_assoc, ← List.append_assoc]
        refine (List.perm_append_comm.append_right _).trans ?_
        rw [List.append_assoc]
        exact List.Perm.refl _

omit [DecidableEq K] in
/-- The actions left in a worker are counted in `acts`, not in the worker. -/
theorem InvWith.setTodo (h : s.InvWith acts) (thread : Option Nat) (l : List Action) :
    (s.setTodo thread l).InvWith acts := by
  cases thread with
  | none => exact ⟨h.jobs, h.once, h.parts, h.room, h.refused, h.slots, h.cap, h.idle, h.queued⟩
  | some i =>
    cases hwi : s.workers[i]? with
    | none =>
      -- no such worker: nothing is set
      have hsame : s.setTodo (some i) l = s := by
        simp only [FusePool.setTodo]
        rw [List.modify_eq_self (List.getElem?_eq_none_iff.mp hwi)]
      rwa [hsame]
    | some w =>
      obtain ⟨pre, post, hsplit, -, -, -, hmodify⟩ := List.exists_split_of_getElem? hwi
      -- the actions left are no part of what the other counts look at
      obtain ⟨w', hw', hjob, hruns, hling⟩ : ∃ w', (s.setTodo (some i) l).workers = pre ++ w' :: post ∧
          w'.job = w.job ∧ w'.runs = w.runs ∧ w'.isLingering = w.isLingering := by
        refine ⟨_, hmodify _, ?_⟩
        cases w with
        | running job => exact ⟨rfl, rfl, rfl⟩
        | ending job todo => exact ⟨rfl, rfl, rfl⟩
        | lingering => exact ⟨rfl, rfl, rfl⟩
      have hheld : (s.setTodo (some i) l).held = s.held := by
        simp only [FusePool.held, hw', hsplit, List.filterMap_append, List.filterMap_cons, hjob]
      have hrunning : (s.setTodo (some i) l).running = s.running := by
        simp only [FusePool.running, hw', hsplit, List.filterMap_append, List.filterMap_cons, hruns]
      refine ⟨?_, h.once, fun c => ?_, h.room, h.refused, ?_, h.cap, ?_, fun _ => ?_⟩
      · rw [hrunning]
        exact h.jobs
      · rw [hheld]
        exact h.parts c
      · have := h.slots
        rw [hsplit] at this
        show s.active = (s.setTodo (some i) l).workers.length + _
        rw [hw']
        simpa using this
      · have := h.idle
        rw [hsplit] at this
        show s.idle = (s.setTodo (some i) l).workers.countP _
        rw [hw']
        simpa [List.countP_append, List.countP_cons, hling] using this
      · rw [hw']
        simp

omit [DecidableEq K] in
/-- The actions of one worker, and those of everyone else. -/
theorem actions_split {w : Worker} {pre post : List Worker}
    (hw : s.workers = pre ++ w :: post) :
    s.actions.Perm (w.todo ++ (s.dispatch ++ pre.flatMap Worker.todo ++ post.flatMap Worker.todo)) := by
  show (s.dispatch ++ s.workers.flatMap Worker.todo).Perm _
  rw [hw, List.flatMap_append, List.flatMap_cons, ← List.append_assoc, ← List.append_assoc]
  refine (List.perm_append_comm.append_right _).trans ?_
  rw [List.append_assoc]

/-- A job returns: its task completes, and the worker has what that made runnable to start. -/
theorem InvWith.jobEnds {job : Nat} {pre post : List Worker} (h : s.InvWith s.actions)
    (hw : s.workers = pre ++ .running job :: post) :
    InvWith { s with
        sched := (s.sched.complete job).1
        workers := pre ++ .ending job ((s.sched.complete job).2.map .start) :: post }
      ((s.sched.complete job).2.map .start ++ s.actions) := by
  have hrunning : s.running = pre.filterMap Worker.runs ++ job :: post.filterMap Worker.runs := by
    simp [FusePool.running, hw, Worker.runs]
  have hheldeq : s.held = pre.filterMap Worker.job ++ job :: post.filterMap Worker.job := by
    simp [FusePool.held, hw, Worker.job]
  -- the job is with this worker and nowhere else
  have hcount : (s.queue ++ jobsOf s.actions ++
      (pre.filterMap Worker.runs ++ post.filterMap Worker.runs)).count job = 0 := by
    have hone := h.once job
    have hparts := h.parts job
    -- a worker that runs a job has it
    have hsub : ∀ l : List Worker,
      (l.filterMap Worker.runs).count job ≤ (l.filterMap Worker.job).count job := by
      intro l
      induction l with
      | nil => exact Nat.le_refl _
      | cons w l ih =>
        cases w with
        | running k => simpa [List.filterMap_cons, Worker.runs, Worker.job, List.count_cons] using ih
        | ending k todo =>
          simp only [List.filterMap_cons, Worker.runs, Worker.job, List.count_cons]
          omega
        | lingering => simpa [List.filterMap_cons, Worker.runs, Worker.job] using ih
    have hpre := hsub pre
    have hpost := hsub post
    rw [hheldeq] at hparts
    simp only [List.count_append, List.count_cons_self] at hparts ⊢
    omega
  have hnot := List.count_eq_zero.mp hcount
  have hheld : ∀ c ∈ s.queue ++ jobsOf s.actions ++ (pre.filterMap Worker.runs ++ post.filterMap Worker.runs),
      c ∈ s.queue ++ jobsOf s.actions ++ s.running ∧ c ≠ job := by
    intro c hc
    refine ⟨?_, fun hcj => hnot (hcj ▸ hc)⟩
    rw [hrunning]
    simp only [List.mem_append, List.mem_cons] at hc ⊢
    tauto
  have hlive : ∃ u ∈ s.sched.tasks, u.id = job ∧ u.waiting = false := by
    refine h.jobs.live job (List.mem_append_right _ ?_)
    rw [hrunning]
    exact List.mem_append_right _ List.mem_cons_self
  -- the scheduler's part: the task goes, and what it held back starts
  obtain ⟨hjobs, hnodup, hlen, -, -⟩ := h.jobs.complete hlive hheld
  refine ⟨hjobs.mono ?_ ?_, fun c => ?_, fun c => ?_, Nat.le_trans hlen h.room, h.refused, ?_, h.cap, ?_,
    fun _ => by simp⟩
  · -- the jobs that start now are in the worker's actions, and live
    intro c hc
    simp only [FusePool.running, List.filterMap_append, List.filterMap_cons, Worker.runs, jobsOf_append,
      jobsOf_starts, List.mem_append] at hc ⊢
    tauto
  · intro c hc
    simp only [jobsOf_append, jobsOf_starts, List.mem_append] at hc ⊢
    tauto
  · -- they are new, so still no job is there twice
    have hbefore : (s.accepted ++ jobsOf s.actions).Nodup :=
      List.nodup_iff_count_le_one.mpr fun c => by
        rw [List.count_append]
        exact h.once c
    have := List.nodup_iff_count_le_one.mp (hnodup hbefore) c
    simp only [jobsOf_append, jobsOf_starts, List.count_append] at this ⊢
    omega
  · -- the job stays with this worker until it is counted
    have := h.parts c
    rw [hheldeq] at this
    simpa [FusePool.held, Worker.job] using this
  · have := h.slots
    rw [hw] at this
    rw [List.countP_append, isSlot_starts]
    simpa using this
  · have := h.idle
    rw [hw] at this
    simpa [List.countP_append, List.countP_cons, Worker.isLingering] using this

omit [DecidableEq K] in
/-- A worker counts its job as completed and has none then. -/
theorem InvWith.linger {job : Nat} {pre post : List Worker} (h : s.InvWith acts)
    (hw : s.workers = pre ++ .ending job [] :: post) :
    InvWith { s with
        completed := s.completed ++ [job]
        idle := s.idle + 1
        workers := pre ++ .lingering :: post } acts := by
  refine ⟨?_, h.once, fun c => ?_, h.room, h.refused, ?_, h.cap, ?_, fun _ => by simp⟩
  · -- the closure has returned: the worker runs nothing, before and after
    have hrunning : s.running = (pre ++ Worker.lingering :: post).filterMap Worker.runs := by
      simp [FusePool.running, hw, List.filterMap_cons, Worker.runs]
    show Jobs s.sched (s.queue ++ jobsOf acts ++ (pre ++ Worker.lingering :: post).filterMap Worker.runs) _
    rw [← hrunning]
    exact h.jobs
  · -- the job goes from the worker to the completed ones
    have := h.parts c
    simp only [FusePool.held, hw, List.filterMap_append, List.filterMap_cons, Worker.job, List.count_append,
      List.count_cons, List.count_nil] at this ⊢
    omega
  · have := h.slots
    rw [hw] at this
    simpa using this
  · have := h.idle
    rw [hw] at this
    simp only [List.countP_append, List.countP_cons, Worker.isLingering] at this ⊢
    simp only [Bool.false_eq_true, if_false, if_true] at this ⊢
    omega

omit [DecidableEq K] in
/-- A worker without a job takes the next one, or exits with none left. -/
theorem InvWith.wake {i : Nat} (h : s.InvWith acts) (hw : s.workers[i]? = some .lingering) :
    InvWith ({ s with idle := s.idle - 1 }.popOrExit i) acts := by
  obtain ⟨pre, post, hsplit, -, hset, herase, -⟩ := List.exists_split_of_getElem? hw
  have hslots := h.slots
  have hidle := h.idle
  rw [hsplit] at hslots hidle
  simp only [List.length_append, List.length_cons] at hslots
  simp only [List.countP_append, List.countP_cons, Worker.isLingering, if_true] at hidle
  have hheld : s.held = pre.filterMap Worker.job ++ post.filterMap Worker.job := by
    simp [FusePool.held, hsplit, List.filterMap_cons, Worker.job]
  have hrunning : s.running = pre.filterMap Worker.runs ++ post.filterMap Worker.runs := by
    simp [FusePool.running, hsplit, List.filterMap_cons, Worker.runs]
  have hjobs := h.jobs
  rw [hrunning] at hjobs
  cases hq : s.queue with
  | nil =>
    -- nothing to do: the worker leaves with its slot
    simp only [FusePool.popOrExit, herase]
    rw [hq] at hjobs
    refine ⟨?_, h.once, fun c => ?_, h.room, h.refused, ?_, Nat.le_trans (Nat.sub_le _ _) h.cap, ?_, nofun⟩
    · simpa [FusePool.running] using hjobs
    · have := h.parts c
      rw [hheld, hq] at this
      simpa [FusePool.held] using this
    · show s.active - 1 = (pre ++ post).length + acts.countP Action.isSlot
      rw [List.length_append]
      omega
    · show s.idle - 1 = (pre ++ post).countP Worker.isLingering
      rw [List.countP_append]
      omega
  | cons job queue =>
    -- it takes the first job of the queue
    simp only [FusePool.popOrExit, hset]
    rw [hq] at hjobs
    refine ⟨hjobs.mono ?_ (List.Subset.refl _), h.once, fun c => ?_, h.room, h.refused, ?_, h.cap, ?_,
      fun _ => by simp⟩
    · intro c hc
      simp only [FusePool.running, List.filterMap_append, List.filterMap_cons, Worker.runs, List.mem_append,
        List.mem_cons] at hc ⊢
      -- the job goes from the queue to the worker
      tauto
    · have := h.parts c
      rw [hheld, hq] at this
      simp only [FusePool.held, List.filterMap_append, List.filterMap_cons, Worker.job, List.count_append,
        List.count_cons] at this ⊢
      omega
    · show s.active = (pre ++ Worker.running job :: post).length + acts.countP Action.isSlot
      rw [List.length_append, List.length_cons]
      omega
    · show s.idle - 1 = (pre ++ Worker.running job :: post).countP Worker.isLingering
      rw [List.countP_append, List.countP_cons_of_neg (by simp [Worker.isLingering])]
      omega

/-! ## Runs -/

/-- The dispatch thread hands over the newest task, which holds nothing back. -/
def DispatchShape (s : FusePool K) : Prop :=
  s.dispatch = [] ∨ ∃ a, s.dispatch = [a] ∧
    (a = .giveBack ∨ a = .start s.sched.nextId ∨ a = .spawn s.sched.nextId)

/-- The invariant between the steps, with what all threads have left to do, and the bounds of the
    pool. -/
structure Inv (s : FusePool K) : Prop where
  pool : s.InvWith s.actions
  dispatch : s.DispatchShape
  cap : s.maxInflight ≤ s.queueCap
  workers : 0 < s.maxWorkers

/-- An action changes the pool's bounds nowhere, and adds at most a worker with nothing left to
    do. -/
theorem perform_frame (a : Action) (ok : Bool) : (s.perform a ok).1.dispatch = s.dispatch ∧
    (s.perform a ok).1.maxInflight = s.maxInflight ∧ (s.perform a ok).1.queueCap = s.queueCap ∧
    (s.perform a ok).1.maxWorkers = s.maxWorkers ∧
    ∃ extra, (s.perform a ok).1.workers = s.workers ++ extra ∧ extra.flatMap Worker.todo = [] := by
  have hnone : ∀ ws : List Worker, ∃ extra, ws = ws ++ extra ∧ extra.flatMap Worker.todo = [] :=
    fun ws => ⟨[], (List.append_nil ws).symm, rfl⟩
  cases a with
  | start id =>
    simp only [FusePool.perform]
    split
    · exact ⟨rfl, rfl, rfl, rfl, hnone _⟩
    · split
      · exact ⟨rfl, rfl, rfl, rfl, hnone _⟩
      · split <;> exact ⟨rfl, rfl, rfl, rfl, hnone _⟩
  | spawn id =>
    simp only [FusePool.perform]
    split
    · exact ⟨rfl, rfl, rfl, rfl, [.running id], rfl, rfl⟩
    · exact ⟨rfl, rfl, rfl, rfl, hnone _⟩
  | giveBack => exact ⟨rfl, rfl, rfl, rfl, hnone _⟩

/-- An action changes no id, and a dropped job that is the newest task's starts nothing. -/
theorem InvWith.perform_next {a : Action} (h : s.InvWith (a :: acts)) (ok : Bool) :
    (s.perform a ok).1.sched.nextId = s.sched.nextId ∧
      ((a = .giveBack ∨ a = .start s.sched.nextId ∨ a = .spawn s.sched.nextId) →
        (s.perform a ok).2 = [] ∨ (s.perform a ok).2 = [.giveBack] ∨
          (s.perform a ok).2 = [.spawn s.sched.nextId]) := by
  have hdrop : ∀ id, a.job = some id → (s.sched.complete id).1.nextId = s.sched.nextId ∧
      (id = s.sched.nextId → (s.sched.complete id).2 = []) := by
    intro id ha
    -- what a dropped job lets start is newer than the job, and no task is newer than the newest
    obtain ⟨hjobs, -, -, hnext, hnewer⟩ := h.dropJob ha
    refine ⟨hnext, fun hid => List.eq_nil_iff_forall_not_mem.mpr fun c hc => ?_⟩
    have hlt := hnewer c hc
    have hle := hjobs.bounded c (List.mem_append_right _ (by
      rw [jobsOf_append, jobsOf_starts]
      exact List.mem_append_left _ hc))
    omega
  cases a with
  | start id =>
    simp only [FusePool.perform]
    split
    · exact ⟨rfl, fun _ => .inl rfl⟩
    · split
      · -- the slot is reserved: the spawn of the same job is next
        refine ⟨rfl, fun ha => .inr (.inr ?_)⟩
        obtain rfl : id = s.sched.nextId := by simpa using ha
        rfl
      · split
        · exact ⟨rfl, fun _ => .inl rfl⟩
        · refine ⟨(hdrop id rfl).1, fun ha => .inl ?_⟩
          obtain rfl : id = s.sched.nextId := by simpa using ha
          rw [(hdrop _ rfl).2 rfl]
          rfl
  | spawn id =>
    simp only [FusePool.perform]
    split
    · exact ⟨rfl, fun _ => .inl rfl⟩
    · -- the thread was not created: the slot of the job is given back next
      refine ⟨(hdrop id rfl).1, fun ha => .inr (.inl ?_)⟩
      obtain rfl : id = s.sched.nextId := by simpa using ha
      rw [(hdrop _ rfl).2 rfl]
      rfl
  | giveBack => exact ⟨rfl, fun _ => .inl rfl⟩

/-- A thread performs its next action. -/
theorem Inv.act (h : s.Inv) {thread : Option Nat} {ok : Bool} (hs : s.step (.act thread ok) = some s') :
    s'.Inv := by
  simp only [FusePool.step] at hs
  split at hs
  · rename_i a rest htodo
    obtain rfl := Option.some.inj hs
    -- the action is the first of one thread's; the others' are left alone
    obtain ⟨others, hbefore, hafter⟩ := actions_setTodo htodo
    have hwith : s.InvWith (a :: (rest ++ others)) := h.pool.perm hbefore
    -- a thread that finds the pool full is a worker, or there are workers
    have hworker : ∀ id, a = .start id → s.maxWorkers ≤ s.active → s.workers ≠ [] := by
      intro id ha hfull hnone
      have hslots := h.pool.slots
      have hpos := h.workers
      rw [hnone] at hslots
      have hempty : s.actions = s.dispatch := by simp [FusePool.actions, hnone]
      -- with no worker, the only action left anywhere is the dispatcher's
      have hdisp : s.dispatch = [.start id] := by
        cases thread with
        | none =>
          have hd : s.dispatch = a :: rest := htodo
          rcases h.dispatch with hd' | ⟨b, hd', -⟩
          · rw [hd'] at hd
            cases hd
          · rw [hd'] at hd
            rw [hd', (List.cons.inj hd).1, ha]
        | some i => simp [FusePool.todo, hnone] at htodo
      -- so no slot is reserved without a thread, and the pool is not full
      rw [hempty, hdisp] at hslots
      simp [Action.isSlot] at hslots
      omega
    obtain ⟨hd, hmi, hqc, hmw, extra, hws, hextra⟩ := perform_frame (s := s) a ok
    have hpool := ((hwith.perform h.cap hworker ok).perm (by rw [List.append_assoc] :
      ((s.perform a ok).2 ++ (rest ++ others)).Perm ((s.perform a ok).2 ++ rest ++ others))).setTodo thread
        ((s.perform a ok).2 ++ rest)
    have hsched : ∀ l, ((s.perform a ok).1.setTodo thread l).sched = (s.perform a ok).1.sched := by
      cases thread <;> exact fun _ => rfl
    obtain ⟨hnext, hshape⟩ := hwith.perform_next ok
    refine ⟨hpool.perm (hafter _ extra hd hws hextra _).symm, ?_, ?_, ?_⟩
    · -- what the dispatcher has left is one action again, or nothing
      unfold DispatchShape
      rw [hsched, hnext]
      cases thread with
      | none =>
        have hdr : s.dispatch = a :: rest := htodo
        rcases h.dispatch with hd' | ⟨b, hd', hb⟩
        · rw [hd'] at hdr
          cases hdr
        · rw [hd'] at hdr
          obtain ⟨rfl, rfl⟩ := List.cons.inj hdr
          show (s.perform b ok).2 ++ [] = [] ∨ _
          -- its only action was `b`: what `b` leaves is one action at most, for the newest task
          rw [List.append_nil]
          rcases hshape hb with hr | hr | hr
          · exact .inl hr
          · exact .inr ⟨_, hr, .inl rfl⟩
          · exact .inr ⟨_, hr, .inr (.inr rfl)⟩
      | some i =>
        -- a worker's action is none of the dispatcher's
        show (s.perform a ok).1.dispatch = [] ∨ ∃ b, (s.perform a ok).1.dispatch = [b] ∧ _
        rw [hd]
        exact h.dispatch
    · cases thread <;> exact hmi ▸ hqc ▸ h.cap
    · cases thread <;> exact hmw ▸ h.workers
  · cases hs

/-- A request is submitted while the dispatcher has nothing left to do and there is room for a
    task. -/
theorem Inv.submit (h : s.Inv) {keys : List (K × Mode)} (hs : s.step (.submit keys) = some s') :
    s'.Inv := by
  simp only [FusePool.step] at hs
  split at hs
  · rename_i hif
    obtain ⟨hdispatch, hlt⟩ := hif
    obtain rfl := Option.some.inj hs
    obtain ⟨hjobs, hnodup, hlen⟩ := h.pool.jobs.submit keys
    obtain ⟨-, hnext, -⟩ := h.pool.jobs.inv.submit keys
    have hacts : s.actions = s.workers.flatMap Worker.todo := by
      rw [FusePool.actions, hdispatch, List.nil_append]
    refine ⟨⟨hjobs.mono ?_ ?_, fun c => ?_, h.pool.parts, ?_, h.pool.refused, ?_, h.pool.cap, h.pool.idle,
      h.pool.queued⟩, ?_, h.cap, h.workers⟩
    · -- the jobs to start are the dispatcher's now
      intro c hc
      simp only [FusePool.actions, hdispatch, List.nil_append, jobsOf_append, jobsOf_starts,
        FusePool.running, List.mem_append] at hc ⊢
      tauto
    · intro c hc
      simp only [FusePool.actions, hdispatch, List.nil_append, jobsOf_append, jobsOf_starts,
        List.mem_append] at hc ⊢
      tauto
    · -- they were not known before
      have hbefore : (s.accepted ++ jobsOf s.actions).Nodup :=
        List.nodup_iff_count_le_one.mpr fun c => by
          rw [List.count_append]
          exact h.pool.once c
      have := List.nodup_iff_count_le_one.mp (hnodup hbefore) c
      simp only [hacts, List.count_append] at this
      simp only [FusePool.actions, jobsOf_append, jobsOf_starts, List.count_append]
      omega
    · -- there was room for a task
      show (s.sched.submit keys).1.tasks.length ≤ s.maxInflight
      omega
    · -- a job that is only to be started holds no slot
      have := h.pool.slots
      rw [hacts] at this
      show s.active = s.workers.length +
        ((s.sched.submit keys).2.map Action.start ++ s.workers.flatMap Worker.todo).countP Action.isSlot
      rw [List.countP_append, isSlot_starts, Nat.zero_add]
      exact this
    · -- only the new task can be started
      -- `submit` starts the new task or nothing: no other task was freed
      unfold DispatchShape
      show (s.sched.submit keys).2.map Action.start = [] ∨ ∃ a, (s.sched.submit keys).2.map Action.start = [a] ∧
        (a = .giveBack ∨ a = .start (s.sched.submit keys).1.nextId ∨ a = .spawn (s.sched.submit keys).1.nextId)
      rw [hnext, Scheduler.submit_eq]
      split
      · exact .inr ⟨_, rfl, .inr (.inl rfl)⟩
      · exact .inl rfl
  · cases hs

/-- A job's closure returns. -/
theorem Inv.jobEnds (h : s.Inv) {i : Nat} (hs : s.step (.jobEnds i) = some s') : s'.Inv := by
  simp only [FusePool.step] at hs
  split at hs
  · rename_i job hwi
    obtain rfl := Option.some.inj hs
    obtain ⟨pre, post, hsplit, -, hset, -, -⟩ := List.exists_split_of_getElem? hwi
    rw [hset]
    have hjob : job ∈ s.running := by simp [FusePool.running, hsplit, Worker.runs]
    have hnone : ∀ c ∈ ([] : List Nat), c ∈ s.queue ++ jobsOf s.actions ++ s.running ∧ c ≠ job := nofun
    obtain ⟨-, -, -, hnext, -⟩ :=
      h.pool.jobs.complete (h.pool.jobs.live job (List.mem_append_right _ hjob)) hnone
    -- the worker's actions are the starts of what the job held back
    have hafter : ∀ t : FusePool K, t.dispatch = s.dispatch →
        t.workers = pre ++ .ending job ((s.sched.complete job).2.map .start) :: post →
        ((s.sched.complete job).2.map Action.start ++ (s.dispatch ++ pre.flatMap Worker.todo ++
          post.flatMap Worker.todo)).Perm t.actions := fun t hd hw => hd ▸ (actions_split hw).symm
    refine ⟨(h.pool.jobEnds hsplit).perm ?_, ?_, h.cap, h.workers⟩
    · exact ((actions_split hsplit).append_left _).trans (hafter _ rfl rfl)
    · -- completing a task gives out no new id
      unfold DispatchShape
      show s.dispatch = [] ∨ ∃ a, s.dispatch = [a] ∧ (a = .giveBack ∨
        a = .start (s.sched.complete job).1.nextId ∨ a = .spawn (s.sched.complete job).1.nextId)
      rw [hnext]
      exact h.dispatch
  · cases hs

omit [DecidableEq K] in
/-- A worker that takes its next job changes nothing for the dispatcher or the tasks. -/
theorem popOrExit_frame (s : FusePool K) (i : Nat) : (s.popOrExit i).dispatch = s.dispatch ∧
    (s.popOrExit i).sched = s.sched ∧ (s.popOrExit i).maxInflight = s.maxInflight ∧
    (s.popOrExit i).queueCap = s.queueCap ∧ (s.popOrExit i).maxWorkers = s.maxWorkers := by
  unfold FusePool.popOrExit
  split <;> exact ⟨rfl, rfl, rfl, rfl, rfl⟩

omit [DecidableEq K] in
/-- A worker that has nothing left to do takes its next job, or exits. -/
theorem actions_popOrExit {i : Nat} {w : Worker} (hw : s.workers[i]? = some w) (htodo : w.todo = []) :
    (s.popOrExit i).actions.Perm s.actions := by
  obtain ⟨pre, post, hsplit, -, hset, herase, -⟩ := List.exists_split_of_getElem? hw
  have hsame : s.workers.flatMap Worker.todo = (pre ++ post).flatMap Worker.todo := by
    simp [hsplit, htodo]
  unfold FusePool.popOrExit
  split
  · -- the job it takes has no actions yet
    show (s.dispatch ++ (s.workers.set i _).flatMap Worker.todo).Perm (s.dispatch ++ _)
    rw [hsame, hset]
    simp [Worker.todo]
  · -- a worker that leaves had no actions
    show (s.dispatch ++ (s.workers.eraseIdx i).flatMap Worker.todo).Perm (s.dispatch ++ _)
    rw [hsame, herase]

/-- A lingering worker is woken. -/
theorem Inv.wake (h : s.Inv) {i : Nat} (hs : s.step (.wake i) = some s') : s'.Inv := by
  simp only [FusePool.step] at hs
  split at hs
  · rename_i hwi
    obtain rfl := Option.some.inj hs
    obtain ⟨hd, hsched, hmi, hqc, hmw⟩ := popOrExit_frame { s with idle := s.idle - 1 } i
    have hacts := actions_popOrExit (s := { s with idle := s.idle - 1 }) hwi rfl
    refine ⟨(h.pool.wake hwi).perm hacts.symm, ?_, ?_, ?_⟩
    · unfold DispatchShape
      rw [hd, hsched]
      exact h.dispatch
    · rw [hmi, hqc]
      exact h.cap
    · rw [hmw]
      exact h.workers
  · cases hs

/-- A job ends as a worker that lingers and is woken at once, or as one that is not. -/
theorem Inv.next (h : s.Inv) {i : Nat} (hs : s.step (.next i) = some s') : s'.Inv := by
  simp only [FusePool.step] at hs
  split at hs
  · -- first count the job and linger
    rename_i job hwi
    obtain ⟨pre, post, hsplit, hlen, hset, -, -⟩ := List.exists_split_of_getElem? hwi
    have hling : FusePool.Inv { s with
        completed := s.completed ++ [job]
        idle := s.idle + 1
        workers := s.workers.set i .lingering } := by
      rw [hset]
      refine ⟨(h.pool.linger hsplit).perm ?_, h.dispatch, h.cap, h.workers⟩
      show (s.dispatch ++ s.workers.flatMap Worker.todo).Perm (s.dispatch ++ _)
      rw [hsplit]
      simp [Worker.todo]
    split at hs
    · obtain rfl := Option.some.inj hs
      exact hling
    · -- a job is there, or workers do not linger: as if the worker lingered and was woken at once
      obtain rfl := Option.some.inj hs
      have hlt : i < s.workers.length := (List.getElem?_eq_some_iff.mp hwi).1
      refine hling.wake (i := i) ?_
      simp only [FusePool.step, List.getElem?_set_self hlt, Nat.add_sub_cancel]
      congr 1
      unfold FusePool.popOrExit
      cases hq : s.queue with
      | nil => simp [List.eraseIdx_set_eq]
      | cons job' queue => simp [List.set_set]
  · cases hs

/-- Every step of the pool keeps the invariant. -/
theorem Inv.step (h : s.Inv) {e : PoolEvent K} (hs : s.step e = some s') : s'.Inv := by
  cases e with
  | submit keys => exact h.submit hs
  | act thread ok => exact h.act hs
  | jobEnds i => exact h.jobEnds hs
  | next i => exact h.next hs
  | wake i => exact h.wake hs

/-- Every run of the pool keeps the invariant. -/
theorem Inv.steps {es : List (PoolEvent K)} : ∀ {s s' : FusePool K}, s.Inv → s.steps es = some s' → s'.Inv := by
  induction es with
  | nil =>
    intro s s' h hs
    exact Option.some.inj hs ▸ h
  | cons e es ih =>
    intro s s' h hs
    obtain ⟨t, ht, hrest⟩ := Option.bind_eq_some_iff.mp hs
    exact ih (h.step ht) hrest

omit [DecidableEq K] in
/-- An empty pool meets the invariant. -/
theorem Inv.empty {maxInflight maxWorkers queueCap : Nat} {linger : Bool} (hcap : maxInflight ≤ queueCap)
    (hworkers : 0 < maxWorkers) :
    Inv ({ maxInflight, maxWorkers, queueCap, linger } : FusePool K) where
  pool := ⟨⟨Scheduler.Inv.empty, nofun, nofun, nofun⟩, fun _ => Nat.zero_le 1, fun _ => rfl,
    Nat.zero_le _, rfl, rfl, Nat.zero_le _, rfl, fun h => absurd rfl h⟩
  dispatch := .inl rfl
  cap := hcap
  workers := hworkers

/-- In every run of a pool whose queue is as long as the scheduler's limit, no job is refused for a
    full queue, `active` stays within `max_workers`, a job that was accepted is once in the queue,
    with a worker or completed, and jobs in the queue have a worker. -/
theorem runnable_requests_are_not_refused {maxInflight maxWorkers queueCap : Nat} {linger : Bool}
    (hcap : maxInflight ≤ queueCap) (hworkers : 0 < maxWorkers) {es : List (PoolEvent K)}
    (hs : ({ maxInflight, maxWorkers, queueCap, linger } : FusePool K).steps es = some s) :
    s.refusedFull = [] ∧ s.active ≤ s.maxWorkers ∧ s.accepted.Nodup ∧
      (∀ c ∈ s.accepted, s.queue.count c + s.held.count c + s.completed.count c = 1) ∧
      (∀ c, c ∈ s.queue ∨ c ∈ s.held ∨ c ∈ s.completed → c ∈ s.accepted) ∧
      (s.queue ≠ [] → s.workers ≠ [] ∧ 0 < s.active) := by
  have hinv := ((Inv.empty hcap hworkers).steps hs).pool
  have honce : ∀ c, s.accepted.count c ≤ 1 := by
    intro c
    have := hinv.once c
    omega
  refine ⟨hinv.refused, hinv.cap, List.nodup_iff_count_le_one.mpr honce, fun c hc => ?_, fun c hc => ?_,
    fun hq => ⟨hinv.queued hq, ?_⟩⟩
  · have hpos := List.count_pos_iff.mpr hc
    -- an accepted job is in exactly one of the three places
    have hone := honce c
    rw [← hinv.parts c]
    omega
  · -- and what is in one of them was accepted
    have hparts := hinv.parts c
    refine List.count_pos_iff.mp ?_
    rcases hc with hc | hc | hc
    · have := List.count_pos_iff.mpr hc
      omega
    · have := List.count_pos_iff.mpr hc
      omega
    · have := List.count_pos_iff.mpr hc
      omega
  · -- a worker holds its slot
    have hpos := List.length_pos_iff.mpr (hinv.queued hq)
    rw [hinv.slots]
    omega

/-- One worker and a limit of two: the second request is queued for the busy worker. -/
theorem second_request_is_queued : ∃ s : FusePool Nat,
    ({ maxInflight := 2, maxWorkers := 1, queueCap := 2 } : FusePool Nat).steps
      [.submit [(1, .exclusive)], .act none true, .act none true, .submit [(2, .shared)],
        .act none true] = some s ∧
    s.queue = [2] ∧ s.refusedFull = [] ∧ s.workers ≠ [] := by
  obtain ⟨s, hs, hq⟩ : ∃ s : FusePool Nat,
      ({ maxInflight := 2, maxWorkers := 1, queueCap := 2 } : FusePool Nat).steps
        [.submit [(1, .exclusive)], .act none true, .act none true, .submit [(2, .shared)], .act none true] =
        some s ∧ s.queue = [2] := ⟨_, rfl, rfl⟩
  obtain ⟨hfull, -, -, -, -, hworker⟩ :=
    runnable_requests_are_not_refused (by decide) (by decide) hs
  exact ⟨s, hs, hq, hfull, (hworker (by rw [hq]; decide)).1⟩

end FusePool

end FuseSched

end Ncrs
