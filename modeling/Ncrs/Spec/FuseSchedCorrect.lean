import Ncrs.Native.FuseSched

/-!
# The FUSE scheduler

A live task has been started exactly when no earlier live task clashes with it. `submit` and
`complete` keep that (`Scheduler.Inv`); inside `complete` the finished task still stands on the
keys the loop has not reached (`Scheduler.Completing`). Order, exclusion and progress of whole runs
follow.

## Key results

- `Scheduler.Inv.submit`, `Scheduler.Inv.complete`: the invariant is kept
- `Run.conflicting_tasks_run_in_order`: of two tasks that clash, the later one is started after
  the earlier one has completed, and each is started once
- `Run.ready_tasks_are_started`: no task that may run waits, and a run that completes what it
  started leaves nothing behind
-/

namespace Ncrs

namespace FuseSched

variable {K : Type}

/-- Both name a key and one of them needs it for itself. -/
def Clash (a b : List (K × Mode)) : Prop :=
  ∃ k m n, (k, m) ∈ a ∧ (k, n) ∈ b ∧ (m = .exclusive ∨ n = .exclusive)

/-- A key that is not claimed exclusively is shared. -/
theorem Mode.shared_of_not_exclusive {m : Mode} (h : m ≠ .exclusive) : m = .shared := by
  cases m with
  | shared => rfl
  | exclusive => exact absurd rfl h

variable [DecidableEq K]

/-! ## Merging keys -/

theorem mergeKeys_eq (keys : List (K × Mode)) : mergeKeys keys = KeyedQueues.mergeAll .exclusive keys := rfl

/-- After merging no key occurs twice. -/
theorem nodup_mergeKeys (keys : List (K × Mode)) : ((mergeKeys keys).map (·.1)).Nodup := by
  rw [mergeKeys_eq]
  exact KeyedQueues.nodup_mergeAll keys

/-- Merging keeps what two lists of keys clash on. -/
theorem clash_mergeKeys {a b : List (K × Mode)} :
    Clash (mergeKeys a) (mergeKeys b) ↔ Clash a b := KeyedQueues.clash_mergeAll

/-! ## Readiness -/

/-- No earlier task of `ts` clashes with `u`. -/
def Free (ts : List (Task K)) (u : Task K) : Prop := ∀ v ∈ ts, v.id < u.id → ¬ Clash v.keys u.keys

/-- The task whose job was taken, if it is `id`. -/
def Task.started (t : Task K) (id : Nat) : Task K := if t.id = id then { t with waiting := false } else t

omit [DecidableEq K] in
@[simp] theorem Task.started_id (t : Task K) (id : Nat) : (t.started id).id = t.id := by
  unfold Task.started
  split <;> rfl

omit [DecidableEq K] in
@[simp] theorem Task.started_keys (t : Task K) (id : Nat) : (t.started id).keys = t.keys := by
  unfold Task.started
  split <;> rfl

namespace Scheduler

variable {s : Scheduler K}

/-- The live tasks, oldest first, with the keys of each named once. -/
structure Ordered (s : Scheduler K) : Prop where
  sorted : s.tasks.Pairwise fun t u => t.id < u.id
  bounded : ∀ t ∈ s.tasks, t.id ≤ s.nextId
  keys : ∀ t ∈ s.tasks, (t.keys.map (·.1)).Nodup
  queues : ∀ k, (s.queues k).Pairwise fun x y => x.1 < y.1

omit [DecidableEq K] in
/-- A task is known by its number. -/
theorem Ordered.id_inj (h : s.Ordered) {t u : Task K} (ht : t ∈ s.tasks) (hu : u ∈ s.tasks)
    (hid : t.id = u.id) : t = u := by
  have hnodup : (s.tasks.map (·.id)).Nodup := by
    rw [List.Nodup, List.pairwise_map]
    exact h.sorted.imp fun hlt => Nat.ne_of_lt hlt
  exact List.inj_on_of_nodup_map hnodup ht hu hid

omit [DecidableEq K] in
/-- A task that is there is found under its number. -/
theorem Ordered.task?_eq (h : s.Ordered) {u : Task K} (hu : u ∈ s.tasks) : s.task? u.id = some u := by
  unfold task?
  cases hf : s.tasks.find? fun t => decide (t.id = u.id) with
  | none =>
    have := List.find?_eq_none.mp hf u hu
    simp at this
  | some t =>
    have ht := List.find?_some hf
    rw [h.id_inj (List.mem_of_find?_eq_some hf) hu (of_decide_eq_true ht)]

omit [DecidableEq K] in
/-- And what is found is there. -/
theorem task?_mem {id : Nat} {t : Task K} (h : s.task? id = some t) : t ∈ s.tasks ∧ t.id = id := by
  unfold task? at h
  exact ⟨List.mem_of_find?_eq_some h, by simpa using List.find?_some h⟩

omit [DecidableEq K] in
/-- A task that stands in its own queues is ready when what stands ahead of it there is shared, and
    it is too. -/
theorem Ordered.ready_iff (h : s.Ordered) {u : Task K} (hu : u ∈ s.tasks)
    (hmine : ∀ k m, (k, m) ∈ u.keys → (u.id, m) ∈ s.queues k) :
    s.ready u.id = true ↔ ∀ k m, (k, m) ∈ u.keys → ∀ x ∈ s.queues k, x.1 < u.id →
      m = .shared ∧ x.2 = .shared := by
  unfold ready
  rw [h.task?_eq hu]
  simp only [List.all_eq_true, decide_eq_true_eq]
  constructor
  · intro hall k m hkm x hx hlt
    exact hall (k, m) hkm x
      ((KeyedQueues.mem_takeWhile_ne_iff (h.queues k) (hmine k m hkm)).mpr ⟨hx, hlt⟩)
  · rintro hall ⟨k, m⟩ hkm x hx
    obtain ⟨hx, hlt⟩ := (KeyedQueues.mem_takeWhile_ne_iff (h.queues k) (hmine k m hkm)).mp hx
    exact hall k m hkm x hx hlt

/-! ## Taking jobs -/

omit [DecidableEq K] in
theorem takeJob_tasks (id : Nat) : (s.takeJob id).tasks = s.tasks.map (·.started id) := rfl

omit [DecidableEq K] in
/-- Taking a job keeps the queues in order. -/
theorem Ordered.takeJob (h : s.Ordered) (id : Nat) : (s.takeJob id).Ordered where
  sorted := by
    rw [takeJob_tasks, List.pairwise_map]
    simpa using h.sorted
  bounded := by
    rw [takeJob_tasks]
    simpa [Scheduler.takeJob] using h.bounded
  keys := by
    rw [takeJob_tasks]
    simpa using h.keys
  queues := h.queues

/-! ## Inside `complete` -/

/-- Nothing holds `u` back but the finished task `t` on keys outside `ks`. -/
def FreeBut (t : Task K) (ks : List K) (ts : List (Task K)) (u : Task K) : Prop :=
  Free ts u ∧ (t.id < u.id →
    ∀ k ∈ ks, ∀ m n, (k, m) ∈ t.keys → (k, n) ∈ u.keys → m = .shared ∧ n = .shared)

/-- The task with the jobs of `l` taken. -/
def mark (l : List Nat) (t : Task K) : Task K := { t with waiting := t.waiting && decide (t.id ∉ l) }

omit [DecidableEq K] in
theorem map_mark_nil (ts : List (Task K)) : ts.map (mark []) = ts := by
  have hid : ∀ t : Task K, mark [] t = t := fun t => by simp [mark]
  exact (List.map_congr_left fun t _ => hid t).trans (List.map_id' ts)

omit [DecidableEq K] in
/-- Whether a task is free does not depend on which have been started. -/
theorem free_map_mark {l : List Nat} {ts : List (Task K)} {u : Task K} :
    Free (ts.map (mark l)) (mark l u) ↔ Free ts u := by
  simp [Free, mark]

omit [DecidableEq K] in
/-- A task no longer waits if it did not before or is among those marked. -/
theorem mark_waiting {l : List Nat} {u : Task K} :
    (mark l u).waiting = false ↔ u.waiting = false ∨ u.id ∈ l := by
  cases hw : u.waiting with
  | false => simp [mark, hw]
  | true => simp [mark, hw]

/-- `complete` of `t` has come to the keys `ks`: the live tasks are `ts`, the jobs of `r.2` are
    taken, and `t` still stands in the queues of `ks`. -/
structure Standing (t : Task K) (ts : List (Task K)) (ks : List K) (r : Scheduler K × List Nat) :
    Prop where
  tasks : r.1.tasks = ts.map (mark r.2)
  ordered : r.1.Ordered
  nodup : r.2.Nodup
  waited : ∀ c ∈ r.2, ∃ u ∈ ts, u.id = c ∧ u.waiting = true
  mem : ∀ k x, x ∈ r.1.queues k ↔
    (∃ v ∈ ts, x.1 = v.id ∧ (k, x.2) ∈ v.keys) ∨ (k ∈ ks ∧ x.1 = t.id ∧ (k, x.2) ∈ t.keys)

namespace Standing

variable {t : Task K} {ts : List (Task K)} {k : K} {ks : List K} {r : Scheduler K × List Nat}

omit [DecidableEq K] in
/-- A task that stands is there, marked. -/
theorem mark_mem (h : Standing t ts ks r) {u : Task K} (hu : u ∈ ts) : mark r.2 u ∈ r.1.tasks := by
  rw [h.tasks]
  exact List.mem_map_of_mem hu

omit [DecidableEq K] in
/-- A task that stands is ready exactly when it is free. -/
theorem ready_iff (h : Standing t ts ks r) {u : Task K} (hu : u ∈ ts) :
    r.1.ready u.id = true ↔ FreeBut t ks ts u := by
  have hmine : ∀ k m, (k, m) ∈ (mark r.2 u).keys → ((mark r.2 u).id, m) ∈ r.1.queues k :=
    fun k m hkm => (h.mem k _).mpr (.inl ⟨u, hu, rfl, hkm⟩)
  rw [show u.id = (mark r.2 u).id from rfl, h.ordered.ready_iff (h.mark_mem hu) hmine]
  constructor
  · refine fun hall => ⟨?_, fun hlt k hk m n hm hn => ?_⟩
    · rintro v hv hlt ⟨k, m, n, hm, hn, hex⟩
      obtain ⟨rfl, hsh⟩ := hall k n hn (v.id, m) ((h.mem k _).mpr (.inl ⟨v, hv, rfl, hm⟩)) hlt
      obtain rfl : m = .shared := hsh
      rcases hex with hex | hex <;> cases hex
    · exact (hall k n hn (t.id, m) ((h.mem k _).mpr (.inr ⟨hk, rfl, hm⟩)) hlt).symm
  · rintro ⟨hfree, hbut⟩ k m hkm ⟨id, n⟩ hx hlt
    rcases (h.mem k _).mp hx with ⟨v, hv, rfl, hn⟩ | ⟨hk, rfl, hn⟩
    · -- two modes that are not both shared clash
      have hno := hfree v hv hlt
      refine ⟨Mode.shared_of_not_exclusive fun hm => hno ⟨k, n, m, hn, hkm, .inr hm⟩,
        Mode.shared_of_not_exclusive fun hex => hno ⟨k, n, m, hn, hkm, .inl hex⟩⟩
    · exact (hbut hlt k hk n m hn hkm).symm

omit [DecidableEq K] in
/-- What `startIfReady` looks at. -/
theorem waiting_iff (h : Standing t ts ks r) {u : Task K} (hu : u ∈ ts) :
    (r.1.task? u.id).any (·.waiting) = true ↔ u.waiting = true ∧ u.id ∉ r.2 := by
  rw [show u.id = (mark r.2 u).id from rfl, h.ordered.task?_eq (h.mark_mem hu)]
  simp [mark]

omit [DecidableEq K] in
/-- A waiting task of the scheduler is one of the tasks that stand. -/
theorem exists_of_task? (h : Standing t ts ks r) {c : Nat}
    (hc : (r.1.task? c).any (·.waiting) = true) : ∃ u ∈ ts, u.id = c := by
  cases hw : r.1.task? c with
  | none =>
    rw [hw] at hc
    cases hc
  | some w =>
    obtain ⟨hmem, hid⟩ := task?_mem hw
    rw [h.tasks] at hmem
    obtain ⟨u, hu, rfl⟩ := List.mem_map.mp hmem
    exact ⟨u, hu, hid⟩

omit [DecidableEq K] in
/-- Taking the job of a task that waits moves its number to the list. -/
theorem takeJob (h : Standing t ts ks r) {u : Task K} (hu : u ∈ ts) (hw : u.waiting = true)
    (hnew : u.id ∉ r.2) : Standing t ts ks (r.1.takeJob u.id, r.2 ++ [u.id]) where
  tasks := by
    show (r.1.tasks.map (·.started u.id)) = _
    rw [h.tasks, List.map_map]
    refine List.map_congr_left fun v _ => ?_
    by_cases hv : v.id = u.id
    · simp [mark, Task.started, hv]
    · simp [mark, Task.started, hv]
  ordered := h.ordered.takeJob u.id
  nodup := by
    rw [List.nodup_append]
    refine ⟨h.nodup, List.nodup_singleton _, fun a ha b hb => ?_⟩
    rw [List.mem_singleton.mp hb]
    rintro rfl
    exact hnew ha
  waited := by
    intro c hc
    rcases List.mem_append.mp hc with hc | hc
    · exact h.waited c hc
    · exact ⟨u, hu, (List.mem_singleton.mp hc).symm, hw⟩
  mem := h.mem

omit [DecidableEq K] in
/-- The candidates that wait and are ready are started, and nothing else. -/
theorem foldl_startIfReady (cands : List Nat) : ∀ {r : Scheduler K × List Nat}, Standing t ts ks r →
    let r' := cands.foldl startIfReady r
    Standing t ts ks r' ∧ r'.1.nextId = r.1.nextId ∧ r.2 ⊆ r'.2 ∧
      (∀ c ∈ r'.2, c ∈ r.2 ∨ ∃ u ∈ ts, u.id = c ∧ FreeBut t ks ts u) ∧
      ∀ u ∈ ts, u.id ∈ cands → FreeBut t ks ts u → u.waiting = false ∨ u.id ∈ r'.2 := by
  -- the induction is over the candidates that are still to be looked at
  induction cands with
  | nil => exact fun h => ⟨h, rfl, List.Subset.refl _, fun _ hc => .inl hc, fun _ _ hc => nomatch hc⟩
  | cons c cands ih =>
    intro r h
    rw [List.foldl_cons]
    unfold startIfReady
    split
    · -- `c` is started
      rename_i hif
      obtain ⟨hw, hready⟩ := Bool.and_eq_true_iff.mp hif
      obtain ⟨u, hu, rfl⟩ := h.exists_of_task? hw
      obtain ⟨hwait, hnew⟩ := (h.waiting_iff hu).mp hw
      obtain ⟨h', hnext, hsub, honly, hall⟩ := ih (h.takeJob hu hwait hnew)
      -- what was started before, `c` itself, or one of the candidates behind it
      refine ⟨h', hnext, List.Subset.trans (List.subset_append_left _ _) hsub, fun c hc => ?_,
        fun v hv hvc hfree => ?_⟩
      · rcases honly c hc with hc | hc
        · rcases List.mem_append.mp hc with hc | hc
          · exact .inl hc
          · exact .inr ⟨u, hu, (List.mem_singleton.mp hc).symm, (h.ready_iff hu).mp hready⟩
        · exact .inr hc
      · rcases List.mem_cons.mp hvc with hvc | hvc
        · exact .inr (hsub (List.mem_append_right _ (List.mem_singleton.mpr hvc)))
        · exact hall v hv hvc hfree
    · -- it was started before, or is not ready
      rename_i hif
      obtain ⟨h', hnext, hsub, honly, hall⟩ := ih h
      refine ⟨h', hnext, hsub, honly, fun v hv hvc hfree => ?_⟩
      rcases List.mem_cons.mp hvc with hvc | hvc
      · subst hvc
        by_cases hw : v.waiting = true
        · refine .inr (hsub ?_)
          by_contra hnew
          exact hif (Bool.and_eq_true_iff.mpr
            ⟨(h.waiting_iff hv).mpr ⟨hw, hnew⟩, (h.ready_iff hv).mpr hfree⟩)
        · exact .inl (by simpa using hw)
      · exact hall v hv hvc hfree

/-- The queue of the key at hand without `t`. -/
theorem erase (h : Standing t ts (k :: ks) r) (hgone : ∀ v ∈ ts, v.id ≠ t.id) (hk : k ∉ ks) :
    let q := (r.1.queues k).eraseP fun e => e.1 = t.id
    Standing t ts ks ({ r.1 with queues := Function.update r.1.queues k q }, r.2) := by
  intro q
  have hq : q = (r.1.queues k).filter fun e => e.1 ≠ t.id :=
    KeyedQueues.eraseP_eq_filter (h.ordered.queues k) t.id
  -- only the queue of `k` is another, and it is a part of what it was
  have hsorted : ∀ k', (Function.update r.1.queues k q k').Pairwise fun x y => x.1 < y.1 := by
    intro k'
    by_cases hk' : k' = k
    · subst hk'
      rw [Function.update_self, hq]
      exact (h.ordered.queues _).filter _
    · rw [Function.update_of_ne hk']
      exact h.ordered.queues k'
  refine ⟨h.tasks, ⟨h.ordered.sorted, h.ordered.bounded, h.ordered.keys, hsorted⟩, h.nodup, h.waited,
    fun k' x => ?_⟩
  show x ∈ Function.update r.1.queues k q k' ↔ _
  by_cases hk' : k' = k
  · -- the queue of `k`: the completed task is gone from it, and nobody else
    subst hk'
    rw [Function.update_self, hq, List.mem_filter, h.mem k' x, decide_eq_true_eq]
    constructor
    · rintro ⟨hx | ⟨-, hx, -⟩, hne⟩
      · exact .inl hx
      · exact absurd hx hne
    · rintro (⟨v, hv, hx, hkeys⟩ | ⟨hmem, -⟩)
      · exact ⟨.inl ⟨v, hv, hx, hkeys⟩, hx ▸ hgone v hv⟩
      · exact absurd hmem hk
  · rw [Function.update_of_ne hk', h.mem k' x, List.mem_cons]
    simp only [hk', false_or]

omit [DecidableEq K] in
/-- The tasks that stand are in order. -/
theorem sorted (h : Standing t ts ks r) : ts.Pairwise fun u v => u.id < v.id := by
  have := h.ordered.sorted
  rwa [h.tasks, List.pairwise_map] at this

omit [DecidableEq K] in
/-- And known by their numbers. -/
theorem id_inj (h : Standing t ts ks r) {u v : Task K} (hu : u ∈ ts) (hv : v ∈ ts)
    (hid : u.id = v.id) : u = v := by
  have hnodup : (ts.map (·.id)).Nodup := by
    rw [List.Nodup, List.pairwise_map]
    exact h.sorted.imp fun hlt => Nat.ne_of_lt hlt
  exact List.inj_on_of_nodup_map hnodup hu hv hid

omit [DecidableEq K] in
/-- What stands in a queue `t` is gone from is a live task's. -/
theorem exists_of_mem (h : Standing t ts ks r) (hk : k ∉ ks) {x : Nat × Mode}
    (hx : x ∈ r.1.queues k) : ∃ v ∈ ts, x.1 = v.id ∧ (k, x.2) ∈ v.keys := by
  rcases (h.mem k x).mp hx with hv | ⟨hmem, -⟩
  · exact hv
  · exact absurd hmem hk

omit [DecidableEq K] in
/-- From a head that waits, the candidates have it, and with it what stands in its shared run. -/
theorem mem_candidates_of_head (h : Standing t ts ks r) {q : List (Nat × Mode)} {head : Nat × Mode}
    {rest : List (Nat × Mode)} (hq : q = head :: rest) {w : Task K} (hw : w ∈ ts)
    (hwid : head.1 = w.id) (hwait : ¬ (w.waiting = false ∨ w.id ∈ r.2)) {x : Nat × Mode}
    (hx : x = head ∨ head.2 = .shared ∧ x ∈ q.takeWhile fun e => e.2 = .shared) :
    x.1 ∈ r.1.candidates q := by
  rw [not_or, Bool.not_eq_false] at hwait
  have hany : (r.1.task? head.1).any (fun v => !v.waiting) = false := by
    rw [hwid, show w.id = (mark r.2 w).id from rfl, h.ordered.task?_eq (h.mark_mem hw)]
    simp [mark, hwait.1, hwait.2]
  subst hq
  simp only [candidates, hany, Bool.false_eq_true, if_false]
  rcases hx with rfl | ⟨hsh, hx⟩
  · split
    · exact List.mem_singleton_self _
    · rename_i hex
      have hsh := Mode.shared_of_not_exclusive hex
      rw [List.takeWhile_cons_of_pos (by simpa using hsh)]
      exact List.mem_cons_self
  · rw [if_neg (by rw [hsh]; exact nofun)]
    exact List.mem_map_of_mem hx

omit [DecidableEq K] in
/-- A task that only `t`, on the key at hand, held back is a candidate there. -/
theorem mem_candidates (h : Standing t ts ks r) (hgone : ∀ v ∈ ts, v.id ≠ t.id)
    (ht : ∀ v ∈ ts, v.id < t.id → ¬ Clash v.keys t.keys)
    (hstarted : ∀ v ∈ ts, v.waiting = false ∨ v.id ∈ r.2 → FreeBut t (k :: ks) ts v)
    (hk : k ∉ ks) {u : Task K} (hu : u ∈ ts) (hfree : FreeBut t ks ts u)
    (hheld : ¬ FreeBut t (k :: ks) ts u) : u.id ∈ r.1.candidates (r.1.queues k) := by
  -- `t` and `u` clash on `k`
  obtain ⟨m, n, hm, hn, hclash⟩ : ∃ m n, (k, m) ∈ t.keys ∧ (k, n) ∈ u.keys ∧
      (m = .exclusive ∨ n = .exclusive) := by
    by_contra hno
    refine hheld ⟨hfree.1, fun hlt k' hk' m n hm hn => ?_⟩
    rcases List.mem_cons.mp hk' with rfl | hk'
    · exact ⟨Mode.shared_of_not_exclusive fun he => hno ⟨m, n, hm, hn, .inl he⟩,
        Mode.shared_of_not_exclusive fun he => hno ⟨m, n, hm, hn, .inr he⟩⟩
    · exact hfree.2 hlt k' hk' m n hm hn
  have hplace : (u.id, n) ∈ r.1.queues k := (h.mem k _).mpr (.inl ⟨u, hu, rfl, hn⟩)
  -- what stands ahead of `u` there is shared, and then `u` is too
  have hahead : ∀ x ∈ r.1.queues k, x.1 < u.id → n = .shared ∧ x.2 = .shared := by
    rintro ⟨id, a⟩ hx hxu
    obtain ⟨v, hv, rfl, ha⟩ := h.exists_of_mem hk hx
    have hno := hfree.1 v hv hxu
    exact ⟨Mode.shared_of_not_exclusive fun he => hno ⟨k, a, n, ha, hn, .inr he⟩,
      Mode.shared_of_not_exclusive fun he => hno ⟨k, a, n, ha, hn, .inl he⟩⟩
  obtain ⟨head, rest, hq⟩ := List.exists_cons_of_ne_nil (List.ne_nil_of_mem hplace)
  have hmem : head ∈ r.1.queues k := hq ▸ List.mem_cons_self
  obtain ⟨w, hw, hwid, hwkey⟩ := h.exists_of_mem hk hmem
  have hle : head.1 ≤ u.id := KeyedQueues.head_le (hq ▸ h.ordered.queues k) (hq ▸ hplace)
  rcases Nat.lt_or_eq_of_le hle with hlt | heq
  · -- a shared head ahead of `u` was held back by `t` as well
    obtain ⟨hns, hhs⟩ := hahead head hmem hlt
    have hmx : m = .exclusive := hclash.resolve_right (by rw [hns]; exact nofun)
    have hwait : ¬ (w.waiting = false ∨ w.id ∈ r.2) := by
      intro hrun
      rcases Nat.lt_trichotomy w.id t.id with hwt | hwt | hwt
      · exact ht w hw hwt ⟨k, head.2, m, hwkey, hm, .inr hmx⟩
      · exact hgone w hw hwt
      · obtain ⟨hms, -⟩ := (hstarted w hw hrun).2 hwt k List.mem_cons_self m head.2 hm hwkey
        rw [hms] at hmx
        cases hmx
    refine h.mem_candidates_of_head hq hw hwid hwait (.inr ⟨hhs, ?_⟩) (x := (u.id, n))
    refine KeyedQueues.mem_takeWhile_of_ahead (h.ordered.queues k) hplace (decide_eq_true hns) ?_
    exact fun y hy hyu => decide_eq_true (hahead y hy hyu).2
  · -- `u` is the head
    obtain rfl : w = u := h.id_inj hw hu (hwid.symm.trans heq)
    rw [← hwid]
    exact h.mem_candidates_of_head hq hw hwid (fun hrun => hheld (hstarted w hw hrun)) (.inl rfl)

end Standing

/-- The state of `complete` at the keys `ks`: what is started is what nothing holds back any more. -/
structure Completing (t : Task K) (ts : List (Task K)) (ks : List K) (r : Scheduler K × List Nat) :
    Prop where
  standing : Standing t ts ks r
  gone : ∀ v ∈ ts, v.id ≠ t.id
  /-- The finished task had been started. -/
  ran : ∀ v ∈ ts, v.id < t.id → ¬ Clash v.keys t.keys
  started : ∀ u ∈ ts, (u.waiting = false ∨ u.id ∈ r.2) ↔ FreeBut t ks ts u

omit [DecidableEq K] in
/-- A task that is free still is with one key fewer to wait for. -/
theorem FreeBut.tail {t : Task K} {ts : List (Task K)} {k : K} {ks : List K} {u : Task K}
    (h : FreeBut t (k :: ks) ts u) : FreeBut t ks ts u :=
  ⟨h.1, fun hlt k' hk' => h.2 hlt k' (List.mem_cons_of_mem _ hk')⟩

/-- Completing one key starts the tasks that waited for it. -/
theorem Completing.completeKey {t : Task K} {ts : List (Task K)} {k : K} {ks : List K}
    {r : Scheduler K × List Nat} (h : Completing t ts (k :: ks) r) (hk : k ∉ ks) :
    Completing t ts ks (completeKey t.id r k) ∧ (completeKey t.id r k).1.nextId = r.1.nextId := by
  let q := (r.1.queues k).eraseP fun e => e.1 = t.id
  let s' : Scheduler K := { r.1 with queues := Function.update r.1.queues k q }
  have herase : Standing t ts ks (s', r.2) := h.standing.erase h.gone hk
  have hqueue : s'.queues k = q := Function.update_self ..
  obtain ⟨hstand, hnext, hsub, honly, hall⟩ := herase.foldl_startIfReady (s'.candidates q)
  refine ⟨⟨hstand, h.gone, h.ran, fun u hu => ⟨fun hrun => ?_, fun hfree => ?_⟩⟩, hnext⟩
  · rcases hrun with hrun | hrun
    · exact ((h.started u hu).mp (.inl hrun)).tail
    · rcases honly u.id hrun with hrun | ⟨v, hv, hid, hfree⟩
      · exact ((h.started u hu).mp (.inr hrun)).tail
      · rw [← hstand.id_inj hv hu hid]
        exact hfree
  · by_cases hbefore : FreeBut t (k :: ks) ts u
    · exact ((h.started u hu).mpr hbefore).imp id fun hmem => hsub hmem
    · refine hall u hu ?_ hfree
      have hcand := herase.mem_candidates h.gone h.ran (fun v hv => (h.started v hv).mp) hk hu hfree
        hbefore
      rwa [hqueue] at hcand

/-- Completing the keys one by one starts all that have become free. -/
theorem Completing.foldl {t : Task K} {ts : List (Task K)} {ks : List K} (hnodup : ks.Nodup) :
    ∀ {r : Scheduler K × List Nat}, Completing t ts ks r →
      Completing t ts [] (ks.foldl (Scheduler.completeKey t.id) r) ∧
        (ks.foldl (Scheduler.completeKey t.id) r).1.nextId = r.1.nextId := by
  induction ks with
  | nil => exact fun h => ⟨h, rfl⟩
  | cons k ks ih =>
    intro r h
    obtain ⟨hk, hnodup⟩ := List.nodup_cons.mp hnodup
    obtain ⟨hstep, hnext⟩ := h.completeKey hk
    obtain ⟨hrest, hnext'⟩ := ih hnodup hstep
    exact ⟨hrest, hnext'.trans hnext⟩

/-! ## Between critical sections -/

/-- Every live task stands in the queues of its keys, and has been started exactly when no earlier
    live task clashes with it. -/
structure Inv (s : Scheduler K) : Prop where
  ordered : s.Ordered
  mem : ∀ k x, x ∈ s.queues k ↔ ∃ v ∈ s.tasks, x.1 = v.id ∧ (k, x.2) ∈ v.keys
  started : ∀ u ∈ s.tasks, u.waiting = false ↔ Free s.tasks u

omit [DecidableEq K] in
theorem Inv.empty : Inv ({} : Scheduler K) :=
  ⟨⟨List.Pairwise.nil, nofun, nofun, fun _ => List.Pairwise.nil⟩, fun _ _ => by simp, nofun⟩

omit [DecidableEq K] in
/-- A task is ready exactly when it is free. -/
theorem Inv.ready_iff (h : s.Inv) {u : Task K} (hu : u ∈ s.tasks) :
    s.ready u.id = true ↔ Free s.tasks u := by
  have hstand : Standing u s.tasks [] (s, []) :=
    ⟨(map_mark_nil _).symm, h.ordered, List.nodup_nil, nofun, fun k x => by simp [h.mem k x]⟩
  rw [hstand.ready_iff hu]
  exact ⟨And.left, fun hfree => ⟨hfree, nofun⟩⟩

omit [DecidableEq K] in
/-- At the end of its loop `complete` has kept the invariant. -/
theorem Completing.inv {t : Task K} {ts : List (Task K)} {r : Scheduler K × List Nat}
    (h : Completing t ts [] r) : r.1.Inv := by
  refine ⟨h.standing.ordered, fun k x => ?_, fun u' hu' => ?_⟩
  · rw [h.standing.mem k x, h.standing.tasks]
    simp [mark]
  · rw [h.standing.tasks] at hu' ⊢
    obtain ⟨u, hu, rfl⟩ := List.mem_map.mp hu'
    rw [free_map_mark, mark_waiting, h.started u hu]
    exact ⟨And.left, fun hfree => ⟨hfree, nofun⟩⟩

/-- What one critical section started: the tasks whose jobs it took. -/
structure Starts (ts : List (Task K)) (s : Scheduler K) (l : List Nat) : Prop where
  tasks : s.tasks = ts.map (mark l)
  nodup : l.Nodup
  waited : ∀ c ∈ l, ∃ u ∈ ts, u.id = c ∧ u.waiting = true

/-- Completing a task keeps the scheduler in order, and starts what it held back. -/
theorem Inv.complete (h : s.Inv) {t : Task K} (ht : t ∈ s.tasks) (hrun : t.waiting = false) :
    (s.complete t.id).1.Inv ∧ (s.complete t.id).1.nextId = s.nextId ∧
      Starts (s.tasks.filter fun u => u.id ≠ t.id) (s.complete t.id).1 (s.complete t.id).2 := by
  have hsub : ∀ v ∈ s.tasks.filter (fun u => u.id ≠ t.id), v ∈ s.tasks ∧ v.id ≠ t.id := by
    intro v hv
    exact ⟨List.mem_of_mem_filter hv, of_decide_eq_true (List.mem_filter.mp hv).2⟩
  have hfree : Free s.tasks t := (h.started t ht).mp hrun
  -- without the task, free means free of the others and not held by its keys
  have hbut : ∀ u ∈ s.tasks.filter (fun u => u.id ≠ t.id), Free s.tasks u ↔
      FreeBut t (t.keys.map (·.1)) (s.tasks.filter fun u => u.id ≠ t.id) u := by
    intro u hu
    constructor
    · refine fun hf => ⟨fun v hv => hf v (hsub v hv).1, fun hlt k _ m n hm hn => ?_⟩
      have hno := hf t ht hlt
      exact ⟨Mode.shared_of_not_exclusive fun he => hno ⟨k, m, n, hm, hn, .inl he⟩,
        Mode.shared_of_not_exclusive fun he => hno ⟨k, m, n, hm, hn, .inr he⟩⟩
    · rintro ⟨hf, hown⟩ v hv hlt ⟨k, m, n, hm, hn, hex⟩
      by_cases hvt : v.id = t.id
      · obtain rfl := h.ordered.id_inj hv ht hvt
        obtain ⟨rfl, rfl⟩ := hown hlt k (List.mem_map_of_mem hm) m n hm hn
        rcases hex with hex | hex <;> cases hex
      · exact hf v (List.mem_filter.mpr ⟨hv, decide_eq_true hvt⟩) hlt ⟨k, m, n, hm, hn, hex⟩
  have hstart : Completing t (s.tasks.filter fun u => u.id ≠ t.id) (t.keys.map (·.1))
      ({ s with tasks := s.tasks.filter fun u => u.id ≠ t.id }, []) := by
    refine ⟨⟨(map_mark_nil _).symm, ⟨h.ordered.sorted.filter _, fun v hv => h.ordered.bounded v (hsub v hv).1,
      fun v hv => h.ordered.keys v (hsub v hv).1, h.ordered.queues⟩, List.nodup_nil, nofun, ?_⟩,
      fun v hv => (hsub v hv).2, fun v hv => hfree v (hsub v hv).1, fun u hu => ?_⟩
    · -- the places of the completed task are those that its keys still have to give up
      intro k x
      rw [h.mem k x]
      constructor
      · rintro ⟨v, hv, hx, hkey⟩
        by_cases hvt : v.id = t.id
        · obtain rfl := h.ordered.id_inj hv ht hvt
          exact .inr ⟨List.mem_map_of_mem hkey, hx, hkey⟩
        · exact .inl ⟨v, List.mem_filter.mpr ⟨hv, decide_eq_true hvt⟩, hx, hkey⟩
      · rintro (⟨v, hv, hx⟩ | ⟨-, hx⟩)
        · exact ⟨v, (hsub v hv).1, hx⟩
        · exact ⟨t, ht, hx⟩
    · rw [← hbut u hu, ← h.started u (hsub u hu).1]
      simp
  have hcomplete : s.complete t.id = (t.keys.map (·.1)).foldl (Scheduler.completeKey t.id)
      ({ s with tasks := s.tasks.filter fun u => u.id ≠ t.id }, []) := by
    unfold Scheduler.complete
    rw [h.ordered.task?_eq ht]
  rw [hcomplete]
  obtain ⟨hend, hnext⟩ := hstart.foldl (h.ordered.keys t ht)
  exact ⟨hend.inv, hnext, hend.standing.tasks, hend.standing.nodup, hend.standing.waited⟩

omit [DecidableEq K] in
/-- The invariant of the tasks before a new one is started, which nothing is behind yet. -/
theorem free_append {ts : List (Task K)} {t u : Task K} (hu : u.id < t.id) :
    Free (ts ++ [t]) u ↔ Free ts u := by
  refine ⟨fun h v hv => h v (List.mem_append_left _ hv), fun h v hv hlt => ?_⟩
  rcases List.mem_append.mp hv with hv | hv
  · exact h v hv hlt
  · rw [List.mem_singleton.mp hv] at hlt
    omega

/-- The places of one task in a queue are in order. -/
theorem pairwise_taskPlaces {t : Task K} (h : (t.keys.map (·.1)).Nodup) (k : K) :
    (t.places k).Pairwise fun x y => x.1 < y.1 := by
  unfold Task.places
  exact KeyedQueues.pairwise_places h k

/-- The scheduler with a new task that waits. -/
def enqueue (s : Scheduler K) (keys : List (K × Mode)) : Scheduler K :=
  let t : Task K := { id := s.nextId + 1, keys := mergeKeys keys, waiting := true }
  { nextId := t.id, queues := fun k => s.queues k ++ t.places k, tasks := s.tasks ++ [t] }

theorem submit_eq (keys : List (K × Mode)) : s.submit keys =
    if (s.enqueue keys).ready (s.nextId + 1) then ((s.enqueue keys).takeJob (s.nextId + 1), [s.nextId + 1])
    else (s.enqueue keys, []) := rfl

/-- A task that is enqueued stands behind the others, with nothing to give up. -/
theorem Inv.enqueue_standing (h : s.Inv) (keys : List (K × Mode)) :
    Standing { id := 0, keys := [], waiting := false } (s.enqueue keys).tasks [] (s.enqueue keys, []) := by
  have hnew : ∀ t ∈ s.tasks, t.id < s.nextId + 1 := fun t ht => Nat.lt_succ_of_le (h.ordered.bounded t ht)
  refine ⟨(map_mark_nil _).symm, ⟨?_, ?_, ?_, fun k => ?_⟩, List.nodup_nil, nofun, fun k x => ?_⟩
  · -- the new number is larger than all the others
    refine List.pairwise_append.mpr ⟨h.ordered.sorted, List.pairwise_singleton _ _, fun t ht u hu => ?_⟩
    rw [List.mem_singleton.mp hu]
    exact hnew t ht
  · intro t ht
    rcases List.mem_append.mp ht with ht | ht
    · exact Nat.le_of_lt (hnew t ht)
    · rw [List.mem_singleton.mp ht]
      exact Nat.le_refl _
  · intro t ht
    rcases List.mem_append.mp ht with ht | ht
    · exact h.ordered.keys t ht
    · rw [List.mem_singleton.mp ht]
      exact nodup_mergeKeys keys
  · -- a place of the new task comes behind the places there are
    refine List.pairwise_append.mpr ⟨h.ordered.queues k,
      pairwise_taskPlaces (nodup_mergeKeys keys) k, fun x hx y hy => ?_⟩
    obtain ⟨v, hv, hx, -⟩ := (h.mem k x).mp hx
    rw [hx, (KeyedQueues.mem_places.mp hy).1]
    exact hnew v hv
  · show x ∈ s.queues k ++ _ ↔ _
    rw [List.mem_append, h.mem k x]
    constructor
    · rintro (⟨v, hv, hx⟩ | hx)
      · exact .inl ⟨v, List.mem_append_left _ hv, hx⟩
      · exact .inl ⟨_, List.mem_append_right _ (List.mem_singleton_self _), KeyedQueues.mem_places.mp hx⟩
    · rintro (⟨v, hv, hx⟩ | ⟨hk, -⟩)
      · rcases List.mem_append.mp hv with hv | hv
        · exact .inl ⟨v, hv, hx⟩
        · rw [List.mem_singleton.mp hv] at hx
          exact .inr (KeyedQueues.mem_places.mpr hx)
      · cases hk

/-- `submit` keeps the invariant, and starts the new task or nothing. -/
theorem Inv.submit (h : s.Inv) (keys : List (K × Mode)) :
    (s.submit keys).1.Inv ∧ (s.submit keys).1.nextId = s.nextId + 1 ∧
      Starts (s.enqueue keys).tasks (s.submit keys).1 (s.submit keys).2 := by
  have hstand := h.enqueue_standing keys
  have hnew : ({ id := s.nextId + 1, keys := mergeKeys keys, waiting := true } : Task K) ∈
      (s.enqueue keys).tasks := List.mem_append_right _ (List.mem_singleton_self _)
  have hready := hstand.ready_iff hnew
  -- the standing tasks, and the invariant of whatever was started among them
  have hinv : ∀ r : Scheduler K × List Nat,
      Standing { id := 0, keys := [], waiting := false } (s.enqueue keys).tasks [] r →
      (∀ c ∈ r.2, c = s.nextId + 1) →
      (s.nextId + 1 ∈ r.2 ↔ Free (s.enqueue keys).tasks
        { id := s.nextId + 1, keys := mergeKeys keys, waiting := true }) → r.1.Inv := by
    intro r hr honly hiff
    refine ⟨hr.ordered, fun k x => ?_, fun u' hu' => ?_⟩
    · rw [hr.mem k x, hr.tasks]
      simp [mark]
    · rw [hr.tasks] at hu' ⊢
      obtain ⟨u, hu, rfl⟩ := List.mem_map.mp hu'
      rw [free_map_mark, mark_waiting]
      rcases List.mem_append.mp hu with hold | hu
      · have hlt : u.id < s.nextId + 1 := Nat.lt_succ_of_le (h.ordered.bounded u hold)
        have hnot : u.id ∉ r.2 := fun hmem => by
          have := honly u.id hmem
          omega
        rw [show (s.enqueue keys).tasks = s.tasks ++ [_] from rfl, free_append hlt, ← h.started u hold]
        simp [hnot]
      · rw [List.mem_singleton.mp hu]
        simpa using hiff
  rw [submit_eq]
  split
  · -- ready at once: its job is taken
    rename_i hif
    have htake := hstand.takeJob hnew rfl (List.not_mem_nil)
    refine ⟨hinv _ htake (by simp) ?_, rfl, htake.tasks, htake.nodup, htake.waited⟩
    exact ⟨fun _ => (hready.mp hif).1, fun _ => by simp⟩
  · -- held back: nothing is started
    rename_i hif
    refine ⟨hinv _ hstand (by simp) ?_, rfl, hstand.tasks, hstand.nodup, hstand.waited⟩
    exact ⟨nofun, fun hfree => absurd (hready.mpr ⟨hfree, nofun⟩) hif⟩

section Starts

variable {ts : List (Task K)} {s' : Scheduler K} {l : List Nat}

omit [DecidableEq K] in
/-- A task after the call is one from before, marked if it was started. -/
theorem Starts.exists_of_mem (h : Starts ts s' l) {u' : Task K} (hu' : u' ∈ s'.tasks) :
    ∃ u ∈ ts, u' = mark l u := by
  rw [h.tasks] at hu'
  obtain ⟨u, hu, rfl⟩ := List.mem_map.mp hu'
  exact ⟨u, hu, rfl⟩

omit [DecidableEq K] in
/-- And the other way round. -/
theorem Starts.mark_mem (h : Starts ts s' l) {u : Task K} (hu : u ∈ ts) :
    mark l u ∈ s'.tasks := by
  rw [h.tasks]
  exact List.mem_map_of_mem hu

omit [DecidableEq K] in
/-- A task whose job was taken before the section, or in it, runs after it. -/
theorem Starts.runs (h : Starts ts s' l) {c : Nat}
    (hc : c ∈ l ∨ ∃ u ∈ ts, u.id = c ∧ u.waiting = false) :
    ∃ u ∈ s'.tasks, u.id = c ∧ u.waiting = false := by
  rcases hc with hc | ⟨u, hu, rfl, hw⟩
  · obtain ⟨u, hu, rfl, -⟩ := h.waited c hc
    exact ⟨_, h.mark_mem hu, rfl, mark_waiting.mpr (.inr hc)⟩
  · exact ⟨_, h.mark_mem hu, rfl, mark_waiting.mpr (.inl hw)⟩

omit [DecidableEq K] in
/-- What the section takes has not been taken before. -/
theorem Starts.nodup_append (h : Starts ts s' l) {before rest : List Nat}
    (honce : (before ++ rest).Nodup)
    (hwaits : ∀ u ∈ ts, u.waiting = true → u.id ∉ before ∧ u.id ∉ rest) :
    ((before ++ l) ++ rest).Nodup := by
  have hnew : ∀ c ∈ l, c ∉ before ∧ c ∉ rest := by
    intro c hc
    obtain ⟨u, hu, rfl, hw⟩ := h.waited c hc
    exact hwaits u hu hw
  obtain ⟨hb, hr, hdisj⟩ := List.nodup_append.mp honce
  rw [List.append_assoc, List.nodup_append]
  refine ⟨hb, List.nodup_append.mpr ⟨h.nodup, hr, fun a ha b hb' => ?_⟩, fun a ha b hb' => ?_⟩
  · rintro rfl
    exact (hnew a ha).2 hb'
  · rintro rfl
    rcases List.mem_append.mp hb' with hl | hr'
    · exact (hnew a hl).1 ha
    · exact hdisj a ha a hr' rfl

end Starts

end Scheduler

/-! ## Runs -/

/-- The task that a log entry starts. -/
def Happening.startedId : Happening → Option Nat
  | .started id => some id
  | .completed _ => none

/-- The tasks started so far. -/
def startedIds (log : List Happening) : List Nat := log.filterMap Happening.startedId

/-- The started numbers are those of the log. -/
theorem mem_startedIds {log : List Happening} {c : Nat} : c ∈ startedIds log ↔ .started c ∈ log := by
  unfold startedIds
  rw [List.mem_filterMap]
  constructor
  · rintro ⟨x, hx, hc⟩
    cases x with
    | started id => exact Option.some.inj hc ▸ hx
    | completed id => cases hc
  · exact fun h => ⟨_, h, rfl⟩

/-- Each task started before the end of `log` was started after what it clashes with completed. -/
def InOrder (submitted : List (Nat × List (K × Mode))) (log : List Happening) : Prop :=
  ∀ t a u b, (t, a) ∈ submitted → (u, b) ∈ submitted → t < u → Clash a b →
    ∀ pre post, log = pre ++ .started u :: post → .completed t ∈ pre

omit [DecidableEq K] in
/-- An entry that comes in order may be appended to the log. -/
theorem InOrder.append {submitted : List (Nat × List (K × Mode))} {log : List Happening}
    (h : InOrder submitted log) {x : Happening}
    (hx : ∀ u b, x = .started u → (u, b) ∈ submitted → ∀ t a, (t, a) ∈ submitted → t < u →
      Clash a b → .completed t ∈ log) : InOrder submitted (log ++ [x]) := by
  intro t a u b ht hu hlt hclash pre post hlog
  rcases List.eq_nil_or_concat post with rfl | ⟨post', y, rfl⟩
  · obtain ⟨rfl, hxu⟩ := List.append_inj' hlog rfl
    exact hx u b (List.cons.inj hxu).1 hu t a ht hlt hclash
  · rw [List.concat_eq_append, ← List.cons_append, ← List.append_assoc] at hlog
    obtain ⟨hlog, -⟩ := List.append_inj' hlog rfl
    exact h t a u b ht hu hlt hclash pre post' hlog

namespace Run

/-- What holds of every reachable state of the scheduler and its threads. -/
structure Inv (s : Run K) : Prop where
  sched : s.sched.Inv
  sorted : s.submitted.Pairwise fun x y => x.1 < y.1
  bounded : ∀ x ∈ s.submitted, x.1 ≤ s.sched.nextId
  /-- A task is live until it completes. -/
  live : ∀ n keys, (n, keys) ∈ s.submitted →
    .completed n ∈ s.log ∨ ∃ u ∈ s.sched.tasks, u.id = n ∧ u.keys = mergeKeys keys
  known : ∀ u ∈ s.sched.tasks, ∃ keys, (u.id, keys) ∈ s.submitted
  /-- A job that was taken belongs to a live task, until that completes. -/
  taken : ∀ c ∈ s.taken, ∃ u ∈ s.sched.tasks, u.id = c ∧ u.waiting = false
  started : ∀ c, .started c ∈ s.log → .completed c ∈ s.log ∨
    ∃ u ∈ s.sched.tasks, u.id = c ∧ u.waiting = false
  running : ∀ u ∈ s.sched.tasks, u.waiting = false → u.id ∈ s.taken ∨ .started u.id ∈ s.log
  completed : ∀ c, .completed c ∈ s.log → .started c ∈ s.log ∧ c ≤ s.sched.nextId ∧
    ∀ u ∈ s.sched.tasks, u.id ≠ c
  once : (s.taken ++ startedIds s.log).Nodup
  order : InOrder s.submitted s.log

theorem Inv.empty : Inv ({} : Run K) where
  sched := Scheduler.Inv.empty
  sorted := List.Pairwise.nil
  bounded := nofun
  live := nofun
  known := nofun
  taken := nofun
  started := nofun
  running := nofun
  completed := nofun
  once := List.nodup_nil
  order := fun _ _ _ _ ht => nomatch ht

variable {s : Run K}

/-- A task that waits is neither taken nor started. -/
theorem Inv.not_started (h : s.Inv) {u : Task K} (hu : u ∈ s.sched.tasks) (hw : u.waiting = true) :
    u.id ∉ s.taken ∧ u.id ∉ startedIds s.log := by
  have hrun : ∀ v ∈ s.sched.tasks, v.id = u.id → v.waiting = true := by
    intro v hv hid
    rw [h.sched.ordered.id_inj hv hu hid]
    exact hw
  constructor
  · intro hmem
    obtain ⟨v, hv, hid, hvw⟩ := h.taken _ hmem
    rw [hrun v hv hid] at hvw
    cases hvw
  · intro hmem
    rcases h.started _ (mem_startedIds.mp hmem) with hdone | ⟨v, hv, hid, hvw⟩
    · exact (h.completed _ hdone).2.2 u hu rfl
    · rw [hrun v hv hid] at hvw
      cases hvw

/-- Submitting a task keeps the run in order. -/
theorem Inv.submit (h : s.Inv) (keys : List (K × Mode)) {s' : Run K}
    (hs : s.step (.submit keys) = some s') : s'.Inv := by
  obtain rfl := Option.some.inj hs
  obtain ⟨hinv, hnext, hstarts⟩ := h.sched.submit keys
  -- what was running still is
  have hold : ∀ c, (∃ u ∈ s.sched.tasks, u.id = c ∧ u.waiting = false) →
      ∃ u ∈ (s.sched.submit keys).1.tasks, u.id = c ∧ u.waiting = false :=
    fun c ⟨u, hu, hc⟩ => hstarts.runs (.inr ⟨u, List.mem_append_left _ hu, hc⟩)
  -- a task that was started was submitted before
  have hfresh : ∀ c, .started c ∈ s.log → c ≤ s.sched.nextId := by
    intro c hc
    rcases h.started c hc with hdone | ⟨u, hu, rfl, -⟩
    · exact (h.completed c hdone).2.1
    · exact h.sched.ordered.bounded u hu
  refine ⟨hinv, ?_, fun x hx => ?_, fun n ks hn => ?_, fun u' hu' => ?_, fun c hc => ?_, fun c hc => ?_,
    fun u' hu' hw => ?_, fun c hc => ?_, ?_, ?_⟩
  · -- the numbers grow
    refine List.pairwise_append.mpr ⟨h.sorted, List.pairwise_singleton _ _, fun x hx y hy => ?_⟩
    rw [List.mem_singleton.mp hy]
    exact Nat.lt_succ_of_le (h.bounded x hx)
  · show x.1 ≤ (s.sched.submit keys).1.nextId
    rw [hnext]
    rcases List.mem_append.mp hx with hx | hx
    · exact Nat.le_succ_of_le (h.bounded x hx)
    · obtain rfl := List.mem_singleton.mp hx
      exact Nat.le_refl _
  · -- a task that was submitted is live, the new one too
    rcases List.mem_append.mp hn with hn | hn
    · refine (h.live n ks hn).imp id fun ⟨u, hu, hid, hkeys⟩ => ?_
      exact ⟨_, hstarts.mark_mem (List.mem_append_left _ hu), hid, hkeys⟩
    · obtain ⟨rfl, rfl⟩ := Prod.mk.inj (List.mem_singleton.mp hn)
      exact .inr ⟨_, hstarts.mark_mem (List.mem_append_right _ (List.mem_singleton_self _)), rfl, rfl⟩
  · obtain ⟨u, hu, rfl⟩ := hstarts.exists_of_mem hu'
    rcases List.mem_append.mp hu with hu | hu
    · obtain ⟨ks, hks⟩ := h.known u hu
      exact ⟨ks, List.mem_append_left _ hks⟩
    · rw [List.mem_singleton.mp hu]
      exact ⟨keys, List.mem_append_right _ (List.mem_singleton_self _)⟩
  · rcases List.mem_append.mp hc with hc | hc
    · exact hold c (h.taken c hc)
    · exact hstarts.runs (.inl hc)
  · exact (h.started c hc).imp id (hold c)
  · -- a task that runs was taken now or before
    obtain ⟨u, hu, rfl⟩ := hstarts.exists_of_mem hu'
    rcases Scheduler.mark_waiting.mp hw with hw | hw
    · rcases List.mem_append.mp hu with hu | hu
      · exact (h.running u hu hw).imp (List.mem_append_left _) id
      · rw [List.mem_singleton.mp hu] at hw
        cases hw
    · exact .inl (List.mem_append_right _ hw)
  · obtain ⟨hst, hle, hgone⟩ := h.completed c hc
    refine ⟨hst, ?_, fun u' hu' => ?_⟩
    · show c ≤ (s.sched.submit keys).1.nextId
      omega
    · obtain ⟨u, hu, rfl⟩ := hstarts.exists_of_mem hu'
      rcases List.mem_append.mp hu with hu | hu
      · exact hgone u hu
      · rw [List.mem_singleton.mp hu]
        show s.sched.nextId + 1 ≠ c
        omega
  · refine hstarts.nodup_append h.once fun u hu hw => ?_
    rcases List.mem_append.mp hu with hu | hu
    · exact h.not_started hu hw
    · -- the new task has an id no task had
      rw [List.mem_singleton.mp hu]
      show s.sched.nextId + 1 ∉ s.taken ∧ s.sched.nextId + 1 ∉ startedIds s.log
      refine ⟨fun hmem => ?_, fun hmem => ?_⟩
      · obtain ⟨v, hv, hid, -⟩ := h.taken _ hmem
        have := h.sched.ordered.bounded v hv
        omega
      · have := hfresh _ (mem_startedIds.mp hmem)
        omega
  · -- the new task comes last, so that no earlier one is held back for it
    intro t a u b ht hu hlt hclash pre post hlog
    have hu' : (u, b) ∈ s.submitted := by
      rcases List.mem_append.mp hu with hu | hu
      · exact hu
      · obtain ⟨rfl, rfl⟩ := Prod.mk.inj (List.mem_singleton.mp hu)
        have := hfresh _ (hlog ▸ List.mem_append_right _ List.mem_cons_self)
        omega
    have ht' : (t, a) ∈ s.submitted := by
      rcases List.mem_append.mp ht with ht | ht
      · exact ht
      · obtain ⟨rfl, rfl⟩ := Prod.mk.inj (List.mem_singleton.mp ht)
        have := h.bounded _ hu'
        omega
    exact h.order t a u b ht' hu' hlt hclash pre post hlog

/-- Handing a job to the pool keeps the run in order. -/
theorem Inv.handOver (h : s.Inv) {id : Nat} {s' : Run K} (hs : s.step (.handOver id) = some s') :
    s'.Inv := by
  simp only [step] at hs
  split at hs
  · rename_i hid
    obtain rfl := Option.some.inj hs
    obtain ⟨u, hu, rfl, hw⟩ := h.taken id hid
    have hlog : ∀ c, .completed c ∈ s.log ++ [Happening.started u.id] ↔ .completed c ∈ s.log := by
      simp
    refine ⟨h.sched, h.sorted, h.bounded, fun n ks hn => ?_, h.known,
      fun c hc => h.taken c (List.mem_of_mem_erase hc), fun c hc => ?_, fun v hv hvw => ?_, fun c hc => ?_,
      ?_, ?_⟩
    · -- the log only grows, by a task that was taken
      exact (h.live n ks hn).imp (List.mem_append_left _) id
    · rcases List.mem_append.mp hc with hc | hc
      · exact (h.started c hc).imp (List.mem_append_left _) id
      · obtain rfl : c = u.id := by simpa using hc
        exact .inr ⟨u, hu, rfl, hw⟩
    · by_cases hvu : v.id = u.id
      · exact .inr (by simp [hvu])
      · exact (h.running v hv hvw).imp (List.mem_erase_of_ne hvu).mpr (List.mem_append_left _)
    · obtain ⟨hst, hrest⟩ := h.completed c ((hlog c).mp hc)
      exact ⟨List.mem_append_left _ hst, hrest⟩
    · -- the id moves from one half of the list to the other
      have hids : startedIds (s.log ++ [.started u.id]) = startedIds s.log ++ [u.id] := by
        simp [startedIds, Happening.startedId]
      show (s.taken.erase u.id ++ startedIds (s.log ++ [.started u.id])).Nodup
      have hperm : (s.taken.erase u.id ++ (startedIds s.log ++ [u.id])).Perm
          (s.taken ++ startedIds s.log) := by
        refine (List.perm_append_comm.append_left _).trans ?_
        rw [← List.append_assoc]
        refine List.Perm.append_right _ ?_
        exact List.perm_append_comm.trans (List.perm_cons_erase hid).symm
      rw [hids]
      exact hperm.nodup_iff.mpr h.once
    · -- nothing live clashes with a task whose job was taken
      refine h.order.append fun n b hn hnb t a ht hlt hclash => ?_
      obtain rfl : u.id = n := Happening.started.inj hn
      refine (h.live t a ht).resolve_right fun ⟨v, hv, hvt, hvkeys⟩ => ?_
      obtain ⟨w, hw', hwid, hwkeys⟩ : ∃ w ∈ s.sched.tasks, w.id = u.id ∧ w.keys = mergeKeys b :=
        (h.live u.id b hnb).resolve_left fun hdone => (h.completed _ hdone).2.2 u hu rfl
      obtain rfl := h.sched.ordered.id_inj hw' hu hwid
      refine (h.sched.started w hu).mp hw v hv (hvt ▸ hlt) ?_
      rw [hvkeys, hwkeys, clash_mergeKeys]
      exact hclash
  · cases hs

/-- Completing a task keeps the run in order, and takes one task from the scheduler. -/
theorem Inv.complete (h : s.Inv) {id : Nat} {s' : Run K} (hs : s.step (.complete id) = some s') :
    s'.Inv ∧ s'.sched.tasks.length + 1 = s.sched.tasks.length := by
  simp only [step] at hs
  split at hs
  · rename_i hid
    obtain rfl := Option.some.inj hs
    obtain ⟨t, ht, rfl, hw⟩ := (h.started id hid.1).resolve_left hid.2
    obtain ⟨hinv, hnext, hstarts⟩ := h.sched.complete ht hw
    have hmem : ∀ u, u ∈ s.sched.tasks.filter (fun u => u.id ≠ t.id) ↔ u ∈ s.sched.tasks ∧ u.id ≠ t.id := by
      intro u
      rw [List.mem_filter, decide_eq_true_eq]
    have hlog : ∀ c, .started c ∈ s.log ++ [Happening.completed t.id] ↔ .started c ∈ s.log := by
      simp
    have hids : startedIds (s.log ++ [.completed t.id]) = startedIds s.log := by
      simp [startedIds, Happening.startedId]
    refine ⟨⟨hinv, h.sorted, fun x hx => hnext ▸ h.bounded x hx, fun n ks hn => ?_, fun u' hu' => ?_,
      fun c hc => ?_, fun c hc => ?_, fun u' hu' hw' => ?_, fun c hc => ?_, ?_, ?_⟩, ?_⟩
    · -- the completed task is logged, every other one is still live
      rcases h.live n ks hn with hdone | ⟨u, hu, rfl, hkeys⟩
      · exact .inl (List.mem_append_left _ hdone)
      · by_cases hut : u.id = t.id
        · exact .inl (by simp [hut])
        · exact .inr ⟨_, hstarts.mark_mem ((hmem u).mpr ⟨hu, hut⟩), rfl, hkeys⟩
    · obtain ⟨u, hu, rfl⟩ := hstarts.exists_of_mem hu'
      exact h.known u ((hmem u).mp hu).1
    · rcases List.mem_append.mp hc with hc | hc
      · obtain ⟨u, hu, rfl, huw⟩ := h.taken c hc
        refine hstarts.runs (.inr ⟨u, (hmem u).mpr ⟨hu, fun hut => ?_⟩, rfl, huw⟩)
        -- `t` was handed over, so it is not among the taken
        have hdisj := (List.nodup_append.mp h.once).2.2
        exact hdisj u.id hc u.id (mem_startedIds.mpr (hut ▸ hid.1)) rfl
      · exact hstarts.runs (.inl hc)
    · -- what was started has completed, now or before, or runs
      rcases h.started c ((hlog c).mp hc) with hdone | ⟨u, hu, rfl, huw⟩
      · exact .inl (List.mem_append_left _ hdone)
      · by_cases hut : u.id = t.id
        · exact .inl (by simp [hut])
        · exact .inr (hstarts.runs (.inr ⟨u, (hmem u).mpr ⟨hu, hut⟩, rfl, huw⟩))
    · obtain ⟨u, hu, rfl⟩ := hstarts.exists_of_mem hu'
      rcases Scheduler.mark_waiting.mp hw' with hw' | hw'
      · exact (h.running u ((hmem u).mp hu).1 hw').imp (List.mem_append_left _) (List.mem_append_left _)
      · exact .inl (List.mem_append_right _ hw')
    · rcases List.mem_append.mp hc with hc | hc
      · obtain ⟨hst, hle, hgone⟩ := h.completed c hc
        refine ⟨List.mem_append_left _ hst, hnext ▸ hle, fun u' hu' => ?_⟩
        obtain ⟨u, hu, rfl⟩ := hstarts.exists_of_mem hu'
        exact hgone u ((hmem u).mp hu).1
      · obtain rfl : c = t.id := by simpa using hc
        refine ⟨List.mem_append_left _ hid.1, hnext ▸ h.sched.ordered.bounded t ht, fun u' hu' => ?_⟩
        obtain ⟨u, hu, rfl⟩ := hstarts.exists_of_mem hu'
        exact ((hmem u).mp hu).2
    · show (_ ++ startedIds (s.log ++ [.completed t.id])).Nodup
      rw [hids]
      exact hstarts.nodup_append h.once fun u hu huw => h.not_started ((hmem u).mp hu).1 huw
    · exact h.order.append fun _ _ hne => nomatch hne
    · -- exactly one task has the number
      show (s.sched.complete t.id).1.tasks.length + 1 = _
      rw [hstarts.tasks, List.length_map]
      have hcount : s.sched.tasks.countP (fun u => decide ¬decide (u.id ≠ t.id) = true) = 1 := by
        have hone : (s.sched.tasks.map (·.id)).count t.id = 1 := by
          refine List.count_eq_one_of_mem ?_ (List.mem_map_of_mem ht)
          rw [List.Nodup, List.pairwise_map]
          exact h.sched.ordered.sorted.imp fun hlt => Nat.ne_of_lt hlt
        rw [List.count, List.countP_map] at hone
        simpa [Function.comp_def, beq_eq_decide] using hone
      have hsum := List.length_eq_countP_add_countP (fun u : Task K => decide (u.id ≠ t.id))
        (l := s.sched.tasks)
      rw [List.countP_eq_length_filter] at hsum
      omega
  · cases hs

/-- Every event keeps the run in order. -/
theorem Inv.step (h : s.Inv) {e : Event K} {s' : Run K} (hs : s.step e = some s') : s'.Inv := by
  cases e with
  | submit keys => exact h.submit keys hs
  | handOver id => exact h.handOver hs
  | complete id => exact (h.complete hs).1

/-- And so does a whole run. -/
theorem Inv.steps {es : List (Event K)} : ∀ {s s' : Run K}, s.Inv → s.steps es = some s' → s'.Inv := by
  induction es with
  | nil => exact fun h hs => Option.some.inj hs ▸ h
  | cons e es ih =>
    intro s s' h hs
    obtain ⟨s₁, h₁, hs⟩ := Option.bind_eq_some_iff.mp hs
    exact ih (h.step h₁) hs

/-- The task `n`, asked for with `keys`, may run: it has not completed, and every task submitted
    before it that clashes with what it asked for has. -/
def Runnable (s : Run K) (n : Nat) (keys : List (K × Mode)) : Prop :=
  (n, keys) ∈ s.submitted ∧ .completed n ∉ s.log ∧
    ∀ m ks, (m, ks) ∈ s.submitted → m < n → Clash ks keys → .completed m ∈ s.log

/-- What may run has been started: its job is taken, or handed over already. -/
theorem Inv.runnable (h : s.Inv) {n : Nat} {keys : List (K × Mode)} (hn : s.Runnable n keys) :
    n ∈ s.taken ∨ .started n ∈ s.log := by
  obtain ⟨hsub, hgone, hahead⟩ := hn
  obtain ⟨u, hu, rfl, hkeys⟩ := (h.live n keys hsub).resolve_left hgone
  refine h.running u hu ((h.sched.started u hu).mpr fun v hv hlt hclash => ?_)
  -- a live task ahead of it was submitted too, and has not completed
  obtain ⟨ks, hks⟩ := h.known v hv
  have hlive : .completed v.id ∉ s.log := fun hdone => (h.completed _ hdone).2.2 v hv rfl
  obtain ⟨w, hw, hwid, hwkeys⟩ := (h.live v.id ks hks).resolve_left hlive
  obtain rfl := h.sched.ordered.id_inj hw hv hwid
  rw [hwkeys, hkeys, clash_mergeKeys] at hclash
  exact hlive (hahead w.id ks hks hlt hclash)

/-- The oldest live task has been started. -/
theorem Inv.oldest (h : s.Inv) {u : Task K} (hu : u ∈ s.sched.tasks)
    (hmin : ∀ v ∈ s.sched.tasks, u.id ≤ v.id) : u.waiting = false := by
  refine (h.sched.started u hu).mpr fun v hv hlt => ?_
  have := hmin v hv
  omega

/-- When everything started has completed, nothing is live: the oldest task would have been started,
    and would have completed. -/
theorem Inv.drained (h : s.Inv) (htaken : s.taken = [])
    (hdone : ∀ c, .started c ∈ s.log → .completed c ∈ s.log) : s.sched.tasks = [] := by
  cases htasks : s.sched.tasks with
  | nil => rfl
  | cons u us =>
    have hu : u ∈ s.sched.tasks := htasks ▸ List.mem_cons_self
    have hsorted := h.sched.ordered.sorted
    rw [htasks] at hsorted
    have hw : u.waiting = false := by
      refine h.oldest hu fun v hv => ?_
      rw [htasks] at hv
      rcases List.mem_cons.mp hv with rfl | hv
      · exact Nat.le_refl _
      · exact Nat.le_of_lt ((List.pairwise_cons.mp hsorted).1 v hv)
    rcases h.running u hu hw with hmem | hstarted
    · rw [htaken] at hmem
      cases hmem
    · exact absurd rfl ((h.completed u.id (hdone u.id hstarted)).2.2 u hu)

/-- While nothing is submitted, each completion leaves one task less. -/
theorem Inv.countdown {es : List (Event K)} : ∀ {s s' : Run K}, s.Inv → s.steps es = some s' →
    (∀ keys, .submit keys ∉ es) →
      s'.sched.tasks.length + es.countP (fun e => e matches .complete _) = s.sched.tasks.length := by
  -- the induction is over the events: only completions count
  induction es with
  | nil =>
    intro s s' _ hs _
    obtain rfl := Option.some.inj hs
    simp
  | cons e es ih =>
    intro s s' h hs hno
    obtain ⟨s₁, h₁, hs⟩ := Option.bind_eq_some_iff.mp hs
    have hrest := ih (h.step h₁) hs fun keys hmem => hno keys (List.mem_cons_of_mem _ hmem)
    rw [List.countP_cons]
    cases e with
    | submit keys => exact absurd List.mem_cons_self (hno keys)
    | handOver id =>
      have hsame : s₁.sched = s.sched := by
        simp only [Run.step] at h₁
        split at h₁
        · exact Option.some.inj h₁ ▸ rfl
        · cases h₁
      simpa [hsame] using hrest
    | complete id =>
      have hone := (h.complete h₁).2
      simp only [if_true]
      omega

/-- Of two tasks that share a key one of them holds exclusively, the one submitted later is started
    only after the earlier one has completed, and no task is started twice. -/
theorem conflicting_tasks_run_in_order {es : List (Event K)} {s : Run K}
    (hrun : ({} : Run K).steps es = some s) :
    (∀ t a u b, [(t, a), (u, b)].Sublist s.submitted → Clash a b →
      ∀ pre post, s.log = pre ++ .started u :: post → .completed t ∈ pre) ∧
    ∀ c, s.log.count (.started c) ≤ 1 := by
  have h := Inv.empty.steps hrun
  refine ⟨fun t a u b hsub hclash => ?_, fun c => ?_⟩
  · have hlt : t < u := (List.pairwise_cons.mp (h.sorted.sublist hsub)).1 (u, b) (List.mem_singleton_self _)
    exact h.order t a u b (hsub.subset List.mem_cons_self)
      (hsub.subset (List.mem_cons_of_mem _ (List.mem_singleton_self _))) hlt hclash
  · have hnodup : (startedIds s.log).Nodup := (List.nodup_append.mp h.once).2.1
    have hle : s.log.count (.started c) ≤ (startedIds s.log).count c := by
      unfold startedIds
      rw [List.count_filterMap, List.count]
      refine List.countP_mono_left fun x _ hx => ?_
      rw [eq_of_beq hx]
      exact beq_self_eq_true _
    exact Nat.le_trans hle (List.nodup_iff_count_le_one.mp hnodup c)

/-- A writer and a reader of the same file: the reader runs once the writer is done. -/
theorem reader_waits_for_writer : ∃ s : Run Nat,
    ({} : Run Nat).steps [.submit [(7, .exclusive)], .submit [(3, .shared), (7, .shared)],
      .handOver 1, .complete 1, .handOver 2] = some s ∧
    s.log = [.started 1, .completed 1, .started 2] ∧
    ∀ pre post, s.log = pre ++ .started 2 :: post → .completed 1 ∈ pre := by
  obtain ⟨s, hs, hlog, hsub⟩ : ∃ s : Run Nat,
      ({} : Run Nat).steps [.submit [(7, .exclusive)], .submit [(3, .shared), (7, .shared)],
        .handOver 1, .complete 1, .handOver 2] = some s ∧
      s.log = [.started 1, .completed 1, .started 2] ∧
      s.submitted = [(1, [(7, .exclusive)]), (2, [(3, .shared), (7, .shared)])] :=
    ⟨_, rfl, rfl, rfl⟩
  refine ⟨s, hs, hlog, (conflicting_tasks_run_in_order hs).1 1 [(7, .exclusive)] 2
    [(3, .shared), (7, .shared)] (hsub ▸ List.Sublist.refl _) ?_⟩
  exact ⟨7, .exclusive, .shared, by decide, by decide, .inl rfl⟩

/-- No task that could run is left waiting: in every state each task that nothing it asked for
    keeps from running has been started, and so has each live task that is ready, the oldest among
    them; when every started task has completed nothing is left, and while nothing is submitted each
    completion brings that one task closer. -/
theorem ready_tasks_are_started {es : List (Event K)} {s : Run K}
    (hrun : ({} : Run K).steps es = some s) :
    (∀ n keys, s.Runnable n keys → n ∈ s.taken ∨ .started n ∈ s.log) ∧
    (∀ u ∈ s.sched.tasks, s.sched.ready u.id = true → u.waiting = false) ∧
    (∀ u ∈ s.sched.tasks, (∀ v ∈ s.sched.tasks, u.id ≤ v.id) → u.waiting = false) ∧
    (s.taken = [] → (∀ c, .started c ∈ s.log → .completed c ∈ s.log) →
      s.sched.tasks = [] ∧ ∀ k, s.sched.queues k = []) ∧
    ∀ es' s', s.steps es' = some s' → (∀ keys, .submit keys ∉ es') →
      s'.sched.tasks.length + es'.countP (fun e => e matches .complete _) = s.sched.tasks.length := by
  have h := Inv.empty.steps hrun
  refine ⟨fun n keys hn => h.runnable hn, fun u hu hready => ?_, fun u hu hmin => h.oldest hu hmin,
    fun htaken hdone => ?_, fun es' s' hs hno => h.countdown hs hno⟩
  · exact (h.sched.started u hu).mpr ((h.sched.ready_iff hu).mp hready)
  · have hnone := h.drained htaken hdone
    refine ⟨hnone, fun k => List.eq_nil_iff_forall_not_mem.mpr fun x hx => ?_⟩
    -- what stands in a queue is a live task's
    obtain ⟨v, hv, -⟩ := (h.sched.mem k x).mp hx
    rw [hnone] at hv
    cases hv

/-- The same two tasks: the second may run once the first has completed, and its job is taken. -/
theorem reader_is_started : ∃ s : Run Nat,
    ({} : Run Nat).steps [.submit [(7, .exclusive)], .submit [(3, .shared), (7, .shared)],
      .handOver 1, .complete 1] = some s ∧
    s.Runnable 2 [(3, .shared), (7, .shared)] ∧ (2 ∈ s.taken ∨ .started 2 ∈ s.log) ∧
    s.sched.ready 2 = true ∧ ∀ u ∈ s.sched.tasks, u.id = 2 → u.waiting = false := by
  obtain ⟨s, hs, hready, hsub, hlog⟩ : ∃ s : Run Nat,
      ({} : Run Nat).steps [.submit [(7, .exclusive)], .submit [(3, .shared), (7, .shared)],
        .handOver 1, .complete 1] = some s ∧ s.sched.ready 2 = true ∧
      s.submitted = [(1, [(7, .exclusive)]), (2, [(3, .shared), (7, .shared)])] ∧
      s.log = [.started 1, .completed 1] := ⟨_, rfl, rfl, rfl, rfl⟩
  have hmay : s.Runnable 2 [(3, .shared), (7, .shared)] := by
    refine ⟨by simp [hsub], by simp [hlog], fun m ks hm hlt _ => ?_⟩
    obtain rfl : m = 1 := by
      simp only [hsub, List.mem_cons, Prod.mk.injEq, List.not_mem_nil, or_false] at hm
      omega
    simp [hlog]
  have hall := ready_tasks_are_started hs
  exact ⟨s, hs, hmay, hall.1 2 _ hmay, hready, fun u hu hid => hall.2.1 u hu (hid.symm ▸ hready)⟩

end Run

end FuseSched

end Ncrs
