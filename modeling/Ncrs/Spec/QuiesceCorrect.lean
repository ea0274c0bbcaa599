import Ncrs.Native.Quiesce

/-!
# A drained scheduler

Once `quiesce` has returned true no task should be added before its pause is over. The loop of
`submit` that waits for room does not look at the pause: a request that was waiting there when
`quiesce` was called is added as soon as the tasks are gone. The pause is also one variable, which
another call of `quiesce` sets to its own end and `resume` clears. Where none of these happens the
property holds.

## Key results

- `Gate.Inv.step`: a pause in force is in `pausedUntil`, and nothing waits for room under it
- `Gate.drained_scheduler_stays_drained`: the property in every run of such steps
- `Gate.waiting_request_is_added`: a run in which it fails
-/

namespace Ncrs

namespace FuseSched

namespace Gate

variable {K : Type} {s s' : Gate K}

/-- The ends of the pauses that `quiesce` calls have set, waiting ones and those returned. -/
def pauses (s : Gate K) : List Nat := s.draining.map (·.lifts) ++ s.drained

/-- `quiesce` is called while no request waits for room, with an end no earlier than that of the
    pauses set before; `resume` while no call waits. -/
def Meets (s : Gate K) : GateEvent K → Prop
  | .quiesce budget =>
    (∀ keys, s.dispatch ≠ .full keys) ∧ ∀ lifts ∈ s.pauses, lifts ≤ s.now + budget + pauseSlack
  | .resume => s.draining = []
  | _ => True

variable [DecidableEq K]

/-- Every step of the run meets the condition. -/
def AllMeet (s : Gate K) : List (GateEvent K) → Prop
  | [] => True
  | e :: es => s.Meets e ∧ match s.step e with
    | some s' => s'.AllMeet es
    | none => True

/-- A pause in force is in `pausedUntil`, and no request waits for room under it. -/
structure Inv (s : Gate K) : Prop where
  paused : ∀ lifts ∈ s.pauses, s.now < lifts → ∃ p ∈ s.pausedUntil, lifts ≤ p
  full : ∀ keys, s.dispatch = .full keys → ∀ lifts ∈ s.pauses, lifts ≤ s.now
  breaches : s.breaches = []

/-- With no pause in force the second loop may be entered, and the task added. -/
theorem Inv.awaitRoom (h : s.Inv) (hover : ∀ lifts ∈ s.pauses, lifts ≤ s.now)
    {keys : List (K × Mode)} (hs : s.awaitRoom keys = some s') : s'.Inv := by
  unfold Gate.awaitRoom at hs
  split at hs
  · obtain rfl := Option.some.inj hs
    exact ⟨h.paused, fun _ _ => hover, h.breaches⟩
  · obtain ⟨run, -, rfl⟩ := Option.map_eq_some_iff.mp hs
    have hnone : s.drained.any (fun lifts => decide (s.now < lifts)) = false := by
      refine List.any_eq_false.mpr fun lifts hl => ?_
      have := hover lifts (List.mem_append_right _ hl)
      simpa using this
    refine ⟨h.paused, nofun, ?_⟩
    show (if s.drained.any (fun lifts => decide (s.now < lifts)) then _ else s.breaches) = []
    rw [hnone, if_neg Bool.false_ne_true]
    exact h.breaches

theorem Inv.awaitPause (h : s.Inv) {keys : List (K × Mode)} (hs : s.awaitPause keys = some s') :
    s'.Inv := by
  unfold Gate.awaitPause at hs
  split at hs
  · rename_i p hp
    split at hs
    · obtain rfl := Option.some.inj hs
      refine ⟨h.paused, fun keys hfull => ?_, h.breaches⟩
      cases hfull
    · -- the pause is over, and with it every pause that was set
      rename_i hover
      have hall : ∀ lifts ∈ s.pauses, lifts ≤ s.now := by
        intro lifts hl
        by_contra hlt
        obtain ⟨q, hq, hle⟩ := h.paused lifts hl (by omega)
        rw [hp, Option.mem_def, Option.some.injEq] at hq
        omega
      have hcleared : Inv { s with pausedUntil := none } := by
        refine ⟨fun lifts hl hlt => ?_, h.full, h.breaches⟩
        have := hall lifts hl
        have hlt : s.now < lifts := hlt
        omega
      exact hcleared.awaitRoom hall hs
  · rename_i hp
    refine h.awaitRoom (fun lifts hl => ?_) hs
    by_contra hlt
    obtain ⟨q, hq, -⟩ := h.paused lifts hl (by omega)
    rw [hp] at hq
    cases hq

omit [DecidableEq K] in
/-- Looking whether the tasks are gone moves a pause from one list to the other, or out. -/
theorem pauses_drainOrWait (d : Drain) {lifts : Nat} (h : lifts ∈ (s.drainOrWait d).pauses) :
    lifts = d.lifts ∨ lifts ∈ s.pauses := by
  unfold drainOrWait at h
  split at h
  · rcases List.mem_append.mp h with h | h
    · exact .inr (List.mem_append_left _ h)
    · exact (List.mem_cons.mp h).imp id (List.mem_append_right _)
  · split at h
    · exact .inr h
    · rcases List.mem_append.mp h with h | h
      · rw [List.map_append, List.mem_append] at h
        rcases h with h | h
        · exact .inr (List.mem_append_left _ h)
        · exact .inl (by simpa using h)
      · exact .inr (List.mem_append_right _ h)

omit [DecidableEq K] in
theorem drainOrWait_frame (d : Drain) : (s.drainOrWait d).now = s.now ∧
    (s.drainOrWait d).pausedUntil = s.pausedUntil ∧ (s.drainOrWait d).dispatch = s.dispatch ∧
    (s.drainOrWait d).breaches = s.breaches := by
  unfold drainOrWait
  split
  · exact ⟨rfl, rfl, rfl, rfl⟩
  · split <;> exact ⟨rfl, rfl, rfl, rfl⟩

omit [DecidableEq K] in
theorem Inv.drainOrWait (h : s.Inv) {d : Drain}
    (hpaused : s.now < d.lifts → ∃ p ∈ s.pausedUntil, d.lifts ≤ p)
    (hfull : ∀ keys, s.dispatch = .full keys → d.lifts ≤ s.now) : (s.drainOrWait d).Inv := by
  obtain ⟨hnow, hpu, hdisp, hbr⟩ := drainOrWait_frame (s := s) d
  refine ⟨fun lifts hl hlt => ?_, fun keys hk lifts hl => ?_, hbr ▸ h.breaches⟩
  · rw [hnow] at hlt
    rw [hpu]
    rcases pauses_drainOrWait d hl with rfl | hl
    · exact hpaused hlt
    · exact h.paused lifts hl hlt
  · rw [hdisp] at hk
    rw [hnow]
    rcases pauses_drainOrWait d hl with rfl | hl
    · exact hfull keys hk
    · exact h.full keys hk lifts hl

theorem Inv.step (h : s.Inv) {e : GateEvent K} (hm : s.Meets e) (hs : s.step e = some s') :
    s'.Inv := by
  cases e with
  | tick ms =>
    obtain rfl := Option.some.inj hs
    refine ⟨fun lifts hl hlt => h.paused lifts hl ?_, fun keys hk lifts hl => ?_, h.breaches⟩
    · exact Nat.lt_of_le_of_lt (Nat.le_add_right _ _) hlt
    · exact Nat.le_trans (h.full keys hk lifts hl) (Nat.le_add_right _ _)
  | submit keys =>
    simp only [Gate.step] at hs
    split at hs
    · exact h.awaitPause hs
    · cases hs
  | wakeDispatch =>
    simp only [Gate.step] at hs
    split at hs
    · cases hs
    · exact h.awaitPause hs
    · rename_i keys hk
      exact h.awaitRoom (h.full keys hk) hs
  | handOver id | complete id =>
    obtain ⟨run, -, rfl⟩ := Option.map_eq_some_iff.mp hs
    exact ⟨h.paused, h.full, h.breaches⟩
  | quiesce budget =>
    obtain rfl := Option.some.inj hs
    obtain ⟨hfull, hlater⟩ := hm
    -- the new pause ends last, so that it stands for those before it
    have hset : Inv { s with pausedUntil := some (s.now + budget + pauseSlack) } :=
      ⟨fun lifts hl _ => ⟨_, rfl, hlater lifts hl⟩, fun keys hk => absurd hk (hfull keys), h.breaches⟩
    exact hset.drainOrWait (fun _ => ⟨_, rfl, Nat.le_refl _⟩) fun keys hk => absurd hk (hfull keys)
  | wakeQuiesce i =>
    obtain ⟨d, hd, rfl⟩ := Option.map_eq_some_iff.mp hs
    have hmem : d.lifts ∈ s.pauses :=
      List.mem_append_left _ (List.mem_map_of_mem (List.mem_of_getElem? hd))
    have hsub : ∀ lifts ∈ ({ s with draining := s.draining.eraseIdx i } : Gate K).pauses,
        lifts ∈ s.pauses := by
      intro lifts hl
      refine (List.mem_append.mp hl).elim (fun hl => List.mem_append_left _ ?_) (List.mem_append_right _)
      exact List.map_subset _ (List.eraseIdx_subset ..) hl
    have hless : Inv { s with draining := s.draining.eraseIdx i } :=
      ⟨fun lifts hl => h.paused lifts (hsub lifts hl),
        fun keys hk lifts hl => h.full keys hk lifts (hsub lifts hl), h.breaches⟩
    exact hless.drainOrWait (h.paused _ hmem) fun keys hk => h.full keys hk _ hmem
  | resume =>
    obtain rfl := Option.some.inj hs
    have hnone : ({ s with pausedUntil := none, drained := [] } : Gate K).pauses = [] := by
      show s.draining.map (·.lifts) ++ [] = []
      rw [show s.draining = [] from hm]
      rfl
    refine ⟨fun lifts hl => ?_, fun keys _ lifts hl => ?_, h.breaches⟩
    · rw [hnone] at hl
      cases hl
    · rw [hnone] at hl
      cases hl

theorem Inv.steps {es : List (GateEvent K)} : ∀ {s s' : Gate K}, s.Inv → s.AllMeet es →
    s.steps es = some s' → s'.Inv := by
  induction es with
  | nil => exact fun h _ hs => Option.some.inj hs ▸ h
  | cons e es ih =>
    intro s s' h hm hs
    obtain ⟨s₁, h₁, hs⟩ := Option.bind_eq_some_iff.mp hs
    obtain ⟨hme, hrest⟩ := hm
    rw [h₁] at hrest
    exact ih (h.step hme h₁) hrest hs

/-- A scheduler that `quiesce` has drained takes no task before its pause is over, in a run where no
    request waits for room when `quiesce` is called, no call shortens the pause of another, and no
    `resume` comes while a call waits. -/
theorem drained_scheduler_stays_drained {maxInflight : Nat} {es : List (GateEvent K)} {s : Gate K}
    (hrun : ({ maxInflight } : Gate K).steps es = some s)
    (hmeet : ({ maxInflight } : Gate K).AllMeet es) : s.breaches = [] := by
  have hinit : Inv ({ maxInflight } : Gate K) := ⟨nofun, nofun, rfl⟩
  exact (hinit.steps hmeet hrun).breaches

/-- A restart that drains a running task, with a request held back until the pause is over. -/
theorem request_waits_out_the_pause : ∃ s : Gate Nat,
    ({ maxInflight := 2 } : Gate Nat).steps [.submit [(1, .exclusive)], .handOver 1, .quiesce 1000,
      .submit [(2, .exclusive)], .complete 1, .wakeQuiesce 0, .wakeDispatch, .tick 6000,
      .wakeDispatch] = some s ∧
    s.drained = [6000] ∧ s.run.submitted.length = 2 ∧ s.breaches = [] := by
  obtain ⟨s, hs, hdrained, hsub⟩ : ∃ s : Gate Nat,
      ({ maxInflight := 2 } : Gate Nat).steps [.submit [(1, .exclusive)], .handOver 1, .quiesce 1000,
        .submit [(2, .exclusive)], .complete 1, .wakeQuiesce 0, .wakeDispatch, .tick 6000,
        .wakeDispatch] = some s ∧ s.drained = [6000] ∧ s.run.submitted.length = 2 := ⟨_, rfl, rfl, rfl⟩
  refine ⟨s, hs, hdrained, hsub, drained_scheduler_stays_drained hs ?_⟩
  exact ⟨trivial, trivial, ⟨nofun, nofun⟩, trivial, trivial, trivial, trivial, trivial, trivial, trivial⟩

/-- With room for one task, a request that waits for it is added after `quiesce` returned true. -/
theorem waiting_request_is_added : ∃ s : Gate Nat,
    ({ maxInflight := 1 } : Gate Nat).steps [.submit [(1, .exclusive)], .handOver 1,
      .submit [(2, .exclusive)], .quiesce 1000, .complete 1, .wakeQuiesce 0, .wakeDispatch] = some s ∧
    s.drained = [6000] ∧ s.now < 6000 ∧ s.breaches = [2] :=
  ⟨_, rfl, rfl, by decide, rfl⟩

end Gate

end FuseSched

end Ncrs
