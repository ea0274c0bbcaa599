import Ncrs.Native.Desktop
import Mathlib.Data.List.Chain

/-!
# Desktop profiles converge while activations succeed

`reconcile_locked` decides from the in-memory `active` set, which starts empty in every daemon. A
component whose activation fails is put into that set, and one whose deactivation fails on the first
pass is not in it: neither is called again by this daemon. While neither happens, `active` is what is
applied from the first reconcile of a daemon on.

## Key results

- `Manager.reconcileLocked_calls`, `Manager.mem_reconcileLocked_active`: what one reconcile does
- `Machine.Settled.reconcile`: `active` and `applied` over one reconcile
- `Machine.components_converge`: over every run of daemons, calls and restarts
- `Machine.failed_activation_is_forgotten`: a failed activation that is not tried again
-/

namespace Ncrs.Desktop

/-- The list of components is complete. -/
theorem mem_allComponents (c : ComponentId) : c ∈ allComponents := by
  cases c <;> decide

/-- The list of components names each once. -/
theorem allComponents_nodup : allComponents.Nodup := by decide

/-! ## Components -/

/-- Undoing one component does not change whether another one can be undone. -/
theorem deactivate_isOk_of_ne {c id : ComponentId} {env : DesktopEnv} {store store' : Store}
    (hc : c ≠ id) (h : deactivate id env store = .ok store') :
    (deactivate c env store').isOk = (deactivate c env store).isOk := by
  cases id with
  | baloo =>
    cases c with
    | baloo => exact absurd rfl hc
    | _ => rfl
  | _ =>
    cases h
    rfl

/-- When excluding the folder succeeds. -/
theorem Baloo.activate_isOk (env : DesktopEnv) (folder : String) (store : Store) :
    (Baloo.activate env folder store).isOk =
      ((!balooctl env && !env.findBinary "baloo_file" && !env.rcExists) || env.excludes folder ||
        (balooctl env && env.toolRuns) || env.writeRc.isOk) := by
  unfold Baloo.activate
  split
  · -- nothing of Baloo is there: nothing is done
    rename_i hnone
    rw [hnone]
    rfl
  · rename_i hsome
    rw [Bool.not_eq_true] at hsome
    rw [hsome]
    -- the folder is excluded already, the tool excludes it, or the configuration file is written
    split
    · rename_i hexcluded
      rw [hexcluded]
      rfl
    · rename_i hmissing
      rw [Bool.not_eq_true] at hmissing
      rw [hmissing]
      split
      · rename_i htool
        rw [htool]
        rfl
      · rename_i htool
        rw [Bool.not_eq_true] at htool
        rw [htool]
        cases env.writeRc <;> rfl

/-- Whether `activate` succeeds does not depend on the store. -/
theorem activate_isOk (c : ComponentId) (env : DesktopEnv) (folder : String) (store store' : Store) :
    (activate c env folder store).isOk = (activate c env folder store').isOk := by
  cases c with
  | baloo =>
    show (Baloo.activate env folder store).isOk = (Baloo.activate env folder store').isOk
    rw [Baloo.activate_isOk, Baloo.activate_isOk]
  | _ => rfl

/-! ## One reconcile -/

/-- What `record` makes of the calls of the two loops. -/
theorem mem_record_stops (ok : ComponentId → Bool) (ids : List ComponentId) (applied : Finset ComponentId)
    (c : ComponentId) :
    c ∈ (ids.map fun id => Call.deactivate id (ok id)).foldl record applied ↔
      c ∈ applied ∧ ¬(c ∈ ids ∧ ok c = true) := by
  induction ids generalizing applied with
  | nil => simp
  | cons id ids ih =>
    rw [List.map_cons, List.foldl_cons, ih]
    cases hok : ok id with
    | true =>
      -- a stop that works takes the component off
      simp only [record, Finset.mem_erase, List.mem_cons]
      constructor
      · rintro ⟨⟨hne, happlied⟩, hstop⟩
        exact ⟨happlied, fun ⟨hmem, hc⟩ => hstop ⟨hmem.resolve_left hne, hc⟩⟩
      · rintro ⟨happlied, hstop⟩
        exact ⟨⟨fun heq => hstop ⟨.inl heq, heq ▸ hok⟩, happlied⟩, fun ⟨hmem, hc⟩ => hstop ⟨.inr hmem, hc⟩⟩
    | false =>
      -- a failed one changes nothing
      simp only [record, List.mem_cons]
      constructor
      · rintro ⟨happlied, hstop⟩
        refine ⟨happlied, fun ⟨hmem, hc⟩ => hstop ⟨hmem.resolve_left fun heq => ?_, hc⟩⟩
        rw [heq, hok] at hc
        cases hc
      · rintro ⟨happlied, hstop⟩
        exact ⟨happlied, fun ⟨hmem, hc⟩ => hstop ⟨.inr hmem, hc⟩⟩

theorem mem_record_starts (ok : ComponentId → Bool) (ids : List ComponentId) (applied : Finset ComponentId)
    (c : ComponentId) :
    c ∈ (ids.map fun id => Call.activate id (ok id)).foldl record applied ↔
      c ∈ applied ∨ (c ∈ ids ∧ ok c = true) := by
  induction ids generalizing applied with
  | nil => simp
  | cons id ids ih =>
    rw [List.map_cons, List.foldl_cons, ih]
    cases hok : ok id with
    | true =>
      -- a start that works adds the component
      simp only [record, Finset.mem_insert, List.mem_cons]
      constructor
      · rintro ((rfl | happlied) | ⟨hmem, hc⟩)
        · exact .inr ⟨.inl rfl, hok⟩
        · exact .inl happlied
        · exact .inr ⟨.inr hmem, hc⟩
      · rintro (happlied | ⟨heq | hmem, hc⟩)
        · exact .inl (.inr happlied)
        · exact .inl (.inl heq)
        · exact .inr ⟨hmem, hc⟩
    | false =>
      -- a failed one changes nothing
      simp only [record, List.mem_cons]
      constructor
      · rintro (happlied | ⟨hmem, hc⟩)
        · exact .inl happlied
        · exact .inr ⟨.inr hmem, hc⟩
      · rintro (happlied | ⟨heq | hmem, hc⟩)
        · exact .inl happlied
        · rw [heq, hok] at hc
          cases hc
        · exact .inr ⟨hmem, hc⟩

namespace Manager

variable {m : Manager} {env : DesktopEnv} {st : State}

/-- The loop over the components to stop. -/
theorem stops_spec (ids : List ComponentId) (hnodup : ids.Nodup) (p : Pass) :
    (ids.foldl (stop env) p).calls =
        p.calls ++ ids.map (fun c => .deactivate c (deactivate c env p.st.store).isOk) ∧
      (∀ c, c ∈ (ids.foldl (stop env) p).st.active ↔
        c ∈ p.st.active ∧ ¬(c ∈ ids ∧ (deactivate c env p.st.store).isOk = true)) ∧
      (ids.foldl (stop env) p).st.first = p.st.first := by
  induction ids generalizing p with
  | nil => simp
  | cons id ids ih =>
    obtain ⟨hnot, hnodup⟩ := List.nodup_cons.mp hnodup
    obtain ⟨hcalls, hactive, hfirst⟩ := ih hnodup (stop env p id)
    rw [List.foldl_cons]
    cases hcall : deactivate id env p.st.store with
    | error e =>
      -- the call fails: the component stays in `active`
      have hstop : stop env p id = { p with calls := p.calls ++ [.deactivate id false] } := by
        simp only [stop, hcall]
      have hfail : (deactivate id env p.st.store).isOk = false := by rw [hcall]; rfl
      rw [hstop] at hcalls hactive hfirst
      rw [hstop]
      refine ⟨?_, fun c => ?_, hfirst⟩
      · rw [hcalls, List.map_cons, hfail, List.append_assoc]
        rfl
      · rw [hactive c]
        constructor
        · rintro ⟨hmem, hnone⟩
          refine ⟨hmem, fun ⟨hin, hok⟩ => hnone ⟨(List.mem_cons.mp hin).resolve_left fun heq => ?_, hok⟩⟩
          rw [heq, hfail] at hok
          cases hok
        · rintro ⟨hmem, hnone⟩
          exact ⟨hmem, fun ⟨hin, hok⟩ => hnone ⟨List.mem_cons_of_mem _ hin, hok⟩⟩
    | ok store =>
      -- the call works: the component leaves `active`
      have hstop : stop env p id =
          { st := { p.st with store := store, active := p.st.active.erase id }
            storeChanged := true
            calls := p.calls ++ [.deactivate id true] } := by
        simp only [stop, hcall]
      have hdone : (deactivate id env p.st.store).isOk = true := by rw [hcall]; rfl
      -- the other calls go as they would have before this one
      have hsame : ∀ c ∈ ids, (deactivate c env store).isOk = (deactivate c env p.st.store).isOk :=
        fun c hc => deactivate_isOk_of_ne (fun heq : c = id => hnot (heq ▸ hc)) hcall
      rw [hstop] at hcalls hactive hfirst
      rw [hstop]
      refine ⟨?_, fun c => ?_, hfirst⟩
      · rw [hcalls, List.map_cons, hdone, List.append_assoc]
        have hmap : ids.map (fun c => Call.deactivate c (deactivate c env store).isOk) =
            ids.map fun c => Call.deactivate c (deactivate c env p.st.store).isOk :=
          List.map_congr_left fun c hc => by rw [hsame c hc]
        rw [← hmap]
        rfl
      · -- among the other components only their own calls count
        rw [hactive c]
        show c ∈ p.st.active.erase id ∧ _ ↔ _
        rw [Finset.mem_erase]
        constructor
        · rintro ⟨⟨hne, hmem⟩, hnone⟩
          refine ⟨hmem, fun ⟨hin, hok⟩ => ?_⟩
          have hin := (List.mem_cons.mp hin).resolve_left hne
          exact hnone ⟨hin, (hsame c hin).trans hok⟩
        · rintro ⟨hmem, hnone⟩
          refine ⟨⟨fun heq => hnone ⟨heq ▸ List.mem_cons_self, heq ▸ hdone⟩, hmem⟩, fun ⟨hin, hok⟩ => ?_⟩
          exact hnone ⟨List.mem_cons_of_mem _ hin, (hsame c hin).symm.trans hok⟩

/-- The loop over the components to start. -/
theorem starts_spec (ids : List ComponentId) (p : Pass) :
    (ids.foldl (m.start env) p).calls =
        p.calls ++ ids.map (fun c => .activate c (activate c env m.folder p.st.store).isOk) ∧
      (∀ c, c ∈ (ids.foldl (m.start env) p).st.active ↔ c ∈ p.st.active ∨ c ∈ ids) ∧
      (ids.foldl (m.start env) p).st.first = p.st.first := by
  induction ids generalizing p with
  | nil => simp
  | cons id ids ih =>
    obtain ⟨hcalls, hactive, hfirst⟩ := ih (m.start env p id)
    rw [List.foldl_cons]
    -- whether it works or not, a started component counts as active
    have hstarted : (m.start env p id).calls =
          p.calls ++ [.activate id (activate id env m.folder p.st.store).isOk] ∧
        (m.start env p id).st.active = insert id p.st.active ∧
        (m.start env p id).st.first = p.st.first := by
      unfold start
      cases activate id env m.folder p.st.store <;> exact ⟨rfl, rfl, rfl⟩
    obtain ⟨hcalls', hactive', hfirst'⟩ := hstarted
    refine ⟨?_, fun c => ?_, hfirst.trans hfirst'⟩
    · -- the outcomes of the later calls do not depend on the store this one leaves
      have hmap : ids.map (fun c => Call.activate c
        (activate c env m.folder (m.start env p id).st.store).isOk) =
          ids.map fun c => Call.activate c (activate c env m.folder p.st.store).isOk :=
        List.map_congr_left fun c _ => by rw [activate_isOk c env m.folder _ p.st.store]
      rw [hcalls, hcalls', hmap, List.append_assoc]
      rfl
    · rw [hactive c, hactive', Finset.mem_insert, List.mem_cons]
      exact or_assoc.trans or_left_comm

/-- The calls of a pass: the stops, then the starts. -/
theorem reconcileLocked_calls :
    (m.reconcileLocked env st).calls =
      (m.toStop st).map (fun c => .deactivate c (deactivate c env st.store).isOk) ++
        (m.toStart st).map fun c => .activate c (activate c env m.folder st.store).isOk := by
  have hnodup : (m.toStop st).Nodup := allComponents_nodup.filter _
  unfold reconcileLocked
  rw [(starts_spec (m.toStart st) _).1, (stops_spec (m.toStop st) hnodup _).1, List.nil_append]
  congr 1
  exact List.map_congr_left fun c _ => by rw [activate_isOk c env m.folder _ st.store]

/-- What a pass leaves in `active`. -/
theorem mem_reconcileLocked_active {c : ComponentId} :
    c ∈ (m.reconcileLocked env st).st.active ↔
      (c ∈ st.active ∧ ¬(c ∈ m.toStop st ∧ (deactivate c env st.store).isOk = true)) ∨ c ∈ m.toStart st := by
  have hnodup : (m.toStop st).Nodup := allComponents_nodup.filter _
  unfold reconcileLocked
  rw [(starts_spec (m.toStart st) _).2.1, (stops_spec (m.toStop st) hnodup _).2.1]

/-- After a pass it is no longer the first. -/
theorem reconcileLocked_first : (m.reconcileLocked env st).st.first = false := by
  have hnodup : (m.toStop st).Nodup := allComponents_nodup.filter _
  unfold reconcileLocked
  rw [(starts_spec (m.toStart st) _).2.2, (stops_spec (m.toStop st) hnodup _).2.2]

/-- Components to start are wanted and not active. -/
theorem mem_toStart {c : ComponentId} : c ∈ m.toStart st ↔ c ∈ m.wantedComponents st ∧ c ∉ st.active := by
  rw [toStart, List.mem_filter, decide_eq_true_iff]
  exact and_iff_right (mem_allComponents c)

/-- Components to stop are not wanted, and active; on the first pass all that are not wanted. -/
theorem mem_toStop {c : ComponentId} :
    c ∈ m.toStop st ↔ c ∉ m.wantedComponents st ∧ (st.first = true ∨ c ∈ st.active) := by
  rw [toStop, List.mem_filter, Bool.and_eq_true, Bool.or_eq_true, decide_eq_true_iff, decide_eq_true_iff]
  exact and_iff_right (mem_allComponents c)

end Manager

/-! ## Runs -/

/-- A failed call is made again while it is called for. -/
def Retries (r r' : Round) : Prop :=
  ∀ c, (.activate c false ∈ r.calls → c ∈ r'.wanted → ∃ ok, .activate c ok ∈ r'.calls) ∧
    (.deactivate c false ∈ r.calls → c ∉ r'.wanted → ∃ ok, .deactivate c ok ∈ r'.calls)

/-- When every call of the reconcile succeeded, what is applied is what is enabled. -/
def Converges (r : Round) : Prop := (∀ call ∈ r.calls, call.ok = true) → r.applied = r.wanted

namespace Machine

variable {m : Manager} {env : DesktopEnv} {s : Machine}

/-- The reconcile's activation of Baloo does not fail, nor its deactivation on the first pass; no
other component's calls can fail. -/
def MeetsReconcile (m : Manager) (env : DesktopEnv) (s : Machine) : Prop :=
  let st := m.detectLocked env s.st
  (.baloo ∈ m.wantedComponents st → .baloo ∉ st.active → (Baloo.activate env m.folder st.store).isOk = true) ∧
    (st.first = true → .baloo ∉ m.wantedComponents st → (Baloo.deactivate env st.store).isOk = true)

/-- A step that reconciles meets the condition of its reconcile. -/
def Meets (m : Manager) (s : Machine) : Event → Prop
  | .refresh env => s.MeetsReconcile m env
  | .list env => s.MeetsReconcile m env
  | .set id mode env =>
    m.profiles.any (fun p => decide (p.id = id)) = true → (s.choose env id mode).MeetsReconcile m env
  | .restart _ => True

/-- Every step of the run meets its condition. -/
def AllMeet (m : Manager) (s : Machine) : List Event → Prop
  | [] => True
  | e :: es => s.Meets m e ∧ AllMeet m (s.step m e) es

instance : Decidable (s.MeetsReconcile m env) :=
  inferInstanceAs (Decidable
    ((.baloo ∈ m.wantedComponents (m.detectLocked env s.st) → .baloo ∉ (m.detectLocked env s.st).active →
        (Baloo.activate env m.folder (m.detectLocked env s.st).store).isOk = true) ∧
      ((m.detectLocked env s.st).first = true → .baloo ∉ m.wantedComponents (m.detectLocked env s.st) →
        (Baloo.deactivate env (m.detectLocked env s.st).store).isOk = true)))

instance : (e : Event) → Decidable (s.Meets m e)
  | .refresh env => inferInstanceAs (Decidable (s.MeetsReconcile m env))
  | .list env => inferInstanceAs (Decidable (s.MeetsReconcile m env))
  | .set id mode env => inferInstanceAs (Decidable
      (m.profiles.any (fun p => decide (p.id = id)) = true → (s.choose env id mode).MeetsReconcile m env))
  | .restart _ => inferInstanceAs (Decidable True)

instance decidableAllMeet (m : Manager) : (s : Machine) → (es : List Event) → Decidable (s.AllMeet m es)
  | _, [] => inferInstanceAs (Decidable True)
  | s, e :: es =>
    have := decidableAllMeet m (s.step m e) es
    inferInstanceAs (Decidable (s.Meets m e ∧ (s.step m e).AllMeet m es))

/-- From the first reconcile of a daemon on, `active` is what is applied; before it, `active` is
empty. What the last reconcile failed to do is a deactivation the next one sees. -/
structure Settled (s : Machine) : Prop where
  first : s.st.first = true → s.st.active = ∅
  active : s.st.first = false → s.st.active = s.applied
  failed : ∀ r, s.rounds.getLast? = some r → ∀ call ∈ r.calls, call.ok = false →
    ∃ c, call = .deactivate c false ∧ (s.st.first = true ∨ c ∈ s.st.active)
  converges : ∀ r ∈ s.rounds, Converges r
  retries : s.rounds.IsChain Retries

/-- A service that starts is settled, whatever was left applied. -/
theorem Settled.fresh (file : Option Store) (applied : Finset ComponentId) : (fresh file applied).Settled := by
  constructor
  · exact fun _ => rfl
  · intro h
    cases h
  · intro r hr
    cases hr
  · intro r hr
    cases hr
  · exact List.isChain_nil

/-- The condition, for every component. -/
theorem MeetsReconcile.starts (h : s.MeetsReconcile m env) {c : ComponentId}
    (hc : c ∈ m.toStart (m.detectLocked env s.st)) :
    (activate c env m.folder (m.detectLocked env s.st).store).isOk = true := by
  obtain ⟨hwanted, hactive⟩ := Manager.mem_toStart.mp hc
  cases c with
  | baloo => exact h.1 hwanted hactive
  | _ => rfl

/-- On the first pass every stop works. -/
theorem MeetsReconcile.stops (h : s.MeetsReconcile m env) (hfirst : s.st.first = true) {c : ComponentId}
    (hc : c ∈ m.toStop (m.detectLocked env s.st)) :
    (deactivate c env (m.detectLocked env s.st).store).isOk = true := by
  cases c with
  | baloo => exact h.2 hfirst (Manager.mem_toStop.mp hc).1
  | _ => rfl

/-- What is applied after the reconcile, by what its calls reported. -/
theorem mem_reconcile_applied {c : ComponentId} :
    c ∈ (s.reconcile m env).applied ↔
      (c ∈ s.applied ∧ ¬(c ∈ m.toStop (m.detectLocked env s.st) ∧
        (deactivate c env (m.detectLocked env s.st).store).isOk = true)) ∨
      (c ∈ m.toStart (m.detectLocked env s.st) ∧
        (activate c env m.folder (m.detectLocked env s.st).store).isOk = true) := by
  show c ∈ ((m.reconcileLocked env (m.detectLocked env s.st)).calls).foldl record s.applied ↔ _
  rw [Manager.reconcileLocked_calls, List.foldl_append,
    mem_record_starts (fun c => (activate c env m.folder (m.detectLocked env s.st).store).isOk),
    mem_record_stops (fun c => (deactivate c env (m.detectLocked env s.st).store).isOk)]

theorem Settled.active_reconcile (h : s.Settled) (hmeets : s.MeetsReconcile m env) :
    (s.reconcile m env).st.active = (s.reconcile m env).applied := by
  ext c
  rw [mem_reconcile_applied]
  show c ∈ (m.reconcileLocked env (m.detectLocked env s.st)).st.active ↔ _
  rw [Manager.mem_reconcileLocked_active]
  -- a start that is tried works
  have hstarted : c ∈ m.toStart (m.detectLocked env s.st) ↔ c ∈ m.toStart (m.detectLocked env s.st) ∧
      (activate c env m.folder (m.detectLocked env s.st).store).isOk = true :=
    ⟨fun hc => ⟨hc, hmeets.starts hc⟩, fun hc => hc.1⟩
  cases hfirst : s.st.first with
  | false =>
    -- a later pass: `active` is what is applied, and both change alike
    have hactive : (m.detectLocked env s.st).active = s.applied := h.active hfirst
    rw [hactive, ← hstarted]
  | true =>
    -- every unwanted component was stopped, every wanted one started
    have hnone : (m.detectLocked env s.st).active = ∅ := h.first hfirst
    rw [← hstarted, hnone]
    constructor
    · rintro (⟨habsurd, -⟩ | hstart)
      · exact absurd habsurd (Finset.notMem_empty c)
      · exact .inr hstart
    · rintro (⟨-, hkept⟩ | hstart)
      · right
        rw [Manager.mem_toStart, hnone]
        refine ⟨?_, Finset.notMem_empty c⟩
        by_contra hunwanted
        have hstop : c ∈ m.toStop (m.detectLocked env s.st) := Manager.mem_toStop.mpr ⟨hunwanted, .inl hfirst⟩
        exact hkept ⟨hstop, hmeets.stops hfirst hstop⟩
      · exact .inr hstart

/-- A pass whose calls all work applies exactly what is wanted. -/
theorem Settled.converges_reconcile (h : s.Settled) (hmeets : s.MeetsReconcile m env)
    (hok : ∀ call ∈ (m.reconcileLocked env (m.detectLocked env s.st)).calls, call.ok = true) :
    (s.reconcile m env).applied = m.wantedComponents (m.detectLocked env s.st) := by
  rw [← h.active_reconcile hmeets]
  show (m.reconcileLocked env (m.detectLocked env s.st)).st.active = _
  ext c
  rw [Manager.mem_reconcileLocked_active, Manager.mem_toStart]
  have hstops : ∀ c ∈ m.toStop (m.detectLocked env s.st),
      (deactivate c env (m.detectLocked env s.st).store).isOk = true := by
    intro c hc
    refine hok (.deactivate c _) ?_
    rw [Manager.reconcileLocked_calls]
    exact List.mem_append_left _ (List.mem_map_of_mem hc)
  constructor
  · rintro (⟨hactive, hkept⟩ | ⟨hwanted, -⟩)
    · by_contra hunwanted
      have hstop : c ∈ m.toStop (m.detectLocked env s.st) := Manager.mem_toStop.mpr ⟨hunwanted, .inr hactive⟩
      exact hkept ⟨hstop, hstops c hstop⟩
    · exact hwanted
  · intro hwanted
    by_cases hactive : c ∈ (m.detectLocked env s.st).active
    · exact .inl ⟨hactive, fun hstop => (Manager.mem_toStop.mp hstop.1).1 hwanted⟩
    · exact .inr ⟨hwanted, hactive⟩

theorem Settled.reconcile (h : s.Settled) (hmeets : s.MeetsReconcile m env) : (s.reconcile m env).Settled := by
  have hlater : (s.reconcile m env).st.first = false := Manager.reconcileLocked_first
  constructor
  · -- the pass was not the first one any more afterwards
    intro hfirst
    rw [hlater] at hfirst
    cases hfirst
  · -- after it, `active` is what is applied
    exact fun _ => h.active_reconcile hmeets
  · -- a failed call of this pass is a stop that stays in `active`
    intro r hr call hcall hfail
    have hr : (s.rounds ++ [_]).getLast? = some r := hr
    rw [List.getLast?_concat] at hr
    obtain rfl := Option.some.inj hr
    have hcall : call ∈ (m.reconcileLocked env (m.detectLocked env s.st)).calls := hcall
    rw [Manager.reconcileLocked_calls] at hcall
    obtain hcall | hcall := List.mem_append.mp hcall
    · obtain ⟨c, hstop, rfl⟩ := List.mem_map.mp hcall
      have hfail : (deactivate c env (m.detectLocked env s.st).store).isOk = false := hfail
      rw [hfail]
      refine ⟨c, rfl, .inr ?_⟩
      -- it was in `active`, or this was the first pass and it did not fail
      show c ∈ (m.reconcileLocked env (m.detectLocked env s.st)).st.active
      obtain hfirst | hactive := (Manager.mem_toStop.mp hstop).2
      · rw [hmeets.stops hfirst hstop] at hfail
        cases hfail
      · rw [Manager.mem_reconcileLocked_active]
        refine .inl ⟨hactive, fun hstopped => ?_⟩
        rw [hfail] at hstopped
        cases hstopped.2
    · -- a start does not fail here
      obtain ⟨c, hstart, rfl⟩ := List.mem_map.mp hcall
      have hfail : (activate c env m.folder (m.detectLocked env s.st).store).isOk = false := hfail
      rw [hmeets.starts hstart] at hfail
      cases hfail
  · -- a pass without failures has converged
    intro r hr
    obtain hr | hr := List.mem_append.mp hr
    · exact h.converges r hr
    · rw [List.mem_singleton.mp hr]
      exact fun hok => h.converges_reconcile hmeets hok
  · -- the next pass tries a failed stop again, if it is still unwanted
    refine h.retries.append (List.isChain_singleton _) fun r hr r' hr' => ?_
    have hr' : some _ = some r' := hr'
    obtain rfl := Option.some.inj hr'
    intro c
    constructor
    · -- no start failed in the pass before
      intro hfail
      obtain ⟨_, hcall, -⟩ := h.failed r hr _ hfail rfl
      cases hcall
    · -- the component is in `active`, so it is stopped again
      intro hfail hunwanted
      obtain ⟨c', hcall, hseen⟩ := h.failed r hr _ hfail rfl
      obtain ⟨rfl, -⟩ := Call.deactivate.inj hcall
      refine ⟨(deactivate c env (m.detectLocked env s.st).store).isOk, ?_⟩
      show _ ∈ (m.reconcileLocked env (m.detectLocked env s.st)).calls
      rw [Manager.reconcileLocked_calls]
      exact List.mem_append_left _ (List.mem_map_of_mem (Manager.mem_toStop.mpr ⟨hunwanted, hseen⟩))

/-- Every step keeps the service settled. -/
theorem Settled.step (h : s.Settled) {e : Event} (hmeets : s.Meets m e) : (s.step m e).Settled := by
  cases e with
  | refresh env => exact h.reconcile hmeets
  | list env => exact h.reconcile hmeets
  | set id mode env =>
    show (if _ then (s.choose env id mode).reconcile m env else s).Settled
    split
    · rename_i hknown
      have hchosen : (s.choose env id mode).Settled :=
        ⟨h.first, h.active, h.failed, h.converges, h.retries⟩
      exact hchosen.reconcile (hmeets hknown)
    · exact h
  | restart readable =>
    constructor
    · exact fun _ => rfl
    · intro hfirst
      cases hfirst
    · intro r hr call hcall hfail
      obtain ⟨c, rfl, -⟩ := h.failed r hr call hcall hfail
      exact ⟨c, rfl, .inl rfl⟩
    · exact h.converges
    · exact h.retries

/-- Every run keeps the service settled. -/
theorem Settled.steps {es : List Event} : ∀ {s : Machine}, s.Settled → s.AllMeet m es →
    (s.steps m es).Settled := by
  induction es with
  | nil => exact fun h _ => h
  | cons e es ih =>
    intro s h hmeets
    exact ih (h.step hmeets.1) hmeets.2

/-- Over every run of daemons on one store file, with no failing activation and no failing
deactivation on a daemon's first pass: whenever all calls of a reconcile succeeded the applied
components are exactly those of the enabled profiles, and what a reconcile failed to do the next one
tries again while it is called for. -/
theorem components_converge (m : Manager) (file : Option Store) (applied : Finset ComponentId)
    (es : List Event) (hmeets : (fresh file applied).AllMeet m es) :
    (∀ r ∈ ((fresh file applied).steps m es).rounds, Converges r) ∧
      ((fresh file applied).steps m es).rounds.IsChain Retries := by
  have h := (Settled.fresh file applied).steps hmeets
  exact ⟨h.converges, h.retries⟩

/-- KDE's indexer is there, `balooctl` is not, and nothing else is installed. -/
def kdeEnv (writeRc : Except String Unit) (excluded : Bool) : DesktopEnv :=
  { findBinary := fun b => decide (b = "baloo_file")
    hasDesktopFile := fun _ => false
    pathExists := fun _ => false
    toolRuns := false
    rcExists := false
    excludes := fun _ => excluded
    excludesAfter := fun _ => excluded
    writeRc := writeRc
    savesChoice := true
    saves := true }

/-- The service of the examples, with the profiles of the source. -/
def service : Manager := { folder := "/home/u/Nextcloud/", profiles := PROFILES }

/-- The KIO profile is switched on and off again; the first try to remove the exclusion fails. -/
def failedStop : List Event :=
  [.set "kio" .on (kdeEnv (.ok ()) false), .set "kio" .off (kdeEnv (.error "read-only file system") true),
   .refresh (kdeEnv (.ok ()) true)]

/-- A failed stop of a later pass is tried again. -/
theorem failed_stop_is_retried :
    (((fresh none ∅).steps service failedStop).rounds.map fun r => (r.calls, r.applied)) =
      [([.deactivate .gio true, .deactivate .tracker true, .activate .kio true, .activate .baloo true],
          {.kio, .baloo}),
       ([.deactivate .kio true, .deactivate .baloo false], {.baloo}),
       ([.deactivate .baloo true], ∅)] ∧
      (∀ r ∈ ((fresh none ∅).steps service failedStop).rounds, Converges r) ∧
      ((fresh none ∅).steps service failedStop).rounds.IsChain Retries :=
  ⟨by decide, components_converge service none ∅ failedStop (by decide)⟩

/-- `baloofilerc` cannot be written when the KIO profile is switched on. -/
def failedStart : List Event :=
  [.set "kio" .on (kdeEnv (.error "read-only file system") false), .refresh (kdeEnv (.ok ()) false)]

/-- A failed start is not tried again, though it is wanted. -/
theorem failedStart_rounds : ((fresh none ∅).steps service failedStart).rounds =
    [{ wanted := {.kio, .baloo}, calls := [.deactivate .gio true, .deactivate .tracker true,
        .activate .kio true, .activate .baloo false], applied := {.kio} },
     { wanted := {.kio, .baloo}, calls := [], applied := {.kio} }] := by
  decide

/-- An exclusion that an earlier daemon recorded cannot be removed on the first pass. -/
def failedFirstStop : List Event :=
  [.refresh (kdeEnv (.error "read-only file system") true), .refresh (kdeEnv (.ok ()) true)]

/-- What an earlier version left in the store. -/
def leftover : Store := { applied := (∅ : AList fun _ : String => String).insert Baloo.APPLIED_KEY "/home/u/Nextcloud/" }

/-- A failed stop of the first pass is not tried again. -/
theorem failedFirstStop_rounds : ((fresh (some leftover) {.baloo}).steps service failedFirstStop).rounds =
    [{ wanted := ∅, calls := [.deactivate .gio true, .deactivate .kio true, .deactivate .tracker true,
        .deactivate .baloo false], applied := {.baloo} },
     { wanted := ∅, calls := [], applied := {.baloo} }] := by
  decide

/-- In both runs the second reconcile has nothing to call and Baloo is not as wanted. -/
theorem failed_activation_is_forgotten :
    (¬(∀ r ∈ ((fresh none ∅).steps service failedStart).rounds, Converges r) ∧
      ¬((fresh none ∅).steps service failedStart).rounds.IsChain Retries) ∧
    ¬(∀ r ∈ ((fresh (some leftover) {.baloo}).steps service failedFirstStop).rounds, Converges r) ∧
      ¬((fresh (some leftover) {.baloo}).steps service failedFirstStop).rounds.IsChain Retries := by
  rw [failedStart_rounds, failedFirstStop_rounds]
  refine ⟨⟨fun h => ?_, fun h => ?_⟩, fun h => ?_, fun h => ?_⟩
  · have hsecond := h _ (List.mem_cons_of_mem _ List.mem_cons_self)
    exact absurd (hsecond fun _ hcall => absurd hcall List.not_mem_nil) (by decide)
  · have hretries := List.isChain_pair.mp h
    obtain ⟨_, hcall⟩ := (hretries .baloo).1 (by simp) (by decide)
    exact absurd hcall List.not_mem_nil
  · have hsecond := h _ (List.mem_cons_of_mem _ List.mem_cons_self)
    exact absurd (hsecond fun _ hcall => absurd hcall List.not_mem_nil) (by decide)
  · have hretries := List.isChain_pair.mp h
    obtain ⟨_, hcall⟩ := (hretries .baloo).2 (by simp) (by decide)
    exact absurd hcall List.not_mem_nil

end Machine

end Ncrs.Desktop
