import Ncrs.Native.Dns
import Mathlib.Data.List.Count

/-!
# Name lookups are single-flight

The number of lookups of a host follows its `in_flight` flag, whichever thread starts, refuses or
ends one (`Resolver.Single`), so nobody waits for a lookup that does not exist. What callers were
told and what was looked up are compared in `Resolver.Served` and `Resolver.Told`.

## Key results

- `Resolver.complete_answers`: a lookup that ends answers everyone waiting and leaves nobody
- `Resolver.lookups_are_single_flight`: what callers can rely on in every reachable state
-/

namespace Ncrs

namespace Dns

variable {A : Type}

namespace HostEntry

variable {e : HostEntry A} {now gap : Nat} {result : LookupResult A}

/-- A lookup that is completed is no longer in flight. -/
@[simp] theorem inFlight_complete : (e.complete result now gap).inFlight = false := by
  unfold complete
  split <;> rfl

/-- A lookup that is completed leaves nobody waiting. -/
@[simp] theorem waiting_complete : (e.complete result now gap).waiting = [] := by
  unfold complete
  split <;> rfl

/-- A stale answer is the last good one, and young enough. -/
theorem staleAnswer_eq_some {addrs : List A} (h : e.staleAnswer now = some addrs) :
    ∃ t, e.lastGood = some (t, addrs) ∧ now - t < DNS_STALE_MAX := by
  unfold staleAnswer at h
  split at h
  · rename_i t as hgood
    split at h
    · rename_i hage
      exact ⟨t, by rw [hgood, Option.some.inj h], hage⟩
    · cases h
  · cases h

/-- An answer with addresses is the new one, or one that was served before. -/
theorem answer_eq_ok {addrs : List A} (h : e.answer result now = .ok addrs) :
    (∃ a as, result = .ok (a :: as) ∧ addrs = a :: as) ∨ e.staleAnswer now = some addrs := by
  unfold answer at h
  split at h
  · rename_i a as
    exact .inl ⟨a, as, rfl, (Except.ok.inj h).symm⟩
  · split at h
    · rename_i as hs
      exact .inr (by rw [hs, Except.ok.inj h])
    · cases h
  · split at h
    · rename_i as hs
      exact .inr (by rw [hs, Except.ok.inj h])
    · cases h

end HostEntry

namespace Resolver

variable {s s' : Resolver A} {host h : String} {place gap : Nat} {result : LookupResult A}

/-- The lookups are no part of the hosts' entries. -/
@[simp] theorem hosts_setLookups (l : List Phase) : (s.setLookups host l).hosts = s.hosts := rfl

/-- A host's entry is no part of the lookups. -/
@[simp] theorem lookups_setHost (e : HostEntry A) : (s.setHost host e).lookups = s.lookups := rfl

/-- The lookups of one host are set. -/
@[simp] theorem lookups_setLookups (l : List Phase) :
    (s.setLookups host l).lookups h = if h = host then l else s.lookups h :=
  Function.update_apply ..

/-- The entry of one host is set. -/
@[simp] theorem hosts_setHost (e : HostEntry A) :
    (s.setHost host e).hosts h = if h = host then e else s.hosts h :=
  Function.update_apply ..

/-- A completion changes the entry of its host. -/
@[simp] theorem hosts_complete : (s.complete host place result gap).hosts h =
    if h = host then (s.hosts host).complete result s.now gap else s.hosts h :=
  hosts_setHost _

/-- A completion removes its lookup. -/
@[simp] theorem lookups_complete : (s.complete host place result gap).lookups h =
    if h = host then (s.lookups host).eraseIdx place else s.lookups h :=
  lookups_setLookups (s := s) _

/-- A call waits at its own host. -/
@[simp] theorem hosts_wait (caller : Nat) : (s.wait host caller).hosts h =
    if h = host then { s.hosts host with waiting := (s.hosts host).waiting ++ [caller] }
    else s.hosts h :=
  hosts_setHost _

/-! ## What a step can do -/

/-- A step that tells nobody anything and neither starts nor ends a lookup. -/
structure Quiet (s s' : Resolver A) : Prop where
  now : s.now ≤ s'.now
  lookups : ∀ h, (s'.lookups h).length = (s.lookups h).length
  lastGood : ∀ h, (s'.hosts h).lastGood = (s.hosts h).lastGood
  inFlight : ∀ h, (s'.hosts h).inFlight = (s.hosts h).inFlight
  waiting : ∀ h, (s'.hosts h).waiting = (s.hosts h).waiting
  calls : s'.calls = s.calls
  resolved : s'.resolved = s.resolved
  answers : s'.answers = s.answers

/-- A lookup that moves on is still the one lookup of its host. -/
theorem quiet_setPhase (p : Phase) :
    s.Quiet (s.setLookups host ((s.lookups host).set place p)) where
  now := Nat.le_refl _
  lookups := fun h => by
    rw [lookups_setLookups]
    split
    · rename_i hh
      rw [List.length_set, hh]
    · rfl
  lastGood := fun _ => rfl
  inFlight := fun _ => rfl
  waiting := fun _ => rfl
  calls := rfl
  resolved := rfl
  answers := rfl

/-- A step is a call of `resolve`, the end of a lookup, or quiet. -/
theorem step_cases {e : DnsEvent A} (hstep : s.step e = some s') :
    s.Quiet s' ∨ (∃ host gap, s' = s.resolve host gap) ∨
      ∃ host place p result gap, (s.lookups host)[place]? = some p ∧
        s' = s.complete host place result gap := by
  cases e with
  | tick d =>
    obtain rfl := Option.some.inj hstep
    exact .inl ⟨Nat.le_add_right .., fun _ => rfl, fun _ => rfl, fun _ => rfl, fun _ => rfl, rfl, rfl,
      rfl⟩
  | resolve host gap => exact .inr (.inl ⟨host, gap, (Option.some.inj hstep).symm⟩)
  | submit host place accepted =>
    -- each step of a lookup is a quiet one, or completes it
    simp only [Resolver.step] at hstep
    split at hstep
    · obtain rfl := Option.some.inj hstep
      exact .inl (quiet_setPhase _)
    · cases hstep
  | reportRefused host place =>
    simp only [Resolver.step] at hstep
    split at hstep
    · rename_i hp
      exact .inr (.inr ⟨host, place, _, _, _, hp, (Option.some.inj hstep).symm⟩)
    · cases hstep
  | start host place =>
    simp only [Resolver.step] at hstep
    split at hstep
    · rename_i hp
      split at hstep
      · obtain rfl := Option.some.inj hstep
        -- the lookup starts, or is dropped when nobody wants it any more
        exact .inl (quiet_setPhase _)
      · exact .inr (.inr ⟨host, place, _, _, _, hp, (Option.some.inj hstep).symm⟩)
    · cases hstep
  | finish host place result gap =>
    simp only [Resolver.step] at hstep
    split at hstep
    · rename_i hp
      exact .inr (.inr ⟨host, place, _, _, _, hp, (Option.some.inj hstep).symm⟩)
    · cases hstep
  | panic host place =>
    simp only [Resolver.step] at hstep
    split at hstep
    · rename_i hp
      exact .inr (.inr ⟨host, place, _, _, _, hp, (Option.some.inj hstep).symm⟩)
    · cases hstep
  | abandon caller =>
    obtain rfl := Option.some.inj hstep
    exact .inl ⟨Nat.le_refl _, fun _ => rfl, fun _ => rfl, fun _ => rfl, fun _ => rfl, rfl, rfl, rfl⟩
  | expireFreshDns =>
    obtain rfl := Option.some.inj hstep
    exact .inl ⟨Nat.le_refl _, fun _ => rfl, fun _ => rfl, fun _ => rfl, fun _ => rfl, rfl, rfl, rfl⟩

/-! ## One lookup for each host -/

/-- A host has one lookup while its flag is set and none otherwise, and nobody waits without one. -/
structure Single (s : Resolver A) : Prop where
  lookups : ∀ h, (s.lookups h).length = if (s.hosts h).inFlight then 1 else 0
  waiting : ∀ h, (s.hosts h).waiting ≠ [] → (s.hosts h).inFlight = true

/-- With a lookup in flight there is one, at place 0. -/
theorem Single.of_place (hs : s.Single) {p : Phase} (hp : (s.lookups host)[place]? = some p) :
    place = 0 ∧ (s.lookups host).length = 1 ∧ (s.hosts host).inFlight = true := by
  have hlen := hs.lookups host
  obtain ⟨hlt, -⟩ := List.getElem?_eq_some_iff.mp hp
  split at hlen
  · rename_i hflag
    exact ⟨by omega, hlen, hflag⟩
  · omega

/-- A completion leaves the host without lookup. -/
theorem Single.complete (hs : s.Single) {p : Phase} (hp : (s.lookups host)[place]? = some p) :
    (s.complete host place result gap).Single := by
  obtain ⟨hplace, hlen, -⟩ := hs.of_place hp
  constructor
  · intro h
    rw [hosts_complete, lookups_complete]
    split
    · simp [hplace, hlen]
    · exact hs.lookups h
  · intro h
    rw [hosts_complete]
    split
    · simp
    · exact hs.waiting h

/-- Where callers may already wait for the lookup that is started now. -/
theorem single_startLookup
    (hlookups : ∀ h, (s.lookups h).length = if (s.hosts h).inFlight then 1 else 0)
    (hwaiting : ∀ h, h ≠ host → (s.hosts h).waiting ≠ [] → (s.hosts h).inFlight = true) :
    (s.startLookup host).Single := by
  simp only [startLookup]
  split
  · -- a lookup is in flight already: the caller joins it
    rename_i hflag
    refine ⟨hlookups, fun h hw => ?_⟩
    by_cases hh : h = host
    · rw [hh, hflag]
    · exact hwaiting h hh hw
  · rename_i hflag
    -- none is in flight: there is no lookup, and the new one is the only one
    have hnone : (s.lookups host).length = 0 := by rw [hlookups host, if_neg hflag]
    constructor
    · intro h
      rw [lookups_setLookups, hosts_setLookups, hosts_setHost]
      split
      · simp [hnone]
      · exact hlookups h
    · intro h
      rw [hosts_setLookups, hosts_setHost]
      split
      · exact fun _ => rfl
      · rename_i hh
        exact hwaiting h hh

/-- A call starts a lookup only where there is none. -/
theorem Single.resolve (hs : s.Single) : (s.resolve host gap).Single := by
  simp only [Resolver.resolve]
  split
  · split
    · exact ⟨hs.lookups, hs.waiting⟩
    · exact single_startLookup hs.lookups fun h _ => hs.waiting h
  · apply single_startLookup
    · intro h
      rw [hosts_wait]
      split
      · rename_i hh
        subst hh
        exact hs.lookups h
      · exact hs.lookups h
    · intro h hh
      rw [hosts_wait, if_neg hh]
      exact hs.waiting h

/-- A quiet step leaves the lookups alone. -/
theorem Single.quiet (hs : s.Single) (hq : s.Quiet s') : s'.Single := by
  constructor
  · intro h
    rw [hq.lookups h, hq.inFlight h]
    exact hs.lookups h
  · intro h
    rw [hq.waiting h, hq.inFlight h]
    exact hs.waiting h

/-- Every step keeps one lookup for a host. -/
theorem Single.step (hs : s.Single) {e : DnsEvent A} (hstep : s.step e = some s') : s'.Single := by
  obtain hq | ⟨host, gap, rfl⟩ | ⟨host, place, p, result, gap, hp, rfl⟩ := step_cases hstep
  · exact hs.quiet hq
  · exact hs.resolve
  · exact hs.complete hp

/-! ## Every caller is answered once -/

/-- A caller has been answered, once, or waits on the lookup of its host. -/
structure Told (s : Resolver A) : Prop where
  once : ∀ c h, s.calls[c]? = some h →
    (s.answers.map (·.caller)).count c + (s.hosts h).waiting.count c = 1
  waits : ∀ h, ∀ c ∈ (s.hosts h).waiting, s.calls[c]? = some h
  known : ∀ a ∈ s.answers, s.calls[a.caller]? = some a.host

/-- A quiet step tells nobody. -/
theorem Told.quiet (hs : s.Told) (hq : s.Quiet s') : s'.Told := by
  refine ⟨fun c h => ?_, fun h => ?_, ?_⟩
  · rw [hq.calls, hq.answers, hq.waiting]
    exact hs.once c h
  · rw [hq.calls, hq.waiting]
    exact hs.waits h
  · rw [hq.calls, hq.answers]
    exact hs.known

theorem Told.complete (hs : s.Told) : (s.complete host place result gap).Told := by
  have hcalls : (s.complete host place result gap).calls = s.calls := rfl
  have hanswers : (s.complete host place result gap).answers = s.answers ++
      (s.hosts host).waiting.map fun c => ⟨c, host, (s.hosts host).answer result s.now, s.now⟩ := rfl
  refine ⟨fun c h hc => ?_, fun h c hc => ?_, fun a ha => ?_⟩
  · rw [hcalls] at hc
    have hold := hs.once c h hc
    -- exactly those that waited are told
    have hmap : ((s.hosts host).waiting.map fun c =>
        (⟨c, host, (s.hosts host).answer result s.now, s.now⟩ : Answer A)).map (·.caller) =
          (s.hosts host).waiting := by
      rw [List.map_map]
      exact List.map_id _
    rw [hanswers, List.map_append, List.count_append, hmap, hosts_complete]
    split
    · -- its own callers: each leaves the queue with its one answer
      rename_i hh
      rw [HostEntry.waiting_complete, List.count_nil, ← hh]
      exact hold
    · rename_i hh
      -- A caller of another host does not wait here.
      have hnot : c ∉ (s.hosts host).waiting := fun hw =>
        hh (Option.some.inj (hc.symm.trans (hs.waits host c hw)))
      rw [List.count_eq_zero_of_not_mem hnot]
      exact hold
  · -- nobody waits at the host any more
    rw [hosts_complete] at hc
    split at hc
    · rw [HostEntry.waiting_complete] at hc
      cases hc
    · exact hs.waits h c hc
  · rw [hanswers] at ha
    obtain ha | ha := List.mem_append.mp ha
    · -- every told caller has called
      exact hs.known a ha
    · obtain ⟨c, hc, rfl⟩ := List.mem_map.mp ha
      exact hs.waits host c hc

/-- What starting a lookup leaves alone. -/
theorem startLookup_frame (s : Resolver A) (host : String) :
    (s.startLookup host).now = s.now ∧ (s.startLookup host).calls = s.calls ∧
      (s.startLookup host).resolved = s.resolved ∧ (s.startLookup host).answers = s.answers ∧
      (∀ h, ((s.startLookup host).hosts h).waiting = (s.hosts h).waiting) ∧
      ∀ h, ((s.startLookup host).hosts h).lastGood = (s.hosts h).lastGood := by
  simp only [startLookup]
  split
  · exact ⟨rfl, rfl, rfl, rfl, fun _ => rfl, fun _ => rfl⟩
  · refine ⟨rfl, rfl, rfl, rfl, fun h => ?_, fun h => ?_⟩
    all_goals
      rw [hosts_setLookups, hosts_setHost]
      split
      · rename_i hh
        rw [hh]
      · rfl

/-- What `resolve` does: the caller is answered at once, or it waits. -/
theorem resolve_cases (s : Resolver A) (host : String) (gap : Nat) :
    (s.resolve host gap).now = s.now + gap ∧ (s.resolve host gap).calls = s.calls ++ [host] ∧
      (s.resolve host gap).resolved = s.resolved ∧
      (∀ h, ((s.resolve host gap).hosts h).lastGood = (s.hosts h).lastGood) ∧
      ((∃ addrs, (s.hosts host).staleAnswer (s.now + gap) = some addrs ∧
          (s.resolve host gap).answers =
            s.answers ++ [⟨s.calls.length, host, .ok addrs, s.now + gap⟩] ∧
          ∀ h, ((s.resolve host gap).hosts h).waiting = (s.hosts h).waiting) ∨
        ((s.resolve host gap).answers = s.answers ∧
          ∀ h, ((s.resolve host gap).hosts h).waiting =
            if h = host then (s.hosts host).waiting ++ [s.calls.length] else (s.hosts h).waiting)) := by
  simp only [Resolver.resolve]
  split
  · rename_i addrs hstale
    split
    · -- a stale answer while a lookup is in flight
      exact ⟨rfl, rfl, rfl, fun _ => rfl, .inl ⟨addrs, hstale, rfl, fun _ => rfl⟩⟩
    · -- a stale answer, and a lookup in the background
      obtain ⟨hnow, hcalls, hres, hans, hwait, hgood⟩ := startLookup_frame
        { s with
          now := s.now + gap
          calls := s.calls ++ [host]
          answers := s.answers ++ [⟨s.calls.length, host, .ok addrs, s.now + gap⟩] } host
      exact ⟨hnow, hcalls, hres, hgood, .inl ⟨addrs, hstale, hans, hwait⟩⟩
  · -- no answer: the caller waits
    obtain ⟨hnow, hcalls, hres, hans, hwait, hgood⟩ := startLookup_frame
      (Resolver.wait { s with now := s.now + gap, calls := s.calls ++ [host] } host s.calls.length)
      host
    refine ⟨hnow, hcalls, hres, fun h => ?_, .inr ⟨hans, fun h => ?_⟩⟩
    · rw [hgood, hosts_wait]
      split
      · rename_i hh
        rw [hh]
      · rfl
    · rw [hwait, hosts_wait]
      split <;> rfl

/-- A call is told at once, or waits. -/
theorem Told.resolve (hs : s.Told) : (s.resolve host gap).Told := by
  obtain ⟨-, hcalls, -, -, hor⟩ := resolve_cases s host gap
  -- The new caller was not known before.
  have hnew : s.calls[s.calls.length]? = none := List.getElem?_eq_none (Nat.le_refl _)
  have hans : (s.answers.map (·.caller)).count s.calls.length = 0 := by
    apply List.count_eq_zero_of_not_mem
    intro hmem
    obtain ⟨a, ha, hc⟩ := List.mem_map.mp hmem
    have hknown := hs.known a ha
    rw [hc, hnew] at hknown
    cases hknown
  -- the new caller waits nowhere yet
  have hwait : ∀ h, (s.hosts h).waiting.count s.calls.length = 0 := by
    intro h
    apply List.count_eq_zero_of_not_mem
    intro hmem
    have hknown := hs.waits h _ hmem
    rw [hnew] at hknown
    cases hknown
  have hold : ∀ {c h}, s.calls[c]? = some h → (s.calls ++ [host])[c]? = some h := fun hc => by
    rw [List.getElem?_append_left (List.getElem?_eq_some_iff.mp hc).1, hc]
  have hlast : (s.calls ++ [host])[s.calls.length]? = some host := by simp
  -- a known caller is an old one or the new one
  have hcase : ∀ {c h}, (s.calls ++ [host])[c]? = some h →
      (s.calls[c]? = some h ∧ c ≠ s.calls.length) ∨ (c = s.calls.length ∧ h = host) := by
    intro c h hc
    obtain hlt | rfl | hgt := Nat.lt_trichotomy c s.calls.length
    · rw [List.getElem?_append_left hlt] at hc
      exact .inl ⟨hc, Nat.ne_of_lt hlt⟩
    · rw [hlast] at hc
      exact .inr ⟨rfl, (Option.some.inj hc).symm⟩
    · rw [List.getElem?_eq_none (by simp; omega)] at hc
      cases hc
  obtain ⟨addrs, -, hanswers, hw⟩ | ⟨hanswers, hw⟩ := hor
  · -- told at once, with the stale answer
    refine ⟨fun c h hc => ?_, fun h c hc => ?_, fun a ha => ?_⟩
    · rw [hcalls] at hc
      rw [hanswers, hw, List.map_append, List.count_append]
      obtain ⟨hc, hne⟩ | ⟨rfl, rfl⟩ := hcase hc
      · have hone := hs.once c h hc
        -- an old caller: the new answer is not its
        have hzero : ([s.calls.length]).count c = 0 :=
          List.count_eq_zero_of_not_mem (by simpa using hne)
        simp only [List.map_cons, List.map_nil, hzero]
        omega
      · -- the new caller: told once, and not waiting
        have hzero := hwait h
        simp only [List.map_cons, List.map_nil, List.count_singleton_self]
        omega
    · rw [hw] at hc
      rw [hcalls]
      exact hold (hs.waits h c hc)
    · rw [hanswers] at ha
      rw [hcalls]
      obtain ha | ha := List.mem_append.mp ha
      · exact hold (hs.known a ha)
      · rw [List.mem_singleton.mp ha]
        exact hlast
  · -- waiting
    refine ⟨fun c h hc => ?_, fun h c hc => ?_, fun a ha => ?_⟩
    · rw [hcalls] at hc
      rw [hanswers, hw]
      obtain ⟨hc, hne⟩ | ⟨rfl, rfl⟩ := hcase hc
      · -- an old caller is not the one that joins the queue
        have hone := hs.once c h hc
        have hzero : ([s.calls.length]).count c = 0 :=
          List.count_eq_zero_of_not_mem (by simpa using hne)
        split
        · rename_i hh
          subst hh
          rw [List.count_append]
          omega
        · exact hone
      · -- the new caller: waits once, and is not told
        have hzero := hwait h
        rw [if_pos rfl, List.count_append, List.count_singleton_self]
        omega
    · rw [hw] at hc
      rw [hcalls]
      split at hc
      · rename_i hh
        subst hh
        obtain hc | hc := List.mem_append.mp hc
        · exact hold (hs.waits h c hc)
        · rw [List.mem_singleton.mp hc]
          exact hlast
      · exact hold (hs.waits h c hc)
    · rw [hanswers] at ha
      rw [hcalls]
      exact hold (hs.known a ha)

/-- Every step tells each caller once. -/
theorem Told.step (hs : s.Told) {e : DnsEvent A} (hstep : s.step e = some s') : s'.Told := by
  obtain hq | ⟨host, gap, rfl⟩ | ⟨host, place, p, result, gap, hp, rfl⟩ := step_cases hstep
  · exact hs.quiet hq
  · exact hs.resolve
  · exact hs.complete

/-! ## What is handed out is young -/

/-- The addresses kept and handed out were resolved, and not too long before. -/
structure Served (s : Resolver A) : Prop where
  good : ∀ h t addrs, (s.hosts h).lastGood = some (t, addrs) →
    (h, t, addrs) ∈ s.resolved ∧ t ≤ s.now
  young : ∀ a ∈ s.answers, ∀ addrs, a.result = .ok addrs →
    ∃ t, (a.host, t, addrs) ∈ s.resolved ∧ t ≤ a.at_ ∧ a.at_ - t < DNS_STALE_MAX

/-- A quiet step changes no answer. -/
theorem Served.quiet (hs : s.Served) (hq : s.Quiet s') : s'.Served := by
  constructor
  · intro h t addrs hg
    rw [hq.lastGood] at hg
    rw [hq.resolved]
    exact ⟨(hs.good h t addrs hg).1, Nat.le_trans (hs.good h t addrs hg).2 hq.now⟩
  · rw [hq.answers, hq.resolved]
    exact hs.young

/-- A call is served the last good answer, or none yet. -/
theorem Served.resolve (hs : s.Served) : (s.resolve host gap).Served := by
  obtain ⟨hnow, -, hres, hgood, hor⟩ := resolve_cases s host gap
  constructor
  · intro h t addrs hg
    rw [hgood] at hg
    obtain ⟨hmem, hle⟩ := hs.good h t addrs hg
    rw [hres, hnow]
    exact ⟨hmem, Nat.le_trans hle (Nat.le_add_right ..)⟩
  · rw [hres]
    obtain ⟨addrs, hstale, hanswers, -⟩ | ⟨hanswers, -⟩ := hor
    · rw [hanswers]
      intro a ha as hok
      obtain ha | ha := List.mem_append.mp ha
      · exact hs.young a ha as hok
      · rw [List.mem_singleton.mp ha] at hok ⊢
        obtain rfl := Except.ok.inj hok
        obtain ⟨t, hg, hage⟩ := HostEntry.staleAnswer_eq_some hstale
        obtain ⟨hmem, hle⟩ := hs.good host t addrs hg
        exact ⟨t, hmem, Nat.le_trans hle (Nat.le_add_right ..), hage⟩
    · rw [hanswers]
      exact hs.young

theorem Served.complete (hs : s.Served) : (s.complete host place result gap).Served := by
  have hgrow : ∀ x ∈ s.resolved, x ∈ (s.complete host place result gap).resolved := by
    intro x hx
    simp only [Resolver.complete]
    split
    · exact List.mem_append_left _ hx
    · exact hx
  have hnow : (s.complete host place result gap).now = s.now + gap := rfl
  -- a good answer is recorded with its time
  have hnew : ∀ a as, result = .ok (a :: as) →
      (host, s.now, a :: as) ∈ (s.complete host place result gap).resolved := by
    intro a as hr
    subst hr
    simp [Resolver.complete]
  constructor
  · intro h t addrs hg
    rw [hosts_complete] at hg
    rw [hnow]
    split at hg
    · -- the completed host: a new good answer, or the old one
      rename_i hh
      subst hh
      unfold HostEntry.complete at hg
      split at hg
      · rename_i a as
        obtain ⟨rfl, rfl⟩ := Prod.mk.inj (Option.some.inj hg)
        exact ⟨hnew a as rfl, Nat.le_add_right ..⟩
      · obtain ⟨hmem, hle⟩ := hs.good h t addrs hg
        exact ⟨hgrow _ hmem, Nat.le_trans hle (Nat.le_add_right ..)⟩
    · -- another host keeps its own
      obtain ⟨hmem, hle⟩ := hs.good h t addrs hg
      exact ⟨hgrow _ hmem, Nat.le_trans hle (Nat.le_add_right ..)⟩
  · intro a ha addrs hok
    obtain ha | ha := List.mem_append.mp ha
    · obtain ⟨t, hmem, hle⟩ := hs.young a ha addrs hok
      exact ⟨t, hgrow _ hmem, hle⟩
    · obtain ⟨c, -, rfl⟩ := List.mem_map.mp ha
      obtain ⟨x, xs, hr, rfl⟩ | hstale := HostEntry.answer_eq_ok hok
      · -- told the addresses of this lookup
        exact ⟨s.now, hnew x xs hr, Nat.le_refl _, by rw [Nat.sub_self]; decide⟩
      · -- told the last good ones, which are young enough
        obtain ⟨t, hg, hage⟩ := HostEntry.staleAnswer_eq_some hstale
        obtain ⟨hmem, hle⟩ := hs.good host t addrs hg
        exact ⟨t, hgrow _ hmem, hle, hage⟩

/-- Every step serves addresses that were resolved. -/
theorem Served.step (hs : s.Served) {e : DnsEvent A} (hstep : s.step e = some s') : s'.Served := by
  obtain hq | ⟨host, gap, rfl⟩ | ⟨host, place, p, result, gap, hp, rfl⟩ := step_cases hstep
  · exact hs.quiet hq
  · exact hs.resolve
  · exact hs.complete

/-! ## Every reachable state -/

/-- The end of a lookup answers exactly the callers waiting at that moment, and leaves none. -/
theorem complete_answers (s : Resolver A) (host : String) (place : Nat) (result : LookupResult A)
    (gap : Nat) :
    ((s.complete host place result gap).hosts host).waiting = [] ∧
      ((s.complete host place result gap).answers.drop s.answers.length).map (·.caller) =
        (s.hosts host).waiting := by
  refine ⟨by simp, ?_⟩
  simp only [Resolver.complete, List.drop_left, List.map_map]
  exact List.map_id _

/-- A lookup ends only through `complete`. -/
theorem ended_by_complete {e : DnsEvent A} (hstep : s.step e = some s')
    (hend : (s'.lookups h).length < (s.lookups h).length) :
    ∃ place result gap, s' = s.complete h place result gap := by
  obtain hq | ⟨host, gap, rfl⟩ | ⟨host, place, p, result, gap, hp, rfl⟩ := step_cases hstep
  · have hsame := hq.lookups h
    omega
  · have hmore : (s.lookups h).length ≤ ((s.resolve host gap).lookups h).length := by
      simp only [Resolver.resolve, startLookup]
      repeat' split
      all_goals
        first
          | exact Nat.le_refl _
          | (rw [lookups_setLookups]
             split
             · rename_i hh
               simp [hh, wait]
             · exact Nat.le_refl _)
    omega
  · rw [lookups_complete] at hend
    split at hend
    · rename_i hh
      subst hh
      exact ⟨place, result, gap, rfl⟩
    · omega

/-- What every step keeps, every run keeps. -/
theorem steps_induction {motive : Resolver A → Prop} (hmotive : ∀ {s s' : Resolver A} {e : DnsEvent A},
    motive s → s.step e = some s' → motive s') :
    ∀ {es : List (DnsEvent A)} {s s' : Resolver A}, motive s → s.steps es = some s' → motive s' := by
  intro es
  induction es with
  | nil =>
    intro s s' hs hsteps
    exact Option.some.inj hsteps ▸ hs
  | cons e es ih =>
    intro s s' hs hsteps
    obtain ⟨r, hr, hrest⟩ := Option.bind_eq_some_iff.mp hsteps
    exact ih (hmotive hs hr) hrest

/-- In every reachable state: a host has at most one lookup, and one exactly while `in_flight` is
    set; nobody waits without one; the step that ends a lookup answers exactly the callers waiting
    for it and leaves none; every caller has been answered once or waits; and every list of addresses
    handed out had been resolved less than `DNS_STALE_MAX` before. -/
theorem lookups_are_single_flight (es : List (DnsEvent A)) {s : Resolver A}
    (hrun : ({} : Resolver A).steps es = some s) :
    (∀ h, (s.lookups h).length ≤ 1 ∧
      ((s.lookups h).length = 1 ↔ (s.hosts h).inFlight = true)) ∧
    (∀ h, (s.hosts h).waiting ≠ [] → (s.hosts h).inFlight = true) ∧
    (∀ e s' h, s.step e = some s' → (s'.lookups h).length < (s.lookups h).length →
      (s'.hosts h).waiting = [] ∧
        (s'.answers.drop s.answers.length).map (·.caller) = (s.hosts h).waiting) ∧
    (∀ c h, s.calls[c]? = some h →
      (s.answers.map (·.caller)).count c + (s.hosts h).waiting.count c = 1) ∧
    ∀ a ∈ s.answers, ∀ addrs, a.result = .ok addrs →
      ∃ t, (a.host, t, addrs) ∈ s.resolved ∧ t ≤ a.at_ ∧ a.at_ - t < DNS_STALE_MAX := by
  -- the three invariants hold at the start and are kept by each step
  have hsingle : s.Single := steps_induction (motive := Single) (fun hs h => hs.step h)
    ⟨fun _ => rfl, fun _ hw => absurd rfl hw⟩ hrun
  have htold : s.Told := steps_induction (motive := Told) (fun hs h => hs.step h)
    ⟨fun _ _ hc => by simp at hc, fun _ _ hc => by simp at hc, fun _ ha => by simp at ha⟩ hrun
  have hserved : s.Served := steps_induction (motive := Served) (fun hs h => hs.step h)
    ⟨fun _ _ _ hg => (by cases hg), fun _ ha => (by simp at ha)⟩ hrun
  refine ⟨fun h => ?_, hsingle.waiting, fun e s' h hstep hend => ?_, htold.once, hserved.young⟩
  · rw [hsingle.lookups h]
    split
    · rename_i hflag
      exact ⟨Nat.le_refl 1, iff_of_true rfl hflag⟩
    · rename_i hflag
      exact ⟨Nat.zero_le 1, iff_of_false Nat.zero_ne_one hflag⟩
  · -- a lookup that ends was completed, and those that waited are told
    obtain ⟨place, result, gap, rfl⟩ := ended_by_complete hstep hend
    exact complete_answers s h place result gap

/-- Two callers share a lookup, which answers both; a third is answered from it at once. -/
theorem waiting_callers_share_a_lookup : ∃ s : Resolver Nat,
    ({} : Resolver Nat).steps
      [.resolve "h" 0, .resolve "h" 5, .submit "h" 0 true, .start "h" 0, .abandon 0,
        .finish "h" 0 (.ok [7]) 1, .resolve "h" 2] = some s ∧
      s.answers.map (·.caller) = [0, 1, 2] ∧
      (∀ h, (s.lookups h).length ≤ 1 ∧ ((s.lookups h).length = 1 ↔ (s.hosts h).inFlight = true)) := by
  obtain ⟨s, hrun, hans⟩ : ∃ s : Resolver Nat,
      ({} : Resolver Nat).steps
        [.resolve "h" 0, .resolve "h" 5, .submit "h" 0 true, .start "h" 0, .abandon 0,
          .finish "h" 0 (.ok [7]) 1, .resolve "h" 2] = some s ∧
        s.answers.map (·.caller) = [0, 1, 2] := ⟨_, rfl, rfl⟩
  exact ⟨s, hrun, hans, (lookups_are_single_flight _ hrun).1⟩

end Resolver

end Dns

end Ncrs
