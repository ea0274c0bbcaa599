import Ncrs.Native.Throttle
import Mathlib.Data.Bool.Count
import Mathlib.Data.List.InsertIdx
import Mathlib.Data.List.Nodup

/-!
# Permits of a throttle

Every busy slot is one live permit's. A permit changes its kind with the slot held, and gives it back once,
so that the slots in use are counted by the permits; a slot is free whenever fewer are in use than there are.

## Key results

- `Slots.take_spec`: the slot that is taken, and that one is found.
- `Throttle.Inv.step`: no step panics, and each keeps the count.
- `Throttle.slots_are_exclusive`: permits and slots in any state that is reached.
-/

namespace Ncrs

namespace Slots

variable {s : Slots} {now i : Nat}

theorem isFree_iff : s.isFree i = true ↔ s.busy[i]? = some false := by
  simp [isFree]

/-- The cursor's turn goes over every slot. -/
theorem exists_turn {n j next : Nat} (hj : j < n) : ∃ i < n, (next + i) % n = j := by
  have hmod := Nat.mod_lt next (y := n) (by omega)
  refine ⟨(j + (n - next % n)) % n, Nat.mod_lt _ (by omega), ?_⟩
  rw [Nat.add_mod, Nat.mod_mod, ← Nat.add_mod, ← Nat.mod_add_mod next n,
    show next % n + (j + (n - next % n)) = j + n by omega, Nat.add_mod_right, Nat.mod_eq_of_lt hj]

/-- The slot that is picked is free, and quarantined only if every free one is. -/
theorem pick_eq_some {slot : Nat} (h : s.pick now = some slot) :
    s.isFree slot = true ∧
      (s.quarantinedAt now slot = true → ∀ i, s.isFree i = true → s.quarantinedAt now i = true) := by
  unfold pick at h
  dsimp only at h
  rw [Option.or_eq_some_iff] at h
  obtain h | ⟨hnone, h⟩ := h
  · have hslot := List.find?_some h
    rw [Bool.and_eq_true, Bool.not_eq_true'] at hslot
    refine ⟨hslot.1, fun hbad => ?_⟩
    rw [hslot.2] at hbad
    cases hbad
  · have hmem := List.argmin_mem h
    refine ⟨(List.mem_filter.mp hmem).2, fun _ i hi => ?_⟩
    have hlt : i < s.busy.length := (List.getElem?_eq_some_iff.mp (isFree_iff.mp hi)).1
    obtain ⟨j, hj, hturn⟩ := exists_turn hlt
    have hskipped := List.find?_eq_none.mp hnone i (List.mem_map.mpr ⟨j, List.mem_range.mpr hj, hturn⟩)
    simpa [hi] using hskipped

theorem pick_isSome (h : s.isFree i = true) : (s.pick now).isSome = true := by
  have hlt : i < s.busy.length := (List.getElem?_eq_some_iff.mp (isFree_iff.mp h)).1
  unfold pick
  rw [Option.isSome_or, Bool.or_eq_true]
  refine .inr ?_
  rw [Option.isSome_iff_ne_none]
  intro hnone
  have hempty := List.argmin_eq_none.mp hnone
  have hmem : i ∈ (List.range s.busy.length).filter s.isFree := List.mem_filter.mpr ⟨List.mem_range.mpr hlt, h⟩
  rw [hempty] at hmem
  cases hmem

/-- With fewer slots in use than there are one is free. -/
theorem exists_free (h : s.inUse = s.busy.count true) (hlt : s.inUse < s.busy.length) :
    ∃ i, s.isFree i = true := by
  have hmem : false ∈ s.busy := by
    by_contra hnone
    have hall : ∀ b ∈ s.busy, true = b := by
      intro b hb
      cases b with
      | true => rfl
      | false => exact absurd hb hnone
    rw [List.count_eq_length.mpr hall] at h
    omega
  obtain ⟨i, hi, hget⟩ := List.mem_iff_getElem.mp hmem
  exact ⟨i, isFree_iff.mpr (by rw [List.getElem?_eq_getElem hi, hget])⟩

theorem count_set {l : List Bool} {b : Bool} (h : l[i]? = some (!b)) :
    (l.set i b).count b = l.count b + 1 ∧ (l.set i b).count (!b) + 1 = l.count (!b) := by
  obtain ⟨hi, hget⟩ := List.getElem?_eq_some_iff.mp h
  have hpos : 0 < l.count (!b) := List.count_pos_iff.mpr (hget ▸ List.getElem_mem hi)
  have hne : ((!b) == b) = false := by cases b <;> rfl
  have hne' : (b == !b) = false := by cases b <;> rfl
  rw [List.count_set hi, List.count_set hi, hget, hne, hne', beq_self_eq_true, beq_self_eq_true, if_pos rfl,
    if_neg Bool.false_ne_true]
  omega

end Slots

namespace Throttle

/-- The slots are those of the permits. -/
structure Inv (t : Throttle) : Prop where
  length : t.slots.busy.length = t.max
  inUse : t.slots.inUse = t.slots.busy.count true
  permits : t.slots.inUse = t.permits.length
  nodup : (t.permits.map (·.slot)).Nodup
  busy : ∀ p ∈ t.permits, t.slots.busy[p.slot]? = some true

variable {t t' : Throttle}

theorem inv_new (max : Nat) : (new max).Inv where
  length := List.length_replicate
  inUse := by simp [new, List.count_replicate]
  permits := rfl
  nodup := List.nodup_nil
  busy := nofun

/-- A grant where a slot is free. -/
theorem Inv.grant (h : t.Inv) (hfree : t.slots.inUse < t.max) (now : Nat) :
    ∃ slot t', t.grant now = some (some slot, t') ∧ t'.Inv ∧ t'.max = t.max ∧
      t'.slots.inUse = t.slots.inUse + 1 := by
  obtain ⟨i, hi⟩ := Slots.exists_free h.inUse (h.length ▸ hfree)
  obtain ⟨slot, hslot⟩ := Option.isSome_iff_exists.mp (Slots.pick_isSome hi)
  have hget := Slots.isFree_iff.mp (Slots.pick_eq_some hslot).1
  have hlt : slot < t.slots.busy.length := (List.getElem?_eq_some_iff.mp hget).1
  have hcount := Slots.count_set (b := true) hget
  have hgrant : t.grant now = some (some slot, { t with
      slots := { t.slots with
        busy := t.slots.busy.set slot true, inUse := t.slots.inUse + 1, next :=
          (slot + 1) % t.slots.busy.length }
      permits := t.permits ++ [{ kind := .guard, slot := slot }] }) := by
    rw [Throttle.grant, Slots.take, hslot]
    rfl
  refine ⟨slot, _, hgrant, ⟨?_, ?_, ?_, ?_, fun p hp => ?_⟩, rfl, rfl⟩
  · exact List.length_set.trans h.length
  · show t.slots.inUse + 1 = (t.slots.busy.set slot true).count true
    rw [hcount.1, h.inUse]
  · show t.slots.inUse + 1 = (t.permits ++ [_]).length
    rw [List.length_append, List.length_singleton, h.permits]
  · show ((t.permits ++ [({ kind := .guard, slot := slot } : Permit)]).map (·.slot)).Nodup
    rw [List.map_append]
    refine List.nodup_append.mpr ⟨h.nodup, List.nodup_singleton _, fun a ha b hb => ?_⟩
    -- a slot of a permit is not free
    obtain ⟨p, hp, rfl⟩ := List.mem_map.mp ha
    rw [List.mem_singleton.mp hb]
    intro heq
    have hbusy := h.busy p hp
    rw [heq, hget] at hbusy
    cases hbusy
  · show (t.slots.busy.set slot true)[p.slot]? = some true
    obtain hp | hp := List.mem_append.mp hp
    · rw [List.getElem?_set]
      split
      · rfl
      · exact h.busy p hp
    · rw [List.mem_singleton.mp hp]
      exact List.getElem?_set_self hlt

/-- `acquire_leaving` in a state that keeps the count. -/
theorem Inv.acquireLeaving (h : t.Inv) (spare now : Nat) :
    ∃ r t', t.acquireLeaving spare now = some (r, t') ∧ t'.Inv ∧ t'.max = t.max ∧
      (r.isSome = true → t'.slots.inUse + spare ≤ t'.max) := by
  unfold Throttle.acquireLeaving
  split
  · exact ⟨none, t, rfl, h, rfl, nofun⟩
  · rename_i hlimit
    obtain ⟨slot, t', hgrant, hinv, hmax, hused⟩ := h.grant (by omega) now
    exact ⟨some slot, t', hgrant, hinv, hmax, fun _ => by omega⟩

theorem Inv.acquire (h : t.Inv) (now : Nat) : ∃ r t', t.acquire now = some (r, t') ∧ t'.Inv ∧
    t'.max = t.max := by
  unfold Throttle.acquire
  split
  · exact ⟨none, t, rfl, h, rfl⟩
  · rename_i hlimit
    obtain ⟨slot, t', hgrant, hinv, hmax, -⟩ := h.grant (by omega) now
    exact ⟨some slot, t', hgrant, hinv, hmax⟩

/-- A conversion leaves the slots of the permits as they are. -/
theorem map_slot_convert (t : Throttle) (k : Nat) (kind : PermitKind) :
    (t.convert k kind).permits.map (·.slot) = t.permits.map (·.slot) := by
  unfold Throttle.convert
  split
  · rename_i p hp
    obtain ⟨hk, rfl⟩ := List.getElem?_eq_some_iff.mp hp
    apply List.ext_getElem?
    intro i
    rw [List.getElem?_map, List.getElem?_map, List.getElem?_set]
    split
    · rename_i hki
      subst hki
      simp [hk]
    · rfl
  · rfl

theorem slots_convert (t : Throttle) (k : Nat) (kind : PermitKind) :
    (t.convert k kind).slots = t.slots ∧ (t.convert k kind).max = t.max := by
  unfold Throttle.convert
  split <;> exact ⟨rfl, rfl⟩

theorem Inv.convert (h : t.Inv) (k : Nat) (kind : PermitKind) : (t.convert k kind).Inv := by
  obtain ⟨hslots, hmax⟩ := slots_convert t k kind
  have hmap := map_slot_convert t k kind
  have hlength : (t.convert k kind).permits.length = t.permits.length := by
    simpa using congrArg List.length hmap
  refine ⟨by rw [hslots, hmax, h.length], by rw [hslots, h.inUse], by rw [hslots, hlength, h.permits],
    hmap ▸ h.nodup, fun p hp => ?_⟩
  have hmem : p.slot ∈ t.permits.map (·.slot) := hmap ▸ List.mem_map_of_mem hp
  obtain ⟨q, hq, heq⟩ := List.mem_map.mp hmem
  rw [hslots, ← heq]
  exact h.busy q hq

/-- A drop gives back the slot, and only that. -/
theorem Inv.drop (h : t.Inv) (k : Nat) : ∃ t', t.drop k = some t' ∧ t'.Inv ∧ t'.max = t.max := by
  unfold Throttle.drop
  split
  · rename_i p hp
    have hmem : p ∈ t.permits := List.mem_of_getElem? hp
    have hget := h.busy p hmem
    have hlt : p.slot < t.slots.busy.length := (List.getElem?_eq_some_iff.mp hget).1
    have hk : k < t.permits.length := (List.getElem?_eq_some_iff.mp hp).1
    have hpos : 0 < t.slots.inUse := by
      rw [h.permits]
      omega
    have hcount := (Slots.count_set (b := false) hget).2
    have hrest : (t.permits.map (·.slot)).eraseIdx k = (t.permits.eraseIdx k).map (·.slot) :=
      List.eraseIdx_map ..
    unfold Throttle.release
    rw [if_pos ⟨hlt, hpos⟩]
    refine ⟨_, rfl, ⟨List.length_set.trans h.length, ?_, ?_, ?_, fun q hq => ?_⟩, rfl⟩
    · show t.slots.inUse - 1 = (t.slots.busy.set p.slot false).count true
      have hused := h.inUse
      rw [Bool.not_false] at hcount
      omega
    · show t.slots.inUse - 1 = (t.permits.eraseIdx k).length
      rw [List.length_eraseIdx_of_lt hk, h.permits]
    · show ((t.permits.eraseIdx k).map (·.slot)).Nodup
      rw [← hrest]
      exact h.nodup.sublist (List.eraseIdx_sublist ..)
    · show (t.slots.busy.set p.slot false)[q.slot]? = some true
      -- no other permit has the slot
      have hq : q ∈ t.permits.eraseIdx k := hq
      obtain ⟨j, hjk, hj⟩ := List.mem_eraseIdx_iff_getElem?.mp hq
      have hne : p.slot ≠ q.slot := by
        intro heq
        have hk' : (t.permits.map (·.slot))[k]? = some p.slot := by simp [hp]
        have hj' : (t.permits.map (·.slot))[j]? = some p.slot := by simp [hj, heq]
        exact hjk (List.nodup_iff_getElem?_ne_getElem?.mp h.nodup |> fun hpairs => by
          by_contra hne
          obtain hlt | hlt := Nat.lt_or_gt_of_ne hne
          · exact hpairs j k hlt (by simpa using hk) (hj'.trans hk'.symm)
          · exact hpairs k j hlt (by simpa using (List.getElem?_eq_some_iff.mp hj).1) (hk'.trans hj'.symm))
      rw [List.getElem?_set_ne hne]
      exact h.busy q (List.mem_of_getElem? hj)
  · exact ⟨t, rfl, h, rfl⟩

theorem Inv.step (h : t.Inv) (e : Event) : ∃ t', t.step e = some t' ∧ t'.Inv ∧ t'.max = t.max := by
  cases e with
  | acquire now =>
    obtain ⟨r, t', hr, hinv, hmax⟩ := h.acquire now
    exact ⟨t', by rw [Throttle.step, hr]; rfl, hinv, hmax⟩
  | acquireLeaving spare now =>
    obtain ⟨r, t', hr, hinv, hmax, -⟩ := h.acquireLeaving spare now
    exact ⟨t', by rw [Throttle.step, hr]; rfl, hinv, hmax⟩
  | quarantine slot untilTime => exact ⟨_, rfl, ⟨h.length, h.inUse, h.permits, h.nodup, h.busy⟩, rfl⟩
  | intoOwned k => exact ⟨_, rfl, h.convert k .owned, (slots_convert t k .owned).2⟩
  | bind k => exact ⟨_, rfl, h.convert k .guard, (slots_convert t k .guard).2⟩
  | drop k => exact h.drop k

theorem Inv.run (h : t.Inv) (events : List Event) : ∃ t', t.run events = some t' ∧ t'.Inv ∧ t'.max = t.max := by
  induction events generalizing t with
  | nil => exact ⟨t, rfl, h, rfl⟩
  | cons e es ih =>
    obtain ⟨t₁, hstep, hinv, hmax⟩ := h.step e
    obtain ⟨t₂, hrun, hinv₂, hmax₂⟩ := ih hinv
    exact ⟨t₂, by rw [Throttle.run, hstep, Option.bind_some, hrun], hinv₂, hmax₂.trans hmax⟩

/-- The state of a throttle between two steps. -/
structure Exclusive (max : Nat) (t : Throttle) : Prop where
  /-- The slots in use are the busy ones, and as many as the permits. -/
  busy : t.slots.inUse = t.slots.busy.count true
  permits : t.slots.inUse = t.permits.length
  distinct : (t.permits.map (·.slot)).Nodup
  below : ∀ p ∈ t.permits, p.slot < max
  /-- Where a slot is taken one is free. -/
  free : t.slots.inUse < max → ∃ i : Nat, t.slots.busy[i]? = some false
  /-- A grant of `acquire_leaving` leaves its spare slots free. -/
  leaves : ∀ spare now slot t', t.acquireLeaving spare now = some (some slot, t') →
    spare ≤ t'.slots.busy.count false
  /-- A grant of a quarantined slot finds every free one quarantined. -/
  healthy : ∀ now slot t', t.grant now = some (some slot, t') →
    t.slots.busy[slot]? = some false ∧ (t.slots.quarantinedAt now slot = true →
      ∀ i : Nat, t.slots.busy[i]? = some false → t.slots.quarantinedAt now i = true)

theorem Inv.exclusive (h : t.Inv) : t.Exclusive t.max where
  busy := h.inUse
  permits := h.permits
  distinct := h.nodup
  below p hp := h.length ▸ (List.getElem?_eq_some_iff.mp (h.busy p hp)).1
  free hlt := by
    obtain ⟨i, hi⟩ := Slots.exists_free h.inUse (h.length ▸ hlt)
    exact ⟨i, Slots.isFree_iff.mp hi⟩
  leaves spare now slot t' hgrant := by
    obtain ⟨r, t₁, hr, hinv, hmax, hspare⟩ := h.acquireLeaving spare now
    rw [hr] at hgrant
    obtain ⟨rfl, rfl⟩ := Prod.mk.inj (Option.some.inj hgrant)
    have hfree := hspare rfl
    have hcount := List.count_false_add_count_true t₁.slots.busy
    have hused := hinv.inUse
    have hlength := hinv.length
    omega
  healthy now slot t' hgrant := by
    unfold Throttle.grant Slots.take at hgrant
    rw [Option.map_map, Option.map_eq_some_iff] at hgrant
    obtain ⟨i, hpick, heq⟩ := hgrant
    obtain ⟨hslot, -⟩ := Prod.mk.inj heq
    obtain rfl := Option.some.inj hslot
    obtain ⟨hfree, hbad⟩ := Slots.pick_eq_some hpick
    exact ⟨Slots.isFree_iff.mp hfree, fun hq j hj => hbad hq j (Slots.isFree_iff.mpr hj)⟩

/-- Whatever the program does with a throttle and its permits, no step panics, and slots are exclusive. -/
theorem slots_are_exclusive (max : Nat) (events : List Event) :
    ∃ t, (new max).run events = some t ∧ t.Exclusive max := by
  obtain ⟨t, hrun, hinv, hmax⟩ := (inv_new max).run events
  have hmax : t.max = max := hmax
  exact ⟨t, hrun, hmax ▸ hinv.exclusive⟩

end Throttle

end Ncrs
