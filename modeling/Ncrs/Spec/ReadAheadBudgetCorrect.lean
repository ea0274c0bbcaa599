import Ncrs.Native.ReadAheadBudget

/-!
# The read-ahead budget is conserved

The counter is the sum of the live reservations, as long as no closure adds past what a `u64` holds. What an
attempt is about to put in place of a value is that value and what it will hold, so an exchange that finds the
value again keeps the sum. Only `up_to` overdraws the budget, by no more than the floors it had to grant.

## Key results

- `ReadAheadBudget.Inv.replace`: one reservation changes with the counter.
- `ReadAheadBudget.Inv.step`: one step of any reservation.
- `ReadAheadBudget.budget_is_conserved`: the sum, the cap and the overdraft, over whole runs.
-/

namespace Ncrs

/-! ## Arithmetic -/

theorem toNat_add_of_lt {a b : UInt64} (h : a.toNat + b.toNat < 2 ^ 64) :
    (a + b).toNat = a.toNat + b.toNat := by
  rw [UInt64.toNat_add, Nat.mod_eq_of_lt h]

theorem toNat_saturatingSub (a b : UInt64) : (saturatingSub a b).toNat = a.toNat - b.toNat := by
  unfold saturatingSub
  split
  · rename_i h
    have := UInt64.lt_iff_toNat_lt.mp h
    simp only [UInt64.toNat_zero]
    omega
  · rename_i h
    exact UInt64.toNat_sub_of_le a b (UInt64.not_lt.mp h)

namespace Reserving

/-- What counts as reserved. A reservation that is being grown is live. -/
def held : Reserving → Nat
  | .live r | .growing r .. => r.bytes.toNat
  | _ => 0

/-- The floor of a live reservation. -/
def floor : Reserving → Nat
  | .live r | .growing r .. => r.floor.toNat
  | _ => 0

/-- What is left of a reservation's floor after it was shrunk. -/
def overdraft (x : Reserving) : Nat := min x.held x.floor

/-- What the next run of the closure has to add. -/
def asks : Reserving → UInt64
  | .upTo _ floor .. => floor
  | .exactly want .. => want
  | .growing r want .. => want - r.bytes
  | _ => 0

/-- An attempt would add to the value it was made on what it will hold. -/
def Sound : Reserving → Prop
  | .upTo _ floor used grant next => next.toNat = used.toNat + grant.toNat ∧ floor.toNat ≤ grant.toNat ∧
      (next.toNat ≤ readAheadBudget.toNat ∨ grant = floor)
  | .exactly want used next => next.toNat = used.toNat + want.toNat ∧ next.toNat ≤ readAheadBudget.toNat
  | .growing r want used next => next.toNat + r.bytes.toNat = used.toNat + want.toNat ∧
      next.toNat ≤ readAheadBudget.toNat ∧ r.bytes.toNat ≤ want.toNat
  | _ => True

theorem takeAll_eq_some {want used next : UInt64} (hfits : used.toNat + want.toNat < 2 ^ 64)
    (h : takeAll want used = some next) :
    next.toNat = used.toNat + want.toNat ∧ next.toNat ≤ readAheadBudget.toNat := by
  unfold takeAll at h
  split at h <;> cases h
  rename_i hle
  exact ⟨toNat_add_of_lt hfits, UInt64.le_iff_toNat_le.mp hle⟩

theorem sound_runUpTo {want floor used : UInt64} (hfits : used.toNat + floor.toNat < 2 ^ 64) :
    (runUpTo want floor used).Sound := by
  have hbudget : readAheadBudget.toNat < 2 ^ 64 := readAheadBudget.toNat_lt
  have hgrant : (max (min (saturatingSub readAheadBudget used) want) floor).toNat =
      max (min (readAheadBudget.toNat - used.toNat) want.toNat) floor.toNat := by
    rw [UInt64.toNat_max, UInt64.toNat_min, toNat_saturatingSub]
  have hused := used.toNat_lt
  refine ⟨toNat_add_of_lt (by omega), by omega, ?_⟩
  by_cases hleft : min (readAheadBudget.toNat - used.toNat) want.toNat ≤ floor.toNat
  · right
    apply UInt64.toNat_inj.mp
    omega
  · left
    rw [toNat_add_of_lt (by omega)]
    omega

theorem sound_runExactly {want used : UInt64} (hfits : used.toNat + want.toNat < 2 ^ 64) :
    (runExactly want used).Sound := by
  unfold runExactly
  split
  · rename_i next h
    exact takeAll_eq_some hfits h
  · trivial

theorem sound_runGrowTo {r : BufferReservation} {want used : UInt64} (hmore : r.bytes.toNat ≤ want.toNat)
    (hfits : used.toNat + (want - r.bytes).toNat < 2 ^ 64) : (runGrowTo r want used).Sound := by
  unfold runGrowTo
  split
  · rename_i next h
    obtain ⟨hnext, hcap⟩ := takeAll_eq_some hfits h
    rw [UInt64.toNat_sub_of_le _ _ (UInt64.le_iff_toNat_le.mpr hmore)] at hnext
    exact ⟨by omega, hcap, hmore⟩
  · trivial

/-- A run of the closure changes nothing that counts. -/
theorem held_runUpTo (want floor used : UInt64) :
    (runUpTo want floor used).held = 0 ∧ (runUpTo want floor used).floor = 0 := ⟨rfl, rfl⟩

theorem held_runExactly (want used : UInt64) :
    (runExactly want used).held = 0 ∧ (runExactly want used).floor = 0 := by
  unfold runExactly
  split <;> exact ⟨rfl, rfl⟩

theorem held_runGrowTo (r : BufferReservation) (want used : UInt64) :
    (runGrowTo r want used).held = r.bytes.toNat ∧ (runGrowTo r want used).floor = r.floor.toNat := by
  unfold runGrowTo
  split <;> exact ⟨rfl, rfl⟩

end Reserving

namespace ReadAheadBudget

/-- What the closure that is run in a step would add to the counter is not past what a `u64` holds. -/
def Meets (b : ReadAheadBudget) : Event → Prop
  | .upTo want floor => b.reserved.toNat + (min floor want).toNat < 2 ^ 64
  | .exactly want => b.reserved.toNat + want.toNat < 2 ^ 64
  | .growTo k want => ∀ r, b.all[k]? = some (.live r) → b.reserved.toNat + (want.toNat - r.bytes.toNat) < 2 ^ 64
  | .exchange k _ => ∀ x, b.all[k]? = some x → b.reserved.toNat + x.asks.toNat < 2 ^ 64
  | _ => True

structure Inv (b : ReadAheadBudget) : Prop where
  conserved : b.reserved.toNat = (b.all.map Reserving.held).sum
  overdrawn : b.reserved.toNat ≤ readAheadBudget.toNat + (b.all.map Reserving.overdraft).sum
  sound : ∀ x ∈ b.all, x.Sound

/-- The step makes the grant of an `up_to`. -/
def grantsUpTo (b : ReadAheadBudget) : Event → Bool
  | .exchange k _ => match b.all[k]? with
    | some (.upTo ..) => true
    | _ => false
  | _ => false

variable {b b' : ReadAheadBudget} {k : Nat} {x y : Reserving}

/-- What is live is in the counter. -/
theorem Inv.held_le (h : b.Inv) (hx : b.all[k]? = some x) : x.held ≤ b.reserved.toNat := by
  rw [h.conserved]
  exact List.le_sum_map (List.mem_of_getElem? hx)

theorem Inv.append (h : b.Inv) (hheld : y.held = 0 ∧ y.floor = 0) (hsound : y.Sound) :
    Inv { b with all := b.all ++ [y] } where
  conserved := by simp [h.conserved, hheld.1]
  overdrawn := by
    have := h.overdrawn
    simpa [Reserving.overdraft, hheld.1] using this
  sound x hx := by
    obtain hx | rfl := List.mem_append.mp hx |>.imp_right List.mem_singleton.mp
    · exact h.sound x hx
    · exact hsound

/-- A reservation changes, and the counter by as much. -/
theorem Inv.replace (h : b.Inv) (hx : b.all[k]? = some x) {next : UInt64} (hsound : y.Sound)
    (hnext : next.toNat + x.held = b.reserved.toNat + y.held)
    (hover : next.toNat ≤ readAheadBudget.toNat ∨
      next.toNat + x.overdraft ≤ b.reserved.toNat + y.overdraft) :
    Inv { b.set k y with reserved := next } where
  conserved := by
    have hsum := List.sum_map_set (f := Reserving.held) hx y
    have hold := h.conserved
    show next.toNat = ((b.all.set k y).map Reserving.held).sum
    omega
  overdrawn := by
    have hsum := List.sum_map_set (f := Reserving.overdraft) hx y
    have hold := h.overdrawn
    show next.toNat ≤ readAheadBudget.toNat + ((b.all.set k y).map Reserving.overdraft).sum
    omega
  sound z hz := by
    obtain hz | rfl := List.mem_or_eq_of_mem_set hz
    · exact h.sound z hz
    · exact hsound

/-- The closure is run, and nothing is exchanged. -/
theorem Inv.rerun (h : b.Inv) (hx : b.all[k]? = some x) (hheld : y.held = x.held ∧ y.floor = x.floor)
    (hsound : y.Sound) : (b.set k y).Inv := by
  have hover : y.overdraft = x.overdraft := by rw [Reserving.overdraft, hheld.1, hheld.2]; rfl
  exact h.replace hx hsound (by rw [hheld.1]) (.inr (Nat.le_of_eq (by rw [hover])))

/-- An exchange that finds the value its closure was run on, or another run of the closure. -/
theorem Inv.exchange (h : b.Inv) (hx : b.all[k]? = some x) {spurious : Bool} {used next : UInt64}
    {again : UInt64 → Reserving} (hdone : y.Sound) (hnext : next.toNat + x.held = used.toNat + y.held)
    (hover : next.toNat ≤ readAheadBudget.toNat ∨ next.toNat + x.overdraft ≤ used.toNat + y.overdraft)
    (hagain : (again b.reserved).Sound)
    (hheld : (again b.reserved).held = x.held ∧ (again b.reserved).floor = x.floor) :
    (b.exchange k spurious used next y again).Inv := by
  unfold ReadAheadBudget.exchange
  split
  · rename_i hfound
    rw [← hfound.1] at hnext hover
    exact h.replace hx hdone hnext hover
  · exact h.rerun hx hheld hagain

theorem Inv.growTo (h : b.Inv) {r : BufferReservation} (hx : b.all[k]? = some (.live r)) {want : UInt64}
    (hfits : b.reserved.toNat + (want.toNat - r.bytes.toNat) < 2 ^ 64) : (b.growTo k r want).Inv := by
  unfold ReadAheadBudget.growTo
  split
  · exact h
  · rename_i hmore
    have hle := UInt64.le_of_lt (UInt64.not_le.mp hmore)
    refine h.rerun hx (Reserving.held_runGrowTo r want _) (Reserving.sound_runGrowTo ?_ ?_)
    · exact UInt64.le_iff_toNat_le.mp hle
    · rwa [UInt64.toNat_sub_of_le _ _ hle]

theorem Inv.shrinkTo (h : b.Inv) {r : BufferReservation} (hx : b.all[k]? = some (.live r)) (want : UInt64) :
    (b.shrinkTo k r want).Inv ∧ (b.shrinkTo k r want).reserved.toNat ≤ b.reserved.toNat := by
  have hheld : r.bytes.toNat ≤ b.reserved.toNat := h.held_le hx
  unfold ReadAheadBudget.shrinkTo
  split
  · rename_i hless
    have hlt := UInt64.lt_iff_toNat_lt.mp hless
    have hback := UInt64.toNat_sub_of_le _ _ (UInt64.le_of_lt hless)
    have hnext : (b.reserved - (r.bytes - want)).toNat = b.reserved.toNat - (r.bytes.toNat - want.toNat) := by
      rw [UInt64.toNat_sub_of_le _ _ (UInt64.le_iff_toNat_le.mpr (by omega)), hback]
    refine ⟨h.replace hx trivial ?_ (.inr ?_), ?_⟩
    · simp only [Reserving.held]
      omega
    · simp only [Reserving.overdraft, Reserving.held, Reserving.floor]
      omega
    · show (b.reserved - (r.bytes - want)).toNat ≤ _
      omega
  · exact ⟨h, Nat.le_refl _⟩

theorem Inv.drop (h : b.Inv) {r : BufferReservation} (hx : b.all[k]? = some (.live r)) :
    (b.drop k r).Inv ∧ (b.drop k r).reserved.toNat ≤ b.reserved.toNat := by
  have hheld : r.bytes.toNat ≤ b.reserved.toNat := h.held_le hx
  have hnext := UInt64.toNat_sub_of_le _ _ (UInt64.le_iff_toNat_le.mpr hheld)
  refine ⟨h.replace hx trivial ?_ (.inr ?_), ?_⟩
  · simp only [Reserving.held]
    omega
  · simp only [Reserving.overdraft, Reserving.held, Reserving.floor]
    omega
  · show (b.reserved - r.bytes).toNat ≤ _
    omega

/-- One access to the counter, by any of the calls. -/
theorem Inv.step (h : b.Inv) {e : Event} (hm : b.Meets e) (hstep : b.step e = some b') : b'.Inv := by
  cases e with
  | upTo want floor =>
    cases hstep
    exact h.append (Reserving.held_runUpTo _ _ _) (Reserving.sound_runUpTo hm)
  | exactly want =>
    cases hstep
    exact h.append (Reserving.held_runExactly _ _) (Reserving.sound_runExactly hm)
  | growTo k want =>
    simp only [ReadAheadBudget.step] at hstep
    split at hstep <;> cases hstep
    rename_i r hx
    exact h.growTo hx (hm r hx)
  | exchange k spurious =>
    simp only [ReadAheadBudget.step] at hstep
    split at hstep <;> cases hstep
    · rename_i want floor used grant next hx
      obtain ⟨hnext, hfloor, hcap⟩ := h.sound _ (List.mem_of_getElem? hx)
      refine h.exchange hx trivial hnext ?_ (Reserving.sound_runUpTo (hm _ hx)) (Reserving.held_runUpTo _ _ _)
      -- past the budget the grant is the floor
      obtain hcap | rfl := hcap
      · exact .inl hcap
      · right
        simp only [Reserving.overdraft, Reserving.held, Reserving.floor]
        omega
    · rename_i want used next hx
      obtain ⟨hnext, hcap⟩ := h.sound _ (List.mem_of_getElem? hx)
      exact h.exchange hx trivial hnext (.inl hcap) (Reserving.sound_runExactly (hm _ hx))
        (Reserving.held_runExactly _ _)
    · rename_i r want used next hx
      obtain ⟨hnext, hcap, hmore⟩ := h.sound _ (List.mem_of_getElem? hx)
      exact h.exchange hx trivial hnext (.inl hcap) (Reserving.sound_runGrowTo hmore (hm _ hx))
        (Reserving.held_runGrowTo _ _ _)
  | shrinkTo k want =>
    simp only [ReadAheadBudget.step] at hstep
    split at hstep <;> cases hstep
    rename_i r hx
    exact (h.shrinkTo hx want).1
  | drop k =>
    simp only [ReadAheadBudget.step] at hstep
    split at hstep <;> cases hstep
    rename_i r hx
    exact (h.drop hx).1

theorem exchange_reserved (b : ReadAheadBudget) (k : Nat) (spurious : Bool) (used next : UInt64)
    (done : Reserving)
    (again : UInt64 → Reserving) :
    (b.exchange k spurious used next done again).reserved = b.reserved ∨
      (b.exchange k spurious used next done again).reserved = next := by
  unfold ReadAheadBudget.exchange
  split
  · exact .inr rfl
  · exact .inl rfl

/-- No step but the grant of an `up_to` takes the counter past the budget. -/
theorem Inv.capped (h : b.Inv) {e : Event} (hstep : b.step e = some b') (hup : b.grantsUpTo e = false) :
    b'.reserved.toNat ≤ max b.reserved.toNat readAheadBudget.toNat := by
  cases e with
  | upTo want floor | exactly want =>
    cases hstep
    exact Nat.le_max_left _ _
  | growTo k want =>
    simp only [ReadAheadBudget.step] at hstep
    split at hstep <;> cases hstep
    unfold ReadAheadBudget.growTo
    split <;> exact Nat.le_max_left _ _
  | exchange k spurious =>
    have hcapped : ∀ {used next : UInt64} {done : Reserving} {again : UInt64 → Reserving},
        next.toNat ≤ readAheadBudget.toNat → (b.exchange k spurious used next done again).reserved.toNat ≤
          max b.reserved.toNat readAheadBudget.toNat := by
      intro used next done again hnext
      obtain hsame | htaken := b.exchange_reserved k spurious used next done again
      · rw [hsame]
        exact Nat.le_max_left _ _
      · rw [htaken]
        omega
    simp only [ReadAheadBudget.step] at hstep
    split at hstep <;> cases hstep
    · rename_i hx
      simp [grantsUpTo, hx] at hup
    · rename_i hx
      exact hcapped (h.sound _ (List.mem_of_getElem? hx)).2
    · rename_i hx
      exact hcapped (h.sound _ (List.mem_of_getElem? hx)).2.1
  | shrinkTo k want =>
    simp only [ReadAheadBudget.step] at hstep
    split at hstep <;> cases hstep
    rename_i r hx
    have := (h.shrinkTo hx want).2
    omega
  | drop k =>
    simp only [ReadAheadBudget.step] at hstep
    split at hstep <;> cases hstep
    rename_i r hx
    have := (h.drop hx).2
    omega

/-- The runs in which every step meets the condition. -/
inductive Reaches : ReadAheadBudget → Prop
  | start : Reaches {}
  | step {b b' : ReadAheadBudget} {e : Event} : Reaches b → b.Meets e → b.step e = some b' → Reaches b'

theorem Reaches.inv (h : Reaches b) : b.Inv := by
  induction h with
  | start => exact ⟨rfl, Nat.zero_le _, by simp⟩
  | step _ hm hstep ih => exact ih.step hm hstep

/-- Whatever the reservations do and however their accesses to the counter interleave, it is their sum; only an
`up_to` takes it past the budget, and all of them by no more than their floors. -/
theorem budget_is_conserved (h : Reaches b) :
    b.reserved.toNat = (b.all.map Reserving.held).sum ∧
      (∀ e b', b.step e = some b' → b.grantsUpTo e = false →
        b'.reserved.toNat ≤ max b.reserved.toNat readAheadBudget.toNat) ∧
      b.reserved.toNat ≤ readAheadBudget.toNat + (b.all.map Reserving.floor).sum := by
  have hinv := h.inv
  refine ⟨hinv.conserved, fun e b' hstep hup => hinv.capped hstep hup, ?_⟩
  have hfloors : (b.all.map Reserving.overdraft).sum ≤ (b.all.map Reserving.floor).sum :=
    List.sum_map_le (fun x => Nat.min_le_right _ _) _
  have := hinv.overdrawn
  omega

/-- Two calls ask for the whole budget at once, one gets it, and a window opens on its floor. -/
theorem budget_is_conserved_overdrawn :
    ∃ b, Reaches b ∧ b.all = [.live { bytes := readAheadBudget }, .gone,
    .live { bytes := 4096, floor := 4096 }] ∧
      b.reserved.toNat = readAheadBudget.toNat + 4096 ∧
      b.reserved.toNat = (b.all.map Reserving.held).sum ∧
      b.reserved.toNat ≤ readAheadBudget.toNat + (b.all.map Reserving.floor).sum := by
  have hfirst : Reaches _ := .step (e := .exactly readAheadBudget) .start (by show _ < 2 ^ 64; decide) rfl
  have hsecond : Reaches _ := .step (e := .exactly readAheadBudget) hfirst (by show _ < 2 ^ 64; decide) rfl
  have htaken : Reaches _ := .step (e := .exchange 0 false) hsecond (by rintro x ⟨⟩; decide) rfl
  have hrefused : Reaches _ := .step (e := .exchange 1 false) htaken (by rintro x ⟨⟩; decide) rfl
  have hasked : Reaches _ := .step (e := .upTo 8192 4096) hrefused (by show _ < 2 ^ 64; decide) rfl
  have hgranted : Reaches _ := .step (e := .exchange 2 false) hasked (by rintro x ⟨⟩; decide) rfl
  obtain ⟨hsum, -, hover⟩ := budget_is_conserved hgranted
  exact ⟨_, hgranted, rfl, rfl, hsum, hover⟩

/-- A request that wraps the counter round is granted, and the counter forgets both reservations. -/
theorem wrapped_request_is_granted :
    ∃ b, [.exactly 1, .exchange 0 false, .exactly 0xFFFFFFFFFFFFFFFF, .exchange 1 false].foldlM step
    {} = some b ∧
      b.all = [.live { bytes := 1 }, .live { bytes := 0xFFFFFFFFFFFFFFFF }] ∧
      (b.all.map Reserving.held).sum = 2 ^ 64 ∧ b.reserved = 0 :=
  ⟨_, rfl, rfl, rfl, rfl⟩

end ReadAheadBudget

end Ncrs
