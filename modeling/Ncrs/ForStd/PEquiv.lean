import Mathlib.Data.PEquiv
import Mathlib.Data.List.Induction

/-!
# Changing one pair of a partial equivalence

`place a b` pairs `a` with `b`, and leaves what either was paired with before without a partner. It
is what a table with both directions does when an entry is added to it or moved in it.
-/

namespace PEquiv

variable {α β : Type} [DecidableEq α] [DecidableEq β]

/-- Pairs `a` with `b`, displacing what `b` was paired with. -/
def place (f : α ≃. β) (a : α) (b : β) : α ≃. β where
  toFun x := if x = a then some b else if f x = some b then none else f x
  invFun y := if y = b then some a else if f.symm y = some a then none else f.symm y
  inv x y := by
    have hinv : f.symm y = some x ↔ f x = some y := f.eq_some_iff
    by_cases hx : x = a
    · by_cases hy : y = b
      · simp [hx, hy]
      · simp only [hx, hy, if_true, if_false]
        constructor
        · intro h
          split at h
          · cases h
          · exact absurd h ‹_›
        · intro h
          exact absurd (Option.some.inj h).symm hy
    · by_cases hy : y = b
      · simp only [hx, hy, if_true, if_false]
        constructor
        · intro h
          exact absurd (Option.some.inj h).symm hx
        · intro h
          split at h
          · cases h
          · exact absurd h ‹_›
      · simp only [hx, hy, if_false]
        constructor
        · intro h
          split at h
          · cases h
          · rw [hinv] at h
            rw [if_neg (by rw [h]; simpa using hy), h]
        · intro h
          split at h
          · cases h
          · rw [← hinv] at h
            rw [if_neg (by rw [h]; simpa using hx), h]

theorem place_apply (f : α ≃. β) (a : α) (b : β) (x : α) :
    f.place a b x = if x = a then some b else if f x = some b then none else f x := rfl

@[simp] theorem symm_place (f : α ≃. β) (a : α) (b : β) : (f.place a b).symm = f.symm.place b a :=
  rfl

@[simp] theorem place_self (f : α ≃. β) (a : α) (b : β) : f.place a b a = some b := by
  simp [place_apply]

/-- Where nothing was paired with `b`, only `a` is changed. -/
theorem place_apply_of_free {f : α ≃. β} {b : β} (hb : f.symm b = none) (a x : α) :
    f.place a b x = if x = a then some b else f x := by
  have hx : f x ≠ some b := fun h => by
    rw [← f.eq_some_iff, hb] at h
    cases h
  rw [place_apply, if_neg hx]

/-- Leaves `a` without a partner. -/
def remove (f : α ≃. β) (a : α) : α ≃. β where
  toFun x := if x = a then none else f x
  invFun y := if f.symm y = some a then none else f.symm y
  inv x y := by
    have hinv : f.symm y = some x ↔ f x = some y := f.eq_some_iff
    by_cases hx : x = a
    · subst hx
      by_cases hy : f.symm y = some x <;> simp [hy]
    · by_cases hy : f.symm y = some a
      · have hxy : f x ≠ some y := fun h => hx (Option.some.inj ((hinv.mpr h).symm.trans hy))
        simp [hy, hx, hxy]
      · simp [hy, hx, hinv]

omit [DecidableEq β] in
theorem remove_apply (f : α ≃. β) (a x : α) : f.remove a x = if x = a then none else f x := rfl

omit [DecidableEq β] in
theorem symm_remove_apply (f : α ≃. β) (a : α) (y : β) :
    (f.remove a).symm y = if f.symm y = some a then none else f.symm y := rfl

omit [DecidableEq β] in
theorem remove_of_none {f : α ≃. β} {a : α} (ha : f a = none) : f.remove a = f := by
  ext1 x
  rw [remove_apply]
  split
  · rename_i hx
    rw [hx, ha]
  · rfl

/-- Placing pairs of `f` one after the other gives those pairs. -/
theorem foldl_place {f : α ≃. β} {l : List (α × β)} (hl : ∀ x ∈ l, f x.1 = some x.2) (a : α)
    (b : β) : l.foldl (fun (g : α ≃. β) x => g.place x.1 x.2) ⊥ a = some b ↔ (a, b) ∈ l := by
  induction l using List.reverseRecOn generalizing a b with
  | nil => simp
  | append_singleton l x ih =>
    have ih := ih fun y hy => hl y (List.mem_append_left _ hy)
    have hx : f x.1 = some x.2 := hl x (by simp)
    rw [List.foldl_append, List.foldl_cons, List.foldl_nil, place_apply, List.mem_append,
      List.mem_singleton]
    by_cases ha : a = x.1
    · have hmem : (a, b) ∈ l → b = x.2 := fun h => by
        have := hl _ (List.mem_append_left _ h)
        rw [ha, hx] at this
        exact (Option.some.inj this).symm
      rw [if_pos ha, Option.some.injEq, Prod.ext_iff]
      exact ⟨fun h => .inr ⟨ha, h.symm⟩, fun h => (h.elim hmem (·.2)).symm⟩
    · have hfree : l.foldl (fun (g : α ≃. β) x => g.place x.1 x.2) ⊥ a ≠ some x.2 := fun h =>
        ha (f.inj (hl _ (List.mem_append_left _ ((ih a x.2).mp h))) hx)
      rw [if_neg ha, if_neg hfree, ih]
      exact ⟨.inl, fun h => h.resolve_right fun h => ha (congrArg Prod.fst h)⟩

/-- Placing all pairs of `f`, in any order, gives `f`. -/
theorem foldl_place_eq {f : α ≃. β} {l : List (Sigma fun _ : α => β)}
    (hl : ∀ a b, ⟨a, b⟩ ∈ l ↔ f a = some b) :
    (l.map fun x => (x.1, x.2)).foldl (fun (g : α ≃. β) x => g.place x.1 x.2) ⊥ = f := by
  have hmem : ∀ x, x ∈ (l.map fun x => (x.1, x.2)) ↔ f x.1 = some x.2 := by
    intro x
    rw [List.mem_map, ← hl]
    constructor
    · rintro ⟨y, hy, rfl⟩
      exact hy
    · exact fun hx => ⟨⟨x.1, x.2⟩, hx, rfl⟩
  ext1 a
  apply Option.ext
  intro b
  rw [foldl_place fun x hx => (hmem x).mp hx, hmem]

end PEquiv
