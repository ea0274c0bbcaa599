import Mathlib.Data.List.AList
import Mathlib.Data.List.Induction

/-!
# Association lists

`retain`, which keeps the entries whose key passes a test, as a hash map's does, and what a lookup
finds after a change.
-/

namespace AList

variable {α : Type} {β : α → Type} [DecidableEq α]

omit [DecidableEq α] in
theorem nodupKeys_filter (p : Sigma β → Bool) (m : AList β) : (m.entries.filter p).NodupKeys :=
  m.nodupKeys.sublist List.filter_sublist

/-- Keeps the entries whose key passes `p`. -/
def retain (m : AList β) (p : α → Bool) : AList β :=
  ⟨m.entries.filter fun x => p x.1, m.nodupKeys_filter _⟩

omit [DecidableEq α] in
theorem mem_entries_retain {m : AList β} {p : α → Bool} {x : Sigma β} :
    x ∈ (m.retain p).entries ↔ x ∈ m.entries ∧ p x.1 = true :=
  List.mem_filter

@[simp] theorem lookup_retain (m : AList β) (p : α → Bool) (a : α) :
    (m.retain p).lookup a = if p a then m.lookup a else none := by
  apply Option.ext
  intro b
  rw [← Option.mem_def, mem_lookup_iff, mem_entries_retain]
  cases hp : p a with
  | true => simp [← Option.mem_def, mem_lookup_iff]
  | false => simp

section

variable {γ : Type}

theorem lookup_insert_eq_ite (m : AList fun _ : α => γ) (a x : α) (b : γ) :
    (m.insert a b).lookup x = if x = a then some b else m.lookup x := by
  split
  · rename_i hx
    rw [hx, lookup_insert]
  · rename_i hx
    exact lookup_insert_ne hx

theorem lookup_erase_eq_ite (m : AList fun _ : α => γ) (a x : α) :
    (m.erase a).lookup x = if x = a then none else m.lookup x := by
  split
  · rename_i hx
    rw [hx, lookup_erase]
  · rename_i hx
    exact lookup_erase_ne hx

/-- Inserting entries with distinct keys one after the other. -/
theorem lookup_foldl_insert {δ : Type} (key : δ → α) (val : δ → γ) {l : List δ}
    (hl : (l.map key).Nodup) {a : α} {b : γ} :
    (l.foldl (fun (m : AList fun _ : α => γ) x => m.insert (key x) (val x)) ∅).lookup a = some b ↔
      ∃ x ∈ l, key x = a ∧ val x = b := by
  induction l using List.reverseRecOn with
  | nil => simp
  | append_singleton l x ih =>
    rw [List.map_append, List.nodup_append] at hl
    obtain ⟨hl, -, hdisj⟩ := hl
    have hx : ∀ y ∈ l, key y ≠ key x := fun y hy =>
      hdisj (key y) (List.mem_map_of_mem hy) (key x) (by simp)
    rw [List.foldl_append, List.foldl_cons, List.foldl_nil, lookup_insert_eq_ite]
    by_cases ha : a = key x
    · rw [if_pos ha, Option.some.injEq]
      constructor
      · exact fun hb => ⟨x, by simp, ha.symm, hb⟩
      · rintro ⟨y, hy, hya, hyb⟩
        obtain hy | hy := List.mem_append.mp hy
        · exact absurd (hya.trans ha) (hx y hy)
        · rwa [List.mem_singleton.mp hy] at hyb
    · rw [if_neg ha, ih hl]
      constructor
      · rintro ⟨y, hy, hyab⟩
        exact ⟨y, List.mem_append_left _ hy, hyab⟩
      · rintro ⟨y, hy, hya, hyb⟩
        obtain hy | hy := List.mem_append.mp hy
        · exact ⟨y, hy, hya, hyb⟩
        · exact absurd (hya.symm.trans (by rw [List.mem_singleton.mp hy])) ha

end

end AList
