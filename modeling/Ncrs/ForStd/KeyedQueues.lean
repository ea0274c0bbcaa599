import Mathlib.Data.List.Pairwise
import Mathlib.Data.List.Nodup

/-!
# FIFO queues, one for each key

Members with increasing ids stand in the queue of every key they name, each with its mode there. A
queue is then sorted by id, and what stands ahead of a member is what has a smaller id. One mode is
the strongest: a member that names a key twice keeps it, and it clashes with every other.
-/

namespace KeyedQueues

variable {T K M : Type} [DecidableEq K] (id : T → Nat) (keys : T → List (K × M))

/-- What a member puts in the queue of `k`. -/
def places (t : T) (k : K) : List (Nat × M) :=
  (keys t).filterMap fun x => if x.1 = k then some (id t, x.2) else none

variable {id keys}

theorem mem_places {t : T} {k : K} {x : Nat × M} :
    x ∈ places id keys t k ↔ x.1 = id t ∧ (k, x.2) ∈ keys t := by
  unfold places
  rw [List.mem_filterMap]
  constructor
  · rintro ⟨⟨q, a⟩, hy, hx⟩
    split at hx
    · rename_i hq
      obtain rfl : q = k := hq
      obtain rfl := Option.some.inj hx
      exact ⟨rfl, hy⟩
    · cases hx
  · rintro ⟨hid, hmem⟩
    refine ⟨(k, x.2), hmem, ?_⟩
    rw [if_pos rfl, ← hid]

/-- A member that names no key twice has at most one place in a queue. -/
theorem pairwise_places {t : T} (hkeys : ((keys t).map (·.1)).Nodup) (k : K) :
    (places id keys t k).Pairwise fun x y => x.1 < y.1 := by
  rw [List.Nodup, List.pairwise_map] at hkeys
  unfold places
  rw [List.pairwise_filterMap]
  refine hkeys.imp fun {x y} hne a ha b hb => absurd ?_ hne
  split at ha
  · split at hb
    · rename_i hx hy
      exact hx.trans hy.symm
    · cases hb
  · cases ha

/-- In a sorted queue, what stands ahead of `n` is what has a smaller id. -/
theorem mem_takeWhile_ne_iff {l : List (Nat × M)} (hl : l.Pairwise fun x y => x.1 < y.1)
    {n : Nat} {m : M} (hn : (n, m) ∈ l) {x : Nat × M} :
    x ∈ l.takeWhile (fun e => e.1 ≠ n) ↔ x ∈ l ∧ x.1 < n := by
  induction l with
  | nil => cases hn
  | cons y l ih =>
    obtain ⟨hy, hl⟩ := List.pairwise_cons.mp hl
    by_cases hyn : y.1 = n
    · rw [List.takeWhile_cons_of_neg (by simpa using hyn)]
      refine ⟨nofun, fun ⟨hx, hlt⟩ => ?_⟩
      rcases List.mem_cons.mp hx with rfl | hx
      · omega
      · have := hy x hx
        omega
    · rw [List.takeWhile_cons_of_pos (by simpa using hyn), List.mem_cons]
      have hn : (n, m) ∈ l := by
        rcases List.mem_cons.mp hn with rfl | hn
        · exact absurd rfl hyn
        · exact hn
      have hlt : y.1 < n := hy _ hn
      rw [ih hl hn, List.mem_cons]
      constructor
      · rintro (rfl | ⟨hx, hxn⟩)
        · exact ⟨.inl rfl, hlt⟩
        · exact ⟨.inr hx, hxn⟩
      · rintro ⟨rfl | hx, hxn⟩
        · exact .inl rfl
        · exact .inr ⟨hx, hxn⟩

/-- In a sorted queue, taking the first place of `n` out takes all of them out. -/
theorem eraseP_eq_filter {l : List (Nat × M)} (hl : l.Pairwise fun x y => x.1 < y.1) (n : Nat) :
    l.eraseP (fun e => e.1 = n) = l.filter fun e => e.1 ≠ n := by
  induction l with
  | nil => rfl
  | cons y l ih =>
    obtain ⟨hy, hl⟩ := List.pairwise_cons.mp hl
    by_cases hyn : y.1 = n
    · rw [List.eraseP_cons_of_pos (by simpa using hyn), List.filter_cons_of_neg (by simpa using hyn)]
      refine (List.filter_eq_self.mpr fun x hx => decide_eq_true ?_).symm
      have := hy x hx
      omega
    · rw [List.eraseP_cons_of_neg (by simpa using hyn), List.filter_cons_of_pos (by simpa using hyn),
        ih hl]

/-- Nothing stands ahead of the head. -/
theorem head_le {l : List (Nat × M)} {x : Nat × M} (hl : (x :: l).Pairwise fun x y => x.1 < y.1)
    {y : Nat × M} (hy : y ∈ x :: l) : x.1 ≤ y.1 := by
  rcases List.mem_cons.mp hy with rfl | hy
  · exact Nat.le_refl _
  · exact Nat.le_of_lt ((List.pairwise_cons.mp hl).1 y hy)

/-- In a sorted queue whose elements ahead of `x` all satisfy `p`, as `x` does, `x` is in the run
    of such elements at the front. -/
theorem mem_takeWhile_of_ahead {l : List (Nat × M)} (hl : l.Pairwise fun x y => x.1 < y.1)
    {p : Nat × M → Bool} {x : Nat × M} (hx : x ∈ l) (hp : p x = true)
    (hahead : ∀ y ∈ l, y.1 < x.1 → p y = true) : x ∈ l.takeWhile p := by
  induction l with
  | nil => cases hx
  | cons y l ih =>
    have hxy := head_le hl hx
    obtain ⟨hy, hl⟩ := List.pairwise_cons.mp hl
    rcases List.mem_cons.mp hx with rfl | hx
    · rw [List.takeWhile_cons_of_pos hp]
      exact List.mem_cons_self
    · have hpy : p y = true := hahead y List.mem_cons_self (hy x hx)
      rw [List.takeWhile_cons_of_pos hpy]
      exact List.mem_cons_of_mem _ (ih hl hx fun z hz => hahead z (List.mem_cons_of_mem _ hz))

/-! ## Modes -/

section Modes

variable [DecidableEq M] (strong : M)

/-- A key listed twice keeps its strongest mode. -/
def merge (merged : List (K × M)) (x : K × M) : List (K × M) :=
  if merged.any (fun y => y.1 = x.1) then
    merged.map fun y => if y.1 = x.1 ∧ x.2 = strong then x else y
  else merged ++ [x]

def mergeAll (keys : List (K × M)) : List (K × M) := keys.foldl (merge strong) []

/-- Both name a key and one of them needs it for itself. -/
def Clash (a b : List (K × M)) : Prop :=
  ∃ k m n, (k, m) ∈ a ∧ (k, n) ∈ b ∧ (m = strong ∨ n = strong)

variable {strong}

theorem merge_keys (merged : List (K × M)) (x : K × M) :
    (merge strong merged x).map (·.1) =
      if merged.any (fun y => y.1 = x.1) then merged.map (·.1) else merged.map (·.1) ++ [x.1] := by
  unfold merge
  split
  · rw [List.map_map]
    refine List.map_congr_left fun y _ => ?_
    show (if y.1 = x.1 ∧ x.2 = strong then x else y).1 = y.1
    split
    · rename_i h
      exact h.1.symm
    · rfl
  · rw [List.map_append, List.map_singleton]

theorem nodup_merge {merged : List (K × M)} (h : (merged.map (·.1)).Nodup) (x : K × M) :
    ((merge strong merged x).map (·.1)).Nodup := by
  rw [merge_keys]
  split
  · exact h
  · rename_i hnew
    rw [List.nodup_append]
    refine ⟨h, List.nodup_singleton _, fun k hk k' hk' => ?_⟩
    rw [List.mem_singleton.mp hk']
    rintro rfl
    obtain ⟨y, hy, hyk⟩ := List.mem_map.mp hk
    exact hnew (List.any_eq_true.mpr ⟨y, hy, decide_eq_true hyk⟩)

theorem nodup_mergeAll (keys : List (K × M)) : ((mergeAll strong keys).map (·.1)).Nodup := by
  suffices h : ∀ merged : List (K × M), (merged.map (·.1)).Nodup →
      ((keys.foldl (merge strong) merged).map (·.1)).Nodup from h [] List.nodup_nil
  induction keys with
  | nil => exact fun merged h => h
  | cons x keys ih => exact fun merged h => ih _ (nodup_merge h x)

/-- A key is in the merged list when it was in either. -/
theorem key_mem_merge {merged : List (K × M)} {x : K × M} {k : K} :
    k ∈ (merge strong merged x).map (·.1) ↔ k ∈ merged.map (·.1) ∨ k = x.1 := by
  rw [merge_keys]
  split
  · rename_i h
    obtain ⟨y, hy, hyx⟩ := List.any_eq_true.mp h
    refine ⟨.inl, fun hk => hk.elim id ?_⟩
    rintro rfl
    exact List.mem_map.mpr ⟨y, hy, of_decide_eq_true hyx⟩
  · rw [List.mem_append, List.mem_singleton]

theorem strong_mem_merge {merged : List (K × M)} {x : K × M} {k : K} :
    (k, strong) ∈ merge strong merged x ↔ (k, strong) ∈ merged ∨ x = (k, strong) := by
  unfold merge
  split
  · rename_i h
    obtain ⟨y, hy, hyx⟩ := List.any_eq_true.mp h
    rw [List.mem_map]
    constructor
    · rintro ⟨z, hz, hzk⟩
      split at hzk
      · exact .inr hzk
      · exact .inl (hzk ▸ hz)
    · rintro (hk | rfl)
      · refine ⟨_, hk, ?_⟩
        split
        · rename_i hx
          exact Prod.ext hx.1.symm hx.2
        · rfl
      · exact ⟨y, hy, if_pos ⟨of_decide_eq_true hyx, rfl⟩⟩
  · rw [List.mem_append, List.mem_singleton]
    exact or_congr_right eq_comm

theorem key_mem_mergeAll {keys : List (K × M)} {k : K} :
    k ∈ (mergeAll strong keys).map (·.1) ↔ k ∈ keys.map (·.1) := by
  suffices h : ∀ merged : List (K × M), k ∈ (keys.foldl (merge strong) merged).map (·.1) ↔
      k ∈ merged.map (·.1) ∨ k ∈ keys.map (·.1) by simpa [mergeAll] using h []
  induction keys with
  | nil => intro merged; simp
  | cons x keys ih =>
    intro merged
    rw [List.foldl_cons, ih, key_mem_merge, List.map_cons, List.mem_cons, or_assoc]

theorem strong_mem_mergeAll {keys : List (K × M)} {k : K} :
    (k, strong) ∈ mergeAll strong keys ↔ (k, strong) ∈ keys := by
  suffices h : ∀ merged : List (K × M), (k, strong) ∈ keys.foldl (merge strong) merged ↔
      (k, strong) ∈ merged ∨ (k, strong) ∈ keys by simpa [mergeAll] using h []
  induction keys with
  | nil => intro merged; simp
  | cons x keys ih =>
    intro merged
    rw [List.foldl_cons, ih, strong_mem_merge, List.mem_cons, or_assoc]
    exact or_congr_right (or_congr_left eq_comm)

omit [DecidableEq K] [DecidableEq M] in
theorem clash_iff {a b : List (K × M)} :
    Clash strong a b ↔ ∃ k, k ∈ a.map (·.1) ∧ k ∈ b.map (·.1) ∧
      ((k, strong) ∈ a ∨ (k, strong) ∈ b) := by
  constructor
  · rintro ⟨k, m, n, hm, hn, h⟩
    refine ⟨k, List.mem_map_of_mem hm, List.mem_map_of_mem hn, ?_⟩
    rcases h with rfl | rfl
    · exact .inl hm
    · exact .inr hn
  · rintro ⟨k, ha, hb, h⟩
    obtain ⟨⟨_, m⟩, hm, rfl⟩ := List.mem_map.mp ha
    obtain ⟨⟨_, n⟩, hn, hk⟩ := List.mem_map.mp hb
    obtain rfl : _ = _ := hk
    rcases h with h | h
    · exact ⟨_, strong, n, h, hn, .inl rfl⟩
    · exact ⟨_, m, strong, hm, h, .inr rfl⟩

/-- Merging keeps what two lists of keys clash on. -/
theorem clash_mergeAll {a b : List (K × M)} :
    Clash strong (mergeAll strong a) (mergeAll strong b) ↔ Clash strong a b := by
  rw [clash_iff, clash_iff]
  refine exists_congr fun k => ?_
  rw [key_mem_mergeAll, key_mem_mergeAll, strong_mem_mergeAll, strong_mem_mergeAll]

end Modes

end KeyedQueues
