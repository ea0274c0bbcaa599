import Ncrs.Native.PathSeq
import Mathlib.Data.List.Pairwise

/-!
# Tickets and their queues

The queues of a `PathSeq` hold what a list of live tickets, in the order they were taken, puts
in them (`PathSeq.Holds`). A ticket that is ready has no live conflicting ticket before it.

## Key results

- `PathSeq.Holds.ticket`, `PathSeq.Holds.drop`: the operations keep the correspondence
- `PathSeq.Holds.ready`: a ready ticket conflicts with no earlier live one
-/

namespace Ncrs

/-- Both tickets name a path and one of them needs it for itself. -/
def Ticket.Conflicts (t u : Ticket) : Prop :=
  ∃ p a b, (p, a) ∈ t.paths ∧ (p, b) ∈ u.paths ∧ (a = .exclusive ∨ b = .exclusive)

theorem Ticket.mem_places {t : Ticket} {p : PathBuf} {x : Nat × Access} :
    x ∈ t.places p ↔ x.1 = t.id ∧ (p, x.2) ∈ t.paths := by
  unfold Ticket.places
  rw [List.mem_filterMap]
  constructor
  · rintro ⟨⟨q, a⟩, hy, hx⟩
    split at hx
    · rename_i hq
      obtain rfl : q = p := hq
      obtain rfl := Option.some.inj hx
      exact ⟨rfl, hy⟩
    · cases hx
  · rintro ⟨hid, hmem⟩
    refine ⟨(p, x.2), hmem, ?_⟩
    rw [if_pos rfl, ← hid]

namespace PathSeq

/-- The queues hold exactly what the tickets `ts` put there, oldest first. -/
structure Holds (s : PathSeq) (ts : List Ticket) : Prop where
  queues : ∀ p, s.queues p = ts.flatMap (·.places p)
  sorted : ts.Pairwise fun t u => t.id < u.id
  bounded : ∀ t ∈ ts, t.id ≤ s.nextId

theorem Holds.empty : Holds {} [] := ⟨fun _ => rfl, List.Pairwise.nil, fun _ h => nomatch h⟩

theorem Holds.ticket {s : PathSeq} {ts : List Ticket} (h : s.Holds ts)
    (paths : List (PathBuf × Access)) :
    (s.ticket paths).2.Holds (ts ++ [(s.ticket paths).1]) := by
  refine ⟨fun p => ?_, ?_, fun t ht => ?_⟩
  · rw [List.flatMap_append, ← h.queues p]
    simp [PathSeq.ticket]
  · rw [List.pairwise_append]
    refine ⟨h.sorted, List.pairwise_singleton _ _, fun t ht u hu => ?_⟩
    rw [List.mem_singleton.mp hu]
    exact Nat.lt_succ_of_le (h.bounded t ht)
  · rcases List.mem_append.mp ht with ht | ht
    · exact Nat.le_succ_of_le (h.bounded t ht)
    · rw [List.mem_singleton.mp ht]
      exact Nat.le_refl _

/-- No two live tickets have one id. -/
theorem Holds.id_inj {s : PathSeq} {ts : List Ticket} (h : s.Holds ts) {t u : Ticket}
    (ht : t ∈ ts) (hu : u ∈ ts) (hid : t.id = u.id) : t = u := by
  have hnodup : (ts.map (·.id)).Nodup := by
    rw [List.Nodup, List.pairwise_map]
    exact h.sorted.imp fun hlt => Nat.ne_of_lt hlt
  exact List.inj_on_of_nodup_map hnodup ht hu hid

/-- Dropping one of the live tickets leaves the others. -/
theorem Holds.drop {s : PathSeq} {ts : List Ticket} (h : s.Holds ts) {t : Ticket} (ht : t ∈ ts) :
    (s.drop t).Holds (ts.filter fun u => u.id ≠ t.id) := by
  refine ⟨fun p => ?_, h.sorted.filter _, fun u hu => h.bounded u (List.mem_of_mem_filter hu)⟩
  have hmine : ∀ u ∈ ts, (u.places p).filter (fun e => e.1 ≠ t.id) =
      if u.id ≠ t.id then u.places p else [] := by
    intro u hu
    split
    · rename_i hne
      refine List.filter_eq_self.mpr fun x hx => ?_
      rw [(Ticket.mem_places.mp hx).1]
      exact decide_eq_true hne
    · rename_i heq
      refine List.filter_eq_nil_iff.mpr fun x hx => ?_
      rw [(Ticket.mem_places.mp hx).1]
      simpa using heq
  have hrest : ∀ l : List Ticket, (l.filter fun u => u.id ≠ t.id).flatMap (·.places p) =
      l.flatMap fun u => if u.id ≠ t.id then u.places p else [] := by
    intro l
    induction l with
    | nil => rfl
    | cons u l ih =>
      rw [List.filter_cons, List.flatMap_cons, ← ih]
      by_cases hu : u.id = t.id
      · simp [hu]
      · simp [hu]
  show (if t.paths.any (fun x => x.1 = p) then (s.queues p).filter fun e => e.1 ≠ t.id
    else s.queues p) = _
  rw [hrest, h.queues p]
  split
  · rw [List.filter_flatMap]
    exact List.flatMap_congr hmine
  · rename_i hnot
    -- A path `t` does not name has nothing of it in its queue.
    refine List.flatMap_congr fun u hu => ?_
    split
    · rfl
    · rename_i heq
      obtain rfl := h.id_inj hu ht (not_not.mp heq)
      refine List.eq_nil_iff_forall_not_mem.mpr fun x hx => hnot ?_
      have hx := (Ticket.mem_places.mp hx).2
      exact List.any_eq_true.mpr ⟨_, hx, decide_eq_true rfl⟩

/-- In a queue sorted by id, everything before `k` stands before the entry of `k`. -/
theorem mem_takeWhile_of_lt {l : List (Nat × Access)} (hl : l.Pairwise fun x y => x.1 ≤ y.1)
    {k : Nat} {x : Nat × Access} (hx : x ∈ l) (hlt : x.1 < k) :
    x ∈ l.takeWhile fun e => e.1 ≠ k := by
  induction l with
  | nil => cases hx
  | cons y l ih =>
    obtain ⟨hy, hl⟩ := List.pairwise_cons.mp hl
    have hyk : y.1 < k := by
      rcases List.mem_cons.mp hx with rfl | hx
      · exact hlt
      · have := hy x hx
        omega
    rw [List.takeWhile_cons_of_pos (by simpa using Nat.ne_of_lt hyk)]
    rcases List.mem_cons.mp hx with rfl | hx
    · exact List.mem_cons_self
    · exact List.mem_cons_of_mem _ (ih hl hx)

/-- A ready ticket conflicts with no live ticket taken before it. -/
theorem Holds.ready {s : PathSeq} {ts : List Ticket} (h : s.Holds ts) {t u : Ticket}
    (hu : u ∈ ts) (hready : s.ready t = true) (hlt : u.id < t.id) : ¬ u.Conflicts t := by
  rintro ⟨p, a, b, ha, hb, hab⟩
  have hsorted : (s.queues p).Pairwise fun x y => x.1 ≤ y.1 := by
    rw [h.queues p, List.pairwise_flatMap]
    refine ⟨fun v _ => ?_, h.sorted.imp fun hvw x hx y hy => ?_⟩
    · refine List.pairwise_of_forall_mem_list fun x hx y hy => ?_
      rw [(Ticket.mem_places.mp hx).1, (Ticket.mem_places.mp hy).1]
    · rw [(Ticket.mem_places.mp hx).1, (Ticket.mem_places.mp hy).1]
      exact Nat.le_of_lt hvw
  have hmem : (u.id, a) ∈ s.queues p := by
    rw [h.queues p]
    exact List.mem_flatMap.mpr ⟨u, hu, Ticket.mem_places.mpr ⟨rfl, ha⟩⟩
  -- `u` stands before `t` in the queue of `p`, so both would have to be shared.
  have hpath := List.all_eq_true.mp hready (p, b) hb
  have hboth := List.all_eq_true.mp hpath _ (mem_takeWhile_of_lt hsorted hmem hlt)
  obtain ⟨rfl, hsh⟩ := of_decide_eq_true hboth
  obtain rfl : a = .shared := hsh
  rcases hab with hab | hab
  · cases hab
  · cases hab

end PathSeq

end Ncrs
