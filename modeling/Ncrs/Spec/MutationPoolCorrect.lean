import Ncrs.Native.MutationPool
import Ncrs.Spec.PathSeqCorrect
import Ncrs.ForStd.KeyedQueues
import Ncrs.ForStd.List

/-!
# Tickets cannot deadlock

The queue map implements a `PathSeq` and holds no empty queue (`SeqState.toPathSeq`,
`SeqState.NoEmpty`). A live ticket is ready exactly when no earlier live one conflicts with it, so
the oldest is. In the pool the jobs with a worker are older than those in the queue, and a queue
that is not empty has every worker: the oldest ticket's job is with a worker, or the next one that
a worker takes.

## Key results

- `SeqState.toPathSeq_ticket`, `SeqState.toPathSeq_drop`, `SeqState.ready_eq`: the refinement
- `PathSeq.Holds.ready_iff`: when a ticket is ready
- `MutationPool.tickets_order_changes`: the properties in every run
-/

namespace Ncrs

/-! ## The queue map -/

namespace SeqState

/-- The queues, with an empty one for a path that has no entry. -/
def toPathSeq (s : SeqState) : PathSeq := { nextId := s.nextId, queues := fun p => (s.queues p).getD [] }

/-- No path has a queue without entries. -/
def NoEmpty (queues : PathBuf → Option (List (Nat × Access))) : Prop := ∀ p, queues p ≠ some []

variable {s : SeqState} {queues : PathBuf → Option (List (Nat × Access))}

/-- Queueing a ticket puts it behind the others, on each of its paths. -/
theorem foldl_pushBack (id : Nat) (paths : List (PathBuf × Access)) (p : PathBuf) :
    ∀ queues, ((paths.foldl (pushBack id) queues) p).getD [] =
      (queues p).getD [] ++ paths.filterMap fun x => if x.1 = p then some (id, x.2) else none := by
  induction paths with
  | nil => exact fun queues => (List.append_nil _).symm
  | cons x paths ih =>
    intro queues
    rw [List.foldl_cons, ih, List.filterMap_cons]
    by_cases hx : x.1 = p
    · subst hx
      simp [pushBack]
    · simp [pushBack, hx, Function.update_of_ne (Ne.symm hx)]

/-- No queue becomes empty by it. -/
theorem NoEmpty.foldl_pushBack (id : Nat) (paths : List (PathBuf × Access)) :
    ∀ {queues}, NoEmpty queues → NoEmpty (paths.foldl (pushBack id) queues) := by
  induction paths with
  | nil => exact fun h => h
  | cons x paths ih =>
    intro queues h
    refine ih fun p => ?_
    by_cases hx : p = x.1
    · subst hx
      simp [pushBack]
    · rw [pushBack, Function.update_of_ne hx]
      exact h p

/-- Taking a ticket is what the abstract sequencer does. -/
theorem toPathSeq_ticket (s : SeqState) (paths : List (PathBuf × Access)) :
    (s.ticket paths).1 = (s.toPathSeq.ticket paths).1 ∧
      (s.ticket paths).2.toPathSeq = (s.toPathSeq.ticket paths).2 := by
  refine ⟨rfl, ?_⟩
  show PathSeq.mk _ _ = PathSeq.mk _ _
  congr 1
  funext p
  exact foldl_pushBack _ _ p _

/-- So is asking whether it is ready. -/
theorem ready_eq (s : SeqState) (t : Ticket) : s.ready t = s.toPathSeq.ready t := by
  unfold ready PathSeq.ready
  congr 1
  funext x
  show _ = (((s.queues x.1).getD []).takeWhile _).all _
  cases s.queues x.1 with
  | none => rfl
  | some q => rfl

/-- One path of a dropped ticket. -/
theorem getD_dropPath (id : Nat) (queues : PathBuf → Option (List (Nat × Access))) (n p : PathBuf) :
    (dropPath id queues n p).getD [] =
      if n = p then ((queues p).getD []).filter (fun e => e.1 ≠ id) else (queues p).getD [] := by
  cases hn : queues n with
  | none =>
    rw [dropPath, hn]
    split
    · rename_i hnp
      subst hnp
      show (queues n).getD [] = _
      rw [hn]
      rfl
    · rfl
  | some q =>
    rw [dropPath, hn]
    by_cases hnp : n = p
    · subst hnp
      rw [if_pos rfl, hn]
      show (Function.update queues n _ n).getD [] = _
      rw [Function.update_self]
      split
      · rename_i hempty
        exact (List.isEmpty_iff.mp hempty).symm
      · rfl
    · rw [if_neg hnp]
      show (Function.update queues n _ p).getD [] = _
      rw [Function.update_of_ne (Ne.symm hnp)]

/-- Dropping a path of a ticket leaves no empty queue behind. -/
theorem NoEmpty.dropPath (h : NoEmpty queues) (id : Nat) (n : PathBuf) :
    NoEmpty (SeqState.dropPath id queues n) := by
  intro p
  cases hn : queues n with
  | none =>
    rw [SeqState.dropPath, hn]
    exact h p
  | some q =>
    rw [SeqState.dropPath, hn]
    show Function.update queues n _ p ≠ _
    by_cases hp : p = n
    · subst hp
      rw [Function.update_self]
      split
      · nofun
      · rename_i hne
        exact fun heq => hne (by rw [Option.some.inj heq]; rfl)
    · rw [Function.update_of_ne hp]
      exact h p

/-- Dropping its paths takes it out of their queues. -/
theorem foldl_dropPath (id : Nat) (names : List PathBuf) (p : PathBuf) :
    ∀ queues, ((names.foldl (dropPath id) queues) p).getD [] =
      if names.any (fun n => n = p) then ((queues p).getD []).filter (fun e => e.1 ≠ id)
      else (queues p).getD [] := by
  induction names with
  | nil => exact fun queues => rfl
  | cons n names ih =>
    intro queues
    rw [List.foldl_cons, ih, getD_dropPath, List.any_cons]
    by_cases hn : n = p
    · simp [hn]
    · simp [hn]

/-- Dropping a ticket is what the abstract sequencer does. -/
theorem toPathSeq_drop (s : SeqState) (t : Ticket) : (s.drop t).toPathSeq = s.toPathSeq.drop t := by
  show PathSeq.mk _ _ = PathSeq.mk _ _
  congr 1
  funext p
  show (((t.paths.map (·.1)).foldl (dropPath t.id) s.queues) p).getD [] = _
  rw [foldl_dropPath, List.any_map]
  rfl

/-- No empty queue is left. -/
theorem NoEmpty.drop (h : NoEmpty s.queues) (t : Ticket) : NoEmpty (s.drop t).queues := by
  show NoEmpty ((t.paths.map (·.1)).foldl (SeqState.dropPath t.id) s.queues)
  generalize t.paths.map (·.1) = names
  generalize s.queues = queues at h
  induction names generalizing queues with
  | nil => exact h
  | cons n names ih => exact ih _ (h.dropPath t.id n)

end SeqState

/-! ## Readiness -/

namespace PathSeq

variable {s : PathSeq} {ts : List Ticket}

/-- The tickets name each path once, so that the queues are sorted. -/
def NamedOnce (ts : List Ticket) : Prop := ∀ t ∈ ts, (t.paths.map (·.1)).Nodup

/-- The queues are in the order of the tickets. -/
theorem Holds.queue_sorted (h : s.Holds ts) (hnamed : NamedOnce ts) (p : PathBuf) :
    (s.queues p).Pairwise fun x y => x.1 < y.1 := by
  rw [h.queues p, List.pairwise_flatMap]
  refine ⟨fun t ht => KeyedQueues.pairwise_places (hnamed t ht) p, h.sorted.imp fun htu x hx y hy => ?_⟩
  rw [(Ticket.mem_places.mp hx).1, (Ticket.mem_places.mp hy).1]
  exact htu

/-- A ticket is ready when no live one taken before it conflicts with it. -/
theorem Holds.ready_iff (h : s.Holds ts) (hnamed : NamedOnce ts) {t : Ticket} (ht : t ∈ ts) :
    s.ready t = true ↔ ∀ u ∈ ts, u.id < t.id → ¬ u.Conflicts t := by
  refine ⟨fun hready u hu => h.ready hu hready, fun hfree => ?_⟩
  refine List.all_eq_true.mpr fun x hx => List.all_eq_true.mpr fun e he => ?_
  have hmine : (t.id, x.2) ∈ s.queues x.1 := by
    rw [h.queues x.1]
    exact List.mem_flatMap.mpr ⟨t, ht, Ticket.mem_places.mpr ⟨rfl, hx⟩⟩
  obtain ⟨he, hlt⟩ := (KeyedQueues.mem_takeWhile_ne_iff (h.queue_sorted hnamed x.1) hmine).mp he
  rw [h.queues x.1] at he
  obtain ⟨u, hu, hplace⟩ := List.mem_flatMap.mp he
  obtain ⟨hid, hpath⟩ := Ticket.mem_places.mp hplace
  have hno : ¬ u.Conflicts t := hfree u hu (hid ▸ hlt)
  have hshared : ∀ a : Access, a ≠ .exclusive → a = .shared := by
    intro a ha
    cases a with
    | exclusive => exact absurd rfl ha
    | shared => rfl
  refine decide_eq_true ⟨hshared _ fun ha => hno ?_, hshared _ fun ha => hno ?_⟩
  · exact ⟨x.1, e.2, x.2, hpath, hx, .inr ha⟩
  · exact ⟨x.1, e.2, x.2, hpath, hx, .inl ha⟩

end PathSeq

/-- The strongest access `asked` lists a path with. -/
def strongest (asked : List (PathBuf × Access)) (p : PathBuf) : Option Access :=
  if (p, .exclusive) ∈ asked then some .exclusive
  else if (p, .shared) ∈ asked then some .shared
  else none

/-- Both ask for a path, and not both of them to share it. -/
def Taken.Conflicts (t u : Taken) : Prop :=
  ∃ p a b, strongest t.asked p = some a ∧ strongest u.asked p = some b ∧ ¬ (a = .shared ∧ b = .shared)

/-- The strongest access that was asked for a path. -/
theorem strongest_eq {asked : List (PathBuf × Access)} {p : PathBuf} {a : Access} :
    strongest asked p = some a ↔
      p ∈ asked.map (·.1) ∧ (a = .exclusive ↔ (p, .exclusive) ∈ asked) := by
  unfold strongest
  split
  · rename_i hex
    have hmem : p ∈ asked.map (·.1) := List.mem_map_of_mem hex
    refine ⟨fun h => ⟨hmem, ?_⟩, fun h => by rw [h.2.mpr hex]⟩
    rw [← Option.some.inj h]
    exact ⟨fun _ => hex, fun _ => rfl⟩
  · rename_i hex
    split
    · rename_i hsh
      have hmem : p ∈ asked.map (·.1) := List.mem_map_of_mem hsh
      cases a with
      | exclusive => simp [hex]
      | shared => simp [hex, List.mem_map.mp hmem]
    · rename_i hsh
      refine ⟨nofun, fun h => ?_⟩
      obtain ⟨⟨q, b⟩, hq, rfl⟩ := List.mem_map.mp h.1
      cases b with
      | exclusive => exact absurd hq hex
      | shared => exact absurd hq hsh

/-- What the merged tickets conflict on is what their strongest accesses do. -/
theorem Taken.conflicts_iff {t u : Taken}
    (ht : t.ticket.paths = KeyedQueues.mergeAll .exclusive t.asked)
    (hu : u.ticket.paths = KeyedQueues.mergeAll .exclusive u.asked) :
    t.ticket.Conflicts u.ticket ↔ t.Conflicts u := by
  have hclash : t.ticket.Conflicts u.ticket ↔ KeyedQueues.Clash .exclusive t.asked u.asked := by
    rw [← KeyedQueues.clash_mergeAll, ← ht, ← hu]
    exact Iff.rfl
  rw [hclash, KeyedQueues.clash_iff]
  refine exists_congr fun p => ?_
  -- a path that both ask for, one of them exclusively
  constructor
  · rintro ⟨hpt, hpu, hex⟩
    have hone : ∀ asked : List (PathBuf × Access), ∃ a :
      Access, (a = .exclusive ↔ (p, .exclusive) ∈ asked) := by
      intro asked
      by_cases h : (p, Access.exclusive) ∈ asked
      · exact ⟨.exclusive, by simp [h]⟩
      · exact ⟨.shared, by simp [h]⟩
    obtain ⟨a, ha⟩ := hone t.asked
    obtain ⟨b, hb⟩ := hone u.asked
    refine ⟨a, b, strongest_eq.mpr ⟨hpt, ha⟩, strongest_eq.mpr ⟨hpu, hb⟩, fun ⟨hsa, hsb⟩ => ?_⟩
    rcases hex with hex | hex
    · rw [ha.mpr hex] at hsa
      cases hsa
    · rw [hb.mpr hex] at hsb
      cases hsb
  · -- the strongest accesses to a path cannot both be shared
    rintro ⟨a, b, ha, hb, hno⟩
    obtain ⟨hpt, ha⟩ := strongest_eq.mp ha
    obtain ⟨hpu, hb⟩ := strongest_eq.mp hb
    refine ⟨hpt, hpu, ?_⟩
    by_contra hneither
    rw [not_or, ← ha, ← hb] at hneither
    cases a with
    | exclusive => exact hneither.1 rfl
    | shared =>
      cases b with
      | exclusive => exact hneither.2 rfl
      | shared => exact hno ⟨rfl, rfl⟩

/-! ## Runs of tickets -/

namespace Tickets

/-- The tickets that live are those of the sequencer, each with its paths merged. -/
structure Inv (s : Tickets) : Prop where
  holds : s.seq.toPathSeq.Holds (s.live.map (·.ticket))
  noEmpty : SeqState.NoEmpty s.seq.queues
  merged : ∀ t ∈ s.live, t.ticket.paths = KeyedQueues.mergeAll .exclusive t.asked

variable {s s' : Tickets}

/-- No ticket has been taken. -/
theorem Inv.empty : Inv {} := ⟨PathSeq.Holds.empty, nofun, nofun⟩

/-- Taking a ticket keeps the invariant. -/
theorem Inv.take (h : s.Inv) (paths : List (PathBuf × Access)) : (s.take paths).Inv := by
  obtain ⟨hticket, hseq⟩ := s.seq.toPathSeq_ticket paths
  refine ⟨?_, h.noEmpty.foldl_pushBack _ _, fun t ht => ?_⟩
  · show (s.seq.ticket paths).2.toPathSeq.Holds ((s.live ++ [_]).map _)
    rw [hseq, List.map_append, List.map_singleton]
    exact hticket ▸ h.holds.ticket paths
  · rcases List.mem_append.mp ht with ht | ht
    · exact h.merged t ht
    · rw [List.mem_singleton.mp ht]
      rfl

/-- So does dropping one. -/
theorem Inv.drop (h : s.Inv) {t : Ticket} (ht : t ∈ s.live.map (·.ticket)) : (s.drop t).Inv := by
  refine ⟨?_, h.noEmpty.drop t, fun u hu => h.merged u (List.mem_of_mem_filter hu)⟩
  show (s.seq.drop t).toPathSeq.Holds ((s.live.filter _).map _)
  rw [s.seq.toPathSeq_drop]
  have := h.holds.drop ht
  rwa [List.filter_map] at this

/-- And a whole run. -/
theorem Inv.steps {es : List TicketEvent} : ∀ {s s' : Tickets}, s.Inv → s.steps es = some s' → s'.Inv := by
  induction es with
  | nil =>
    intro s s' h hs
    exact Option.some.inj hs ▸ h
  | cons e es ih =>
    intro s s' h hs
    obtain ⟨t, ht, hrest⟩ := Option.bind_eq_some_iff.mp hs
    refine ih ?_ hrest
    cases e with
    | take paths => exact Option.some.inj ht ▸ h.take paths
    | drop id =>
      obtain ⟨u, hu, rfl⟩ := Option.map_eq_some_iff.mp ht
      exact h.drop (List.mem_map_of_mem (List.mem_of_find?_eq_some hu))

/-- A live ticket is ready when no earlier live one conflicts with it. -/
theorem Inv.ready_iff (h : s.Inv) {t : Taken} (ht : t ∈ s.live) :
    s.seq.ready t.ticket = true ↔
      ∀ u ∈ s.live, u.ticket.id < t.ticket.id → ¬ u.Conflicts t := by
  have hnamed : PathSeq.NamedOnce (s.live.map (·.ticket)) := by
    intro v hv
    obtain ⟨u, hu, rfl⟩ := List.mem_map.mp hv
    rw [h.merged u hu]
    exact KeyedQueues.nodup_mergeAll _
  rw [SeqState.ready_eq, h.holds.ready_iff hnamed (List.mem_map_of_mem ht), List.forall_mem_map]
  refine forall₂_congr fun u hu => ?_
  rw [Taken.conflicts_iff (h.merged u hu) (h.merged t ht)]

/-- The oldest ticket is ready. -/
theorem Inv.oldest_ready (h : s.Inv) {t : Taken} (ht : t ∈ s.live)
    (hold : ∀ u ∈ s.live, t.ticket.id ≤ u.ticket.id) : s.seq.ready t.ticket = true := by
  refine (h.ready_iff ht).mpr fun u hu hlt => ?_
  have := hold u hu
  omega

/-- With no ticket left the map has no entry. -/
theorem Inv.queues_eq_none (h : s.Inv) (hlive : s.live = []) (p : PathBuf) : s.seq.queues p = none := by
  have hq := h.holds.queues p
  rw [hlive] at hq
  have hget : (s.seq.queues p).getD [] = [] := hq
  cases hp : s.seq.queues p with
  | none => rfl
  | some q =>
    rw [hp] at hget
    exact absurd (hp.trans (congrArg some hget)) (h.noEmpty p)

/-- If there are tickets, one is the oldest. -/
theorem Inv.exists_oldest (h : s.Inv) (hlive : s.live ≠ []) :
    ∃ t ∈ s.live, ∀ u ∈ s.live, t.ticket.id ≤ u.ticket.id := by
  cases hl : s.live with
  | nil => exact absurd hl hlive
  | cons t live =>
    have hsorted := h.holds.sorted
    rw [hl, List.map_cons, List.pairwise_cons] at hsorted
    refine ⟨t, List.mem_cons_self, fun u hu => ?_⟩
    rcases List.mem_cons.mp hu with rfl | hu
    · exact Nat.le_refl _
    · exact Nat.le_of_lt (hsorted.1 _ (List.mem_map_of_mem hu))

end Tickets

/-! ## The pool -/

/-- The ticket of the job that a worker runs. -/
def MutationWorker.ticket? : MutationWorker → Option Ticket
  | .running t => some t
  | .ending => none

/-- The ticket that is being submitted. -/
def Submission.ticket? : Submission → Option Ticket
  | .ticketed t => some t
  | .spawning t => some t
  | .refused => none

/-- The worker slots a submission holds. -/
def Submission.slots : Submission → Nat
  | .ticketed _ => 0
  | _ => 1

namespace MutationPool

/-- The tickets of the jobs that have a worker, and the one being handed to the pool. -/
def running (s : MutationPool) : List Ticket := s.workers.filterMap MutationWorker.ticket?

/-- The ticket of the submission that is under way. -/
def submitting (s : MutationPool) : Option Ticket := s.order.bind Submission.ticket?

/-- Each live ticket has one place: with a worker, in the queue, or at the submission. -/
structure Inv (s : MutationPool) : Prop where
  tickets : s.tickets.Inv
  mem : ∀ t, t ∈ s.tickets.live.map (·.ticket) ↔ t ∈ s.running ∨ t ∈ s.queue ∨ s.submitting = some t
  nodup : s.running.Nodup
  older : ∀ t ∈ s.running, ∀ u ∈ s.queue, t.id < u.id
  sorted : s.queue.Pairwise fun t u => t.id < u.id
  newest : ∀ t, s.submitting = some t → ∀ u, u ∈ s.running ∨ u ∈ s.queue → u.id < t.id
  slots : s.active = s.workers.length + s.order.elim 0 Submission.slots
  cap : s.active ≤ s.maxWorkers
  full : s.queue ≠ [] → s.workers.length = s.maxWorkers

variable {s s' : MutationPool}

/-- While a submission holds a slot nothing is queued. -/
theorem Inv.queue_eq_nil (h : s.Inv) {o : Submission} (ho : s.order = some o) (hslots : o.slots = 1) :
    s.queue = [] := by
  by_contra hq
  have hfull := h.full hq
  have hactive := h.slots
  have hcap := h.cap
  rw [ho, Option.elim_some, hslots] at hactive
  omega

/-- A ticket is dropped that has one place, which it leaves. -/
theorem Inv.mem_drop (h : s.Inv) {t : Ticket} (ht : t ∈ s.tickets.live.map (·.ticket)) (u : Ticket) :
    u ∈ (s.tickets.drop t).live.map (·.ticket) ↔
      (u ∈ s.running ∨ u ∈ s.queue ∨ s.submitting = some u) ∧ u ≠ t := by
  rw [← h.mem u]
  constructor
  · intro hu
    obtain ⟨v, hv, rfl⟩ := List.mem_map.mp hu
    obtain ⟨hv, hne⟩ := List.mem_filter.mp hv
    exact ⟨List.mem_map_of_mem hv, fun heq => of_decide_eq_true hne (congrArg Ticket.id heq)⟩
  · rintro ⟨hu, hne⟩
    obtain ⟨v, hv, rfl⟩ := List.mem_map.mp hu
    refine List.mem_map_of_mem (List.mem_filter.mpr ⟨hv, decide_eq_true fun hid => hne ?_⟩)
    exact h.tickets.holds.id_inj hu ht hid

/-- Taking a ticket keeps the places. -/
theorem Inv.take (h : s.Inv) {paths : List (PathBuf × Access)} (hs : s.step (.take paths) = some s') :
    s'.Inv := by
  simp only [MutationPool.step] at hs
  split at hs
  · rename_i horder
    obtain rfl := Option.some.inj hs
    have hnone : s.submitting = none := by rw [submitting, horder]; rfl
    refine ⟨h.tickets.take paths, fun t => ?_, h.nodup, h.older, h.sorted, ?_, ?_, h.cap, h.full⟩
    · show t ∈ (s.tickets.live ++ [_]).map _ ↔ t ∈ s.running ∨ t ∈ s.queue ∨ some _ = some t
      rw [List.map_append, List.map_singleton, List.mem_append, h.mem t, hnone, List.mem_singleton]
      simp [or_assoc, eq_comm]
    · rintro t ht u hu
      obtain rfl := Option.some.inj ht
      have hlive : u ∈ s.tickets.live.map (·.ticket) := (h.mem u).mpr (by tauto)
      exact Nat.lt_succ_of_le (h.tickets.holds.bounded u hlive)
    · have := h.slots
      rw [horder] at this
      exact this
  · cases hs

/-- Submitting it does: it goes to a new worker or into the queue. -/
theorem Inv.submit (h : s.Inv) (hs : s.step .submit = some s') : s'.Inv := by
  simp only [MutationPool.step] at hs
  split at hs
  · rename_i t horder
    have hsub : s.submitting = some t := by rw [submitting, horder]; rfl
    have hslots := h.slots
    rw [horder] at hslots
    have hslots : s.active = s.workers.length := hslots
    -- below the cap a worker is spawned for it
    split at hs
    · rename_i hlt
      obtain rfl := Option.some.inj hs
      refine ⟨h.tickets, fun u => ?_, h.nodup, h.older, h.sorted, fun u hu => ?_, ?_, hlt, h.full⟩
      · rw [h.mem u, hsub]
        exact Iff.rfl
      · exact h.newest u (hsub.trans hu)
      · exact congrArg (· + 1) hslots
    · -- at the cap it waits in the queue, behind older ones
      rename_i hge
      obtain rfl := Option.some.inj hs
      refine ⟨h.tickets, fun u => ?_, h.nodup, fun u hu v hv => ?_, ?_, nofun, hslots, h.cap, fun _ => ?_⟩
      · rw [h.mem u, hsub]
        show _ ↔ u ∈ s.running ∨ u ∈ s.queue ++ [t] ∨ none = some u
        simp [eq_comm]
      · rcases List.mem_append.mp hv with hv | hv
        · exact h.older u hu v hv
        · rw [List.mem_singleton.mp hv]
          exact h.newest t hsub u (.inl hu)
      · refine List.pairwise_append.mpr ⟨h.sorted, List.pairwise_singleton _ _, fun u hu v hv => ?_⟩
        rw [List.mem_singleton.mp hv]
        exact h.newest t hsub u (.inr hu)
      · -- the pool was at its cap
        have := h.cap
        show s.workers.length = s.maxWorkers
        omega
  · cases hs

/-- So does spawning the worker. -/
theorem Inv.spawn (h : s.Inv) {ok : Bool} (hs : s.step (.spawn ok) = some s') : s'.Inv := by
  simp only [MutationPool.step] at hs
  split at hs
  · rename_i t horder
    have hsub : s.submitting = some t := by rw [submitting, horder]; rfl
    have hempty := h.queue_eq_nil horder rfl
    have hslots := h.slots
    rw [horder] at hslots
    have hslots : s.active = s.workers.length + 1 := hslots
    have hnew : t ∉ s.running := fun hmem => Nat.lt_irrefl _ (h.newest t hsub t (.inl hmem))
    -- the worker runs it at once
    split at hs
    · obtain rfl := Option.some.inj hs
      have hrunning : (s.workers ++ [MutationWorker.running t]).filterMap MutationWorker.ticket? =
          s.running ++ [t] := by
        rw [List.filterMap_append]
        rfl
      refine ⟨h.tickets, fun u => ?_, ?_, ?_, h.sorted, nofun, ?_, h.cap, fun hq => absurd hempty hq⟩
      · rw [h.mem u, hsub]
        show _ ↔ u ∈ (s.workers ++ [MutationWorker.running t]).filterMap _ ∨ u ∈ s.queue ∨ none = some u
        rw [hrunning, hempty]
        simp [eq_comm]
      · show ((s.workers ++ [MutationWorker.running t]).filterMap _).Nodup
        rw [hrunning]
        exact List.nodup_append.mpr ⟨h.nodup, List.nodup_singleton _, fun u hu v hv huv =>
          hnew (List.mem_singleton.mp hv ▸ huv ▸ hu)⟩
      · intro u _ v hv
        have hv : v ∈ s.queue := hv
        rw [hempty] at hv
        cases hv
      · show s.active = (s.workers ++ [MutationWorker.running t]).length
        rw [List.length_append, hslots]
        rfl
    · -- the spawn failed, so that the ticket is dropped
      obtain rfl := Option.some.inj hs
      have hlive : t ∈ s.tickets.live.map (·.ticket) := (h.mem t).mpr (.inr (.inr hsub))
      refine ⟨h.tickets.drop hlive, fun u => ?_, h.nodup, h.older, h.sorted, nofun, hslots, h.cap, h.full⟩
      rw [h.mem_drop hlive, hempty, hsub]
      show _ ↔ u ∈ s.running ∨ u ∈ [] ∨ none = some u
      constructor
      · rintro ⟨hu | hu | hu, hne⟩
        · exact .inl hu
        · cases hu
        · exact absurd (Option.some.inj hu).symm hne
      · rintro (hu | hu | hu)
        · exact ⟨.inl hu, fun heq => hnew (heq ▸ hu)⟩
        · cases hu
        · cases hu
  · cases hs

/-- Giving back the place of a worker that could not be spawned. -/
theorem Inv.giveBack (h : s.Inv) (hs : s.step .giveBack = some s') : s'.Inv := by
  simp only [MutationPool.step] at hs
  split at hs
  · rename_i horder
    obtain rfl := Option.some.inj hs
    have hnone : s.submitting = none := by rw [submitting, horder]; rfl
    have hslots := h.slots
    rw [horder] at hslots
    refine ⟨h.tickets, fun u => ?_, h.nodup, h.older, h.sorted, nofun, ?_, ?_, h.full⟩
    · rw [h.mem u, hnone]
      exact Iff.rfl
    · show s.active - 1 = s.workers.length
      rw [hslots]
      rfl
    · exact Nat.le_trans (Nat.sub_le _ _) h.cap
  · cases hs

/-- Worker `i`'s ticket among the ones of the others. -/
theorem running_split {w : MutationWorker} {pre post : List MutationWorker}
    (hw : s.workers = pre ++ w :: post) :
    s.running = pre.filterMap MutationWorker.ticket? ++ w.ticket?.toList ++
    post.filterMap MutationWorker.ticket? := by
  rw [running, hw, List.filterMap_append, List.filterMap_cons]
  cases w.ticket? with
  | none => simp
  | some t => simp

/-- A worker that is done drops its ticket. -/
theorem Inv.finish (h : s.Inv) {i : Nat} (hs : s.step (.finish i) = some s') : s'.Inv := by
  simp only [MutationPool.step] at hs
  split at hs
  · rename_i t hwi
    split at hs
    · obtain rfl := Option.some.inj hs
      obtain ⟨pre, post, hsplit, hlen, hset, -, -⟩ := List.exists_split_of_getElem? hwi
      have hbefore := running_split hsplit
      have hmem : t ∈ s.running := by
        rw [hbefore]
        simp [MutationWorker.ticket?]
      have hlive : t ∈ s.tickets.live.map (·.ticket) := (h.mem t).mpr (.inl hmem)
      have hafter : (s.workers.set i .ending).filterMap MutationWorker.ticket? =
          pre.filterMap MutationWorker.ticket? ++ post.filterMap MutationWorker.ticket? := by
        rw [hset, List.filterMap_append, List.filterMap_cons]
        rfl
      -- the ticket has no other place
      have hnodup := h.nodup
      rw [hbefore] at hnodup
      have hrun : ∀ u, u ∈ (s.workers.set i .ending).filterMap MutationWorker.ticket? ↔
        u ∈ s.running ∧ u ≠ t := by
        intro u
        rw [hafter, hbefore]
        have ht : t ∉ pre.filterMap MutationWorker.ticket? ++ post.filterMap MutationWorker.ticket? := by
          simp only [MutationWorker.ticket?, Option.toList, List.append_assoc, List.singleton_append] at hnodup
          exact (List.nodup_middle.mp hnodup).notMem
        simp only [MutationWorker.ticket?, Option.toList, List.mem_append, List.mem_singleton] at ht ⊢
        constructor
        · intro hu
          exact ⟨by tauto, fun heq => ht (heq ▸ hu)⟩
        · tauto
      refine ⟨h.tickets.drop hlive, fun u => ?_, ?_, fun u hu => h.older u ((hrun u).mp hu).1, h.sorted,
        fun u hu v hv => h.newest u hu v (hv.imp_left fun hv => ((hrun v).mp hv).1), ?_, h.cap, fun hq => ?_⟩
      · -- neither the queue nor the submission has the ticket
        rw [h.mem_drop hlive]
        show _ ↔ u ∈ (s.workers.set i .ending).filterMap MutationWorker.ticket? ∨ u ∈ s.queue ∨
          s.submitting = some u
        rw [hrun u]
        have hq : u ∈ s.queue → u ≠ t := fun hu heq => Nat.lt_irrefl _ (h.older t hmem t (heq ▸ hu))
        have ho : s.submitting = some u → u ≠ t := fun hu heq =>
          Nat.lt_irrefl _ (h.newest t (heq ▸ hu) t (.inl hmem))
        tauto
      · show ((s.workers.set i .ending).filterMap MutationWorker.ticket?).Nodup
        rw [hafter]
        simp only [MutationWorker.ticket?, Option.toList, List.append_assoc, List.singleton_append] at hnodup
        exact (List.nodup_cons.mp (List.nodup_middle.mp hnodup)).2
      · show s.active = (s.workers.set i .ending).length + _
        rw [List.length_set]
        exact h.slots
      · show (s.workers.set i .ending).length = _
        rw [List.length_set]
        exact h.full hq
    · cases hs
  · cases hs

/-- A worker that is done takes the front of the queue, or ends. -/
theorem Inv.next (h : s.Inv) {i : Nat} (hs : s.step (.next i) = some s') : s'.Inv := by
  simp only [MutationPool.step] at hs
  split at hs
  · -- the front of the queue is younger than what runs and older than what waits
    rename_i t queue hwi hq
    obtain rfl := Option.some.inj hs
    obtain ⟨pre, post, hsplit, hlen, hset, -, -⟩ := List.exists_split_of_getElem? hwi
    have hbefore : s.running =
        pre.filterMap MutationWorker.ticket? ++ post.filterMap MutationWorker.ticket? := by
      rw [running_split hsplit]
      simp [MutationWorker.ticket?]
    have hafter : (s.workers.set i (.running t)).filterMap MutationWorker.ticket? =
        pre.filterMap MutationWorker.ticket? ++ t :: post.filterMap MutationWorker.ticket? := by
      rw [hset, List.filterMap_append, List.filterMap_cons]
      rfl
    have hrun : ∀ u, u ∈ (s.workers.set i (.running t)).filterMap MutationWorker.ticket? ↔
        u ∈ s.running ∨ u = t := by
      intro u
      rw [hafter, hbefore]
      simp only [List.mem_append, List.mem_cons]
      tauto
    have hsorted := h.sorted
    rw [hq, List.pairwise_cons] at hsorted
    have hmem : ∀ u, u ∈ s.queue ↔ u = t ∨ u ∈ queue := fun u => by rw [hq, List.mem_cons]
    have hfront : ∀ u ∈ s.running, u.id < t.id := fun u hu => h.older u hu t ((hmem t).mpr (.inl rfl))
    refine ⟨h.tickets, fun u => ?_, ?_, fun u hu v hv => ?_, hsorted.2, fun u hu v hv => ?_, ?_,
      h.cap, fun _ => ?_⟩
    · rw [h.mem u, hmem u]
      show _ ↔ u ∈ (s.workers.set i (.running t)).filterMap MutationWorker.ticket? ∨ u ∈ queue ∨
        s.submitting = some u
      rw [hrun u]
      tauto
    · show ((s.workers.set i (.running t)).filterMap MutationWorker.ticket?).Nodup
      rw [hafter, List.nodup_middle, ← hbefore]
      exact List.nodup_cons.mpr ⟨fun ht => Nat.lt_irrefl _ (hfront t ht), h.nodup⟩
    · rcases (hrun u).mp hu with hu | rfl
      · exact h.older u hu v ((hmem v).mpr (.inr hv))
      · exact hsorted.1 v hv
    · refine h.newest u hu v ?_
      rcases hv with hv | hv
      · exact ((hrun v).mp hv).imp_right fun heq => (hmem v).mpr (.inl heq)
      · exact .inr ((hmem v).mpr (.inr hv))
    · show s.active = (s.workers.set i _).length + _
      rw [List.length_set]
      exact h.slots
    · show (s.workers.set i _).length = _
      rw [List.length_set]
      exact h.full (by rw [hq]; nofun)
  · -- with an empty queue the worker gives up its place
    rename_i hwi hq
    obtain rfl := Option.some.inj hs
    obtain ⟨pre, post, hsplit, hlen, -, herase, -⟩ := List.exists_split_of_getElem? hwi
    have hsame : (s.workers.eraseIdx i).filterMap MutationWorker.ticket? = s.running := by
      rw [herase, running_split hsplit, List.filterMap_append]
      simp [MutationWorker.ticket?]
    have hslots := h.slots
    rw [hsplit, List.length_append, List.length_cons] at hslots
    have hrun : ∀ u, u ∈ (s.workers.eraseIdx i).filterMap MutationWorker.ticket? ↔ u ∈ s.running := by
      rw [hsame]
      exact fun u => Iff.rfl
    refine ⟨h.tickets, fun u => ?_, ?_, fun u hu => h.older u ((hrun u).mp hu), h.sorted,
      fun u hu v hv => h.newest u hu v (hv.imp_left (hrun v).mp), ?_, Nat.le_trans (Nat.sub_le _ _) h.cap,
      fun hne => absurd hq hne⟩
    · rw [h.mem u]
      exact or_congr_left (hrun u).symm
    · show ((s.workers.eraseIdx i).filterMap MutationWorker.ticket?).Nodup
      rw [hsame]
      exact h.nodup
    · show s.active - 1 = (s.workers.eraseIdx i).length + s.order.elim 0 Submission.slots
      rw [herase, List.length_append]
      omega
  · cases hs

/-- Every event keeps the places. -/
theorem Inv.step (h : s.Inv) {e : MutationEvent} (hs : s.step e = some s') : s'.Inv := by
  cases e with
  | take paths => exact h.take hs
  | submit => exact h.submit hs
  | spawn ok => exact h.spawn hs
  | giveBack => exact h.giveBack hs
  | finish i => exact h.finish hs
  | next i => exact h.next hs

/-- And so does a whole run. -/
theorem Inv.steps {es : List MutationEvent} :
    ∀ {s s' : MutationPool}, s.Inv → s.steps es = some s' → s'.Inv := by
  induction es with
  | nil =>
    intro s s' h hs
    exact Option.some.inj hs ▸ h
  | cons e es ih =>
    intro s s' h hs
    obtain ⟨t, ht, hrest⟩ := Option.bind_eq_some_iff.mp hs
    exact ih (h.step ht) hrest

/-- The cap does not change. -/
theorem step_maxWorkers {e : MutationEvent} (hs : s.step e = some s') : s'.maxWorkers = s.maxWorkers := by
  cases e <;> simp only [MutationPool.step] at hs <;> repeat' split at hs
  all_goals first
    | exact Option.some.inj hs ▸ rfl
    | cases hs

/-- Nor over a run. -/
theorem steps_maxWorkers {es : List MutationEvent} :
    ∀ {s s' : MutationPool}, s.steps es = some s' → s'.maxWorkers = s.maxWorkers := by
  induction es with
  | nil => exact fun hs => Option.some.inj hs ▸ rfl
  | cons e es ih =>
    intro s s' hs
    obtain ⟨t, ht, hrest⟩ := Option.bind_eq_some_iff.mp hs
    rw [ih hrest, step_maxWorkers ht]

/-- A pool without workers. -/
theorem Inv.empty (maxWorkers : Nat) : Inv { maxWorkers } := by
  refine ⟨Tickets.Inv.empty, fun t => ?_, List.nodup_nil, nofun, List.Pairwise.nil, nofun, rfl, Nat.zero_le _,
    fun h => absurd rfl h⟩
  simp [running, submitting]

/-- The job of the oldest ticket has a worker; or it is the next one in the queue, or being handed
    to the pool, and no worker has a job. -/
theorem Inv.oldest_placed (h : s.Inv) (hpos : 0 < s.maxWorkers) {t : Taken} (ht : t ∈ s.tickets.live)
    (hold : ∀ u ∈ s.tickets.live, t.ticket.id ≤ u.ticket.id) :
    .running t.ticket ∈ s.workers ∨
      (s.running = [] ∧ s.workers ≠ [] ∧ s.queue.head? = some t.ticket) ∨
      (s.running = [] ∧ s.queue = [] ∧ s.submitting = some t.ticket) := by
  -- nothing that is older has a place
  have hleast : ∀ u, u ∈ s.running ∨ u ∈ s.queue ∨ s.submitting = some u → t.ticket.id ≤ u.id := by
    intro u hu
    obtain ⟨v, hv, rfl⟩ := List.mem_map.mp ((h.mem u).mpr hu)
    exact hold v hv
  -- with a worker, at the front of the queue, or not queued yet
  rcases (h.mem t.ticket).mp (List.mem_map_of_mem ht) with hrun | hqueue | hsub
  · obtain ⟨w, hw, hwt⟩ := List.mem_filterMap.mp hrun
    cases w with
    | running u => exact .inl (Option.some.inj hwt ▸ hw)
    | ending => cases hwt
  · refine .inr (.inl ⟨List.eq_nil_iff_forall_not_mem.mpr fun u hu => ?_, ?_, ?_⟩)
    · have hlt := h.older u hu _ hqueue
      have hle := hleast u (.inl hu)
      omega
    · have hfull := h.full (List.ne_nil_of_mem hqueue)
      exact List.length_pos_iff.mp (by omega)
    · cases hq : s.queue with
      | nil =>
        rw [hq] at hqueue
        cases hqueue
      | cons u queue =>
        have hsorted := h.sorted
        rw [hq] at hqueue hsorted
        rcases List.mem_cons.mp hqueue with heq | hmem
        · rw [heq]
          rfl
        · have hlt := (List.pairwise_cons.mp hsorted).1 _ hmem
          have hle := hleast u (.inr (.inl (by rw [hq]; exact List.mem_cons_self)))
          omega
  · refine .inr (.inr ⟨List.eq_nil_iff_forall_not_mem.mpr fun u hu => ?_,
      List.eq_nil_iff_forall_not_mem.mpr fun u hu => ?_, hsub⟩)
    · have hlt := h.newest _ hsub u (.inl hu)
      have hle := hleast u (.inl hu)
      omega
    · have hlt := h.newest _ hsub u (.inr hu)
      have hle := hleast u (.inr (.inl hu))
      omega

/-- In every run of tickets, one is ready when no earlier live one conflicts with it, the oldest is,
    and the map is empty once all are dropped. In every run of the pool, some job that has a worker
    is ready; or none has one, and the job of the oldest ticket is the next that a worker takes or is
    being handed over. -/
theorem tickets_order_changes :
    (∀ (es : List TicketEvent) (s : Tickets), Tickets.steps {} es = some s →
      (∀ t ∈ s.live, s.seq.ready t.ticket = true ↔
        ∀ u ∈ s.live, u.ticket.id < t.ticket.id → ¬ u.Conflicts t) ∧
      (∀ t ∈ s.live, (∀ u ∈ s.live, t.ticket.id ≤ u.ticket.id) → s.seq.ready t.ticket = true) ∧
      (s.live = [] → ∀ p, s.seq.queues p = none)) ∧
    (∀ (maxWorkers : Nat) (es : List MutationEvent) (s : MutationPool), 0 < maxWorkers →
      MutationPool.steps { maxWorkers } es = some s →
      (s.running ≠ [] → ∃ t ∈ s.running, s.tickets.seq.ready t = true) ∧
      (s.running = [] → s.tickets.live ≠ [] → ∃ t ∈ s.tickets.live, s.tickets.seq.ready t.ticket = true ∧
        ((s.workers ≠ [] ∧ s.queue.head? = some t.ticket) ∨
          (s.queue = [] ∧ s.submitting = some t.ticket)))) := by
  -- the tickets by themselves, and then with the pool
  constructor
  · intro es s hs
    have hinv := Tickets.Inv.empty.steps hs
    exact ⟨fun t ht => hinv.ready_iff ht, fun t ht => hinv.oldest_ready ht, hinv.queues_eq_none⟩
  · intro maxWorkers es s hpos hs
    have hinv := (Inv.empty maxWorkers).steps hs
    have hmax : 0 < s.maxWorkers := by
      rw [steps_maxWorkers hs]
      exact hpos
    constructor
    · -- what runs includes the oldest
      intro hrun
      obtain ⟨u, hu⟩ := List.exists_mem_of_ne_nil _ hrun
      have hlive : s.tickets.live ≠ [] := fun hnil => by
        have := (hinv.mem u).mpr (.inl hu)
        rw [hnil] at this
        cases this
      obtain ⟨t, ht, hold⟩ := hinv.tickets.exists_oldest hlive
      rcases hinv.oldest_placed hmax ht hold with hplace | ⟨hnone, -⟩ | ⟨hnone, -⟩
      · exact ⟨t.ticket, List.mem_filterMap.mpr ⟨_, hplace, rfl⟩, hinv.tickets.oldest_ready ht hold⟩
      · exact absurd hnone hrun
      · exact absurd hnone hrun
    · -- nothing runs, so that the oldest is the next one
      intro hrun hlive
      obtain ⟨t, ht, hold⟩ := hinv.tickets.exists_oldest hlive
      refine ⟨t, ht, hinv.tickets.oldest_ready ht hold, ?_⟩
      rcases hinv.oldest_placed hmax ht hold with hplace | ⟨-, hnext⟩ | ⟨-, hnext⟩
      · have : t.ticket ∈ s.running := List.mem_filterMap.mpr ⟨_, hplace, rfl⟩
        rw [hrun] at this
        cases this
      · exact .inl hnext
      · exact .inr hnext

/-- Two tickets on the same two paths, crossing, on one worker: the first has it and is ready. -/
theorem crossing_tickets_run : ∃ s, MutationPool.steps { maxWorkers := 1 }
      [.take [(["a"], .exclusive), (["b"], .exclusive)], .submit, .spawn true,
        .take [(["b"], .exclusive), (["a"], .exclusive)], .submit] = some s ∧
    s.queue.length = 1 ∧ ∃ t ∈ s.running, s.tickets.seq.ready t = true := by
  obtain ⟨s, hs, hq, hrun⟩ : ∃ s, MutationPool.steps { maxWorkers := 1 }
      [.take [(["a"], .exclusive), (["b"], .exclusive)], .submit, .spawn true,
        .take [(["b"], .exclusive), (["a"], .exclusive)], .submit] = some s ∧
      s.queue.length = 1 ∧ s.running.length = 1 := ⟨_, rfl, rfl, rfl⟩
  refine ⟨s, hs, hq, (tickets_order_changes.2 1 _ s (by decide) hs).1 fun hnil => ?_⟩
  rw [hnil] at hrun
  cases hrun

end MutationPool

end Ncrs
