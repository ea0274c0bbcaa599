import Ncrs.Native.LiveWorkers
import Ncrs.Spec.PathSeqCorrect
import Mathlib.Logic.Relation

/-!
# When two executors keep the order of changes

The order in which requests go out depends on little of the mount: which entries are queued
and in flight, what the replay works on, the live workers with their tickets, and the requests
sent so far. `View` is that much, `View.Ordered` the invariant, and each lemma below says that
one kind of step keeps it.

The central clause is `waits`: if a live worker may still send, every earlier entry on a common
path that may still send has a worker too, and a chain of waiting tickets leads from the later
to the earlier. A worker whose ticket is ready starts no such chain, so nothing earlier is left.

## Key results

- `View.Ordered.send`, `View.Ordered.replaySend`: a request that goes out keeps the invariant
- `View.Ordered.send_inOrder`, `View.Ordered.replaySend_inOrder`: and goes out in its turn
-/

namespace Ncrs

open Relation

/-- What the order of requests depends on. -/
structure View where
  /-- The queued entries, oldest first, and whether each is in flight. -/
  queue : List (SeqId × Bool)
  nextSeq : SeqId
  /-- The entry the replay works on, whether its request is out, and whether it landed. -/
  replaying : Option SeqId
  replaySent : Bool
  replayLanded : Bool
  workers : List Worker
  order : PathSeq
  asked : SeqId → Option MutationOp
  requests : List Request

/-- The worker sends its request without asking the journal again. -/
def Worker.committed (w : Worker) : Prop :=
  w.op.isUpload = false ∨ (w.phase ≠ .queued ∧ w.phase ≠ .admitted)

namespace View

variable {v : View}

/-- The operations of two entries touch a common path. -/
def Touching (v : View) (a b : SeqId) : Prop :=
  a = b ∨ ∃ oa ob p, v.asked a = some oa ∧ v.asked b = some ob ∧
    oa.touches p = true ∧ ob.touches p = true

/-- An entry touches its own paths. -/
theorem Touching.refl (v : View) (a : SeqId) : v.Touching a a := Or.inl rfl

/-- Touching goes both ways. -/
theorem Touching.symm {a b : SeqId} (h : v.Touching a b) : v.Touching b a := by
  rcases h with rfl | ⟨oa, ob, p, ha, hb, hpa, hpb⟩
  · exact Or.inl rfl
  · exact Or.inr ⟨ob, oa, p, hb, ha, hpb, hpa⟩

/-- The entry is queued. -/
def Queued (v : View) (a : SeqId) : Prop := ∃ f, (a, f) ∈ v.queue

/-- A request of the entry may still be sent or is out. -/
def MaySend (v : View) (a : SeqId) : Prop :=
  v.Queued a ∨ v.replaying = some a ∨ ∃ w ∈ v.workers, w.seq = a ∧ w.committed

/-- The worker of `a` waits for the ticket of the worker of `b`. -/
def Behind (v : View) (a b : SeqId) : Prop :=
  ∃ w ∈ v.workers, ∃ u ∈ v.workers, w.seq = a ∧ u.seq = b ∧ w.phase = .queued ∧
    u.ticket.id < w.ticket.id ∧ u.ticket.Conflicts w.ticket

/-- The invariant. -/
structure Ordered (v : View) : Prop where
  sorted : (v.queue.map (·.1)).Pairwise (· < ·)
  queue_lt : ∀ x ∈ v.queue, x.1 < v.nextSeq
  workers_lt : ∀ w ∈ v.workers, w.seq < v.nextSeq
  replaying_lt : ∀ c, v.replaying = some c → c < v.nextSeq
  requests_lt : ∀ r ∈ v.requests, r.seq < v.nextSeq
  distinct : (v.workers.map (·.seq)).Nodup
  tickets : v.order.Holds (v.workers.map (·.ticket))
  /-- The replay works on the front of the queue, or on an entry that is gone. -/
  front : ∀ c, v.replaying = some c → ∀ x ∈ v.queue, c ≤ x.1
  waits : ∀ w ∈ v.workers, w.committed ∨ v.Queued w.seq → ∀ b < w.seq, v.MaySend b →
    v.Touching b w.seq → TransGen v.Behind w.seq b
  /-- No other worker that may send touches what the replay works on. -/
  alone : ∀ c, v.replaying = some c → ∀ w ∈ v.workers, v.Touching c w.seq →
    ¬ w.committed ∧ (w.seq ≠ c → ¬ v.Queued w.seq)
  /-- An entry in flight is held by the replay or by an upload's worker, and only by one. -/
  flight : ∀ a, (a, true) ∈ v.queue → v.replaying = some a ∨
    ∃ w ∈ v.workers, w.seq = a ∧ w.committed
  busy : ∀ c f, v.replaying = some c → (c, f) ∈ v.queue → f = true
  held : ∀ w ∈ v.workers, w.op.isUpload = true → w.committed → ∀ f, (w.seq, f) ∈ v.queue → f = true
  /-- What may still be sent is not behind anything that was. -/
  inOrder : ∀ b, v.MaySend b → ∀ r ∈ v.requests, b < r.seq → ¬ v.Touching b r.seq
  wire : ∀ r ∈ v.requests, r.success = none →
    (∃ w ∈ v.workers, w.seq = r.seq ∧ ∃ dest m, w.phase = .sent dest m) ∨
    (v.replaying = some r.seq ∧ v.replaySent = true)
  once : ∀ r ∈ v.requests, r.success = some true →
    (v.replaying = some r.seq ∧ v.replayLanded = true ∨
      ¬ v.Queued r.seq ∧ v.replaying ≠ some r.seq) ∧
    ∀ w ∈ v.workers, w.seq = r.seq → ¬ w.committed

/-- The request of `b` goes out in its turn: earlier requests of `b` have failed, and those of
    other entries on a common path belong to earlier entries and have been answered. -/
def InTurn (v : View) (b : SeqId) : Prop :=
  (∀ r ∈ v.requests, r.seq = b → r.success = some false) ∧
  ∀ r ∈ v.requests, r.seq ≠ b → v.Touching r.seq b → r.seq < b ∧ r.success ≠ none

/-! ## Steps -/

/-- An entry is queued behind the others. -/
def record (v : View) (op : MutationOp) : View :=
  { v with
    queue := v.queue ++ [(v.nextSeq, false)]
    nextSeq := v.nextSeq + 1
    asked := fun n => if n = v.nextSeq then some op else v.asked n }

/-- A worker is submitted for entry `n`. -/
def submit (v : View) (n : SeqId) (op : MutationOp) : View :=
  { v with
    order := (v.order.ticket op.ticketPaths).2
    workers := v.workers ++ [{ seq := n, op := op, ticket := (v.order.ticket op.ticketPaths).1 }] }

/-- A worker of entry `c` gets to the phase. -/
def setPhase (v : View) (c : SeqId) (phase : WorkerPhase) : View :=
  { v with workers := v.workers.map fun w => if w.seq = c then { w with phase := phase } else w }

/-- The worker returns, with what it did to its entry and its request. -/
def endWorker (v : View) (w : Worker) (queue : List (SeqId × Bool)) (requests : List Request) :
    View :=
  { v with
    queue := queue
    requests := requests
    workers := v.workers.filter fun x => x.seq ≠ w.seq
    order := v.order.drop w.ticket }

/-- A request of entry `c` goes out. -/
def sendRequest (v : View) (c : SeqId) : View :=
  { v with requests := v.requests ++ [{ seq := c }] }

/-- A phase changes no worker's entry. -/
theorem setPhase_seqs (v : View) (c : SeqId) (phase : WorkerPhase) :
    (v.setPhase c phase).workers.map Worker.seq = v.workers.map Worker.seq := by
  unfold setPhase
  rw [List.map_map]
  refine List.map_congr_left fun x _ => ?_
  dsimp only [Function.comp]
  split <;> rfl

/-- A phase changes no worker's ticket. -/
theorem setPhase_tickets (v : View) (c : SeqId) (phase : WorkerPhase) :
    (v.setPhase c phase).workers.map Worker.ticket = v.workers.map Worker.ticket := by
  unfold setPhase
  rw [List.map_map]
  refine List.map_congr_left fun x _ => ?_
  dsimp only [Function.comp]
  split <;> rfl

/-- The in-flight mark of an entry is set. -/
def setMark (c : SeqId) (f : Bool) (x : SeqId × Bool) : SeqId × Bool :=
  if x.1 = c then (c, f) else x

/-- A mark changes no entry's number. -/
theorem map_fst_setMark (c : SeqId) (f : Bool) (q : List (SeqId × Bool)) :
    (q.map (setMark c f)).map (·.1) = q.map (·.1) := by
  rw [List.map_map]
  refine List.map_congr_left fun x _ => ?_
  dsimp only [Function.comp, setMark]
  split
  · rename_i h
    exact h.symm
  · rfl

/-- A number is queued when it is among the numbers of the queue. -/
theorem exists_mem_iff {q : List (SeqId × Bool)} {a : SeqId} :
    (∃ f, (a, f) ∈ q) ↔ a ∈ q.map (·.1) := by
  rw [List.mem_map]
  constructor
  · rintro ⟨f, hf⟩
    exact ⟨_, hf, rfl⟩
  · rintro ⟨x, hx, rfl⟩
    exact ⟨x.2, hx⟩

/-- Only the entry itself changes. -/
theorem mem_setMark {c : SeqId} {f : Bool} {q : List (SeqId × Bool)} {x : SeqId × Bool}
    (hx : x ∈ q.map (setMark c f)) : x ∈ q ∧ x.1 ≠ c ∨ x = (c, f) ∧ ∃ g, (c, g) ∈ q := by
  obtain ⟨y, hy, rfl⟩ := List.mem_map.mp hx
  unfold setMark
  split
  · rename_i h
    refine Or.inr ⟨rfl, y.2, ?_⟩
    rw [← h]
    exact hy
  · rename_i h
    exact Or.inl ⟨hy, h⟩

/-! ## The queue -/

/-- What is queued in a part of the queue is queued. -/
theorem Queued.of_sublist {q : List (SeqId × Bool)} (hq : q.Sublist v.queue) {a : SeqId}
    (h : View.Queued { v with queue := q } a) : v.Queued a := by
  obtain ⟨f, hf⟩ := h
  exact ⟨f, hq.subset hf⟩

namespace Ordered

/-- An entry has one worker. -/
theorem worker_inj (h : v.Ordered) {w u : Worker} (hw : w ∈ v.workers) (hu : u ∈ v.workers)
    (hseq : w.seq = u.seq) : w = u := List.inj_on_of_nodup_map h.distinct hw hu hseq

/-- A ticket has one worker. -/
theorem ticket_inj (h : v.Ordered) {w u : Worker} (hw : w ∈ v.workers) (hu : u ∈ v.workers)
    (hid : w.ticket.id = u.ticket.id) : w = u := by
  have hnodup : (v.workers.map (·.ticket.id)).Nodup := by
    have hs := h.tickets.sorted
    rw [List.pairwise_map] at hs
    rw [List.Nodup, List.pairwise_map]
    exact hs.imp fun hlt => Nat.ne_of_lt hlt
  exact List.inj_on_of_nodup_map hnodup hw hu hid

/-- Nothing earlier on a common path may still be sent once a committed worker is past its
    ticket. -/
theorem nothing_before (h : v.Ordered) {w : Worker} (hw : w ∈ v.workers) (hphase : w.phase ≠ .queued)
    (hlive : w.committed ∨ v.Queued w.seq) {b : SeqId} (hb : b < w.seq) (hsend : v.MaySend b) :
    ¬ v.Touching b w.seq := by
  intro ht
  obtain ⟨c, hc, -⟩ := TransGen.head'_iff.mp (h.waits w hw hlive b hb hsend ht)
  obtain ⟨w', hw', -, -, hseq, -, hq, -⟩ := hc
  rw [h.worker_inj hw' hw hseq] at hq
  exact hphase hq

/-- The queue loses entries. -/
theorem shrink (h : v.Ordered) {q : List (SeqId × Bool)} (hq : q.Sublist v.queue) :
    Ordered { v with queue := q } := by
  have hmay : ∀ {a}, MaySend { v with queue := q } a → v.MaySend a := by
    rintro a (ha | ha | ha)
    · exact Or.inl (ha.of_sublist hq)
    · exact Or.inr (Or.inl ha)
    · exact Or.inr (Or.inr ha)
  constructor
  · exact h.sorted.sublist (hq.map _)
  · exact fun x hx => h.queue_lt x (hq.subset hx)
  · exact h.workers_lt
  · exact h.replaying_lt
  · exact h.requests_lt
  · exact h.distinct
  · exact h.tickets
  · exact fun c hc x hx => h.front c hc x (hq.subset hx)
  · intro w hw hlive b hb hsend ht
    exact h.waits w hw (hlive.imp_right fun hl => hl.of_sublist hq) b hb (hmay hsend) ht
  · intro c hc w hw ht
    obtain ⟨h1, h2⟩ := h.alone c hc w hw ht
    exact ⟨h1, fun hne hl => h2 hne (hl.of_sublist hq)⟩
  · exact fun a ha => h.flight a (hq.subset ha)
  · exact fun c f hc hf => h.busy c f hc (hq.subset hf)
  · exact fun w hw hup hcom f hf => h.held w hw hup hcom f (hq.subset hf)
  · exact fun b hb => h.inOrder b (hmay hb)
  · exact h.wire
  · intro r hr hs
    obtain ⟨h1, h2⟩ := h.once r hr hs
    exact ⟨h1.imp_right fun ⟨hnot, hne⟩ => ⟨fun hl => hnot (hl.of_sublist hq), hne⟩, h2⟩

/-- An entry is queued behind the others. -/
theorem record (h : v.Ordered) (op : MutationOp) :
    (v.record op).Ordered := by
  -- what touched before is not about the new entry
  have htouch : ∀ {a b}, a < v.nextSeq → b < v.nextSeq → (v.record op).Touching a b →
      v.Touching a b := by
    rintro a b ha hb (rfl | ⟨oa, ob, p, hoa, hob, hpa, hpb⟩)
    · exact Or.inl rfl
    · change (if a = v.nextSeq then some op else v.asked a) = some oa at hoa
      change (if b = v.nextSeq then some op else v.asked b) = some ob at hob
      rw [if_neg (Nat.ne_of_lt ha)] at hoa
      rw [if_neg (Nat.ne_of_lt hb)] at hob
      exact Or.inr ⟨oa, ob, p, hoa, hob, hpa, hpb⟩
  have hmem : ∀ {x : SeqId × Bool}, x ∈ v.queue ++ [(v.nextSeq, false)] → x.1 ≠ v.nextSeq →
      x ∈ v.queue := by
    intro x hx hne
    rcases List.mem_append.mp hx with hx | hx
    · exact hx
    · exact absurd (congrArg Prod.fst (List.mem_singleton.mp hx)) hne
  -- and neither is what may send
  have hmay : ∀ {a}, a ≠ v.nextSeq → (v.record op).MaySend a → v.MaySend a := by
    rintro a hne (⟨f, hf⟩ | ha | ha)
    · exact Or.inl ⟨f, hmem hf hne⟩
    · exact Or.inr (Or.inl ha)
    · exact Or.inr (Or.inr ha)
  constructor
  · -- the new number is above all queued ones
    show ((v.queue ++ [(v.nextSeq, false)]).map (·.1)).Pairwise (· < ·)
    rw [List.map_append, List.pairwise_append]
    refine ⟨h.sorted, List.pairwise_singleton _ _, fun a ha b hb => ?_⟩
    obtain ⟨x, hx, rfl⟩ := List.mem_map.mp ha
    rw [List.mem_singleton.mp hb]
    exact h.queue_lt x hx
  · intro x hx
    rcases List.mem_append.mp hx with hx | hx
    · exact Nat.lt_succ_of_lt (h.queue_lt x hx)
    · rw [List.mem_singleton.mp hx]
      exact Nat.lt_succ_self _
  · exact fun w hw => Nat.lt_succ_of_lt (h.workers_lt w hw)
  · exact fun c hc => Nat.lt_succ_of_lt (h.replaying_lt c hc)
  · exact fun r hr => Nat.lt_succ_of_lt (h.requests_lt r hr)
  · exact h.distinct
  · exact h.tickets
  · intro c hc x hx
    rcases List.mem_append.mp hx with hx | hx
    · exact h.front c hc x hx
    · rw [List.mem_singleton.mp hx]
      exact Nat.le_of_lt (h.replaying_lt c hc)
  · -- `waits`: the new entry has no worker, and is behind everyone else's
    intro w hw hlive b hb hsend ht
    have hwn := h.workers_lt w hw
    have hbn : b < v.nextSeq := Nat.lt_trans hb hwn
    refine h.waits w hw (hlive.imp_right ?_) b hb (hmay (Nat.ne_of_lt hbn) hsend)
      (htouch hbn hwn ht)
    rintro ⟨f, hf⟩
    exact ⟨f, hmem hf (Nat.ne_of_lt hwn)⟩
  · intro c hc w hw ht
    have hwn := h.workers_lt w hw
    obtain ⟨h1, h2⟩ := h.alone c hc w hw (htouch (h.replaying_lt c hc) hwn ht)
    refine ⟨h1, fun hne hl => h2 hne ?_⟩
    obtain ⟨f, hf⟩ := hl
    exact ⟨f, hmem hf (Nat.ne_of_lt hwn)⟩
  · -- `flight`: it is not in flight
    intro a ha
    rcases List.mem_append.mp ha with ha | ha
    · exact h.flight a ha
    · cases List.mem_singleton.mp ha
  · intro c f hc hf
    exact h.busy c f hc (hmem hf (Nat.ne_of_lt (h.replaying_lt c hc)))
  · intro w hw hup hcom f hf
    exact h.held w hw hup hcom f (hmem hf (Nat.ne_of_lt (h.workers_lt w hw)))
  · -- `inOrder`: no request is behind it
    intro b hb r hr hlt ht
    have hrn := h.requests_lt r hr
    have hbn : b < v.nextSeq := Nat.lt_trans hlt hrn
    exact h.inOrder b (hmay (Nat.ne_of_lt hbn) hb) r hr hlt (htouch hbn hrn ht)
  · exact h.wire
  · -- `once`: an entry whose request landed is not the new one
    intro r hr hs
    obtain ⟨h1, h2⟩ := h.once r hr hs
    refine ⟨h1.imp_right fun ⟨hnot, hne⟩ => ⟨fun hl => hnot ?_, hne⟩, h2⟩
    obtain ⟨f, hf⟩ := hl
    exact ⟨f, hmem hf (Nat.ne_of_lt (h.requests_lt r hr))⟩

/-! ## Workers -/

/-- A worker is submitted for the newest entry `n`. Whatever may still be sent on a common
    path has a worker that the new ticket waits for, directly or through others. -/
theorem submit (h : v.Ordered) {n : SeqId} {op : MutationOp} (hn : n < v.nextSeq)
    (hworkers : ∀ w ∈ v.workers, w.seq < n) (hrequests : ∀ r ∈ v.requests, r.seq < n)
    (hwaits : ∀ b < n, v.MaySend b → v.Touching b n →
      ∃ u ∈ v.workers, u.ticket.Conflicts (v.order.ticket op.ticketPaths).1 ∧
        ReflTransGen v.Behind u.seq b)
    (halone : ∀ c, v.replaying = some c → ¬ v.Touching c n) :
    (v.submit n op).Ordered := by
  -- the workers are the old ones and the new one
  have hold : ∀ {w : Worker}, w ∈ (v.submit n op).workers → w.seq ≠ n → w ∈ v.workers := by
    intro w hw hne
    rcases List.mem_append.mp hw with hw | hw
    · exact hw
    · rw [List.mem_singleton.mp hw] at hne
      exact absurd rfl hne
  have hmay : ∀ {a}, a ≠ n → (v.submit n op).MaySend a → v.MaySend a := by
    rintro a hne (ha | ha | ⟨w, hw, rfl, hcom⟩)
    · exact Or.inl ha
    · exact Or.inr (Or.inl ha)
    · exact Or.inr (Or.inr ⟨w, hold hw hne, rfl, hcom⟩)
  have hbehind : ∀ a b, v.Behind a b → (v.submit n op).Behind a b := by
    rintro a b ⟨w, hw, u, hu, hrest⟩
    exact ⟨w, List.mem_append_left _ hw, u, List.mem_append_left _ hu, hrest⟩
  constructor
  · exact h.sorted
  · exact h.queue_lt
  · intro w hw
    rcases List.mem_append.mp hw with hw | hw
    · exact h.workers_lt w hw
    · rw [List.mem_singleton.mp hw]
      exact hn
  · exact h.replaying_lt
  · exact h.requests_lt
  · -- the new worker's entry is above all others'
    show ((v.workers ++ [_]).map Worker.seq).Nodup
    rw [List.map_append]
    refine List.Nodup.append h.distinct (List.nodup_singleton _) ?_
    intro a ha hb
    obtain ⟨w, hw, rfl⟩ := List.mem_map.mp ha
    have hlt := hworkers w hw
    rw [List.mem_singleton.mp hb] at hlt
    exact Nat.lt_irrefl _ hlt
  · show PathSeq.Holds _ ((v.workers ++ [_]).map Worker.ticket)
    rw [List.map_append]
    exact h.tickets.ticket op.ticketPaths
  · exact h.front
  · intro w hw hlive b hb hsend ht
    rcases List.mem_append.mp hw with hw | hw
    · have hwn := hworkers w hw
      have hbn : b ≠ n := Nat.ne_of_lt (Nat.lt_trans hb hwn)
      exact TransGen.mono hbehind _ _ (h.waits w hw hlive b hb (hmay hbn hsend) ht)
    · -- The new worker stands behind everything its ticket conflicts with.
      obtain rfl := List.mem_singleton.mp hw
      obtain ⟨u, hu, hconf, hchain⟩ := hwaits b hb (hmay (Nat.ne_of_lt hb) hsend) ht
      refine TransGen.head' ?_ (ReflTransGen.mono hbehind _ _ hchain)
      refine ⟨_, List.mem_append_right _ (List.mem_singleton_self _), u,
        List.mem_append_left _ hu, rfl, rfl, rfl, ?_, hconf⟩
      exact Nat.lt_succ_of_le (h.tickets.bounded _ (List.mem_map_of_mem hu))
  · -- `alone`: the new worker touches nothing of the replay
    intro c hc w hw ht
    rcases List.mem_append.mp hw with hw | hw
    · exact h.alone c hc w hw ht
    · rw [List.mem_singleton.mp hw] at ht
      exact absurd ht (halone c hc)
  · intro a ha
    refine (h.flight a ha).imp_right ?_
    rintro ⟨w, hw, hrest⟩
    exact ⟨w, List.mem_append_left _ hw, hrest⟩
  · exact h.busy
  · intro w hw hup hcom f hf
    rcases List.mem_append.mp hw with hw | hw
    · exact h.held w hw hup hcom f hf
    · -- The new worker has claimed nothing yet.
      obtain rfl := List.mem_singleton.mp hw
      rcases hcom with hcom | ⟨hcom, -⟩
      · rw [hup] at hcom
        cases hcom
      · exact absurd rfl hcom
  · -- `inOrder`: its entry is behind all requests
    intro b hb r hr hlt ht
    have hbn : b ≠ n := Nat.ne_of_lt (Nat.lt_trans hlt (hrequests r hr))
    exact h.inOrder b (hmay hbn hb) r hr hlt ht
  · intro r hr hs
    refine (h.wire r hr hs).imp_left ?_
    rintro ⟨w, hw, hrest⟩
    exact ⟨w, List.mem_append_left _ hw, hrest⟩
  · intro r hr hs
    obtain ⟨h1, h2⟩ := h.once r hr hs
    refine ⟨h1, fun w hw hseq => h2 w (hold hw ?_) hseq⟩
    rw [hseq]
    exact Nat.ne_of_lt (hrequests r hr)

theorem mem_setPhase (h : v.Ordered) {w : Worker} (hw : w ∈ v.workers) {phase : WorkerPhase}
    {x : Worker} : x ∈ (v.setPhase w.seq phase).workers ↔
      (x ∈ v.workers ∧ x.seq ≠ w.seq) ∨ x = { w with phase := phase } := by
  unfold setPhase
  rw [List.mem_map]
  constructor
  · rintro ⟨y, hy, hx⟩
    split at hx
    · rename_i heq
      rw [h.worker_inj hy hw heq] at hx
      exact Or.inr hx.symm
    · rename_i hne
      rw [← hx]
      exact Or.inl ⟨hy, hne⟩
  · rintro (⟨hx, hne⟩ | rfl)
    · exact ⟨x, hx, if_neg hne⟩
    · exact ⟨w, hw, if_pos rfl⟩

/-- A worker that does not wait for its ticket any more starts no chain. -/
theorem no_behind (h : v.Ordered) {w : Worker} (hw : w ∈ v.workers)
    (hphase : w.phase ≠ .queued ∨ v.order.ready w.ticket = true) (b : SeqId) :
    ¬ v.Behind w.seq b := by
  rintro ⟨x, hx, u, hu, hseq, -, hq, hlt, hconf⟩
  rw [h.worker_inj hx hw hseq] at hq hlt hconf
  rcases hphase with hphase | hready
  · exact hphase hq
  · exact h.tickets.ready (List.mem_map_of_mem hu) hready hlt hconf

theorem behind_setPhase (h : v.Ordered) {w : Worker} (hw : w ∈ v.workers) {phase : WorkerPhase}
    (hready : w.phase ≠ .queued ∨ v.order.ready w.ticket = true) :
    ∀ a b, v.Behind a b → (v.setPhase w.seq phase).Behind a b := by
  rintro a b ⟨x, hx, u, hu, rfl, rfl, hq, hlt, hconf⟩
  have hxw : x.seq ≠ w.seq := by
    intro heq
    exact h.no_behind hw hready u.seq ⟨x, hx, u, hu, heq, rfl, hq, hlt, hconf⟩
  refine ⟨x, (h.mem_setPhase hw).mpr (Or.inl ⟨hx, hxw⟩), ?_⟩
  by_cases huw : u.seq = w.seq
  · obtain rfl := h.worker_inj hu hw huw
    exact ⟨_, (h.mem_setPhase hw).mpr (Or.inr rfl), rfl, rfl, hq, hlt, hconf⟩
  · exact ⟨u, (h.mem_setPhase hw).mpr (Or.inl ⟨hu, huw⟩), rfl, rfl, hq, hlt, hconf⟩

/-- A worker goes on to a later phase, as committed as it was. -/
theorem setPhase (h : v.Ordered) {w : Worker} (hw : w ∈ v.workers) {phase : WorkerPhase}
    (hready : w.phase ≠ .queued ∨ v.order.ready w.ticket = true)
    (hcom : Worker.committed { w with phase := phase } ↔ w.committed)
    (hsent : ∀ dest m, w.phase = .sent dest m → ∃ dest m, phase = .sent dest m) :
    (v.setPhase w.seq phase).Ordered := by
  have hmem : ∀ {x}, x ∈ (v.setPhase w.seq phase).workers ↔
      (x ∈ v.workers ∧ x.seq ≠ w.seq) ∨ x = { w with phase := phase } := h.mem_setPhase hw
  -- what is committed stays so
  have hcommitted : ∀ {a}, (∃ x ∈ (v.setPhase w.seq phase).workers, x.seq = a ∧ x.committed) ↔
      ∃ x ∈ v.workers, x.seq = a ∧ x.committed := by
    intro a
    constructor
    · rintro ⟨x, hx, rfl, hc⟩
      rcases hmem.mp hx with ⟨hx, -⟩ | rfl
      · exact ⟨x, hx, rfl, hc⟩
      · exact ⟨w, hw, rfl, hcom.mp hc⟩
    · rintro ⟨x, hx, rfl, hc⟩
      by_cases hxw : x.seq = w.seq
      · rw [h.worker_inj hx hw hxw] at hc ⊢
        exact ⟨_, hmem.mpr (Or.inr rfl), rfl, hcom.mpr hc⟩
      · exact ⟨x, hmem.mpr (Or.inl ⟨hx, hxw⟩), rfl, hc⟩
  have hmay : ∀ {a}, (v.setPhase w.seq phase).MaySend a → v.MaySend a := by
    rintro a (ha | ha | ha)
    · exact Or.inl ha
    · exact Or.inr (Or.inl ha)
    · exact Or.inr (Or.inr (hcommitted.mp ha))
  -- Every worker of the new view stands for one of the old, with the same entry and ticket.
  have hback : ∀ {x}, x ∈ (v.setPhase w.seq phase).workers →
      ∃ y ∈ v.workers, y.seq = x.seq ∧ y.op = x.op ∧ (y.committed ↔ x.committed) := by
    intro x hx
    rcases hmem.mp hx with ⟨hx, -⟩ | rfl
    · exact ⟨x, hx, rfl, rfl, Iff.rfl⟩
    · exact ⟨w, hw, rfl, rfl, hcom.symm⟩
  constructor
  · exact h.sorted
  · exact h.queue_lt
  · intro x hx
    obtain ⟨y, hy, hseq, -⟩ := hback hx
    rw [← hseq]
    exact h.workers_lt y hy
  · exact h.replaying_lt
  · exact h.requests_lt
  · rw [setPhase_seqs]
    exact h.distinct
  · rw [setPhase_tickets]
    exact h.tickets
  · exact h.front
  · -- `waits`: whoever waited for a worker still does
    intro x hx hlive b hb hsend ht
    obtain ⟨y, hy, hseq, -, hc⟩ := hback hx
    rw [← hseq] at hlive hb ht ⊢
    exact TransGen.mono (h.behind_setPhase hw hready) _ _
      (h.waits y hy (hlive.imp_left hc.mpr) b hb (hmay hsend) ht)
  · intro c hc x hx ht
    obtain ⟨y, hy, hseq, -, hcom⟩ := hback hx
    rw [← hseq] at ht ⊢
    rw [← hcom]
    exact h.alone c hc y hy ht
  · intro a ha
    exact (h.flight a ha).imp_right hcommitted.mpr
  · exact h.busy
  · intro x hx hup hcx f hf
    obtain ⟨y, hy, hseq, hop, hc⟩ := hback hx
    rw [← hseq] at hf
    exact h.held y hy (hop ▸ hup) (hc.mpr hcx) f hf
  · exact fun b hb => h.inOrder b (hmay hb)
  · -- `wire`: a worker with its request out stays so
    intro r hr hs
    refine (h.wire r hr hs).imp_left ?_
    rintro ⟨x, hx, hseq, dest, m, hp⟩
    by_cases hxw : x.seq = w.seq
    · rw [h.worker_inj hx hw hxw] at hseq hp
      exact ⟨_, hmem.mpr (Or.inr rfl), hseq, hsent dest m hp⟩
    · exact ⟨x, hmem.mpr (Or.inl ⟨hx, hxw⟩), hseq, dest, m, hp⟩
  · intro r hr hs
    obtain ⟨h1, h2⟩ := h.once r hr hs
    refine ⟨h1, fun x hx hseq => ?_⟩
    obtain ⟨y, hy, hys, -, hc⟩ := hback hx
    rw [← hc]
    exact h2 y hy (hys.trans hseq)

/-- An upload's worker past its ticket claims its entry. -/
theorem claimUpload (h : v.Ordered) {w : Worker} (hw : w ∈ v.workers) (hphase : w.phase = .admitted)
    (hup : w.op.isUpload = true) (hfree : (w.seq, false) ∈ v.queue) :
    Ordered { v.setPhase w.seq .claimed with queue := v.queue.map (setMark w.seq true) } := by
  have hmem : ∀ {x}, x ∈ (v.setPhase w.seq .claimed).workers ↔
      (x ∈ v.workers ∧ x.seq ≠ w.seq) ∨ x = { w with phase := .claimed } := h.mem_setPhase hw
  have hnot : ¬ w.committed := by
    rintro (hc | ⟨-, hc⟩)
    · rw [hup] at hc
      cases hc
    · exact hc hphase
  have hready : w.phase ≠ .queued ∨ v.order.ready w.ticket = true := by
    rw [hphase]
    exact Or.inl WorkerPhase.noConfusion
  -- The replay works on nothing the worker touches, since it would hold or exclude the entry.
  have halone : ∀ c, v.replaying = some c → ¬ v.Touching c w.seq := by
    intro c hc ht
    by_cases hwc : w.seq = c
    · have := h.busy c false hc (hwc ▸ hfree)
      cases this
    · exact (h.alone c hc w hw ht).2 hwc ⟨false, hfree⟩
  have hqueued : ∀ {a}, (∃ f, (a, f) ∈ v.queue.map (setMark w.seq true)) ↔ v.Queued a := by
    intro a
    rw [exists_mem_iff, map_fst_setMark, ← exists_mem_iff]
    exact Iff.rfl
  have hmay : ∀ {a}, MaySend { v.setPhase w.seq .claimed with
      queue := v.queue.map (setMark w.seq true) } a → v.MaySend a := by
    rintro a (ha | ha | ⟨x, hx, rfl, hc⟩)
    · exact Or.inl (hqueued.mp ha)
    · exact Or.inr (Or.inl ha)
    · rcases hmem.mp hx with ⟨hx, -⟩ | rfl
      · exact Or.inr (Or.inr ⟨x, hx, rfl, hc⟩)
      · exact Or.inl ⟨false, hfree⟩
  constructor
  · show ((v.queue.map (setMark w.seq true)).map (·.1)).Pairwise (· < ·)
    rw [map_fst_setMark]
    exact h.sorted
  · intro x hx
    rcases mem_setMark hx with ⟨hx, -⟩ | ⟨rfl, g, hg⟩
    · exact h.queue_lt x hx
    · exact h.queue_lt (w.seq, g) hg
  · intro x hx
    rcases hmem.mp hx with ⟨hx, -⟩ | rfl
    · exact h.workers_lt x hx
    · exact h.workers_lt w hw
  · exact h.replaying_lt
  · exact h.requests_lt
  · show ((v.setPhase w.seq .claimed).workers.map Worker.seq).Nodup
    rw [setPhase_seqs]
    exact h.distinct
  · show PathSeq.Holds v.order ((v.setPhase w.seq .claimed).workers.map Worker.ticket)
    rw [setPhase_tickets]
    exact h.tickets
  · -- the replay's entry stays in front
    intro c hc x hx
    rcases mem_setMark hx with ⟨hx, -⟩ | ⟨rfl, g, hg⟩
    · exact h.front c hc x hx
    · exact h.front c hc (w.seq, g) hg
  · intro x hx hlive b hb hsend ht
    refine TransGen.mono (h.behind_setPhase hw hready) _ _ ?_
    rcases hmem.mp hx with ⟨hx, -⟩ | rfl
    · exact h.waits x hx (hlive.imp_right hqueued.mp) b hb (hmay hsend) ht
    · exact h.waits w hw (Or.inr ⟨false, hfree⟩) b hb (hmay hsend) ht
  · intro c hc x hx ht
    rcases hmem.mp hx with ⟨hx, -⟩ | rfl
    · obtain ⟨h1, h2⟩ := h.alone c hc x hx ht
      exact ⟨h1, fun hne hl => h2 hne (hqueued.mp hl)⟩
    · exact absurd ht (halone c hc)
  · -- `flight`: the claimed entry is the worker's
    intro a ha
    rcases mem_setMark ha with ⟨ha, hne⟩ | ⟨ha, -⟩
    · refine (h.flight a ha).imp_right ?_
      rintro ⟨x, hx, rfl, hc⟩
      exact ⟨x, hmem.mpr (Or.inl ⟨hx, hne⟩), rfl, hc⟩
    · rw [(Prod.mk.inj ha).1]
      refine Or.inr ⟨_, hmem.mpr (Or.inr rfl), rfl, Or.inr ⟨?_, ?_⟩⟩
      · exact WorkerPhase.noConfusion
      · exact WorkerPhase.noConfusion
  · -- `busy`: the replay's entry was in flight already
    intro c f hc hf
    rcases mem_setMark hf with ⟨hf, -⟩ | ⟨hf, -⟩
    · exact h.busy c f hc hf
    · exact (Prod.mk.inj hf).2
  · intro x hx hupx hcx f hf
    rcases mem_setMark hf with ⟨hf, hne⟩ | ⟨hf, -⟩
    · rcases hmem.mp hx with ⟨hx, -⟩ | rfl
      · exact h.held x hx hupx hcx f hf
      · exact absurd rfl hne
    · exact (Prod.mk.inj hf).2
  · exact fun b hb => h.inOrder b (hmay hb)
  · -- `wire`: the worker had sent nothing
    intro r hr hs
    refine (h.wire r hr hs).imp_left ?_
    rintro ⟨x, hx, hseq, dest, m, hp⟩
    refine ⟨x, hmem.mpr (Or.inl ⟨hx, fun heq => ?_⟩), hseq, dest, m, hp⟩
    rw [h.worker_inj hx hw heq, hphase] at hp
    cases hp
  · intro r hr hs
    obtain ⟨h1, h2⟩ := h.once r hr hs
    refine ⟨h1.imp_right fun ⟨hnq, hne⟩ => ⟨fun hl => hnq (hqueued.mp hl), hne⟩, fun x hx hseq => ?_⟩
    rcases hmem.mp hx with ⟨hx, -⟩ | rfl
    · exact h2 x hx hseq
    · -- A queued entry that landed is the replay's, which the worker could not have claimed.
      exfalso
      rcases h1 with ⟨hr, -⟩ | ⟨hnq, -⟩
      · exact halone _ hr (Or.inl hseq.symm)
      · exact hnq (hseq ▸ ⟨false, hfree⟩)

/-- An entry in flight while its upload's worker has not claimed it is the replay's. -/
theorem held_by_replay (h : v.Ordered) {w : Worker} (hw : w ∈ v.workers)
    (hup : w.op.isUpload = true) (hphase : w.phase = .queued ∨ w.phase = .admitted)
    (hf : (w.seq, true) ∈ v.queue) : v.replaying = some w.seq := by
  rcases h.flight _ hf with hrep | ⟨x, hx, hseq, hcom⟩
  · exact hrep
  · rw [h.worker_inj hx hw hseq] at hcom
    rcases hcom with hcom | ⟨h1, h2⟩
    · rw [hup] at hcom
      cases hcom
    · exact absurd hphase (not_or.mpr ⟨h1, h2⟩)

/-- A worker past its ticket returns. Its entry may stay queued only if the replay has it, or
    if no later worker on a common path is left (`hback`); its request has been answered. -/
theorem endWorker (h : v.Ordered) {w : Worker} (hw : w ∈ v.workers) (hphase : w.phase ≠ .queued)
    {q : List (SeqId × Bool)} {rs : List Request}
    (hsub : (q.map (·.1)).Sublist (v.queue.map (·.1)))
    (hq : ∀ x ∈ q, x ∈ v.queue ∧ (x.1 = w.seq → v.replaying = some w.seq) ∨
      x = (w.seq, false) ∧ v.replaying ≠ some w.seq)
    (hback : (∃ f, (w.seq, f) ∈ q) → v.replaying ≠ some w.seq → ∀ x ∈ v.workers, w.seq < x.seq →
      x.committed ∨ v.Queued x.seq → ¬ v.Touching w.seq x.seq)
    (hrs : ∀ r ∈ rs,
      (r ∈ v.requests ∧ (r.seq = w.seq → r.success = none →
        v.replaying = some w.seq ∧ v.replaySent = true)) ∨
      (r.seq = w.seq ∧ (∃ r' ∈ v.requests, r'.seq = w.seq) ∧ (r.success = some false ∨
        r.success = some true ∧ ¬ (∃ f, (w.seq, f) ∈ q) ∧ v.replaying ≠ some w.seq))) :
    (v.endWorker w q rs).Ordered := by
  -- the other workers stay, and what may send could do so before
  have hmem : ∀ {x}, x ∈ (v.endWorker w q rs).workers ↔ x ∈ v.workers ∧ x.seq ≠ w.seq := by
    intro x
    unfold View.endWorker
    rw [List.mem_filter]
    simp
  have hqueued : ∀ {a}, (v.endWorker w q rs).Queued a → v.Queued a := by
    intro a ha
    exact exists_mem_iff.mpr (hsub.subset (exists_mem_iff.mp ha))
  have hmay : ∀ {a}, (v.endWorker w q rs).MaySend a → v.MaySend a := by
    rintro a (ha | ha | ⟨x, hx, hxa, hc⟩)
    · exact Or.inl (hqueued ha)
    · exact Or.inr (Or.inl ha)
    · exact Or.inr (Or.inr ⟨x, (hmem.mp hx).1, hxa, hc⟩)
  have hreq : ∀ {r}, r ∈ rs → ∃ r' ∈ v.requests, r'.seq = r.seq := by
    intro r hr
    rcases hrs r hr with ⟨hr, -⟩ | ⟨hseq, ⟨r', hr', hs⟩, -⟩
    · exact ⟨r, hr, rfl⟩
    · exact ⟨r', hr', hs.trans hseq.symm⟩
  -- No chain goes through the worker, since it does not wait.
  have hchain : ∀ {a b}, b ≠ w.seq → TransGen v.Behind a b →
      TransGen (v.endWorker w q rs).Behind a b := by
    intro a b hb hab
    -- an edge of the chain that ends elsewhere stays
    have hedge : ∀ {x y}, y ≠ w.seq → v.Behind x y → (v.endWorker w q rs).Behind x y := by
      rintro x y hy hxy
      have hx : x ≠ w.seq := by
        rintro rfl
        exact h.no_behind hw (Or.inl hphase) y hxy
      obtain ⟨x', hx', y', hy', rfl, rfl, hrest⟩ := hxy
      exact ⟨x', hmem.mpr ⟨hx', hx⟩, y', hmem.mpr ⟨hy', hy⟩, rfl, rfl, hrest⟩
    induction hab using TransGen.head_induction_on with
    | single hac => exact TransGen.single (hedge hb hac)
    | head hac hcb ih =>
      refine TransGen.head (hedge ?_ hac) ih
      rintro rfl
      obtain ⟨d, hd, -⟩ := TransGen.head'_iff.mp hcb
      exact h.no_behind hw (Or.inl hphase) d hd
  constructor
  · -- the queue, the workers and the tickets are parts of the old ones
    exact h.sorted.sublist hsub
  · intro x hx
    obtain ⟨f, hf⟩ := hqueued (a := x.1) ⟨x.2, hx⟩
    exact h.queue_lt (x.1, f) hf
  · exact fun x hx => h.workers_lt x (hmem.mp hx).1
  · exact h.replaying_lt
  · intro r hr
    obtain ⟨r', hr', hs⟩ := hreq hr
    rw [← hs]
    exact h.requests_lt r' hr'
  · exact h.distinct.sublist ((List.filter_sublist).map _)
  · have hfilter : (v.workers.filter fun x => x.seq ≠ w.seq).map Worker.ticket =
        (v.workers.map Worker.ticket).filter fun t => t.id ≠ w.ticket.id := by
      rw [List.filter_map]
      congr 1
      refine List.filter_congr fun x hx => ?_
      have hiff : x.seq = w.seq ↔ x.ticket.id = w.ticket.id :=
        ⟨fun hs => by rw [h.worker_inj hx hw hs], fun hi => by rw [h.ticket_inj hx hw hi]⟩
      simp [hiff]
    show (v.order.drop w.ticket).Holds ((v.workers.filter fun x => x.seq ≠ w.seq).map Worker.ticket)
    rw [hfilter]
    exact h.tickets.drop (List.mem_map_of_mem hw)
  · intro c hc x hx
    obtain ⟨f, hf⟩ := hqueued (a := x.1) ⟨x.2, hx⟩
    exact h.front c hc (x.1, f) hf
  · -- `waits`
    intro x hx hlive b hb hsend ht
    obtain ⟨hx, hne⟩ := hmem.mp hx
    have hlive := hlive.imp_right hqueued
    by_cases hbw : b = w.seq
    · -- The worker's entry itself: it is the replay's, or it was given back.
      subst hbw
      exfalso
      by_cases hrep : v.replaying = some w.seq
      · obtain ⟨h1, h2⟩ := h.alone _ hrep x hx ht
        exact hlive.elim h1 (h2 hne)
      · refine hback ?_ hrep x hx hb hlive ht
        rcases hsend with hsend | hsend | ⟨y, hy, hyw, -⟩
        · exact hsend
        · exact absurd hsend hrep
        · exact absurd hyw (hmem.mp hy).2
    · exact hchain hbw (h.waits x hx hlive b hb (hmay hsend) ht)
  · intro c hc x hx ht
    obtain ⟨h1, h2⟩ := h.alone c hc x (hmem.mp hx).1 ht
    exact ⟨h1, fun hne hl => h2 hne (hqueued hl)⟩
  · -- `flight`: an entry in flight is another worker's, or the replay's
    intro a ha
    rcases hq _ ha with ⟨hx, hrep⟩ | ⟨hx, -⟩
    · by_cases haw : a = w.seq
      · subst haw
        exact Or.inl (hrep rfl)
      · refine (h.flight a hx).imp_right ?_
        rintro ⟨y, hy, rfl, hc⟩
        exact ⟨y, hmem.mpr ⟨hy, haw⟩, rfl, hc⟩
    · cases hx
  · intro c f hc hf
    rcases hq _ hf with ⟨hx, -⟩ | ⟨hx, hne⟩
    · exact h.busy c f hc hx
    · rw [(Prod.mk.inj hx).1] at hc
      exact absurd hc hne
  · intro x hx hup hcx f hf
    obtain ⟨hx, hne⟩ := hmem.mp hx
    rcases hq _ hf with ⟨hf, -⟩ | ⟨hf, -⟩
    · exact h.held x hx hup hcx f hf
    · exact absurd (Prod.mk.inj hf).1 hne
  · intro b hb r hr hlt ht
    obtain ⟨r', hr', hs⟩ := hreq hr
    rw [← hs] at hlt ht
    exact h.inOrder b (hmay hb) r' hr' hlt ht
  · -- `wire`: no request of the worker is out without an answer, unless the replay has it
    intro r hr hs
    rcases hrs r hr with ⟨hr, hseq⟩ | ⟨-, -, hok | ⟨hok, -⟩⟩
    · rcases h.wire r hr hs with ⟨x, hx, hxr, hsent⟩ | hrep
      · by_cases hxw : x.seq = w.seq
        · exact Or.inr (hxr ▸ hxw ▸ hseq (hxr ▸ hxw) hs)
        · exact Or.inl ⟨x, hmem.mpr ⟨hx, hxw⟩, hxr, hsent⟩
      · exact Or.inr hrep
    · rw [hs] at hok
      cases hok
    · rw [hs] at hok
      cases hok
  · -- `once`
    intro r hr hs
    -- an old request
    rcases hrs r hr with ⟨hr, -⟩ | ⟨hseq, -, hok | ⟨-, hnq, hne⟩⟩
    · obtain ⟨h1, h2⟩ := h.once r hr hs
      exact ⟨h1.imp_right fun ⟨hnq, hne⟩ => ⟨fun hl => hnq (hqueued hl), hne⟩,
        fun x hx hxr => h2 x (hmem.mp hx).1 hxr⟩
    · rw [hs] at hok
      cases hok
    · -- the worker's own, which landed: its entry is gone
      rw [hseq]
      exact ⟨Or.inr ⟨hnq, hne⟩, fun x hx hxr => absurd hxr (hmem.mp hx).2⟩

/-! ## Requests -/

/-- A request goes out when nothing earlier on a common path may still be sent. -/
theorem sendRequest (h : v.Ordered) {c : SeqId} (hc : c < v.nextSeq)
    (hfirst : ∀ b < c, v.MaySend b → ¬ v.Touching b c)
    (hwire : (∃ w ∈ v.workers, w.seq = c ∧ ∃ dest m, w.phase = .sent dest m) ∨
      (v.replaying = some c ∧ v.replaySent = true)) : (v.sendRequest c).Ordered := by
  -- the requests are the old ones and the new one
  have hmem : ∀ {r}, r ∈ (v.sendRequest c).requests → r ∈ v.requests ∨ r = { seq := c } := by
    intro r hr
    exact (List.mem_append.mp hr).imp_right List.mem_singleton.mp
  constructor
  · exact h.sorted
  · exact h.queue_lt
  · exact h.workers_lt
  · exact h.replaying_lt
  · intro r hr
    rcases hmem hr with hr | rfl
    · exact h.requests_lt r hr
    · exact hc
  · exact h.distinct
  · exact h.tickets
  · exact h.front
  · exact h.waits
  · exact h.alone
  · exact h.flight
  · exact h.busy
  · exact h.held
  · -- `inOrder`: nothing before the new request touches it
    intro b hb r hr hlt ht
    rcases hmem hr with hr | rfl
    · exact h.inOrder b hb r hr hlt ht
    · exact hfirst b hlt hb ht
  · -- `wire`: the new request is its sender's
    intro r hr hs
    rcases hmem hr with hr | rfl
    · exact h.wire r hr hs
    · exact hwire
  · -- `once`: the new request has no answer yet
    intro r hr hs
    rcases hmem hr with hr | rfl
    · exact h.once r hr hs
    · cases hs

/-- The replay's request is on its way. -/
theorem markSent (h : v.Ordered) : Ordered { v with replaySent := true } :=
  { h with
    waits := h.waits
    alone := h.alone
    inOrder := h.inOrder
    once := h.once
    wire := fun r hr hs => (h.wire r hr hs).imp_right fun hrep => ⟨hrep.1, rfl⟩ }

/-- A live worker's request goes out in its turn. -/
theorem send_inTurn (h : v.Ordered) {w : Worker} (hw : w ∈ v.workers) (hphase : w.phase = .claimed) :
    v.InTurn w.seq := by
  have hcom : w.committed := by
    refine Or.inr ⟨?_, ?_⟩ <;> rw [hphase] <;> exact WorkerPhase.noConfusion
  have hqueued : w.phase ≠ .queued := by
    rw [hphase]
    exact WorkerPhase.noConfusion
  have hmay : v.MaySend w.seq := Or.inr (Or.inr ⟨w, hw, rfl, hcom⟩)
  -- The replay is at nothing the worker touches.
  have halone : ∀ c, v.replaying = some c → ¬ v.Touching c w.seq :=
    fun c hc ht => (h.alone c hc w hw ht).1 hcom
  constructor
  · -- an earlier request of the entry: not out, since the worker has sent none; and not landed, since
    -- it is committed
    intro r hr hseq
    cases hs : r.success with
    | none =>
      rcases h.wire r hr hs with ⟨x, hx, hxr, dest, m, hp⟩ | ⟨hrep, -⟩
      · rw [h.worker_inj hx hw (hxr.trans hseq), hphase] at hp
        cases hp
      · exact absurd (Or.inl hseq) (halone _ hrep)
    | some ok =>
      cases ok with
      | false => rfl
      | true => exact absurd hcom ((h.once r hr hs).2 w hw hseq.symm)
  · -- one of another entry on a common path: earlier, since it is in order, and answered, since nothing
    -- before may send
    intro r hr hne ht
    have hlt : r.seq < w.seq := by
      rcases Nat.lt_or_gt_of_ne hne with hlt | hlt
      · exact hlt
      · exact absurd ht.symm (h.inOrder _ hmay r hr hlt)
    refine ⟨hlt, fun hs => ?_⟩
    rcases h.wire r hr hs with ⟨x, hx, hxr, dest, m, hp⟩ | ⟨hrep, -⟩
    · refine h.nothing_before hw hqueued (Or.inl hcom) hlt ?_ ht
      refine Or.inr (Or.inr ⟨x, hx, hxr, Or.inr ⟨?_, ?_⟩⟩) <;> rw [hp] <;>
        exact WorkerPhase.noConfusion
    · exact halone _ hrep ht

/-- So does the replay's, unless it is out already or has landed. -/
theorem replaySend_inTurn (h : v.Ordered) {c : SeqId} (hc : v.replaying = some c)
    (hsent : v.replaySent = false) (hlanded : v.replayLanded = false) : v.InTurn c := by
  have hmay : v.MaySend c := Or.inr (Or.inl hc)
  -- no worker that touches the entry has a request out
  have hnot : ∀ x ∈ v.workers, v.Touching c x.seq → ∀ dest m, x.phase ≠ .sent dest m := by
    intro x hx ht dest m hp
    refine (h.alone c hc x hx ht).1 (Or.inr ⟨?_, ?_⟩) <;> rw [hp] <;> exact WorkerPhase.noConfusion
  constructor
  · -- an earlier request of the entry: none is out, and none has landed
    intro r hr hseq
    cases hs : r.success with
    | none =>
      rcases h.wire r hr hs with ⟨x, hx, hxr, dest, m, hp⟩ | ⟨-, hout⟩
      · exact absurd hp (hnot x hx (Or.inl (hxr.trans hseq).symm) dest m)
      · rw [hsent] at hout
        cases hout
    | some ok =>
      cases ok with
      | false => rfl
      | true =>
        rcases (h.once r hr hs).1 with ⟨-, hl⟩ | ⟨-, hne⟩
        · rw [hlanded] at hl
          cases hl
        · rw [hseq] at hne
          exact absurd hc hne
  · -- one of another entry on a common path
    intro r hr hne ht
    have hlt : r.seq < c := by
      rcases Nat.lt_or_gt_of_ne hne with hlt | hlt
      · exact hlt
      · exact absurd ht.symm (h.inOrder _ hmay r hr hlt)
    refine ⟨hlt, fun hs => ?_⟩
    rcases h.wire r hr hs with ⟨x, hx, hxr, dest, m, hp⟩ | ⟨hrep, -⟩
    · exact hnot x hx (hxr ▸ ht.symm) dest m hp
    · rw [hc] at hrep
      exact hne (Option.some.inj hrep).symm

/-! ## The replay -/

/-- Nothing earlier on a common path may still be sent while the replay works on an entry. -/
theorem nothing_before_replay (h : v.Ordered) {c : SeqId} (hc : v.replaying = some c) {b : SeqId}
    (hb : b < c) (hsend : v.MaySend b) : ¬ v.Touching b c := by
  intro ht
  rcases hsend with ⟨f, hf⟩ | hrep | ⟨w, hw, rfl, hcom⟩
  · have hle : c ≤ b := h.front c hc (b, f) hf
    exact absurd hb (Nat.not_lt.mpr hle)
  · rw [hc] at hrep
    exact absurd hb (Option.some.inj hrep ▸ Nat.lt_irrefl _)
  · exact (h.alone c hc w hw ht.symm).1 hcom

/-- The replay claims the front entry. -/
theorem replayClaim (h : v.Ordered) {c : SeqId} {rest : List (SeqId × Bool)}
    (hidle : v.replaying = none)
    (hfront : v.queue = (c, false) :: rest)
    (halone : ∀ w ∈ v.workers, v.Touching c w.seq → w.committed ∨ v.Queued w.seq →
      w.seq = c ∧ ¬ w.committed) :
    Ordered { v with queue := (c, true) :: rest, replaying := some c, replayLanded := false } := by
  have hc : (c, false) ∈ v.queue := by
    rw [hfront]
    exact List.mem_cons_self
  -- the front is marked, and the others are behind it
  have hmem : ∀ {x}, x ∈ (c, true) :: rest → x ∈ v.queue ∧ x.1 ≠ c ∨ x = (c, true) := by
    intro x hx
    rcases List.mem_cons.mp hx with rfl | hx
    · exact Or.inr rfl
    · have hs := h.sorted
      rw [hfront, List.map_cons, List.pairwise_cons] at hs
      have hlt := hs.1 x.1 (List.mem_map_of_mem hx)
      refine Or.inl ⟨?_, Nat.ne_of_gt hlt⟩
      rw [hfront]
      exact List.mem_cons_of_mem _ hx
  have hqueued : ∀ {a}, (∃ f, (a, f) ∈ (c, true) :: rest) → v.Queued a := by
    rintro a ⟨f, hf⟩
    rcases hmem hf with ⟨hf, -⟩ | hf
    · exact ⟨f, hf⟩
    · rw [(Prod.mk.inj hf).1]
      exact ⟨false, hc⟩
  have hmay : ∀ {a}, MaySend { v with
      queue := (c, true) :: rest, replaying := some c, replayLanded := false } a →
      v.MaySend a := by
    rintro a (ha | ha | ha)
    · exact Or.inl (hqueued ha)
    · rw [← Option.some.inj ha]
      exact Or.inl ⟨false, hc⟩
    · exact Or.inr (Or.inr ha)
  constructor
  · -- the numbers are the same
    have hs := h.sorted
    rw [hfront] at hs
    exact hs
  · intro x hx
    obtain ⟨f, hf⟩ := hqueued (a := x.1) ⟨x.2, hx⟩
    exact h.queue_lt (x.1, f) hf
  · exact h.workers_lt
  · rintro a ha
    rw [← Option.some.inj ha]
    exact h.queue_lt _ hc
  · exact h.requests_lt
  · exact h.distinct
  · exact h.tickets
  · -- `front`: the entry is the first of the queue
    intro a ha x hx
    rw [← Option.some.inj ha]
    rcases List.mem_cons.mp hx with rfl | hx
    · exact Nat.le_refl _
    · have hs := h.sorted
      rw [hfront, List.map_cons, List.pairwise_cons] at hs
      exact Nat.le_of_lt (hs.1 x.1 (List.mem_map_of_mem hx))
  · intro w hw hlive b hb hsend ht
    exact h.waits w hw (hlive.imp_right hqueued) b hb (hmay hsend) ht
  · -- `alone`: whoever touches it was excluded
    intro a ha w hw ht
    rw [← Option.some.inj ha] at ht ⊢
    constructor
    · intro hcom
      exact (halone w hw ht (Or.inl hcom)).2 hcom
    · intro hne hl
      exact hne (halone w hw ht (Or.inr (hqueued hl))).1
  · -- `flight`: the entry is the replay's
    intro a ha
    rcases hmem ha with ⟨ha, -⟩ | ha
    · refine (h.flight a ha).imp_left fun hrep => ?_
      rw [hidle] at hrep
      cases hrep
    · rw [(Prod.mk.inj ha).1]
      exact Or.inl rfl
  · intro a f ha hf
    rw [← Option.some.inj ha] at hf
    rcases hmem hf with ⟨-, hne⟩ | hf
    · exact absurd rfl hne
    · exact (Prod.mk.inj hf).2
  · -- `held`
    intro w hw hup hcom f hf
    rcases hmem hf with ⟨hf, -⟩ | hf
    · exact h.held w hw hup hcom f hf
    · exact (Prod.mk.inj hf).2
  · exact fun b hb => h.inOrder b (hmay hb)
  · -- `wire`: no request was the replay's
    intro r hr hs
    refine (h.wire r hr hs).imp_right fun ⟨hrep, _⟩ => ?_
    rw [hidle] at hrep
    cases hrep
  · -- `once`: the entry is queued, so none of its requests landed
    intro r hr hs
    obtain ⟨h1, h2⟩ := h.once r hr hs
    refine ⟨Or.inr ?_, h2⟩
    rcases h1 with ⟨hrep, -⟩ | ⟨hnq, -⟩
    · rw [hidle] at hrep
      cases hrep
    · refine ⟨fun hl => hnq (hqueued hl), fun heq => hnq ?_⟩
      rw [← Option.some.inj heq]
      exact ⟨false, hc⟩

/-- The replay's request is answered. -/
theorem replayAnswer (h : v.Ordered) {c : SeqId} (hc : v.replaying = some c)
    (hlanded : v.replayLanded = false) (ok : Bool) :
    Ordered { v with
      replaySent := false
      replayLanded := ok
      requests := v.requests.map fun r =>
        if r.seq = c ∧ r.success = none then { r with success := some ok } else r } := by
  -- a request is as before, or was just answered
  have hmem : ∀ {r}, r ∈ v.requests.map (fun r =>
      if r.seq = c ∧ r.success = none then { r with success := some ok } else r) →
      (r ∈ v.requests ∧ (r.seq = c → r.success ≠ none)) ∨
      (r.seq = c ∧ r.success = some ok ∧ ∃ r' ∈ v.requests, r'.seq = c) := by
    intro r hr
    obtain ⟨r', hr', rfl⟩ := List.mem_map.mp hr
    split
    · rename_i hcond
      exact Or.inr ⟨hcond.1, rfl, r', hr', hcond.1⟩
    · rename_i hcond
      exact Or.inl ⟨hr', fun hseq hnone => hcond ⟨hseq, hnone⟩⟩
  have hreq : ∀ {r}, r ∈ v.requests.map (fun r =>
      if r.seq = c ∧ r.success = none then { r with success := some ok } else r) →
      ∃ r' ∈ v.requests, r'.seq = r.seq := by
    intro r hr
    rcases hmem hr with ⟨hr, -⟩ | ⟨hseq, -, r', hr', hs⟩
    · exact ⟨r, hr, rfl⟩
    · exact ⟨r', hr', hs.trans hseq.symm⟩
  constructor
  · exact h.sorted
  · exact h.queue_lt
  · exact h.workers_lt
  · exact h.replaying_lt
  · intro r hr
    obtain ⟨r', hr', hs⟩ := hreq hr
    rw [← hs]
    exact h.requests_lt r' hr'
  · exact h.distinct
  · exact h.tickets
  · exact h.front
  · exact h.waits
  · exact h.alone
  · exact h.flight
  · exact h.busy
  · exact h.held
  · intro b hb r hr hlt ht
    obtain ⟨r', hr', hs⟩ := hreq hr
    rw [← hs] at hlt ht
    exact h.inOrder b hb r' hr' hlt ht
  · -- `wire`: what is out is a worker's
    intro r hr hs
    rcases hmem hr with ⟨hr, hne⟩ | ⟨-, hok, -⟩
    · rcases h.wire r hr hs with hw | ⟨hrep, -⟩
      · exact Or.inl hw
      · rw [hc] at hrep
        exact absurd hs (hne (Option.some.inj hrep).symm)
    · rw [hs] at hok
      cases hok
  · -- `once`
    intro r hr hs
    -- an old answer: nothing had landed
    rcases hmem hr with ⟨hr, hne⟩ | ⟨hseq, hok, -⟩
    · obtain ⟨h1, h2⟩ := h.once r hr hs
      refine ⟨Or.inr ?_, h2⟩
      rcases h1 with ⟨-, hl⟩ | h1
      · rw [hlanded] at hl
        cases hl
      · exact h1
    · -- the new one: its entry is still the replay's
      rw [hs] at hok
      refine ⟨Or.inl ⟨hseq ▸ hc, (Option.some.inj hok).symm⟩, fun w hw hwr => ?_⟩
      exact (h.alone c hc w hw (Or.inl (hwr.trans hseq).symm)).1

/-- The replay is done with its entry: it is gone, or, if its request did not land, free. -/
theorem replayDone (h : v.Ordered) {c : SeqId} (hc : v.replaying = some c)
    (hsent : v.replaySent = false) {q : List (SeqId × Bool)}
    (hsub : (q.map (·.1)).Sublist (v.queue.map (·.1)))
    (hq : ∀ x ∈ q, x ∈ v.queue ∧ x.1 ≠ c ∨ x = (c, false) ∧ v.replayLanded = false) :
    Ordered { v with queue := q, replaying := none, replayLanded := false } := by
  -- what is queued was queued, and what may send could do so before
  have hqueued : ∀ {a}, (∃ f, (a, f) ∈ q) → v.Queued a := by
    intro a ha
    exact exists_mem_iff.mpr (hsub.subset (exists_mem_iff.mp ha))
  have hmay : ∀ {a}, MaySend { v with queue := q, replaying := none, replayLanded := false } a →
      v.MaySend a := by
    rintro a (ha | ha | ha)
    · exact Or.inl (hqueued ha)
    · cases ha
    · exact Or.inr (Or.inr ha)
  constructor
  · exact h.sorted.sublist hsub
  · intro x hx
    obtain ⟨f, hf⟩ := hqueued (a := x.1) ⟨x.2, hx⟩
    exact h.queue_lt (x.1, f) hf
  · exact h.workers_lt
  · exact fun a ha => nomatch ha
  · exact h.requests_lt
  · exact h.distinct
  · exact h.tickets
  · exact fun a ha => nomatch ha
  · intro w hw hlive b hb hsend ht
    exact h.waits w hw (hlive.imp_right hqueued) b hb (hmay hsend) ht
  · exact fun a ha => nomatch ha
  · -- `flight`: an entry in flight is a worker's, or was the replay's and is back
    intro a ha
    rcases hq _ ha with ⟨hx, hne⟩ | ⟨hx, -⟩
    · rcases h.flight a hx with hrep | hw
      · rw [hc] at hrep
        exact absurd (Option.some.inj hrep).symm hne
      · exact Or.inr hw
    · cases hx
  · exact fun a f ha => nomatch ha
  · -- `held`
    intro w hw hup hcom f hf
    rcases hq _ hf with ⟨hx, -⟩ | ⟨hx, -⟩
    · exact h.held w hw hup hcom f hx
    · exact absurd hcom (h.alone c hc w hw (Or.inl (Prod.mk.inj hx).1.symm)).1
  · exact fun b hb => h.inOrder b (hmay hb)
  · -- `wire`: no request of the replay is out
    intro r hr hs
    rcases h.wire r hr hs with hw | ⟨-, hout⟩
    · exact Or.inl hw
    · rw [hsent] at hout
      cases hout
  · intro r hr hs
    obtain ⟨h1, h2⟩ := h.once r hr hs
    refine ⟨Or.inr ⟨?_, fun hx => nomatch hx⟩, h2⟩
    rintro ⟨f, hf⟩
    rcases h1 with ⟨hrep, hl⟩ | ⟨hnq, -⟩
    · -- It landed, so its entry went.
      rw [hc] at hrep
      rcases hq _ hf with ⟨-, hne⟩ | ⟨-, hnl⟩
      · exact hne (Option.some.inj hrep).symm
      · rw [hl] at hnl
        cases hnl
    · exact hnq (hqueued ⟨f, hf⟩)

end Ordered

end View

end Ncrs
