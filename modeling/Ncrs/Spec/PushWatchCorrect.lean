import Ncrs.ForStd.List
import Ncrs.Native.PushWatch

/-!
# A gap in the push feed and the validation after it

A change that happens while no message about it can arrive is found by the next validation of the
cached listings. The push-watch loop asks for one for each new connection but the first, once, and
drops the request when one is running already or the pool has no room; nothing asks for one after
a pause or an outage that the connection survived.

## Key results

- `Due.step`: when a validation that is due stays due
- `gaps_are_followed`: then every gap is followed by one, in every run
- `reconnect_while_validating`: a connection lost again while the validation for it runs
-/

namespace Ncrs

namespace PushMount

variable {w g : PushMount} {e : PushEvent} {es : List PushEvent}

/-- A validation is queued. -/
def queued (w : PushMount) : Bool := decide (w.boot = .queued) || w.jobs.contains .queued

/-- A validation is still to come: one is queued, or the loop has not looked at the generation of
    the connection yet and will ask for one. -/
def toCome (w : PushMount) : Bool :=
  w.queued || decide (1 < w.generation) && decide (w.lastGeneration ≠ w.generation)

/-- The latest validation was started after the last moment at which a message could be lost. -/
def followed (w : PushMount) : Bool := w.startedAt.any fun t => decide (w.lostAt < t)

/-- Messages are handled, the loop has seen the connection, and no validation is under way. -/
structure Settled (w : PushMount) : Prop where
  handled : w.handled = true
  seen : w.lastGeneration = w.generation
  boot : w.boot = .ended
  jobs : w.jobs = []

/-- A gap ends only while a validation is to come. -/
def endsWell (w : PushMount) (e : PushEvent) : Bool :=
  match w.step e with
  | some g => w.handled || !g.handled || w.toCome
  | none => true

/-- When the loop has to ask for a validation, no other one is running and the pool takes it, unless
    one is queued or the last gap is followed by one already. -/
def asksWell (w : PushMount) (e : PushEvent) : Bool :=
  match e, w.loop with
  | .act room, .seen generation =>
    !w.handled || decide (generation = w.lastGeneration) || decide (generation ≤ 1) || w.followed ||
      w.queued || !w.revalidating && room
  | _, _ => true

/-- Every step of a run does both. -/
def keepsDue (w : PushMount) : List PushEvent → Bool
  | [] => true
  | e :: es => w.endsWell e && w.asksWell e && match w.step e with
    | some g => g.keepsDue es
    | none => true

theorem toCome_of_endsWell (h : w.endsWell e = true) (hstep : w.step e = some g)
    (hw : w.handled = false) (hg : g.handled = true) : w.toCome = true := by
  simpa [endsWell, hstep, hw, hg] using h

theorem served_of_asksWell {room : Bool} {generation : Nat} (h : w.asksWell (.act room) = true)
    (hloop : w.loop = .seen generation) (hw : w.handled = true)
    (hnew : generation ≠ w.lastGeneration) (hfirst : 1 < generation) :
    w.followed = true ∨ w.queued = true ∨ w.revalidating = false ∧ room = true := by
  simp only [asksWell, hloop, hw, Bool.not_true, Bool.false_or, Bool.or_eq_true, Bool.and_eq_true,
    decide_eq_true_eq, Bool.not_eq_true', or_assoc] at h
  obtain h | h | h := h
  · exact absurd h hnew
  · omega
  · exact h

/-- While messages are handled, the last gap is followed by a validation or one is to come. -/
structure Due (w : PushMount) : Prop where
  due : w.handled = true → w.followed = true ∨ w.toCome = true
  lost : w.lostAt ≤ w.time

theorem due_mounted (offline : Bool) : (mounted offline).Due where
  due h := by cases offline <;> simp [handled, mounted] at h
  lost := Nat.le_refl _

/-- A validation that starts while messages are handled follows the last gap. -/
theorem followed_start (h : w.lostAt ≤ w.time) : w.start.followed = true := by
  show decide (w.lostAt < w.time + 1) = true
  exact decide_eq_true (Nat.lt_succ_of_le h)

/-- One that ends was not queued. -/
theorem queued_eraseIdx {jobs : List Validation} {i : Nat} (h : jobs[i]? = some .running)
    (hq : Validation.queued ∈ jobs) : .queued ∈ jobs.eraseIdx i := by
  obtain ⟨pre, post, rfl, -, -, herase, -⟩ := List.exists_split_of_getElem? h
  rw [herase]
  simpa using hq

/-- The loop asks for a validation, or another one serves. -/
theorem due_actOn {generation : Nat} {room : Bool} (h : w.followed = true ∨ w.toCome = true)
    (hasks : generation ≠ w.lastGeneration → 1 < generation →
      w.followed = true ∨ w.queued = true ∨ w.revalidating = false ∧ room = true) :
    (w.actOn generation room).followed = true ∨ (w.actOn generation room).toCome = true := by
  have hqueued : ∀ g : PushMount, g.queued = true → g.toCome = true := by
    intro g hg
    simp [toCome, hg]
  unfold actOn
  dsimp only
  split
  · exact h
  rename_i hnew
  split
  · -- The job is queued.
    right
    apply hqueued
    simp [queued]
  · rename_i hno
    obtain hf | hcome := h
    · exact .inl hf
    unfold toCome at hcome
    rw [Bool.or_eq_true] at hcome
    obtain hq | hunseen := hcome
    · exact .inr (hqueued _ hq)
    simp only [Bool.and_eq_true, decide_eq_true_eq] at hunseen
    by_cases hcurrent : generation = w.generation
    · obtain hf | hq | ⟨hidle, hroom⟩ := hasks hnew (hcurrent ▸ hunseen.1)
      · exact .inl hf
      · exact .inr (hqueued _ hq)
      · simp [hidle, hroom, hcurrent, hunseen.1] at hno
    · -- A connection made since the loop read the generation is still to be looked at.
      right
      simp [toCome, hunseen.1, hcurrent]

theorem Due.act (h : w.Due) (hends : w.endsWell e = true)
    (hasks : w.asksWell e = true) (hact : w.act e = some g) (hg : g.handled = true) :
    g.followed = true ∨ g.toCome = true := by
  -- At the end of a gap the condition serves, else the invariant.
  have hdue : w.followed = true ∨ w.toCome = true := by
    by_cases hw : w.handled = true
    · exact h.due hw
    · rw [Bool.not_eq_true] at hw
      have hstep : w.step e = some { g with time := w.time + 1, lostAt := g.lostAt } := by
        simp [PushMount.step, hact, hg]
      exact .inr (toCome_of_endsWell hends hstep hw hg)
  cases e with
  | count =>
    simp only [PushMount.act] at hact
    split at hact <;> cases hact
    simp [handled] at hg
  | publish =>
    simp only [PushMount.act] at hact
    split at hact <;> cases hact
    simp [handled] at hg
  | listen ok =>
    simp only [PushMount.act] at hact
    split at hact <;> cases hact
    exact hdue
  | drop =>
    simp only [PushMount.act] at hact
    split at hact <;> cases hact
    simp [handled] at hg
  | retry =>
    simp only [PushMount.act] at hact
    split at hact <;> cases hact
    exact hdue
  | setPaused paused =>
    cases hact
    exact hdue
  | setOffline offline =>
    cases hact
    exact hdue
  | look =>
    simp only [PushMount.act] at hact
    split at hact <;> cases hact
    exact hdue
  | act room =>
    simp only [PushMount.act] at hact
    split at hact <;> cases hact
    rename_i generation hloop
    have hw : w.handled = true := by
      rw [← hg]
      unfold actOn handled
      dsimp only
      split
      · rfl
      · split <;> rfl
    exact due_actOn hdue fun hnew hfirst => served_of_asksWell hasks hloop hw hnew hfirst
  | sync =>
    simp only [PushMount.act] at hact
    split at hact <;> cases hact
    exact hdue
  | startBoot =>
    simp only [PushMount.act] at hact
    split at hact <;> cases hact
    exact .inl (followed_start h.lost)
  | endBoot =>
    simp only [PushMount.act] at hact
    split at hact <;> cases hact
    rename_i hboot
    refine hdue.imp id fun hcome => ?_
    simpa [toCome, queued, hboot] using hcome
  | startJob i =>
    simp only [PushMount.act] at hact
    split at hact <;> cases hact
    exact .inl (followed_start h.lost)
  | endJob i =>
    simp only [PushMount.act] at hact
    split at hact <;> cases hact
    rename_i hjob
    refine hdue.imp id fun hcome => ?_
    simp only [toCome, queued, Bool.or_eq_true, List.contains_iff_mem] at hcome ⊢
    exact hcome.imp_left fun hq => hq.imp_right (queued_eraseIdx hjob)

theorem lostAt_act (h : w.act e = some g) : g.lostAt = w.lostAt := by
  cases e with
  | setPaused paused =>
    cases h
    rfl
  | setOffline offline =>
    cases h
    rfl
  | act room =>
    simp only [PushMount.act] at h
    split at h <;> cases h
    unfold actOn
    dsimp only
    split
    · rfl
    · split <;> rfl
  | _ =>
    simp only [PushMount.act] at h
    split at h <;> cases h
    rfl

theorem Due.step (h : w.Due) (hends : w.endsWell e = true) (hasks : w.asksWell e = true)
    (hstep : w.step e = some g) : g.Due := by
  simp only [PushMount.step, Option.map_eq_some_iff] at hstep
  obtain ⟨g₀, hact, rfl⟩ := hstep
  constructor
  · intro hg
    have hg₀ : g₀.handled = true := hg
    have hdue := h.act hends hasks hact hg₀
    rw [if_pos hg₀]
    exact hdue
  · dsimp only
    split
    · rw [lostAt_act hact]
      exact Nat.le_succ_of_le h.lost
    · exact Nat.le_refl _

theorem Due.steps (h : w.Due) : ∀ es, w.keepsDue es = true → w.steps es = some g → g.Due := by
  intro es
  induction es generalizing w with
  | nil =>
    rintro - ⟨⟩
    exact h
  | cons e es ih =>
    intro hkeep hrun
    rw [PushMount.steps, Option.bind_eq_some_iff] at hrun
    obtain ⟨w₁, hstep, hrest⟩ := hrun
    simp only [keepsDue, hstep, Bool.and_eq_true] at hkeep
    exact ih (h.step hkeep.1.1 hkeep.1.2 hstep) hkeep.2 hrest

/-- Connects, drops, pauses, outages, turns of the loop and validations in any order: if every gap
    ends while a validation is to come and no request for one is dropped, then in a settled state
    the latest validation was started after the last moment at which a message could be lost. -/
theorem gaps_are_followed (offline : Bool) (es : List PushEvent)
    (hkeep : (mounted offline).keepsDue es = true)
    (hrun : (mounted offline).steps es = some w) (hs : w.Settled) : w.followed = true := by
  have hend := (due_mounted offline).steps es hkeep hrun
  obtain hf | hcome := hend.due hs.handled
  · exact hf
  · simp [toCome, queued, hs.seen, hs.boot, hs.jobs] at hcome

/-- The validation at boot starts once the first connection listens, and the connection is lost and
    made again: the loop asks for a validation of its own. -/
theorem reconnect_is_followed : ∃ w,
    (mounted false).steps
      [.count, .publish, .listen true, .startBoot, .endBoot, .look, .act true, .sync,
       .drop, .retry, .count, .publish, .listen true, .look, .act true, .startJob 0, .sync,
       .endJob 0] = some w ∧ w.generation = 2 ∧ w.followed = true :=
  ⟨_, rfl, rfl, gaps_are_followed false
    [.count, .publish, .listen true, .startBoot, .endBoot, .look, .act true, .sync,
     .drop, .retry, .count, .publish, .listen true, .look, .act true, .startJob 0, .sync,
     .endJob 0] (by decide) rfl ⟨rfl, rfl, rfl, rfl⟩⟩

/-- The connection is lost once more and made again while the validation for the second one runs:
    the loop takes note of the third one, but the request is dropped, and no validation starts
    after the second gap. -/
theorem reconnect_while_validating : ∃ w,
    (mounted false).steps
      [.count, .publish, .listen true, .startBoot, .endBoot, .look, .act true, .sync,
       .drop, .retry, .count, .publish, .listen true, .look, .act true, .sync, .startJob 0,
       .drop, .retry, .count, .publish, .listen true, .look, .act true, .sync, .endJob 0] = some w ∧
      w.Settled ∧ w.followed = false :=
  ⟨_, rfl, ⟨rfl, rfl, rfl, rfl⟩, rfl⟩

end PushMount

end Ncrs
