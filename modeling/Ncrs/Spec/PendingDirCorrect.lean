import Ncrs.Native.PendingDir

/-!
# A failed listing and the cache

The entries a reader has taken and those in the channel are what the worker has sent; a closed entry
channel means that `list_dir_streaming` has returned, not what. A promotion that finds the result on
its channel stores a listing that was fetched, whole and with its etag, or returns the error. One
that comes before the worker has sent the result takes the listing for a good one.

## Key results

- `Listing.Inv.step`: a pending listing and its channels, over one step
- `Listing.Fair.step`: what was stored and told, over a step that finds the result
- `Listing.failed_listings_are_not_cached`: the property in every run
-/

namespace Ncrs

/-- The events of the workers. -/
def ListingEvent.isWork : ListingEvent → Bool
  | .sendEntry _ _ | .sendSelf _ _ | .finish _ _ | .noSlot _ _ | .sendResult _ | .exit _ => true
  | _ => false

namespace Listing

variable {s s' : Listing} {w w' : ListingWorker} {p : PendingDir}

/-! ## Workers -/

/-- A worker that changes is the only one that does. -/
theorem worker?_setWorker {i : Nat} (hw : s.worker? i = some w) (w' : ListingWorker) (j : Nat) :
    (s.setWorker i w').worker? j = if i = j then some w' else s.worker? j := by
  show (s.workers.set i w')[j]? = _
  rw [List.getElem?_set]
  split
  · rw [if_pos (List.getElem?_eq_some_iff.mp hw).1]
  · rfl

/-- A worker without the entry channel's sender has returned, and so has one that reported. -/
structure Sound (w : ListingWorker) : Prop where
  closed : w.entryTx = false → w.result.isSome
  reported : w.reported = true → w.result.isSome

/-- The result channel holds what the worker reported. -/
def Reports (w : ListingWorker) : Prop := w.etagRx = if w.reported then w.result else none

/-- What the worker's own steps keep: everything sent is received or in the channel, and a worker
    that has returned sends nothing more. -/
structure Works (w w' : ListingWorker) : Prop where
  sound : Sound w → Sound w'
  entries : ∀ l, l ++ w.rx = w.sent → l ++ w'.rx = w'.sent
  reports : Sound w → Reports w → Reports w'
  settled : w.result.isSome → w'.result = w.result ∧ w'.sent = w.sent

/-- A worker sends an entry. -/
theorem Works.sendEntry (h : w.result.isNone) (e : RemoteEntry) :
    Works w { w with sent := w.sent ++ [e], rx := w.rx ++ [e] } where
  sound := fun hs => ⟨hs.closed, hs.reported⟩
  entries := fun l hl => by rw [← List.append_assoc, hl]
  reports := fun _ hr => hr
  settled := fun hsome => by simp [Option.isNone_iff_eq_none.mp h] at hsome

/-- It sends the directory's own entry. -/
theorem Works.sendSelf (e : RemoteEntry) :
    Works w { w with selfRx := w.selfRx ++ [e] } where
  sound := fun hs => ⟨hs.closed, hs.reported⟩
  entries := fun _ hl => hl
  reports := fun _ hr => hr
  settled := fun _ => ⟨rfl, rfl⟩

/-- The worker returns, with or without having dropped the entry channel's sender. -/
theorem Works.finish (h : w.result.isNone) (result : ListingResult) (entryTx : Bool) :
    Works w { w with result := some result, entryTx := entryTx } where
  sound := fun _ => ⟨fun _ => rfl, fun _ => rfl⟩
  entries := fun _ hl => hl
  reports := fun hs hr => by
    have hno : w.reported = false := by
      cases hrep : w.reported with
      | false => rfl
      | true =>
        have := hs.reported hrep
        simp [Option.isNone_iff_eq_none.mp h] at this
    simpa [Reports, hno] using hr
  settled := fun hsome => by simp [Option.isNone_iff_eq_none.mp h] at hsome

/-- It reports its result. -/
theorem Works.sendResult (h : w.result.isSome) : Works w { w with reported := true, etagRx := w.result } where
  sound := fun hs => ⟨hs.closed, fun _ => h⟩
  entries := fun _ hl => hl
  reports := fun _ _ => rfl
  settled := fun _ => ⟨rfl, rfl⟩

/-- It ends. -/
theorem Works.exit (h : w.reported = true) : Works w { w with entryTx := false } where
  sound := fun hs => ⟨fun _ => hs.reported h, hs.reported⟩
  entries := fun _ hl => hl
  reports := fun _ hr => hr
  settled := fun _ => ⟨rfl, rfl⟩

/-- A worker's step changes this worker only. -/
theorem work_cases {i : Nat} {f : ListingWorker → Option ListingWorker} (hs : s.work i f = some s') :
    ∃ w w', s.worker? i = some w ∧ f w = some w' ∧ s' = s.setWorker i w' := by
  obtain ⟨w, hw, hrest⟩ := Option.bind_eq_some_iff.mp hs
  obtain ⟨w', hf, rfl⟩ := Option.map_eq_some_iff.mp hrest
  exact ⟨w, w', hw, hf, rfl⟩

/-- A step of a worker changes that worker. -/
theorem step_work {e : ListingEvent} (he : e.isWork = true) (hs : s.step e = some s') :
    ∃ i w w', s.worker? i = some w ∧ s' = s.setWorker i w' ∧ Works w w' := by
  cases e with
  | sendEntry i e =>
    obtain ⟨w, w', hw, hf, rfl⟩ := work_cases hs
    split at hf
    · exact ⟨i, w, w', hw, rfl, Option.some.inj hf ▸ Works.sendEntry (by assumption) e⟩
    · cases hf
  | sendSelf i e =>
    obtain ⟨w, w', hw, hf, rfl⟩ := work_cases hs
    split at hf
    · exact ⟨i, w, w', hw, rfl, Option.some.inj hf ▸ Works.sendSelf e⟩
    · cases hf
  | finish i result =>
    obtain ⟨w, w', hw, hf, rfl⟩ := work_cases hs
    split at hf
    · exact ⟨i, w, w', hw, rfl, Option.some.inj hf ▸ Works.finish (by assumption) result false⟩
    · cases hf
  | noSlot i err =>
    obtain ⟨w, w', hw, hf, rfl⟩ := work_cases hs
    split at hf
    · rename_i hnone
      exact ⟨i, w, w', hw, rfl, Option.some.inj hf ▸ Works.finish hnone.1 (.error err) w.entryTx⟩
    · cases hf
  | sendResult i =>
    obtain ⟨w, w', hw, hf, rfl⟩ := work_cases hs
    split at hf
    · rename_i hsome
      exact ⟨i, w, w', hw, rfl, Option.some.inj hf ▸ Works.sendResult hsome.1⟩
    · cases hf
  | exit i =>
    obtain ⟨w, w', hw, hf, rfl⟩ := work_cases hs
    split at hf
    · exact ⟨i, w, w', hw, rfl, Option.some.inj hf ▸ Works.exit (by assumption)⟩
    · cases hf
  | _ => cases he

/-! ## Readers -/

/-- A reader takes what is in the entry channel. -/
structure Receives (p : PendingDir) (w : ListingWorker) (p' : PendingDir) (w' : ListingWorker) : Prop where
  fetch : p'.fetch = p.fetch
  etag : p'.etag = p.etag
  failed : p'.failed = p.failed
  entries : p'.entries = p.entries ++ w.rx
  rx : w'.rx = []
  sent : w'.sent = w.sent
  result : w'.result = w.result
  reported : w'.reported = w.reported
  etagRx : w'.etagRx = w.etagRx
  entryTx : w'.entryTx = w.entryTx

/-- Entries are received by themselves. -/
theorem receives_entries (p : PendingDir) (w : ListingWorker) :
    Receives p w (receiveEntries p w).1 (receiveEntries p w).2 :=
  ⟨rfl, rfl, rfl, rfl, rfl, rfl, rfl, rfl, rfl, rfl⟩

/-- A snapshot receives the directory's own entry first. -/
theorem receives_snapshot (p : PendingDir) (w : ListingWorker) :
    Receives p w (receiveEntries (receiveSelf p w).1 (receiveSelf p w).2).1
      (receiveEntries (receiveSelf p w).1 (receiveSelf p w).2).2 := by
  unfold receiveSelf
  split <;> exact ⟨rfl, rfl, rfl, rfl, rfl, rfl, rfl, rfl, rfl, rfl⟩

/-- A reader's step leaves the listing pending, or starts to promote it; by a closed channel, or by
    `promote_pending` itself. -/
inductive Reads (s : Listing) : Listing → Prop where
  | waits {p p' : PendingDir} {w w' : ListingWorker} (hp : s.pending = some p)
    (hfree : s.promoting = none) (hw : s.worker? p.fetch = some w)
      (hr : Receives p w p' w') : Reads s { s.setWorker p.fetch w' with pending := some p' }
  | promotes {p p' : PendingDir} {w w' : ListingWorker} (closed : Bool) (hp : s.pending = some p)
    (hfree : s.promoting = none)
      (hw : s.worker? p.fetch = some w) (hr : Receives p w p' w') (hclosed : closed = true →
        w.entryTx = false) :
      Reads s { s.setWorker p.fetch w' with pending := none, promoting := some (p', closed) }

/-- What was received is put back, or promoted when the worker is done. -/
theorem received_reads {r : PendingDir × ListingWorker} (hp : s.pending = some p) (hfree : s.promoting = none)
    (hw : s.worker? p.fetch = some w) (hr : Receives p w r.1 r.2) : s.Reads (s.received r) := by
  unfold received
  rw [hr.fetch]
  split
  · exact .waits hp hfree hw hr
  · rename_i hclosed
    rw [hr.entryTx, Bool.not_eq_true] at hclosed
    exact .promotes true hp hfree hw hr fun _ => hclosed

/-- Reading the channels takes a listing that is pending. -/
theorem read_cases {f : PendingDir → ListingWorker → Listing} (hs : s.read f = some s') :
    ∃ p w, s.pending = some p ∧ s.promoting = none ∧ s.worker? p.fetch = some w ∧ s' = f p w := by
  unfold Listing.read at hs
  split at hs
  · rename_i p hfree hp
    obtain ⟨w, hw, rfl⟩ := Option.map_eq_some_iff.mp hs
    exact ⟨p, w, hp, hfree, hw, rfl⟩
  · cases hs

/-- Each of the three ways to read does. -/
theorem step_read {e : ListingEvent} (he : e = .snapshot ∨ e = .promotePending ∨ e = .drain)
    (hs : s.step e = some s') : s.Reads s' := by
  rcases he with rfl | rfl | rfl
  · obtain ⟨p, w, hp, hfree, hw, rfl⟩ := read_cases hs
    exact received_reads hp hfree hw (receives_snapshot p w)
  · obtain ⟨p, w, hp, hfree, hw, rfl⟩ := read_cases hs
    refine .promotes _ hp hfree hw (receives_entries p w) fun hclosed => ?_
    simpa using hclosed
  · obtain ⟨p, w, hp, hfree, hw, rfl⟩ := read_cases hs
    exact received_reads hp hfree hw (receives_entries p w)

/-! ## The invariant -/

/-- What holds of a pending listing and of its worker. -/
structure Inv (s : Listing) : Prop where
  sound : ∀ i w, s.worker? i = some w → Sound w
  pending : ∀ p, s.pending = some p → s.promoting = none ∧ p.etag = none ∧ p.failed = none ∧
    ∃ w, s.worker? p.fetch = some w ∧ p.entries ++ w.rx = w.sent ∧ Reports w
  promoting : ∀ p closed, s.promoting = some (p, closed) → p.etag = none ∧ p.failed = none ∧
    ∃ w, s.worker? p.fetch = some w ∧ Reports w ∧ (closed = true → p.entries = w.sent ∧ w.result.isSome)

/-- A worker that goes on keeps the invariant. -/
theorem Inv.work (h : s.Inv) {i : Nat} (hw : s.worker? i = some w) (hwork : Works w w') :
    (s.setWorker i w').Inv := by
  have hget := worker?_setWorker hw w'
  refine ⟨fun j v hv => ?_, fun p hp => ?_, fun p closed hp => ?_⟩
  · -- the worker itself, the pending listing, and the one that is promoted
    rw [hget] at hv
    split at hv
    · exact Option.some.inj hv ▸ hwork.sound (h.sound i w hw)
    · exact h.sound j v hv
  · obtain ⟨hfree, hetag, hfailed, v, hv, hentries, hreports⟩ := h.pending p hp
    refine ⟨hfree, hetag, hfailed, ?_⟩
    rw [hget]
    split
    · rename_i hi
      subst hi
      obtain rfl := Option.some.inj (hw.symm.trans hv)
      exact ⟨w', rfl, hwork.entries _ hentries, hwork.reports (h.sound _ _ hw) hreports⟩
    · exact ⟨v, hv, hentries, hreports⟩
  · obtain ⟨hetag, hfailed, v, hv, hreports, hclosed⟩ := h.promoting p closed hp
    refine ⟨hetag, hfailed, ?_⟩
    rw [hget]
    split
    · rename_i hi
      subst hi
      obtain rfl := Option.some.inj (hw.symm.trans hv)
      refine ⟨w', rfl, hwork.reports (h.sound _ _ hw) hreports, fun hc => ?_⟩
      -- once the channel is closed the worker sends nothing more
      obtain ⟨hentries, hsome⟩ := hclosed hc
      obtain ⟨hresult, hsent⟩ := hwork.settled hsome
      rw [hresult, hsent]
      exact ⟨hentries, hsome⟩
    · exact ⟨v, hv, hreports, hclosed⟩

/-- A worker that is received from stays sound. -/
theorem Receives.sound {p' : PendingDir} (hr : Receives p w p' w') (h : Sound w) : Sound w' := by
  refine ⟨?_, ?_⟩
  · rw [hr.entryTx, hr.result]
    exact h.closed
  · rw [hr.reported, hr.result]
    exact h.reported

/-- And keeps its report. -/
theorem Receives.reports {p' : PendingDir} (hr : Receives p w p' w') (h : Reports w) : Reports w' := by
  unfold Reports
  rw [hr.etagRx, hr.reported, hr.result]
  exact h

/-- Reading the channels keeps the invariant. -/
theorem Inv.reads (h : s.Inv) (hreads : s.Reads s') : s'.Inv := by
  -- the workers after the step
  have hsound : ∀ {p p' : PendingDir} {w w' : ListingWorker}, s.worker? p.fetch = some w →
      Receives p w p' w' → ∀ j v, (s.setWorker p.fetch w').worker? j = some v → Sound v := by
    intro p p' w w' hw hr j v hv
    rw [worker?_setWorker hw] at hv
    split at hv
    · exact Option.some.inj hv ▸ hr.sound (h.sound _ _ hw)
    · exact h.sound j v hv
  cases hreads with
  | @waits p p' w w' hp hfree hw hr =>
    -- the listing still waits
    obtain ⟨-, hetag, hfailed, v, hv, hentries, hreports⟩ := h.pending p hp
    obtain rfl := Option.some.inj (hw.symm.trans hv)
    refine ⟨hsound hw hr, fun q hq => ?_, fun q closed hq => ?_⟩
    · obtain rfl := Option.some.inj hq
      refine ⟨hfree, hr.etag.trans hetag, hr.failed.trans hfailed, w', ?_, ?_, hr.reports hreports⟩
      · show (s.setWorker p.fetch w').worker? p'.fetch = _
        rw [hr.fetch, worker?_setWorker hw, if_pos rfl]
      · rw [hr.entries, hr.rx, hr.sent, List.append_nil]
        exact hentries
    · rw [show s.promoting = some (q, closed) from hq] at hfree
      cases hfree
  | @promotes p p' w w' closed hp hfree hw hr hclosed =>
    -- the worker is done, so that the listing is promoted
    obtain ⟨-, hetag, hfailed, v, hv, hentries, hreports⟩ := h.pending p hp
    obtain rfl := Option.some.inj (hw.symm.trans hv)
    refine ⟨hsound hw hr, nofun, fun q c hq => ?_⟩
    obtain ⟨rfl, rfl⟩ := Prod.mk.inj (Option.some.inj hq)
    refine ⟨hr.etag.trans hetag, hr.failed.trans hfailed, w', ?_, hr.reports hreports, fun hc => ⟨?_, ?_⟩⟩
    · show (s.setWorker p.fetch w').worker? p'.fetch = _
      rw [hr.fetch, worker?_setWorker hw, if_pos rfl]
    · rw [hr.entries, hr.sent]
      exact hentries
    · rw [hr.result]
      exact (h.sound _ _ hw).closed (hclosed hc)

/-- What the second half of a promotion does with the worker's result channel. -/
structure Consumes (w w' : ListingWorker) : Prop where
  sent : w'.sent = w.sent
  result : w'.result = w.result
  reported : w'.reported = w.reported
  entryTx : w'.entryTx = w.entryTx

/-- The directory's own entry is taken out without the others. -/
theorem receiveSelf_consumes (p : PendingDir) (w : ListingWorker) :
    Consumes w (receiveSelf p w).2 ∧ (receiveSelf p w).1.etag = p.etag ∧
      (receiveSelf p w).1.entries = p.entries := by
  unfold receiveSelf
  split <;> exact ⟨⟨rfl, rfl, rfl, rfl⟩, rfl, rfl⟩

/-- A promotion returns the error it finds; or it stores the entries, with the etag it finds or, if
    there is no result yet, none. -/
inductive Promotes (s : Listing) (p : PendingDir) (w : ListingWorker) (now : Nat) : Listing → Prop where
  | fails {w' : ListingWorker} (err : String) (hres : w.etagRx = some (.error err)) (hw' : Consumes w w') :
      Promotes s p w now
        { s.setWorker p.fetch w' with promoting := none, told := s.told ++ [(p.fetch, err)] }
  | stores {w' : ListingWorker} (etag : Option String) (selfEntry : Option RemoteEntry)
      (hres : w.etagRx = some (.ok etag) ∨ (w.etagRx = none ∧ etag = none)) (hw' : Consumes w w') :
      Promotes s p w now
        { s.setWorker p.fetch w' with
          promoting := none
          cache := s.cache.putDirCache s.path etag selfEntry p.entries now
          puts := s.puts ++ [{ fetch := p.fetch, etag := etag, selfEntry := selfEntry
                               entries := p.entries }] }

/-- A promotion stores the listing or tells the failure. -/
theorem promote_promotes (hetag : p.etag = none) (hfailed : p.failed = none) (now : Nat) :
    Promotes s p w now (s.promote p w now) := by
  unfold Listing.promote
  cases hres : w.etagRx with
  | none =>
    simp only [hfailed]
    obtain ⟨hc, he, hn⟩ := receiveSelf_consumes p { w with etagRx := none }
    rw [he, hn, hetag]
    exact .stores none _ (.inr ⟨hres, rfl⟩) ⟨hc.sent, hc.result, hc.reported, hc.entryTx⟩
  | some r =>
    cases r with
    | error err => exact .fails err hres ⟨rfl, rfl, rfl, rfl⟩
    | ok etag =>
      simp only [hfailed]
      obtain ⟨hc, he, hn⟩ := receiveSelf_consumes { p with etag := etag, failed := none }
        { w with etagRx := none }
      rw [he, hn]
      exact .stores etag _ (.inl hres) ⟨hc.sent, hc.result, hc.reported, hc.entryTx⟩

/-- What a step promotes has been received whole. -/
theorem Inv.promote_cases (h : s.Inv) {now : Nat} (hs : s.step (.promote now) = some s') :
    ∃ p closed w, s.promoting = some (p, closed) ∧ s.worker? p.fetch = some w ∧ Reports w ∧
      (closed = true → p.entries = w.sent ∧ w.result.isSome) ∧ s.Promotes p w now s' := by
  obtain ⟨⟨p, closed⟩, hp, hrest⟩ := Option.bind_eq_some_iff.mp hs
  obtain ⟨w, hw, rfl⟩ := Option.map_eq_some_iff.mp hrest
  obtain ⟨hetag, hfailed, v, hv, hreports, hclosed⟩ := h.promoting p closed hp
  obtain rfl := Option.some.inj (hw.symm.trans hv)
  exact ⟨p, closed, w, hp, hw, hreports, hclosed, promote_promotes hetag hfailed now⟩

/-- While one listing is promoted, no other is pending. -/
theorem Inv.pending_none (h : s.Inv) {r : PendingDir × Bool} (hp : s.promoting = some r) :
    s.pending = none := by
  cases hpend : s.pending with
  | none => rfl
  | some q =>
    rw [(h.pending q hpend).1] at hp
    cases hp

/-- Promoting keeps the invariant. -/
theorem Inv.promotes (h : s.Inv) {closed : Bool} {now : Nat} (hp : s.promoting = some (p, closed))
    (hw : s.worker? p.fetch = some w) (hpro : s.Promotes p w now s') : s'.Inv := by
  have hpend := h.pending_none hp
  have hsound : ∀ {w' : ListingWorker}, Consumes w w' →
      ∀ j v, (s.setWorker p.fetch w').worker? j = some v → Sound v := by
    intro w' hc j v hv
    rw [worker?_setWorker hw] at hv
    split at hv
    · obtain rfl := Option.some.inj hv
      have hok := h.sound _ _ hw
      exact ⟨by rw [hc.entryTx, hc.result]; exact hok.closed, by rw [hc.reported, hc.result]; exact hok.reported⟩
    · exact h.sound j v hv
  cases hpro with
  | fails err hres hw' =>
    refine ⟨hsound hw', fun q hq => ?_, nofun⟩
    rw [show s.pending = some q from hq] at hpend
    cases hpend
  | stores etag selfEntry hres hw' =>
    refine ⟨hsound hw', fun q hq => ?_, nofun⟩
    rw [show s.pending = some q from hq] at hpend
    cases hpend

/-- So does starting a listing. -/
theorem Inv.startPending (h : s.Inv) (hfree : s.promoting = none) :
    Inv { s with pending := some { fetch := s.workers.length }, workers := s.workers ++ [{}] } := by
  refine ⟨fun i w hw => ?_, fun p hp => ?_, fun p closed hp => ?_⟩
  · have hw : (s.workers ++ [({} : ListingWorker)])[i]? = some w := hw
    rcases Nat.lt_or_ge i s.workers.length with hlt | hge
    · rw [List.getElem?_append_left hlt] at hw
      exact h.sound i w hw
    · rw [List.getElem?_append_right hge] at hw
      obtain rfl := List.mem_singleton.mp (List.mem_of_getElem? hw)
      exact ⟨nofun, nofun⟩
  · obtain rfl := Option.some.inj hp
    exact ⟨hfree, rfl, rfl, {}, List.getElem?_concat_length, rfl, rfl⟩
  · rw [show s.promoting = some (p, closed) from hp] at hfree
    cases hfree

/-- Every step of the listing does. -/
theorem Inv.step (h : s.Inv) {e : ListingEvent} (hs : s.step e = some s') : s'.Inv := by
  have hwork : e.isWork = true → s'.Inv := by
    intro he
    obtain ⟨i, w, w', hw, rfl, hworks⟩ := step_work he hs
    exact h.work hw hworks
  cases e with
  | startPending =>
    simp only [Listing.step] at hs
    split at hs
    · rename_i hfree _
      exact Option.some.inj hs ▸ h.startPending hfree
    · cases hs
  | snapshot => exact h.reads (step_read (.inl rfl) hs)
  | promotePending => exact h.reads (step_read (.inr (.inl rfl)) hs)
  | drain => exact h.reads (step_read (.inr (.inr rfl)) hs)
  | promote now =>
    obtain ⟨p, closed, w, hp, hw, -, -, hpro⟩ := h.promote_cases hs
    exact h.promotes hp hw hpro
  | edit cache =>
    simp only [Listing.step] at hs
    split at hs
    · exact Option.some.inj hs ▸ ⟨h.sound, h.pending, h.promoting⟩
    · cases hs
  | sendEntry i e => exact hwork rfl
  | sendSelf i e => exact hwork rfl
  | finish i result => exact hwork rfl
  | noSlot i err => exact hwork rfl
  | sendResult i => exact hwork rfl
  | exit i => exact hwork rfl

/-- And a whole run. -/
theorem Inv.steps {es : List ListingEvent} : ∀ {s s' : Listing}, s.Inv → s.steps es = some s' → s'.Inv := by
  induction es with
  | nil =>
    intro s s' h hs
    exact Option.some.inj hs ▸ h
  | cons e es ih =>
    intro s s' h hs
    obtain ⟨t, ht, hrest⟩ := Option.bind_eq_some_iff.mp hs
    exact ih (h.step ht) hrest

/-! ## What is stored and told -/

/-- The listing of worker `i` has not been promoted. -/
def Current (s : Listing) (i : Nat) : Prop :=
  (∃ p, s.pending = some p ∧ p.fetch = i) ∨ ∃ p closed, s.promoting = some (p, closed) ∧ p.fetch = i

/-- A promotion goes on once the worker's result is on its channel, and the entry channel was closed
    when it took the entries. -/
def Meets (s : Listing) (e : ListingEvent) : Prop :=
  ∀ now, e = .promote now → ∀ p closed w, s.promoting = some (p, closed) → s.worker? p.fetch = some w →
    w.etagRx.isSome ∧ closed = true

/-- Every step of the run meets its condition. -/
def AllMeet (s : Listing) : List ListingEvent → Prop
  | [] => True
  | e :: es => s.Meets e ∧ match s.step e with
    | some s' => s'.AllMeet es
    | none => True

/-- What was stored is what a successful fetch sent and returned, and the error of a fetch that is
    no longer current was told. -/
structure Fair (s : Listing) : Prop where
  puts : ∀ c ∈ s.puts, ∃ w etag, s.worker? c.fetch = some w ∧ w.result = some (.ok etag) ∧
    c.etag = etag ∧ c.entries = w.sent
  told : ∀ i w, s.worker? i = some w → s.Current i ∨
    (w.result.isSome ∧ ∀ err, w.result = some (.error err) → (i, err) ∈ s.told)

/-- A step changes no worker that has returned. -/
structure Settles (s s' : Listing) : Prop where
  kept : ∀ i w, s.worker? i = some w → ∃ w', s'.worker? i = some w' ∧
    (w.result.isSome → w'.result = w.result ∧ w'.sent = w.sent)
  old : ∀ i w', s'.worker? i = some w' → s'.Current i ∨ ∃ w, s.worker? i = some w ∧
    (w.result.isSome → w'.result = w.result ∧ w'.sent = w.sent)

/-- A step that settles listings without storing or telling anything keeps it fair. -/
theorem Fair.settles (h : s.Fair) (hset : Settles s s') (hputs : s'.puts = s.puts) (htold : s'.told = s.told)
    (hcur : ∀ i, s.Current i → s'.Current i) : s'.Fair := by
  refine ⟨fun c hc => ?_, fun i w' hw' => ?_⟩
  · rw [hputs] at hc
    obtain ⟨w, etag, hw, hresult, hetag, hentries⟩ := h.puts c hc
    obtain ⟨w', hw', hkept⟩ := hset.kept _ w hw
    obtain ⟨hr, hsent⟩ := hkept (by rw [hresult]; rfl)
    exact ⟨w', etag, hw', hr.trans hresult, hetag, hentries.trans hsent.symm⟩
  · rcases hset.old i w' hw' with hnew | ⟨w, hw, hkept⟩
    · exact .inl hnew
    · rcases h.told i w hw with hc | ⟨hsome, herr⟩
      · exact .inl (hcur i hc)
      · obtain ⟨hr, -⟩ := hkept hsome
        rw [hr, htold]
        exact .inr ⟨hsome, herr⟩

/-- The other workers are as settled as before. -/
theorem settles_setWorker {i : Nat} (hw : s.worker? i = some w)
    (hkept : w.result.isSome → w'.result = w.result ∧ w'.sent = w.sent) {t : Listing}
    (ht : ∀ j, t.worker? j = (s.setWorker i w').worker? j) : Settles s t := by
  refine ⟨fun j v hv => ?_, fun j v hv => ?_⟩
  · rw [ht, worker?_setWorker hw]
    split
    · rename_i hj
      subst hj
      obtain rfl := Option.some.inj (hw.symm.trans hv)
      exact ⟨w', rfl, hkept⟩
    · exact ⟨v, hv, fun _ => ⟨rfl, rfl⟩⟩
  · rw [ht, worker?_setWorker hw] at hv
    split at hv
    · rename_i hj
      subst hj
      obtain rfl := Option.some.inj hv
      exact .inr ⟨w, hw, hkept⟩
    · exact .inr ⟨v, hv, fun _ => ⟨rfl, rfl⟩⟩

/-- Reading the channels stores nothing and tells nothing. -/
theorem Fair.reads (h : s.Fair) (hreads : s.Reads s') : s'.Fair := by
  cases hreads with
  | @waits p p' w w' hp hfree hw hr =>
    refine h.settles (settles_setWorker hw (fun _ => ⟨hr.result, hr.sent⟩) fun _ => rfl) rfl rfl fun i hc => ?_
    rcases hc with ⟨q, hq, hi⟩ | ⟨q, c, hq, -⟩
    · obtain rfl := Option.some.inj (hp.symm.trans hq)
      exact .inl ⟨p', rfl, hr.fetch.trans hi⟩
    · rw [hfree] at hq
      cases hq
  | @promotes p p' w w' closed hp hfree hw hr hclosed =>
    refine h.settles (settles_setWorker hw (fun _ => ⟨hr.result, hr.sent⟩) fun _ => rfl) rfl rfl fun i hc => ?_
    rcases hc with ⟨q, hq, hi⟩ | ⟨q, c, hq, -⟩
    · obtain rfl := Option.some.inj (hp.symm.trans hq)
      exact .inr ⟨p', closed, rfl, hr.fetch.trans hi⟩
    · rw [hfree] at hq
      cases hq

/-- A worker whose result is on the channel has reported it. -/
theorem Reports.result_eq (h : Reports w) (hsome : w.etagRx.isSome) : w.result = w.etagRx := by
  unfold Reports at h
  split at h
  · exact h.symm
  · rw [h] at hsome
    cases hsome

/-- A promotion stores what the worker has sent, or tells its failure. -/
theorem Fair.promotes (h : s.Fair) (hinv : s.Inv) {closed : Bool} {now : Nat}
    (hp : s.promoting = some (p, closed)) (hw : s.worker? p.fetch = some w) (hreports : Reports w)
    (hsome : w.etagRx.isSome) (hentries : p.entries = w.sent) (hpro : s.Promotes p w now s') : s'.Fair := by
  have hresult := hreports.result_eq hsome
  -- no other listing is current
  have honly : ∀ i, s.Current i → i = p.fetch := by
    rintro i (⟨q, hq, -⟩ | ⟨q, c, hq, rfl⟩)
    · rw [hinv.pending_none hp] at hq
      cases hq
    · rw [(Prod.mk.inj (Option.some.inj (hp.symm.trans hq))).1]
  have hset : ∀ {w' : ListingWorker}, Consumes w w' → ∀ t : Listing,
      (∀ j, t.worker? j = (s.setWorker p.fetch w').worker? j) → s.puts ⊆ t.puts → s.told ⊆ t.told →
      (∀ c ∈ t.puts, c ∈ s.puts ∨ (c.fetch = p.fetch ∧ w.result = some (.ok c.etag) ∧ c.entries = w.sent)) →
      (∀ err, w.result = some (.error err) → (p.fetch, err) ∈ t.told) → t.Fair := by
    intro w' hc t ht _ htold hputs herr
    have hset := settles_setWorker hw (fun _ => ⟨hc.result, hc.sent⟩) ht
    -- what was stored before is still what its worker sent
    refine ⟨fun c hc' => ?_, fun i v hv => .inr ?_⟩
    · rcases hputs c hc' with hold | ⟨hf, hr, he⟩
      · obtain ⟨v, etag, hv, hr, he, hn⟩ := h.puts c hold
        obtain ⟨v', hv', hkept⟩ := hset.kept _ v hv
        obtain ⟨hr', hsent⟩ := hkept (by rw [hr]; rfl)
        exact ⟨v', etag, hv', hr'.trans hr, he, hn.trans hsent.symm⟩
      · -- and so is what is stored now
        refine ⟨w', c.etag, ?_, hc.result.trans hr, rfl, he.trans hc.sent.symm⟩
        rw [hf, ht, worker?_setWorker hw, if_pos rfl]
    · rw [ht, worker?_setWorker hw] at hv
      split at hv
      · rename_i hi
        subst hi
        obtain rfl := Option.some.inj hv
        rw [hc.result]
        exact ⟨by rw [hresult]; exact hsome, herr⟩
      · rename_i hi
        rcases h.told i v hv with hcur | ⟨hs, he⟩
        · exact absurd (honly i hcur).symm hi
        · exact ⟨hs, fun err hr => htold (he err hr)⟩
  -- the result is an error, or the listing is whole
  cases hpro with
  | fails err hres hw' =>
    refine hset hw' _ (fun _ => rfl) (List.Subset.refl _) (List.subset_append_left _ _) (fun c hc => .inl hc)
      fun err' hr => ?_
    rw [hresult, hres] at hr
    cases hr
    exact List.mem_append_right _ (List.mem_singleton_self _)
  | stores etag selfEntry hres hw' =>
    have hok : w.etagRx = some (.ok etag) := by
      rcases hres with hres | ⟨hnone, -⟩
      · exact hres
      · rw [hnone] at hsome
        cases hsome
    refine hset hw' _ (fun _ => rfl) (List.subset_append_left _ _) (List.Subset.refl _) (fun c hc => ?_)
      fun err hr => ?_
    · rcases List.mem_append.mp hc with hc | hc
      · exact .inl hc
      · rw [List.mem_singleton.mp hc]
        exact .inr ⟨rfl, hresult.trans hok, hentries⟩
    · rw [hresult, hok] at hr
      cases hr

/-- A new listing is the current one. -/
theorem Fair.startPending (h : s.Fair) (hfree : s.promoting = none) (hpend : s.pending = none) :
    Fair { s with pending := some { fetch := s.workers.length }, workers := s.workers ++ [{}] } := by
  have hnone : ∀ i, ¬ s.Current i := by
    rintro i (⟨q, hq, -⟩ | ⟨q, c, hq, -⟩)
    · rw [hpend] at hq
      cases hq
    · rw [hfree] at hq
      cases hq
  refine h.settles ⟨fun i w hw => ?_, fun i w' hw' => ?_⟩ rfl rfl fun i hc => absurd hc (hnone i)
  · refine ⟨w, ?_, fun _ => ⟨rfl, rfl⟩⟩
    exact (List.getElem?_append_left (List.getElem?_eq_some_iff.mp hw).1).trans hw
  · have hw' : (s.workers ++ [({} : ListingWorker)])[i]? = some w' := hw'
    rcases Nat.lt_or_ge i s.workers.length with hlt | hge
    · rw [List.getElem?_append_left hlt] at hw'
      exact .inr ⟨w', hw', fun _ => ⟨rfl, rfl⟩⟩
    · have hlt := (List.getElem?_eq_some_iff.mp hw').1
      rw [List.length_append, List.length_singleton] at hlt
      exact .inl (.inl ⟨_, rfl, Nat.le_antisymm hge (Nat.le_of_lt_succ hlt)⟩)

/-- Every step that meets its condition keeps the listings fair. -/
theorem Fair.step (h : s.Fair) (hinv : s.Inv) {e : ListingEvent} (hmeets : s.Meets e)
    (hs : s.step e = some s') :
    s'.Fair := by
  have hwork : e.isWork = true → s'.Fair := by
    intro he
    obtain ⟨i, w, w', hw, rfl, hworks⟩ := step_work he hs
    exact h.settles (settles_setWorker hw hworks.settled fun _ => rfl) rfl rfl fun _ hc => hc
  cases e with
  | startPending =>
    simp only [Listing.step] at hs
    split at hs
    · rename_i hfree hpend
      exact Option.some.inj hs ▸ h.startPending hfree hpend
    · cases hs
  | snapshot => exact h.reads (step_read (.inl rfl) hs)
  | promotePending => exact h.reads (step_read (.inr (.inl rfl)) hs)
  | drain => exact h.reads (step_read (.inr (.inr rfl)) hs)
  | promote now =>
    obtain ⟨p, closed, w, hp, hw, hreports, hclosed, hpro⟩ := hinv.promote_cases hs
    obtain ⟨hsome, hc⟩ := hmeets now rfl p closed w hp hw
    exact h.promotes hinv hp hw hreports hsome (hclosed hc).1 hpro
  | edit cache =>
    simp only [Listing.step] at hs
    split at hs
    · exact Option.some.inj hs ▸ ⟨h.puts, h.told⟩
    · cases hs
  | sendEntry i e => exact hwork rfl
  | sendSelf i e => exact hwork rfl
  | finish i result => exact hwork rfl
  | noSlot i err => exact hwork rfl
  | sendResult i => exact hwork rfl
  | exit i => exact hwork rfl

/-- And so does a whole run. -/
theorem Fair.steps {es : List ListingEvent} : ∀ {s s' : Listing}, s.Inv → s.Fair → s.AllMeet es →
    s.steps es = some s' → s'.Fair := by
  induction es with
  | nil =>
    intro s s' hinv h hmeet hs
    exact Option.some.inj hs ▸ h
  | cons e es ih =>
    intro s s' hinv h hmeet hs
    obtain ⟨t, ht, hrest⟩ := Option.bind_eq_some_iff.mp hs
    obtain ⟨hmeets, hmeet⟩ := hmeet
    rw [ht] at hmeet
    exact ih (hinv.step ht) (h.step hinv hmeets ht) hmeet hrest

/-- The cache changes by what a promotion stores, and by what other code does to it. -/
theorem Inv.cache_step (h : s.Inv) {e : ListingEvent} (hs : s.step e = some s') :
    (s'.cache = s.cache ∧ s'.puts = s.puts) ∨
      (∃ c now, s'.puts = s.puts ++ [c] ∧
        s'.cache = s.cache.putDirCache s.path c.etag c.selfEntry c.entries now) ∨
      ∃ cache, e = .edit cache := by
  -- the workers and the reads store nothing
  have hwork : e.isWork = true → s'.cache = s.cache ∧ s'.puts = s.puts := by
    intro he
    obtain ⟨i, w, w', hw, rfl, -⟩ := step_work he hs
    exact ⟨rfl, rfl⟩
  have hread : s.Reads s' → s'.cache = s.cache ∧ s'.puts = s.puts := by
    intro hreads
    cases hreads with
    | waits hp hfree hw hr => exact ⟨rfl, rfl⟩
    | promotes closed hp hfree hw hr hclosed => exact ⟨rfl, rfl⟩
  cases e with
  | startPending =>
    simp only [Listing.step] at hs
    split at hs
    · exact .inl (Option.some.inj hs ▸ ⟨rfl, rfl⟩)
    · cases hs
  | snapshot => exact .inl (hread (step_read (.inl rfl) hs))
  | promotePending => exact .inl (hread (step_read (.inr (.inl rfl)) hs))
  | drain => exact .inl (hread (step_read (.inr (.inr rfl)) hs))
  | promote now =>
    obtain ⟨p, closed, w, hp, hw, -, -, hpro⟩ := h.promote_cases hs
    -- only a promotion stores, and only if the listing succeeded
    cases hpro with
    | fails err hres hw' => exact .inl ⟨rfl, rfl⟩
    | stores etag selfEntry hres hw' => exact .inr (.inl ⟨_, now, rfl, rfl⟩)
  | edit cache => exact .inr (.inr ⟨cache, rfl⟩)
  | sendEntry i e => exact .inl (hwork rfl)
  | sendSelf i e => exact .inl (hwork rfl)
  | finish i result => exact .inl (hwork rfl)
  | noSlot i err => exact .inl (hwork rfl)
  | sendResult i => exact .inl (hwork rfl)
  | exit i => exact .inl (hwork rfl)

/-- A promotion that comes before the result stores the listing as a good one without etag. -/
theorem Inv.promote_early (h : s.Inv) {closed : Bool} {now : Nat} (hp : s.promoting = some (p, closed))
    (hw : s.worker? p.fetch = some w) (hnone : w.etagRx = none) (hs : s.step (.promote now) = some s') :
    s'.told = s.told ∧ ∃ c, s'.puts = s.puts ++ [c] ∧ c.fetch = p.fetch ∧ c.etag = none := by
  obtain ⟨q, c, v, hq, hv, -, -, hpro⟩ := h.promote_cases hs
  obtain ⟨rfl, rfl⟩ := Prod.mk.inj (Option.some.inj (hp.symm.trans hq))
  obtain rfl := Option.some.inj (hw.symm.trans hv)
  cases hpro with
  | fails err hres hw' =>
    rw [hnone] at hres
    cases hres
  | stores etag selfEntry hres hw' =>
    refine ⟨rfl, _, rfl, rfl, ?_⟩
    rcases hres with hres | ⟨-, hetag⟩
    · rw [hnone] at hres
      cases hres
    · exact hetag

/-- At the start nothing is pending. -/
theorem Inv.start (path : PathBuf) (cache : FsCache) : Inv { path, cache } :=
  ⟨fun i w hw => by simp [worker?] at hw, nofun, nofun⟩

/-- And nothing has been stored. -/
theorem Fair.start (path : PathBuf) (cache : FsCache) : Fair { path, cache } :=
  ⟨nofun, fun i w hw => by simp [worker?] at hw⟩

/-- In every run whose promotions all find the worker's result, past a closed entry channel, what
    they store is all that a successful fetch sent and the etag it returned, a failed fetch stores
    nothing, and its error is returned by its promotion. A promotion changes the cache by what it
    stores and nothing else changes it. One that finds no result stores the listing all the same,
    whatever the fetch returns, and returns no error. -/
theorem failed_listings_are_not_cached {path : PathBuf} {cache : FsCache} {es : List ListingEvent}
    (hs : Listing.steps { path, cache } es = some s) :
    (AllMeet { path, cache } es →
      (∀ c ∈ s.puts, ∃ w etag, s.worker? c.fetch = some w ∧ w.result = some (.ok etag) ∧
        c.etag = etag ∧ c.entries = w.sent) ∧
      (∀ i w err, s.worker? i = some w → w.result = some (.error err) →
        (∀ c ∈ s.puts, c.fetch ≠ i) ∧ (s.Current i ∨ (i, err) ∈ s.told))) ∧
    (∀ e s', s.step e = some s' →
      (s'.cache = s.cache ∧ s'.puts = s.puts) ∨
      (∃ c now, s'.puts = s.puts ++ [c] ∧
        s'.cache = s.cache.putDirCache s.path c.etag c.selfEntry c.entries now) ∨
      ∃ cache, e = .edit cache) ∧
    (∀ p closed w now s', s.promoting = some (p, closed) → s.worker? p.fetch = some w → w.etagRx = none →
      w.result ≠ some (.ok none) → s.step (.promote now) = some s' →
      s'.told = s.told ∧ ∃ c, s'.puts = s.puts ++ [c] ∧ c.fetch = p.fetch ∧ w.result ≠ some (.ok c.etag)) := by
  have hinv := (Inv.start path cache).steps hs
  refine ⟨fun hmeet => ?_, fun e s' hstep => hinv.cache_step hstep,
    fun p closed w now s' hp hw hnone hresult hstep => ?_⟩
  · have hfair := (Fair.start path cache).steps (Inv.start path cache) hmeet hs
    refine ⟨hfair.puts, fun i w err hw herr => ⟨fun c hc hi => ?_, ?_⟩⟩
    · obtain ⟨v, etag, hv, hok, -⟩ := hfair.puts c hc
      rw [hi, hw] at hv
      rw [← Option.some.inj hv, herr] at hok
      cases hok
    · exact (hfair.told i w hw).imp_right fun h => h.2 err herr
  · obtain ⟨htold, c, hputs, hfetch, hetag⟩ := hinv.promote_early hp hw hnone hstep
    exact ⟨htold, c, hputs, hfetch, by rw [hetag]; exact hresult⟩

/-- A fetch that fails after one entry, and a reader that comes once the error was sent. -/
theorem reported_error_is_returned : ∃ s, Listing.steps { path := ["d"], cache := {} }
      [.startPending, .sendEntry 0 { path := ["d", "f"], isDir := false, size := 1 },
        .finish 0 (.error "timeout"), .sendResult 0, .snapshot, .promote 1] = some s ∧
    (∀ c ∈ s.puts, c.fetch ≠ 0) ∧ s.told = [(0, "timeout")] := by
  obtain ⟨s, w, hs, hw, hresult, htold⟩ : ∃ s w, Listing.steps { path := ["d"], cache := {} }
        [.startPending, .sendEntry 0 { path := ["d", "f"], isDir := false, size := 1 },
          .finish 0 (.error "timeout"), .sendResult 0, .snapshot, .promote 1] = some s ∧
      s.worker? 0 = some w ∧ w.result = some (.error "timeout") ∧ s.told = [(0, "timeout")] :=
    ⟨_, _, rfl, rfl, rfl, rfl⟩
  refine ⟨s, hs, ?_, htold⟩
  refine (((failed_listings_are_not_cached hs).1 ⟨nofun, nofun, nofun, nofun, nofun, ?_, trivial⟩).2
    0 w _ hw hresult).1
  intro now _ p closed v hp hv
  obtain ⟨rfl, rfl⟩ := Prod.mk.inj (Option.some.inj hp)
  obtain rfl := Option.some.inj hv
  exact ⟨rfl, rfl⟩

/-- The same fetch, and a reader that comes before the error was sent: the half listing is cached
    as the directory, without etag, and the error is lost. -/
theorem failed_listing_is_cached : ∃ s w d, Listing.steps { path := ["d"], cache := {} }
      [.startPending, .sendEntry 0 { path := ["d", "f"], isDir := false, size := 1 },
        .finish 0 (.error "timeout"), .snapshot, .promote 1, .sendResult 0] = some s ∧
    s.worker? 0 = some w ∧ w.result = some (.error "timeout") ∧
    s.cache.dir ["d"] = some d ∧ d.files = [{ path := ["d", "f"], isDir := false, size := 1 }] ∧ d.etag = none ∧
    s.pending.isNone ∧ s.promoting.isNone ∧ s.told = [] :=
  ⟨_, _, _, rfl, rfl, rfl, rfl, rfl, rfl, rfl, rfl, rfl⟩

end Listing

end Ncrs
