import Ncrs.Spec.HandoffContents
import Ncrs.Spec.HandoffReplay

/-!
# Node ids are not reused

What keeps a restored daemon from handing out a number again is its log: the reservation written
before the first number of each block goes out. The invariant bounds the numbers handed out by the
counter that each log would be restored with, the file's and that of a compaction under way.

## Key results

- `Daemon.Safe`: the invariant of one generation.
- `node_ids_are_not_reused`: over any number of generations, while every new number is handed out
  with its log in place.
-/

namespace Ncrs

namespace Handoff

/-! ## The counter a log is restored with -/

/-- The node a record names, and the bound it reserves. -/
def Entry.names : Entry → Nat
  | .ino i _ => i
  | .mv i _ _ => i
  | _ => 0

/-- The numbers that an entry reserves. -/
def Entry.reserves : Entry → Nat
  | .reserve upto => upto
  | _ => 0

namespace Replayer

@[simp] theorem set_maxIno (r : Replayer) (ino : Nat) (path : PathBuf) :
    (r.set ino path).maxIno = r.maxIno := rfl

@[simp] theorem set_reserved (r : Replayer) (ino : Nat) (path : PathBuf) :
    (r.set ino path).reserved = r.reserved := rfl

@[simp] theorem dropIno_maxIno (r : Replayer) (d : Nat) : (r.dropIno d).maxIno = r.maxIno := by
  unfold dropIno
  split <;> rfl

@[simp] theorem dropIno_reserved (r : Replayer) (d : Nat) :
    (r.dropIno d).reserved = r.reserved := by
  unfold dropIno
  split <;> rfl

@[simp] theorem modifyHandle_maxIno (r : Replayer) (fh : Nat) (f : OpenRecord → OpenRecord) :
    (r.modifyHandle fh f).maxIno = r.maxIno := by
  unfold modifyHandle
  split <;> rfl

@[simp] theorem modifyHandle_reserved (r : Replayer) (fh : Nat) (f : OpenRecord → OpenRecord) :
    (r.modifyHandle fh f).reserved = r.reserved := by
  unfold modifyHandle
  split <;> rfl

/-- An entry raises the largest number seen by those that it names. -/
theorem applyEntry_maxIno (r : Replayer) (s : Nat) (e : Entry) :
    (r.applyEntry s e).maxIno = max r.maxIno e.names := by
  cases e with
  | mv ino path dropped =>
    simp only [applyEntry]
    split <;> simp [Entry.names]
  | _ => simp [applyEntry, Entry.names]

/-- And the reservation by those that it reserves. -/
theorem applyEntry_reserved (r : Replayer) (s : Nat) (e : Entry) :
    (r.applyEntry s e).reserved = max r.reserved e.reserves := by
  cases e with
  | mv ino path dropped =>
    simp only [applyEntry]
    split <;> simp [Entry.reserves]
  | _ => simp [applyEntry, Entry.reserves]

end Replayer

/-- The first number that a filesystem restored from the log may hand out. -/
def bound (es : Entries) : Nat := (replay es).finish.nextInode

/-- The bound of a log with one more entry. -/
theorem bound_snoc (es : Entries) (e : Nat × Entry) :
    bound (es ++ [e]) = max (bound es) (max (e.2.names + 1) e.2.reserves) := by
  have hino := Replayer.applyEntry_maxIno (replay es) e.1 e.2
  have hres := Replayer.applyEntry_reserved (replay es) e.1 e.2
  simp only [bound, replay_snoc, Replayer.finish, Restored.nextInode, hino, hres]
  omega

/-- A longer log has no smaller bound. -/
theorem bound_mono {es es' : Entries} (h : es <+: es') : bound es ≤ bound es' := by
  obtain ⟨l, rfl⟩ := h
  induction l using List.reverseRecOn with
  | nil => simp
  | append_singleton l e ih =>
    rw [← List.append_assoc, bound_snoc]
    omega

/-- An entry of the log stays below its bound. -/
theorem lt_bound_of_mem {es : Entries} {e : Nat × Entry} (h : e ∈ es) :
    e.2.names < bound es ∧ e.2.reserves ≤ bound es := by
  obtain ⟨pre, post, rfl⟩ := List.append_of_mem h
  have hle : bound (pre ++ [e]) ≤ bound (pre ++ e :: post) :=
    bound_mono ⟨post, by simp⟩
  rw [bound_snoc] at hle
  omega

/-- The numbers a log gives names to are below its bound. -/
theorem namesOf_lt_bound {es : Entries} {i : Nat} {p : PathBuf} (h : namesOf es i = some p) :
    i < bound es := by
  induction es using List.reverseRecOn generalizing i p with
  | nil => cases h
  | append_singleton es e ih =>
    rw [namesOf_snoc] at h
    rw [bound_snoc]
    have hnames : i < bound es ∨ i = e.2.names := by
      obtain hold | he | ⟨d, he⟩ := Entry.rename_eq_some h
      · exact .inl (ih hold)
      · simp [he, Entry.names]
      · simp [he, Entry.names]
    omega

/-! ## Sound logs -/

/-- The log holds the record of the allocation of `i`. -/
def HasIno (es : Entries) (i : Nat) : Prop := ∃ s p, (s, Entry.ino i p) ∈ es

/-- A node of the log is one of a longer log. -/
theorem HasIno.mono {es es' : Entries} {i : Nat} (h : HasIno es i) (hsub : es ⊆ es') :
    HasIno es' i := by
  obtain ⟨s, p, hmem⟩ := h
  exact ⟨s, p, hsub hmem⟩

/-- What may stand in a log after `pre`: no record is about the root, and what moves was
allocated. -/
def Follows (pre : Entries) : Entry → Prop
  | .ino i p => i ≠ 1 ∧ p ≠ []
  | .mv i p _ => i ≠ 1 ∧ p ≠ [] ∧ HasIno pre i
  | _ => True

/-- Every record may stand where it does. -/
def Sound (es : Entries) : Prop := ∀ pre e post, es = pre ++ e :: post → Follows pre e.2

/-- The beginning of a sound log is sound. -/
theorem Sound.mono {es es' : Entries} (h : Sound es') (hpre : es <+: es') : Sound es := by
  obtain ⟨l, rfl⟩ := hpre
  rintro pre e post rfl
  exact h pre e (post ++ l) (by simp)

theorem sound_nil : Sound [] := by
  intro pre e post h
  simp at h

/-- A sound log may be continued by an entry that follows from it. -/
theorem Sound.snoc {es : Entries} {e : Nat × Entry} (h : Sound es) (he : Follows es e.2) :
    Sound (es ++ [e]) := by
  intro pre x post heq
  obtain rfl | ⟨post', y, rfl⟩ := List.eq_nil_or_concat post
  · obtain ⟨rfl, hx⟩ := List.append_inj' heq rfl
    obtain rfl := List.singleton_inj.mp hx
    exact he
  · rw [List.concat_eq_append, ← List.cons_append, ← List.append_assoc] at heq
    obtain ⟨rfl, -⟩ := List.append_inj' heq rfl
    exact h pre x post' rfl

/-- A record that may stand anywhere. -/
def Entry.Neutral (e : Entry) : Prop := ∀ pre, Follows pre e

/-- Or by entries that name no node. -/
theorem Sound.append {es es' : Entries} (h : Sound es) (hes : ∀ e ∈ es', e.2.Neutral) :
    Sound (es ++ es') := by
  induction es' generalizing es with
  | nil => simpa using h
  | cons e es' ih =>
    rw [List.append_cons]
    exact ih (h.snoc (hes e List.mem_cons_self es)) fun x hx => hes x (List.mem_cons_of_mem _ hx)

theorem sound_of_neutral {es : Entries} (hes : ∀ e ∈ es, e.2.Neutral) : Sound es :=
  sound_nil.append hes

/-- What a sound log names is not the root, and was allocated. -/
theorem Sound.known {es : Entries} (h : Sound es) {i : Nat} {p : PathBuf}
    (hi : namesOf es i = some p) : i ≠ 1 ∧ p ≠ [] ∧ HasIno es i := by
  induction es using List.reverseRecOn generalizing i p with
  | nil => cases hi
  | append_singleton es e ih =>
    have he : Follows es e.2 := h es e [] rfl
    rw [namesOf_snoc] at hi
    obtain hold | hino | ⟨d, hmv⟩ := Entry.rename_eq_some hi
    · obtain ⟨hroot, hpath, hlog⟩ := ih (h.mono (List.prefix_append _ _)) hold
      exact ⟨hroot, hpath, hlog.mono (List.subset_append_left _ _)⟩
    · rw [hino] at he
      exact ⟨he.1, he.2, e.1, p, by simp [← hino]⟩
    · rw [hmv] at he
      exact ⟨he.1, he.2.1, he.2.2.mono (List.subset_append_left _ _)⟩

/-- An image is sound, and has the allocation of every node of the table. -/
theorem sound_image {t : InodeTable} {f : Nat ≃. PathBuf} (h : t.Holds f) (s fhMark upto : Nat)
    (opens : List (Nat × OpenRecord)) (streams : List (PathBuf × Nat × String)) :
    Sound (Log.image s fhMark upto t opens streams) := by
  apply sound_of_neutral
  intro e he pre
  simp only [Log.image, List.mem_cons, List.mem_append, List.mem_map] at he
  obtain rfl | rfl | (⟨⟨i, p⟩, hx, rfl⟩ | ⟨x, -, rfl⟩) | ⟨x, -, rfl⟩ := he
  · trivial
  · trivial
  · exact h.toRooted.ne_root (h.mem_nodes.mp ((List.mem_insertionSort _).mp hx))
  · trivial
  · trivial

/-- An image of the table has its nodes. -/
theorem hasIno_image {t : InodeTable} {f : Nat ≃. PathBuf} (h : t.Holds f) (s fhMark upto : Nat)
    (opens : List (Nat × OpenRecord)) (streams : List (PathBuf × Nat × String)) {i : Nat}
    {p : PathBuf} (hi : f i = some p) :
    HasIno (Log.image s fhMark upto t opens streams) i := by
  refine ⟨s, p, ?_⟩
  simp only [Log.image, List.mem_cons, List.mem_append, List.mem_map]
  exact .inr (.inr (.inl (.inl ⟨⟨i, p⟩, (List.mem_insertionSort _).mpr (h.mem_nodes.mpr hi), rfl⟩)))

/-- And its bound is at least what was reserved. -/
theorem le_bound_image (t : InodeTable) (s fhMark upto : Nat) (opens : List (Nat × OpenRecord))
    (streams : List (PathBuf × Nat × String)) :
    upto ≤ bound (Log.image s fhMark upto t opens streams) :=
  (lt_bound_of_mem (e := (s, .reserve upto)) (by simp [Log.image])).2

/-! ## One generation -/

/-- The invariant of a daemon whose table holds `f`, on a connection that was handed the numbers
`handed`. -/
structure Daemon.Safe (d : Daemon) (f : Nat ≃. PathBuf) (handed : List Nat) : Prop where
  holds : d.table.Holds f
  handed_lt : ∀ i ∈ handed, i < d.table.nextInode
  sound : ∀ c ∈ d.log.receiving, Sound c
  known : ∀ c ∈ d.log.receiving, ∀ i p, f i = some p → HasIno c i
  detached : d.log.attached = false → ∀ c, d.log.disk = some c → Sound c
  handed_bound : ∀ c ∈ d.log.durable, ∀ i ∈ handed, i < bound c
  next_le : d.log.on = true → d.table.nextInode ≤ d.log.reservedUpto
  /-- A reservation that is not used up is written. -/
  reserved : d.log.on = true → d.table.nextInode < d.log.reservedUpto →
    ∀ c ∈ d.log.durable, d.log.reservedUpto ≤ bound c
  gone : d.log.failed = true → d.log.disk = none
  off : d.log.on = false → d.log.compaction = none

/-- A new number is handed out with the log in place: its reservation can be written where a
successor looks for it, or is there already, or there is no log for a successor to load. -/
def Daemon.Logged (d : Daemon) : Prop :=
  (d.log.on = true ∧ (d.log.failed = true ∨ d.log.attached = true ∨
    d.table.nextInode < d.log.reservedUpto)) ∨
  (d.log.on = false ∧ d.log.disk = none)

namespace Daemon.Safe

variable {d d' : Daemon} {f : Nat ≃. PathBuf} {handed : List Nat}

/-- What a successor would load is sound. -/
theorem durable_sound (h : d.Safe f handed) {c : Entries} (hc : c ∈ d.log.durable) : Sound c := by
  cases ha : d.log.attached with
  | true =>
    obtain ⟨c', hc', hpre⟩ := Log.durable_prefix ha hc
    exact (h.sound c' hc').mono hpre
  | false =>
    rw [Log.mem_durable] at hc
    obtain ⟨hf, hdisk | ⟨k, hk, rfl⟩⟩ := hc
    · exact h.detached ha c hdisk
    · have hnew := h.sound _ (Log.mem_receiving.mpr ⟨hf, .inr ⟨k, hk, rfl⟩⟩)
      exact hnew.mono (List.prefix_append _ _)

/-- A hook that is not about nodes. -/
theorem of_continues (h : d.Safe f handed) {es : Entries} (ht : d'.table = d.table)
    (hlog : d.log.Continues d'.log es) (hupto : d'.log.reservedUpto = d.log.reservedUpto)
    (hes : ∀ e ∈ es, e.2.Neutral) : d'.Safe f handed where
  holds := ht ▸ h.holds
  handed_lt := ht ▸ h.handed_lt
  sound c hc := by
    obtain ⟨c₀, hc₀, rfl⟩ := hlog.receiving c hc
    exact (h.sound c₀ hc₀).append hes
  known c hc i p hi := by
    obtain ⟨c₀, hc₀, rfl⟩ := hlog.receiving c hc
    exact (h.known c₀ hc₀ i p hi).mono (List.subset_append_left _ _)
  detached ha c hc := by
    rw [hlog.attached] at ha
    exact h.detached ha c (hlog.detached ha c hc)
  handed_bound c hc i hi := by
    obtain ⟨c₀, hc₀, hpre⟩ := hlog.durable c hc
    exact (h.handed_bound c₀ hc₀ i hi).trans_le (bound_mono hpre)
  next_le hon := by
    rw [ht, hupto]
    exact h.next_le (hlog.on ▸ hon)
  reserved hon hlt c hc := by
    obtain ⟨c₀, hc₀, hpre⟩ := hlog.durable c hc
    rw [ht, hupto] at hlt
    rw [hupto]
    exact (h.reserved (hlog.on ▸ hon) hlt c₀ hc₀).trans (bound_mono hpre)
  gone := hlog.gone h.gone
  off hon := hlog.idle (h.off (hlog.on ▸ hon))

/-- One turn of a rename. -/
theorem moveOne (h : d.Safe f handed) {source target : PathBuf} {x : (PathBuf × Nat) × Io}
    (hx : f x.1.2 = some x.1.1) (hnew : InodeTable.movedTo source target x.1.1 ≠ []) :
    (d.moveOne source target x).Safe
      (f.place x.1.2 (InodeTable.movedTo source target x.1.1)) handed := by
  have hroot := (h.holds.toRooted.ne_root hx).1
  have hlog := d.log.continues_inodeMoved x.1.2 (InodeTable.movedTo source target x.1.1)
    (d.table.displaced x.1.1 (InodeTable.movedTo source target x.1.1) x.1.2) x.2
  have hupto : (d.moveOne source target x).log.reservedUpto = d.log.reservedUpto := by
    simp only [Daemon.moveOne, Log.inodeMoved]
    split <;> simp
  -- one goal for what each sink of the log holds, and two for the reservation
  refine
    { holds := h.holds.move hx hnew
      handed_lt := h.handed_lt
      sound := fun c hc => ?_
      known := fun c hc i p hi => ?_
      detached := fun ha c hc => ?_
      handed_bound := fun c hc i hi => ?_
      next_le := fun hon => ?_
      reserved := fun hon hlt c hc => ?_
      gone := hlog.gone h.gone
      off := fun hon => hlog.idle (h.off (hlog.on ▸ hon)) }
  · -- the record of the move follows the node that it moves
    obtain ⟨c₀, hc₀, rfl⟩ := hlog.receiving c hc
    unfold Log.numbered
    split
    · exact (h.sound c₀ hc₀).snoc ⟨hroot, hnew, h.known c₀ hc₀ _ _ hx⟩
    · simpa using h.sound c₀ hc₀
  · obtain ⟨c₀, hc₀, rfl⟩ := hlog.receiving c hc
    -- a node that has a path after the move had one before
    have hold : ∃ q, f i = some q := by
      rw [PEquiv.place_apply] at hi
      split at hi
      · rename_i hix
        exact ⟨_, hix ▸ hx⟩
      · split at hi
        · cases hi
        · exact ⟨p, hi⟩
    obtain ⟨q, hq⟩ := hold
    exact (h.known c₀ hc₀ i q hq).mono (List.subset_append_left _ _)
  · have ha' : d.log.attached = false := hlog.attached.symm.trans ha
    exact h.detached ha' c (hlog.detached ha' c hc)
  · obtain ⟨c₀, hc₀, hpre⟩ := hlog.durable c hc
    exact (h.handed_bound c₀ hc₀ i hi).trans_le (bound_mono hpre)
  · rw [hupto]
    exact h.next_le (hlog.on.symm.trans hon)
  · obtain ⟨c₀, hc₀, hpre⟩ := hlog.durable c hc
    rw [hupto] at hlt ⊢
    exact (h.reserved (hlog.on.symm.trans hon) hlt c₀ hc₀).trans (bound_mono hpre)

/-- Ending a compaction keeps the numbers safe, whether the swap succeeds or not. -/
theorem compactEnd (h : d.Safe f handed) (hk : d.log.compaction.isSome = true) (ok : Bool)
    (swap : Log.Swap) : ({ d with log := d.log.compactEnd ok swap } : Daemon).Safe f handed := by
  obtain ⟨hon, hupto, -, -⟩ := d.log.compactEnd_fields ok swap
  refine
    { holds := h.holds
      handed_lt := h.handed_lt
      sound := fun c hc => h.sound c (Log.mem_receiving_compactEnd hc)
      known := fun c hc => h.known c (Log.mem_receiving_compactEnd hc)
      detached := fun ha c hc => ?_
      handed_bound := fun c hc i hi => ?_
      next_le := fun hon' => ?_
      reserved := fun hon' hlt c hc => ?_
      gone := Log.gone_compactEnd h.gone
      off := fun hon' => ?_ }
  · -- what is on disk now is the old log or the image
    obtain ⟨ha', hc'⟩ | hc' := Log.disk_compactEnd h.gone ha hc
    · exact h.detached ha' c hc'
    · exact h.sound c hc'
  · -- what is durable now begins with what was durable before
    obtain ⟨c₀, hc₀, hpre⟩ := Log.mem_durable_compactEnd hc
    exact (h.handed_bound c₀ hc₀ i hi).trans_le (bound_mono hpre)
  · rw [hupto]
    exact h.next_le (hon.symm.trans hon')
  · obtain ⟨c₀, hc₀, hpre⟩ := Log.mem_durable_compactEnd hc
    rw [hupto] at hlt ⊢
    exact (h.reserved (hon.symm.trans hon') hlt c₀ hc₀).trans (bound_mono hpre)
  · rw [h.off (hon.symm.trans hon')] at hk
    cases hk

/-- Beginning a compaction does: the image knows all the nodes and reserves what was reserved. -/
theorem compactBegin (h : d.Safe f handed) (opens : List (Nat × OpenRecord))
    (streams : List (PathBuf × Nat × String)) (ok : Bool) :
    ({ d with log := d.log.compactBegin d.table opens streams ok } : Daemon).Safe f handed := by
  -- the image reserves at least the next number and what was reserved before
  have himage : d.table.nextInode ≤ bound (d.log.newImage d.table opens streams) ∧
      d.log.reservedUpto ≤ bound (d.log.newImage d.table opens streams) := by
    have := le_bound_image d.table (d.log.seq + 1) d.log.lastFhMark
      (max d.log.reservedUpto d.table.nextInode) opens streams
    simp only [Log.newImage]
    omega
  -- the log itself stays as it is, except for a flush and the reservation
  have hfields : (d.log.compactBegin d.table opens streams ok).on = d.log.on ∧
      (d.log.compactBegin d.table opens streams ok).attached = d.log.attached ∧
      (d.log.on = true →
        (d.log.compactBegin d.table opens streams ok).reservedUpto = d.log.reservedUpto) ∧
      ∀ c, d.log.attached = false → (d.log.compactBegin d.table opens streams ok).disk = some c →
        d.log.disk = some c := by
    obtain ⟨-, heq⟩ | ⟨-, -, heq⟩ | ⟨hon, -, heq⟩ :=
      d.log.compactBegin_cases d.table opens streams ok
    · rw [heq]
      exact ⟨rfl, rfl, fun _ => rfl, fun c _ hc => hc⟩
    · rw [heq]
      exact ⟨by simp, by simp, by simp, fun c ha hc => (d.log.continues_flush ok).detached ha c hc⟩
    · rw [heq]
      have := h.next_le hon
      exact ⟨by simp, by simp, fun _ => by simpa using this,
        fun c ha hc => (d.log.continues_flush ok).detached ha c hc⟩
  obtain ⟨hon, ha, hupto, hdisk⟩ := hfields
  refine
    { holds := h.holds
      handed_lt := h.handed_lt
      sound := fun c hc => ?_
      known := fun c hc i p hi => ?_
      detached := fun ha' c hc => ?_
      handed_bound := fun c hc i hi => ?_
      next_le := fun hon' => ?_
      reserved := fun hon' hlt c hc => ?_
      gone := Log.gone_compactBegin h.gone
      off := fun hon' => ?_ }
  · -- the log that receives is the old one or the image
    obtain hc | rfl := Log.mem_receiving_compactBegin hc
    · exact h.sound c hc
    · exact sound_image h.holds _ _ _ _ _
  · obtain hc | rfl := Log.mem_receiving_compactBegin hc
    · exact h.known c hc i p hi
    · exact hasIno_image h.holds _ _ _ _ _ hi
  · have ha'' := ha.symm.trans ha'
    exact h.detached ha'' c (hdisk c ha'' hc)
  · obtain ⟨c₀, hc₀, hpre⟩ | rfl := Log.mem_durable_compactBegin hc
    · exact (h.handed_bound c₀ hc₀ i hi).trans_le (bound_mono hpre)
    · exact (h.handed_lt i hi).trans_le himage.1
  · rw [hupto (hon.symm.trans hon')]
    exact h.next_le (hon.symm.trans hon')
  · rw [hupto (hon.symm.trans hon')] at hlt ⊢
    obtain ⟨c₀, hc₀, hpre⟩ | rfl := Log.mem_durable_compactBegin hc
    · exact (h.reserved (hon.symm.trans hon') hlt c₀ hc₀).trans (bound_mono hpre)
    · exact himage.2
  · -- with the log off there is no compaction
    have hoff : d.log.on = false := hon.symm.trans hon'
    have heq : d.log.compactBegin d.table opens streams ok = d.log := by
      simp [Log.compactBegin, hoff]
    show (d.log.compactBegin d.table opens streams ok).compaction = none
    rw [heq]
    exact h.off hoff

/-- A reservation goes beyond its number. -/
theorem lt_reservationAfter (n : Nat) : n < Log.reservationAfter n := by
  unfold Log.reservationAfter Log.reserveBlock
  omega

/-- Once a number's block is reserved, every log has the reservation. -/
theorem reserve (h : d.Safe f handed) (hon : d.log.on = true)
    (hlogged : d.log.failed = true ∨ d.log.attached = true ∨
      d.table.nextInode < d.log.reservedUpto) (io : Io) :
    d.table.nextInode < (d.log.reserve d.table.nextInode io).reservedUpto ∧
      ∀ c ∈ (d.log.reserve d.table.nextInode io).durable,
        (d.log.reserve d.table.nextInode io).reservedUpto ≤ bound c := by
  unfold Log.reserve
  split
  · rename_i hle
    refine ⟨by simpa using lt_reservationAfter _, fun c hc => ?_⟩
    rw [Log.put_reservedUpto]
    obtain hf | ha | hlt := hlogged
    · replace hf : ({ d.log with
        reservedUpto := Log.reservationAfter d.table.nextInode } : Log).failed = true := hf
      rw [Log.put_of_failed hf, Log.mem_durable] at hc
      exact absurd (hf.symm.trans hc.1) (by decide)
    · replace ha : ({ d.log with
        reservedUpto := Log.reservationAfter d.table.nextInode } : Log).attached = true := ha
      exact (lt_bound_of_mem (Log.mem_durable_put_sync ha hc)).2
    · omega
  · rename_i hlt
    exact ⟨by omega, h.reserved hon (by omega)⟩

/-- A new number. -/
theorem allocate (h : d.Safe f handed) {path : PathBuf}
    (hpath : d.table.paths.lookup path = none) (hlogged : d.Logged) (io io' : Io) :
    ({ d with
      table := d.table.add path
      log := d.log.inodeAllocated d.table.nextInode path io io' } : Daemon).Safe
      (f.place d.table.nextInode path) (d.table.nextInode :: handed) := by
  have hne := (h.holds.path_free hpath).1
  have hnext : d.table.nextInode ≠ 1 := Nat.ne_of_gt h.holds.next
  have hhanded : ∀ i ∈ d.table.nextInode :: handed, i < (d.table.add path).nextInode := by
    intro i hi
    simp only [InodeTable.add]
    obtain rfl | hi := List.mem_cons.mp hi
    · omega
    · have := h.handed_lt i hi
      omega
  have hnames : ∀ {i p}, f.place d.table.nextInode path i = some p →
      i = d.table.nextInode ∨ f i = some p := by
    intro i p hi
    rw [PEquiv.place_apply_of_free (h.holds.path_free hpath).2] at hi
    split at hi
    · exact .inl ‹_›
    · exact .inr hi
  -- either the allocation is logged, or the log is off and nothing is on disk
  obtain ⟨hon, hlogged⟩ | ⟨hoff, hdisk⟩ := hlogged
  · obtain ⟨hlt, hbound⟩ := h.reserve hon hlogged io
    have hlog := d.log.continues_inodeAllocated hon d.table.nextInode path io io'
    have hput : d.log.inodeAllocated d.table.nextInode path io io' =
        (d.log.reserve d.table.nextInode io).put (.ino d.table.nextInode path) false io' := by
      rw [Log.inodeAllocated, if_pos hon]
    -- the record itself may stay queued: the reservation is what counts
    have hdurable : ∀ c ∈ (d.log.inodeAllocated d.table.nextInode path io io').durable,
        (d.log.reserve d.table.nextInode io).reservedUpto ≤ bound c := by
      intro c hc
      rw [hput] at hc
      obtain ⟨c₀, hc₀, hpre⟩ := Log.mem_durable_put hc
      exact (hbound c₀ hc₀).trans (bound_mono hpre)
    have hupto : (d.log.inodeAllocated d.table.nextInode path io io').reservedUpto =
        (d.log.reserve d.table.nextInode io).reservedUpto := by
      rw [hput, Log.put_reservedUpto]
    refine
      { holds := h.holds.add hpath
        handed_lt := hhanded
        sound := fun c hc => ?_
        known := fun c hc i p hi => ?_
        detached := fun ha c hc => ?_
        handed_bound := fun c hc i hi => ?_
        next_le := fun _ => ?_
        reserved := fun _ _ c hc => ?_
        gone := hlog.gone h.gone
        off := fun hon' => hlog.idle (h.off (hlog.on.symm.trans hon')) }
    · -- the log grows by a reservation and the record of the new node
      obtain ⟨c₀, hc₀, rfl⟩ := hlog.receiving c hc
      refine (h.sound c₀ hc₀).append fun e he pre => ?_
      obtain he | he := List.mem_append.mp he
      · unfold Log.numberedReserve at he
        split at he
        · obtain rfl := List.mem_singleton.mp he
          trivial
        · cases he
      · obtain rfl := List.mem_singleton.mp he
        exact ⟨hnext, hne⟩
    · obtain ⟨c₀, hc₀, rfl⟩ := hlog.receiving c hc
      obtain rfl | hi := hnames hi
      · exact ⟨(d.log.reserve d.table.nextInode io).seq + 1, path, by simp⟩
      · exact (h.known c₀ hc₀ i p hi).mono (List.subset_append_left _ _)
    · have ha' := hlog.attached.symm.trans ha
      exact h.detached ha' c (hlog.detached ha' c hc)
    · -- the new number was reserved before it was handed out
      have hc' := hdurable c hc
      obtain rfl | hi := List.mem_cons.mp hi
      · omega
      · obtain ⟨c₀, hc₀, hpre⟩ := hlog.durable c hc
        exact (h.handed_bound c₀ hc₀ i hi).trans_le (bound_mono hpre)
    · rw [hupto]
      exact hlt
    · rw [hupto]
      exact hdurable c hc
  · -- without a log nothing has to know the number
    have hlog : d.log.inodeAllocated d.table.nextInode path io io' = d.log := by
      simp [Log.inodeAllocated, hoff]
    have hnone : ∀ c, c ∉ d.log.durable ∧ c ∉ d.log.receiving := by
      intro c
      simp [Log.mem_durable, Log.mem_receiving, hdisk, h.off hoff]
    refine
      { holds := h.holds.add hpath
        handed_lt := hhanded
        sound := fun c hc => ?_
        known := fun c hc => ?_
        detached := fun _ c hc => ?_
        handed_bound := fun c hc => ?_
        next_le := fun hon => ?_
        reserved := fun hon => ?_
        gone := fun _ => ?_
        off := fun _ => ?_ }
    all_goals simp only [hlog] at *
    · exact absurd hc (hnone c).2
    · exact absurd hc (hnone c).2
    · rw [hdisk] at hc
      cases hc
    · exact absurd hc (hnone c).1
    · exact absurd (hoff.symm.trans hon) (by decide)
    · exact absurd (hoff.symm.trans hon) (by decide)
    · exact hdisk
    · exact h.off hoff

end Daemon.Safe

namespace Log

/-- Opening a handle reserves no inode numbers. -/
@[simp] theorem handleOpened_reservedUpto (l : Log) (rec : OpenRecord) (io : Io) :
    (l.handleOpened rec io).reservedUpto = l.reservedUpto := by
  unfold handleOpened
  split <;> simp

/-- Nor does releasing one. -/
@[simp] theorem handleReleased_reservedUpto (l : Log) (fh : Nat) (io : Io) :
    (l.handleReleased fh io).reservedUpto = l.reservedUpto := by
  unfold handleReleased
  split <;> simp

/-- Nor changing one. -/
@[simp] theorem handleChanged_reservedUpto (l : Log) (fh : Nat) (f : OpenRecord → OpenRecord)
    (e : Entry) (io : Io) : (l.handleChanged fh f e io).reservedUpto = l.reservedUpto := by
  unfold handleChanged
  split <;> simp

/-- Nor starting a stream. -/
@[simp] theorem streamStarted_reservedUpto (l : Log) (wp : PathBuf) (uploadsBase : String)
    (io : Io) : (l.streamStarted wp uploadsBase io).reservedUpto = l.reservedUpto := by
  unfold streamStarted
  split <;> simp

/-- Nor the tick of the writer. -/
@[simp] theorem tick_reservedUpto (l : Log) (next : Nat) (io : Io) (ok : Bool) :
    (l.tick next io ok).reservedUpto = l.reservedUpto := by
  unfold tick
  split
  · split <;> simp
  · rfl

/-- An entry that names no node stays one when it is numbered. -/
theorem neutral_numbered {l : Log} {e : Entry} (he : e.Neutral) : ∀ x ∈ l.numbered e, x.2.Neutral := by
  intro x hx
  have hxe : x.2 = e := by
    unfold numbered at hx
    by_cases hon : l.on = true
    · rw [if_pos hon, List.mem_singleton] at hx
      rw [hx]
    · rw [if_neg hon] at hx
      cases hx
  rw [hxe]
  exact he

/-- The same for an entry that is logged only for an open handle. -/
theorem neutral_numberedOpen {l : Log} {fh : Nat} {e : Entry} (he : e.Neutral) :
    ∀ x ∈ l.numberedOpen fh e, x.2.Neutral := by
  intro x hx
  unfold numberedOpen at hx
  split at hx
  · exact neutral_numbered he x hx
  · cases hx

end Log

/-- A step that takes a new number takes it with the log in place. -/
def Daemon.Meets (d : Daemon) : Event → Prop
  | .allocate path _ _ => d.table.paths.lookup path = none → d.Logged
  | _ => True

namespace Daemon.Safe

variable {d d' : Daemon} {f : Nat ≃. PathBuf} {handed : List Nat} {cacheDir : PathBuf}

/-- Renames move nodes and make none. -/
theorem rename (h : d.Safe f handed) {source target : PathBuf} {subtree : Bool}
    {moves : List ((PathBuf × Nat) × Io)}
    (hstep : d.step cacheDir (.rename source target subtree moves) = some d') :
    ∃ f', d'.Safe f' handed ∧ ∀ i p, f' i = some p → ∃ q, f i = some q := by
  obtain ⟨f', hf', -⟩ := Daemon.rename_induction hstep
    (P := fun d f' => d.Safe f' handed ∧ ∀ i p, f' i = some p → ∃ q, f i = some q)
    (fun d f' x hP _ hx hnew => ⟨hP.1.moveOne hx hnew, fun i p hi => by
      rw [PEquiv.place_apply] at hi
      split at hi
      · rename_i hix
        exact hP.2 i _ (hix ▸ hx)
      · split at hi
        · cases hi
        · exact hP.2 i p hi⟩)
    ⟨h, fun i p hi => ⟨p, hi⟩⟩ h.holds
  exact ⟨f', hf'⟩

/-- What a step keeps, and which nodes it adds to the table. -/
theorem step (h : d.Safe f handed) {e : Event} (hmeets : d.Meets e)
    (hstep : d.step cacheDir e = some d') :
    ∃ f', d'.Safe f' ((Host.taken d e).toList ++ handed) ∧
      ∀ i p, f' i = some p → (∃ q, f i = some q) ∨ Host.taken d e = some i := by
  -- a step that hands out no number
  have hsame : ∀ {d' : Daemon}, d'.Safe f handed → Host.taken d e = none →
      ∃ f', d'.Safe f' ((Host.taken d e).toList ++ handed) ∧
        ∀ i p, f' i = some p → (∃ q, f i = some q) ∨ Host.taken d e = some i := by
    intro d' h' htaken
    rw [htaken]
    exact ⟨f, h', fun i p hi => .inl ⟨p, hi⟩⟩
  cases e with
  | allocate path io io' =>
    simp only [Daemon.step, Daemon.allocateInode] at hstep
    -- a path that is known keeps its number
    cases hpath : d.table.paths.lookup path with
    | some ino =>
      rw [hpath] at hstep
      cases hstep
      exact hsame h (by simp [Host.taken, hpath])
    | none =>
      -- a new path: only here a number is handed out
      rw [hpath] at hstep
      cases hstep
      have htaken : Host.taken d (.allocate path io io') = some d.table.nextInode := by
        simp [Host.taken, hpath]
      rw [htaken]
      refine ⟨_, h.allocate hpath (hmeets hpath) io io', fun i p hi => ?_⟩
      rw [PEquiv.place_apply_of_free (h.holds.path_free hpath).2] at hi
      split at hi
      · rename_i hi'
        exact .inr (by rw [hi'])
      · exact .inl ⟨p, hi⟩
  | rename source target subtree moves =>
    -- a rename moves nodes that were there
    obtain ⟨f', h', hsub⟩ := h.rename hstep
    exact ⟨f', h', fun i p hi => .inl (hsub i p hi)⟩
  | «open» rec io =>
    -- events of handles and streams log entries that name no node
    simp only [Daemon.step] at hstep
    split at hstep
    · cases hstep
      exact hsame (h.of_continues rfl (d.log.continues_handleOpened rec io) (by simp)
        (Log.neutral_numbered fun _ => trivial)) rfl
    · cases hstep
  | opendir =>
    cases hstep
    exact hsame (h.of_continues rfl (.refl d.log) rfl (by simp)) rfl
  | release fh io =>
    cases hstep
    exact hsame (h.of_continues rfl (d.log.continues_handleReleased fh io) (by simp)
      (Log.neutral_numberedOpen fun _ => trivial)) rfl
  | unlink fh io =>
    simp only [Daemon.step, Daemon.changeHandle, Option.map_eq_some_iff] at hstep
    obtain ⟨rec, -, rfl⟩ := hstep
    exact hsame (h.of_continues rfl (d.log.continues_handleUnlinked fh io)
      (by simp [Log.handleUnlinked]) (Log.neutral_numberedOpen fun _ => trivial)) rfl
  | retarget fh path io =>
    simp only [Daemon.step, Daemon.changeHandle, Option.map_eq_some_iff] at hstep
    obtain ⟨rec, -, rfl⟩ := hstep
    exact hsame (h.of_continues rfl (d.log.continues_handleRetargeted fh path io)
      (by simp [Log.handleRetargeted]) (Log.neutral_numberedOpen fun _ => trivial)) rfl
  | startStream fh uploadsBase io =>
    simp only [Daemon.step] at hstep
    split at hstep
    · cases hstep
      exact hsame (h.of_continues rfl (d.log.continues_streamStarted _ uploadsBase io) (by simp)
        (Log.neutral_numbered fun _ => trivial)) rfl
    · cases hstep
  | tick io ok =>
    -- the tick may mark the next handle, which is no inode
    cases hstep
    obtain hlog | hlog := d.log.continues_tick d.nextFh io ok
    · exact hsame (h.of_continues rfl hlog (by simp) (by simp)) rfl
    · refine hsame (h.of_continues rfl hlog (by simp) fun x hx => ?_) rfl
      obtain rfl := List.mem_singleton.mp hx
      exact fun _ => trivial
  | flush ok =>
    cases hstep
    by_cases hon : d.log.on = true
    · simp only [hon, if_true]
      exact hsame (h.of_continues rfl (d.log.continues_flush ok) (by simp) (by simp)) rfl
    · simp only [hon]
      exact hsame h rfl
  | compactBegin opens streams ok =>
    simp only [Daemon.step] at hstep
    split at hstep
    · cases hstep
      exact hsame (h.compactBegin opens streams ok) rfl
    · cases hstep
  | compactEnd ok swap =>
    simp only [Daemon.step] at hstep
    split at hstep
    · rename_i hk
      cases hstep
      exact hsame (h.compactEnd hk ok swap) rfl
    · cases hstep

end Daemon.Safe

/-! ## Generations -/

/-- The table `apply` fills from the pairs `l` of `f`. -/
theorem rooted_foldl_apply {f : Nat ≃. PathBuf} (hroot : f 1 = none) (hpath : f.symm [] = none)
    (l : List (Sigma fun _ : Nat => PathBuf)) (hl : ∀ x ∈ l, f x.1 = some x.2) :
    Rooted
      (l.foldl (fun (t : InodeTable) x => if x.1 = 1 then t
        else { t with inodes := t.inodes.insert x.1 x.2, paths := t.paths.insert x.2 x.1 })
        InodeTable.fresh).inodes
      (l.foldl (fun (t : InodeTable) x => if x.1 = 1 then t
        else { t with inodes := t.inodes.insert x.1 x.2, paths := t.paths.insert x.2 x.1 })
        InodeTable.fresh).paths
      ((l.map fun x => (x.1, x.2)).foldl (fun (g : Nat ≃. PathBuf) x => g.place x.1 x.2) ⊥) := by
  -- the induction is from the end: the last node is put over those before it
  induction l using List.reverseRecOn with
  | nil => exact InodeTable.holds_fresh.toRooted
  | append_singleton l x ih =>
    have hpre : ∀ y ∈ l, f y.1 = some y.2 := fun y hy => hl y (List.mem_append_left _ hy)
    have hx : f x.1 = some x.2 := hl x (by simp)
    have hpairs : ∀ y ∈ l.map fun x => (x.1, x.2), f y.1 = some y.2 := by
      intro y hy
      obtain ⟨z, hz, rfl⟩ := List.mem_map.mp hy
      exact hpre z hz
    -- neither the root's number nor its path is among the nodes
    have hx1 : x.1 ≠ 1 := by
      intro h1
      rw [h1, hroot] at hx
      cases hx
    have hx2 : x.2 ≠ [] := by
      intro h2
      rw [h2, ← f.eq_some_iff, hpath] at hx
      cases hx
    rw [List.foldl_append, List.foldl_cons, List.foldl_nil, if_neg hx1, List.map_append,
      List.foldl_append, List.map_singleton, List.foldl_cons, List.foldl_nil]
    refine (ih hpre).insert hx1 hx2 ?_ ?_
    · intro j hj
      rw [PEquiv.foldl_place hpairs] at hj
      exact f.inj (hpairs _ hj) hx
    · intro q hq
      rw [PEquiv.foldl_place hpairs] at hq
      have := hpairs _ hq
      rw [hx] at this
      exact (Option.some.inj this).symm

/-- The table restored from a sound log has the log's names. -/
theorem InodeTable.holds_restored {es : Entries} (h : Sound es) (fresh : Nat) :
    (InodeTable.restored (replay es).finish fresh).Holds (namesOf es) := by
  have hnames := names_replay es
  have hroot : namesOf es 1 = none := by
    cases h1 : namesOf es 1 with
    | none => rfl
    | some p => exact absurd rfl (h.known h1).1
  have hpath : (namesOf es).symm [] = none := by
    cases h1 : (namesOf es).symm [] with
    | none => rfl
    | some i => exact absurd rfl (h.known ((namesOf es).eq_some_iff.mp h1)).2.1
  have hmem : ∀ i p, (⟨i, p⟩ : Sigma fun _ : Nat => PathBuf) ∈
      (replay es).inodes.entries.insertionSort (fun x y => x.1 ≤ y.1) ↔ namesOf es i = some p := by
    intro i p
    rw [List.mem_insertionSort, ← AList.mem_lookup_iff, hnames.inodes, Option.mem_def]
  have hrooted := rooted_foldl_apply hroot hpath _ fun x hx => (hmem x.1 x.2).mp hx
  rw [PEquiv.foldl_place_eq hmem] at hrooted
  refine ⟨hrooted, fun i p hi => ?_, ?_⟩
  · have := namesOf_lt_bound hi
    simp only [InodeTable.restored, bound] at this ⊢
    omega
  · simp only [InodeTable.restored, Restored.nextInode]
    omega

/-- The invariant of a connection. -/
structure Host.Inv (h : Host) : Prop where
  nodup : (h.handed.map Prod.snd).Nodup
  ne_root : ∀ x ∈ h.handed, x.2 ≠ 1
  up : ∀ d, h.daemon = some d → ∃ f, d.Safe f (h.handed.map Prod.snd) ∧
    ∀ i p, f i = some p → HasIno h.source i ∨ (h.gen, i) ∈ h.handed
  down : h.daemon = none → ∀ es, h.disk = some es →
    Sound es ∧ ∀ i ∈ h.handed.map Prod.snd, i < bound es

namespace Host

variable {cacheDir : PathBuf} {dev : ConnDev} {mountPoint : PathBuf} {h h' : Host}

/-- A log that has just been written as an image of the table. -/
theorem safe_startFresh {t : InodeTable} {f : Nat ≃. PathBuf} (ht : t.Holds f) {handed : List Nat}
    (hlt : ∀ i ∈ handed, i < t.nextInode) :
    ({ table := t, log := .startFresh t } : Daemon).Safe f handed where
  holds := ht
  handed_lt := hlt
  sound c hc := by
    simp only [Log.mem_receiving, Log.startFresh] at hc
    obtain ⟨-, ⟨-, es, hes, rfl⟩ | ⟨k, hk, -⟩⟩ := hc
    · obtain rfl := Option.some.inj hes
      simpa using sound_image ht 1 0 t.nextInode [] []
    · cases hk
  known c hc i p hi := by
    simp only [Log.mem_receiving, Log.startFresh] at hc
    obtain ⟨-, ⟨-, es, hes, rfl⟩ | ⟨k, hk, -⟩⟩ := hc
    · obtain rfl := Option.some.inj hes
      simpa using hasIno_image ht 1 0 t.nextInode [] [] hi
    · cases hk
  detached ha := by cases ha
  handed_bound c hc i hi := by
    simp only [Log.mem_durable, Log.startFresh] at hc
    obtain ⟨-, hes | ⟨k, hk, -⟩⟩ := hc
    · obtain rfl := Option.some.inj hes
      exact (hlt i hi).trans_le (le_bound_image t 1 0 t.nextInode [] [])
    · cases hk
  next_le _ := le_rfl
  reserved _ hlt' := absurd hlt' (lt_irrefl _)
  gone hf := by cases hf
  off hon := by cases hon

/-- Without a log the numbers are safe as well. -/
theorem safe_startFailed {t : InodeTable} {f : Nat ≃. PathBuf} (ht : t.Holds f) {handed : List Nat}
    (hlt : ∀ i ∈ handed, i < t.nextInode) :
    ({ table := t, log := .startFailed } : Daemon).Safe f handed where
  holds := ht
  handed_lt := hlt
  sound c hc := by simp [Log.mem_receiving, Log.startFailed] at hc
  known c hc := by simp [Log.mem_receiving, Log.startFailed] at hc
  detached ha := by cases ha
  handed_bound c hc := by simp [Log.mem_durable, Log.startFailed] at hc
  next_le hon := by cases hon
  reserved hon := by cases hon
  gone hf := by cases hf
  off _ := rfl

theorem inv_start (paths : List PathBuf) (logged : Bool) :
    (Host.start (.ofPaths paths) logged).Inv := by
  obtain ⟨f, hf⟩ := InodeTable.Holds.ofPaths paths
  have hids : (Host.start (.ofPaths paths) logged).handed.map Prod.snd =
      (InodeTable.ofPaths paths).inodes.keys.filter (· ≠ 1) := by
    simp [Host.start, Function.comp_def]
  -- the numbers handed out at the start are those of the nodes
  have hnode : ∀ i, i ∈ (InodeTable.ofPaths paths).inodes.keys.filter (· ≠ 1) ↔
      ∃ p, f i = some p := by
    intro i
    rw [List.mem_filter, ← AList.mem_keys, ← AList.lookup_isSome, hf.inodes]
    by_cases hi : i = 1
    · simp [hi, hf.root]
    · simp [hi, Option.isSome_iff_exists]
  -- all of them lie below the next one
  have hlt : ∀ i ∈ (Host.start (.ofPaths paths) logged).handed.map Prod.snd,
      i < (InodeTable.ofPaths paths).nextInode := by
    intro i hi
    rw [hids, hnode] at hi
    obtain ⟨p, hp⟩ := hi
    exact hf.below i p hp
  constructor
  · rw [hids]
    exact (InodeTable.ofPaths paths).inodes.keys_nodup.filter _
  · intro x hx
    have hx' : x.2 ∈ (Host.start (.ofPaths paths) logged).handed.map Prod.snd :=
      List.mem_map_of_mem hx
    rw [hids, List.mem_filter] at hx'
    simpa using hx'.2
  · intro d hd
    refine ⟨f, ?_, fun i p hi => .inr ?_⟩
    · cases logged with
      | true =>
        cases hd
        exact safe_startFresh hf hlt
      | false =>
        cases hd
        exact safe_startFailed hf hlt
    · exact List.mem_map_of_mem ((hnode i).mpr ⟨p, hi⟩)
  · intro hd
    cases hd

/-- A new number is the counter's. -/
theorem taken_eq {d : Daemon} {e : Event} {n : Nat} (h : taken d e = some n) :
    n = d.table.nextInode := by
  cases e with
  | allocate path io io' =>
    simp only [taken] at h
    split at h
    · exact (Option.some.inj h).symm
    · cases h
  | _ => cases h

/-- The condition on a step: a new number is handed out with its log in place. -/
def Meets (h : Host) : HostEvent → Prop
  | .run e => ∀ d, h.daemon = some d → d.Meets e
  | _ => True

namespace Inv

/-- A step of the daemon keeps the numbers of all generations apart. -/
theorem run (hinv : h.Inv) {d d' : Daemon} {e : Event} (hd : h.daemon = some d)
    (hstep : d.step cacheDir e = some d') (hmeets : d.Meets e) :
    ({ h with
      daemon := some d'
      handed := (taken d e).toList.map (h.gen, ·) ++ h.handed } : Host).Inv := by
  obtain ⟨f, hsafe, hnodes⟩ := hinv.up d hd
  obtain ⟨f', hsafe', hnodes'⟩ := hsafe.step hmeets hstep
  have hids : ((taken d e).toList.map (h.gen, ·) ++ h.handed).map Prod.snd =
      (taken d e).toList ++ h.handed.map Prod.snd := by
    simp [Function.comp_def]
  -- the new number is larger than those handed out
  constructor
  · rw [hids]
    cases htaken : taken d e with
    | none => exact hinv.nodup
    | some n =>
      have hn := taken_eq htaken
      refine List.nodup_cons.mpr ⟨fun hmem => ?_, hinv.nodup⟩
      have := hsafe.handed_lt n hmem
      omega
  · -- and is not the root's
    intro x hx
    obtain hx | hx := List.mem_append.mp hx
    · obtain ⟨n, hn, rfl⟩ := List.mem_map.mp hx
      have hn := taken_eq (Option.mem_toList.mp hn)
      have := hsafe.holds.next
      show n ≠ 1
      omega
    · exact hinv.ne_root x hx
  · -- the daemon knows the nodes that it hands out
    intro d₁ hd₁
    cases hd₁
    refine ⟨f', by rw [hids]; exact hsafe', fun i p hi => ?_⟩
    obtain ⟨q, hq⟩ | htaken := hnodes' i p hi
    · exact (hnodes i q hq).imp id fun hmem => List.mem_append_right _ hmem
    · refine .inr (List.mem_append_left _ (List.mem_map.mpr ⟨i, ?_, rfl⟩))
      exact Option.mem_toList.mpr htaken
  · intro hnone
    cases hnone

/-- A daemon that dies leaves its log behind. -/
theorem die (hinv : h.Inv) {d : Daemon} (hd : h.daemon = some d) :
    ({ h with daemon := none, disk := d.log.disk } : Host).Inv := by
  obtain ⟨f, hsafe, -⟩ := hinv.up d hd
  refine ⟨hinv.nodup, hinv.ne_root, nofun, fun _ es hes => ?_⟩
  have hmem : es ∈ d.log.durable := by
    refine Log.mem_durable.mpr ⟨?_, .inl hes⟩
    cases hf : d.log.failed with
    | false => rfl
    | true =>
      rw [show d.log.disk = none from hsafe.gone hf] at hes
      cases hes
  exact ⟨hsafe.durable_sound hmem, hsafe.handed_bound es hmem⟩

/-- A daemon restored from a sound log that bounds what was handed out. -/
theorem safe_restored {es : Entries} (hsound : Sound es) {handed : List Nat}
    (hbound : ∀ i ∈ handed, i < bound es) (fresh freshFh : Nat) (lost : List Nat)
    (reopened : Bool) :
    (Daemon.restored (replay es).finish es fresh freshFh lost reopened).Safe (namesOf es) handed := by
  have hholds := InodeTable.holds_restored hsound fresh
  -- the restored table is the one that the log tells, and the log goes on behind it
  refine
    { holds := hholds
      handed_lt := fun i hi => ?_
      sound := fun c hc => ?_
      known := fun c hc i p hi => ?_
      detached := fun ha => ?_
      handed_bound := fun c hc => ?_
      next_le := fun _ => le_rfl
      reserved := fun _ hlt => absurd hlt (lt_irrefl _)
      gone := fun hf => ?_
      off := fun _ => rfl }
  · -- the next number lies beyond the bound of the log
    have := hbound i hi
    simp only [Daemon.restored, InodeTable.restored, bound] at this ⊢
    omega
  · simp only [Daemon.restored, Log.mem_receiving, Log.startResumed] at hc
    obtain ⟨-, ⟨-, es', hes', rfl⟩ | ⟨k, hk, -⟩⟩ := hc
    · obtain rfl := Option.some.inj hes'
      simpa using hsound
    · cases hk
  · simp only [Daemon.restored, Log.mem_receiving, Log.startResumed] at hc
    obtain ⟨-, ⟨-, es', hes', rfl⟩ | ⟨k, hk, -⟩⟩ := hc
    · obtain rfl := Option.some.inj hes'
      simpa using (hsound.known hi).2.2
    · cases hk
  · cases ha
  · simp only [Daemon.restored, Log.mem_durable, Log.startResumed] at hc
    obtain ⟨-, hes' | ⟨k, hk, -⟩⟩ := hc
    · obtain rfl := Option.some.inj hes'
      exact hbound
    · cases hk
  · cases hf

/-- Every event of the host keeps the numbers apart. -/
theorem step (hinv : h.Inv) {e : HostEvent} (hmeets : h.Meets e)
    (hstep : h.step cacheDir dev mountPoint e = some h') : h'.Inv := by
  cases e with
  | run e =>
    simp only [Host.step, Option.bind_eq_some_iff, Option.map_eq_some_iff] at hstep
    obtain ⟨d, hd, d', hd', rfl⟩ := hstep
    exact hinv.run hd hd' (hmeets d hd)
  | die =>
    simp only [Host.step, Option.map_eq_some_iff] at hstep
    obtain ⟨d, hd, rfl⟩ := hstep
    exact hinv.die hd
  | restore fresh freshFh lost reopened =>
    simp only [Host.step] at hstep
    split at hstep
    · rename_i es hnone hdisk
      obtain ⟨hsound, hbound⟩ := hinv.down hnone es hdisk
      rw [loadRecords_records] at hstep
      cases hstep
      refine ⟨hinv.nodup, hinv.ne_root, fun d hd => ?_, nofun⟩
      cases hd
      refine ⟨namesOf es, safe_restored hsound hbound fresh freshFh lost reopened, ?_⟩
      exact fun i p hi => .inl (hsound.known hi).2.2
    · cases hstep

end Inv

/-- Every step of a run meets the condition. -/
def AllMeet (cacheDir : PathBuf) (dev : ConnDev) (mountPoint : PathBuf) (h : Host) :
    List HostEvent → Prop
  | [] => True
  | e :: es => h.Meets e ∧
    match h.step cacheDir dev mountPoint e with
    | some h' => AllMeet cacheDir dev mountPoint h' es
    | none => True

/-- And so does a whole run. -/
theorem Inv.steps (hinv : h.Inv) {es : List HostEvent}
    (hmeets : h.AllMeet cacheDir dev mountPoint es)
    (hsteps : h.steps cacheDir dev mountPoint es = some h') : h'.Inv := by
  induction es generalizing h with
  | nil =>
    cases hsteps
    exact hinv
  | cons e es ih =>
    simp only [Host.steps, Option.bind_eq_some_iff] at hsteps
    obtain ⟨h₁, hstep, hsteps⟩ := hsteps
    obtain ⟨hmeet, hrest⟩ := hmeets
    rw [hstep] at hrest
    exact ih (hinv.step hmeet hstep) hrest hsteps

end Host

/-- Over any number of generations on one connection, `allocate_inode` never takes a number twice
from its counter, and a number of an earlier generation whose record was lost resolves to nothing,
while every new number is handed out with its log in place. -/
theorem node_ids_are_not_reused (cacheDir : PathBuf) (dev : ConnDev) (mountPoint : PathBuf)
    (paths : List PathBuf) (logged : Bool) (es : List HostEvent) (h : Host)
    (hmeets : (Host.start (.ofPaths paths) logged).AllMeet cacheDir dev mountPoint es)
    (hsteps : (Host.start (.ofPaths paths) logged).steps cacheDir dev mountPoint es = some h) :
    (h.handed.map Prod.snd).Nodup ∧
      ∀ d, h.daemon = some d → ∀ g i, (g, i) ∈ h.handed → g < h.gen →
        (∀ s p, (s, Entry.ino i p) ∉ h.source) → d.table.inodes.lookup i = none := by
  have hinv := (Host.inv_start paths logged).steps hmeets hsteps
  refine ⟨hinv.nodup, fun d hd g i hi hg hlost => ?_⟩
  obtain ⟨f, hsafe, hnodes⟩ := hinv.up d hd
  rw [hsafe.holds.inodes, if_neg (hinv.ne_root (g, i) hi)]
  cases hf : f i with
  | none => rfl
  | some p =>
    obtain ⟨s, q, hmem⟩ | hmem := hnodes i p hf
    · exact absurd hmem (hlost s q)
    · have heq := List.inj_on_of_nodup_map hinv.nodup hi hmem rfl
      have : g = h.gen := congrArg Prod.fst heq
      omega

/-- A daemon dies with the record of its second node queued. -/
def queuedRun : List HostEvent :=
  [.run (.allocate ["a"] {} {}), .run (.flush true), .run (.allocate ["b"] {} {}), .die,
    .restore 2 1 [] true, .run (.allocate ["c"] {} {})]

/-- A number whose record was still queued when the daemon died is not handed out again. -/
theorem queued_record_is_not_reused :
    ∃ h d, (Host.start (.ofPaths []) true).steps ["cache"] ⟨0, 52⟩ ["m"] queuedRun = some h ∧
      h.daemon = some d ∧ h.handed = [(1, 4096), (0, 3), (0, 2)] ∧
      (h.handed.map Prod.snd).Nodup ∧ d.table.inodes.lookup 3 = none := by
  obtain ⟨h, d, hsteps, hd, hhanded, hgen, hsource⟩ : ∃ h d,
      (Host.start (.ofPaths []) true).steps ["cache"] ⟨0, 52⟩ ["m"] queuedRun = some h ∧
      h.daemon = some d ∧ h.handed = [(1, 4096), (0, 3), (0, 2)] ∧ h.gen = 1 ∧
      h.source = [(1, .fh 0), (1, .reserve 2), (2, .reserve 4096), (3, .ino 2 ["a"])] :=
    ⟨_, _, rfl, rfl, rfl, rfl, rfl⟩
  have hmeets : (Host.start (.ofPaths []) true).AllMeet ["cache"] ⟨0, 52⟩ ["m"] queuedRun := by
    refine ⟨?_, fun _ _ => trivial, ?_, trivial, trivial, ?_, trivial⟩
    all_goals
      intro d hd _
      cases hd
      exact .inl ⟨rfl, .inr (.inl rfl)⟩
  have hids := node_ids_are_not_reused ["cache"] ⟨0, 52⟩ ["m"] [] true queuedRun h hmeets hsteps
  refine ⟨h, d, hsteps, hd, hhanded, hids.1, ?_⟩
  refine hids.2 d hd 0 3 (by simp [hhanded]) (by simp [hgen]) ?_
  simp [hsource]

/-- The log could not be reopened after the first restart, and stays: the next generation is restored
from it and hands out a number of the one before. -/
theorem unlogged_id_is_reused :
    ∃ h, (Host.start (.ofPaths []) true).steps ["cache"] ⟨0, 52⟩ ["m"]
        [.run (.allocate ["a"] {} {}), .die, .restore 2 1 [] false, .run (.allocate ["b"] {} {}),
          .die, .restore 2 1 [] true, .run (.allocate ["c"] {} {})] = some h ∧
      h.handed = [(2, 4096), (1, 4096), (0, 2)] ∧ ¬ (h.handed.map Prod.snd).Nodup :=
  ⟨_, rfl, rfl, by decide⟩

end Handoff

end Ncrs
