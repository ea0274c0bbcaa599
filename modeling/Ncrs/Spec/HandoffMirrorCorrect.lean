import Ncrs.Spec.HandoffContents
import Ncrs.Spec.HandoffReplay

/-!
# The log mirrors the live tables

Each hook's record does to a replayed log what the hook's caller has done to the tables, so that
every log of the writer replays to them: the file with what is queued, and the image and tail of a
compaction.

## Key results

- `Mirrors.image`: a compacted log replays to the live state.
- `Daemon.Mirrored.step`: what every step keeps.
- `log_mirrors_live_tables`: a flushed log loads to the live tables, while no hook's record goes to a
  file that is not the one at the log's path.
-/

namespace Ncrs

namespace Handoff

/-! ## Handles and streams of a replay -/

namespace Replayer

/-- Setting a path leaves the handles alone. -/
@[simp] theorem set_handles (r : Replayer) (ino : Nat) (path : PathBuf) :
    (r.set ino path).handles = r.handles := rfl

/-- Setting a path leaves the streams alone. -/
@[simp] theorem set_streams (r : Replayer) (ino : Nat) (path : PathBuf) :
    (r.set ino path).streams = r.streams := rfl

/-- Dropping an inode leaves the handles alone. -/
@[simp] theorem dropIno_handles (r : Replayer) (d : Nat) : (r.dropIno d).handles = r.handles := by
  unfold dropIno
  split <;> rfl

/-- Dropping an inode leaves the streams alone. -/
@[simp] theorem dropIno_streams (r : Replayer) (d : Nat) : (r.dropIno d).streams = r.streams := by
  unfold dropIno
  split <;> rfl

/-- Changing a handle changes that one. -/
theorem lookup_modifyHandle (r : Replayer) (fh x : Nat) (f : OpenRecord → OpenRecord) :
    (r.modifyHandle fh f).handles.lookup x =
      if x = fh then (r.handles.lookup fh).map (fun h => (h.1, f h.2)) else r.handles.lookup x := by
  unfold modifyHandle
  cases hfh : r.handles.lookup fh with
  | none =>
    by_cases hx : x = fh
    · rw [if_pos hx, hx, hfh]
      rfl
    · rw [if_neg hx]
  | some h => rw [AList.lookup_insert_eq_ite]; rfl

/-- Changing a handle leaves the streams alone. -/
@[simp] theorem modifyHandle_streams (r : Replayer) (fh : Nat) (f : OpenRecord → OpenRecord) :
    (r.modifyHandle fh f).streams = r.streams := by
  unfold modifyHandle
  split <;> rfl

end Replayer

/-- A record that is about no handle. -/
def Entry.NoHandle : Entry → Prop
  | .opened _ | .close _ | .unlinked _ | .retarget _ _ => False
  | _ => True

/-- A record that is about no stream. -/
def Entry.NoStream : Entry → Prop
  | .stream _ _ => False
  | _ => True

/-- An entry about no handle leaves the replayed handles alone. -/
theorem replay_handles_of_noHandle (es : Entries) {e : Nat × Entry} (he : e.2.NoHandle) :
    (replay (es ++ [e])).handles = (replay es).handles := by
  rw [replay_snoc]
  obtain ⟨s, e⟩ := e
  cases e with
  | opened rec | close fh | unlinked fh | retarget fh path => exact he.elim
  | mv ino path dropped =>
    simp only [Replayer.applyEntry]
    split <;> simp
  | _ => rfl

/-- An entry about no stream leaves the replayed streams alone. -/
theorem replay_streams_of_noStream (es : Entries) {e : Nat × Entry} (he : e.2.NoStream) :
    (replay (es ++ [e])).streams = (replay es).streams := by
  rw [replay_snoc]
  obtain ⟨s, e⟩ := e
  cases e with
  | stream wp uploadsBase => exact he.elim
  | mv ino path dropped =>
    simp only [Replayer.applyEntry]
    split <;> simp
  | unlinked fh | retarget fh path => simp [Replayer.applyEntry]
  | _ => rfl

/-- Entries about no handle leave the replayed handles alone. -/
theorem replay_handles_append (es : Entries) {es' : Entries} (h : ∀ e ∈ es', e.2.NoHandle) :
    (replay (es ++ es')).handles = (replay es).handles := by
  induction es' using List.reverseRecOn with
  | nil => simp
  | append_singleton es' e ih =>
    rw [← List.append_assoc, replay_handles_of_noHandle _ (h e (by simp))]
    exact ih fun x hx => h x (List.mem_append_left _ hx)

/-- Entries about no stream leave the replayed streams alone. -/
theorem replay_streams_append (es : Entries) {es' : Entries} (h : ∀ e ∈ es', e.2.NoStream) :
    (replay (es ++ es')).streams = (replay es).streams := by
  induction es' using List.reverseRecOn with
  | nil => simp
  | append_singleton es' e ih =>
    rw [← List.append_assoc, replay_streams_of_noStream _ (h e (by simp))]
    exact ih fun x hx => h x (List.mem_append_left _ hx)

/-- Handles that are opened one after the other are inserted one after the other. -/
theorem replay_handles_opened (es : Entries) (opens : List (Nat × OpenRecord)) :
    (replay (es ++ opens.map fun h => (h.1, .opened h.2))).handles =
      opens.foldl (fun m h => m.insert h.2.fh h) (replay es).handles := by
  induction opens using List.reverseRecOn with
  | nil => simp
  | append_singleton opens h ih =>
    rw [List.map_append, List.map_singleton, ← List.append_assoc, replay_snoc, List.foldl_append,
      ← ih]
    rfl

/-- Streams that start one after the other are inserted one after the other. -/
theorem replay_streams_stream (es : Entries) (streams : List (PathBuf × Nat × String)) :
    (replay (es ++ streams.map fun x => (x.2.1, .stream x.1 x.2.2))).streams =
      streams.foldl (fun m x => m.insert x.1 x.2) (replay es).streams := by
  induction streams using List.reverseRecOn with
  | nil => simp
  | append_singleton streams x ih =>
    rw [List.map_append, List.map_singleton, ← List.append_assoc, replay_snoc, List.foldl_append,
      ← ih]
    rfl

/-! ## The live state -/

/-- The log `c` replays to the names `f` and to the handles and streams of the writer. -/
structure Mirrors (cacheDir : PathBuf) (d : Daemon) (f : Nat ≃. PathBuf) (c : Entries) : Prop where
  names : namesOf c = f
  handles : ∀ fh, (replay c).handles.lookup fh = d.log.opens.lookup fh
  streams : ∀ fh rec wp, d.handles.lookup fh = some rec → rec.writePath = some wp →
    (replay c).streams.lookup wp = d.log.streams.lookup wp
  fresh : ∀ fh, d.nextFh ≤ fh → (replay c).streams.lookup (PathBuf.writePath cacheDir fh) = none

/-- The writer follows the live handles and streams. -/
structure Daemon.Tracked (cacheDir : PathBuf) (d : Daemon) (f : Nat ≃. PathBuf) : Prop where
  holds : d.table.Holds f
  opens : ∀ fh, (d.log.opens.lookup fh).map Prod.snd = d.handles.lookup fh
  fhs : ∀ fh rec, d.handles.lookup fh = some rec → rec.fh = fh ∧ fh < d.nextFh ∧
    (rec.writePath = none ∨ rec.writePath = some (PathBuf.writePath cacheDir fh))
  streams : ∀ fh rec wp, d.handles.lookup fh = some rec → rec.writePath = some wp →
    (d.log.streams.lookup wp).map Prod.snd = d.streams.lookup wp
  fresh : ∀ fh, d.nextFh ≤ fh → d.log.streams.lookup (PathBuf.writePath cacheDir fh) = none ∧
    d.streams.lookup (PathBuf.writePath cacheDir fh) = none

/-- The invariant: besides, every log replays to the live state. -/
structure Daemon.Mirrored (cacheDir : PathBuf) (d : Daemon) (f : Nat ≃. PathBuf) : Prop
    extends Daemon.Tracked cacheDir d f where
  on : d.log.on = true
  logs : ∀ c ∈ d.log.receiving, Mirrors cacheDir d f c
  detached : d.log.attached = false → ∀ c, d.log.disk = some c → Mirrors cacheDir d f c
  gone : d.log.failed = true → d.log.disk = none
  here : d.log.failed = false → d.log.disk.isSome = true

/-- The writer's record of a handle is filed under its number. -/
theorem Daemon.Tracked.opens_fh {cacheDir : PathBuf} {d : Daemon} {f : Nat ≃. PathBuf}
    (h : d.Tracked cacheDir f) {fh : Nat} {x : Nat × OpenRecord}
    (hx : d.log.opens.lookup fh = some x) : d.handles.lookup fh = some x.2 ∧ x.2.fh = fh := by
  have hrec : d.handles.lookup fh = some x.2 := by
    rw [← h.opens, hx]
    rfl
  exact ⟨hrec, (h.fhs fh x.2 hrec).1⟩

section

variable {cacheDir : PathBuf} {d : Daemon} {f : Nat ≃. PathBuf}
  {opens : List (Nat × OpenRecord)} {streams : List (PathBuf × Nat × String)}

theorem lookup_handles_image (h : d.Tracked cacheDir f) (hwalks : d.log.Walks opens streams)
    (s fhMark upto fh : Nat) :
    (replay (Log.image s fhMark upto d.table opens streams)).handles.lookup fh =
      d.log.opens.lookup fh := by
  have hsplit : (replay (Log.image s fhMark upto d.table opens streams)).handles =
      opens.foldl (fun m h => m.insert h.2.fh h) ∅ := by
    -- the first part of an image is about inodes and numbers
    have hnodes : ∀ e ∈ ((s, Entry.fh fhMark) :: (s, Entry.reserve upto) ::
        (((d.table.inodes.entries.filter fun x => x.1 ≠ 1).insertionSort fun x y => x.1 ≤ y.1).map
          fun x => (s, Entry.ino x.1 x.2))), e.2.NoHandle := by
      intro e he
      simp only [List.mem_cons, List.mem_map] at he
      obtain rfl | rfl | ⟨x, -, rfl⟩ := he <;> trivial
    -- and the last part about streams
    have hstreams : ∀ e ∈ streams.map fun x => (x.2.1, Entry.stream x.1 x.2.2),
        e.2.NoHandle := by
      intro e he
      obtain ⟨x, -, rfl⟩ := List.mem_map.mp he
      trivial
    simp only [Log.image]
    rw [← List.cons_append, ← List.cons_append, ← List.cons_append, ← List.cons_append,
      replay_handles_append _ hstreams, replay_handles_opened]
    have hempty := replay_handles_append [] hnodes
    rw [List.nil_append] at hempty
    rw [hempty]
    rfl
  -- a handle is opened once
  have hkeys : (opens.map fun h => h.2.fh).Nodup := by
    have hperm := hwalks.1.map fun h => h.2.fh
    rw [hperm.nodup_iff, List.map_map]
    have heq : d.log.opens.entries.map ((fun h : Nat × OpenRecord => h.2.fh) ∘ fun x => x.2) =
        d.log.opens.keys := by
      refine List.map_congr_left fun x hx => ?_
      exact (h.opens_fh (AList.mem_lookup_iff.mpr hx)).2
    rw [heq]
    exact d.log.opens.keys_nodup
  rw [hsplit]
  apply Option.ext
  intro x
  rw [AList.lookup_foldl_insert (fun h : Nat × OpenRecord => h.2.fh) (fun h => h) hkeys]
  -- what is replayed was walked, and what was walked is replayed
  constructor
  · rintro ⟨y, hy, hfh, rfl⟩
    obtain ⟨z, hz, rfl⟩ := List.mem_map.mp (hwalks.1.mem_iff.mp hy)
    have hlookup : d.log.opens.lookup z.1 = some z.2 := AList.mem_lookup_iff.mpr hz
    rw [← hfh, (h.opens_fh hlookup).2]
    exact hlookup
  · intro hx
    refine ⟨x, hwalks.1.mem_iff.mpr (List.mem_map.mpr ⟨⟨fh, x⟩, ?_, rfl⟩), (h.opens_fh hx).2, rfl⟩
    exact AList.mem_lookup_iff.mp hx

theorem lookup_streams_image (hwalks : d.log.Walks opens streams) (s fhMark upto : Nat)
    (wp : PathBuf) :
    (replay (Log.image s fhMark upto d.table opens streams)).streams.lookup wp =
      d.log.streams.lookup wp := by
  have hsplit : (replay (Log.image s fhMark upto d.table opens streams)).streams =
      streams.foldl (fun m x => m.insert x.1 x.2) ∅ := by
    -- the parts before the streams are about none
    have hrest : ∀ e ∈ ((s, Entry.fh fhMark) :: (s, Entry.reserve upto) ::
        ((((d.table.inodes.entries.filter fun x => x.1 ≠ 1).insertionSort fun x y => x.1 ≤ y.1).map
          fun x => (s, Entry.ino x.1 x.2)) ++ opens.map fun h => (h.1, Entry.opened h.2))),
        e.2.NoStream := by
      intro e he
      simp only [List.mem_cons, List.mem_append, List.mem_map] at he
      obtain rfl | rfl | ⟨x, -, rfl⟩ | ⟨x, -, rfl⟩ := he <;> trivial
    simp only [Log.image]
    rw [← List.cons_append, ← List.cons_append, replay_streams_stream]
    have hempty := replay_streams_append [] hrest
    rw [List.nil_append] at hempty
    rw [hempty]
    rfl
  -- a staging file has one stream
  have hkeys : (streams.map fun x => x.1).Nodup := by
    have hperm := hwalks.2.map fun x => x.1
    rw [hperm.nodup_iff, List.map_map]
    exact d.log.streams.keys_nodup
  rw [hsplit]
  apply Option.ext
  intro y
  rw [AList.lookup_foldl_insert (fun x : PathBuf × Nat × String => x.1) (fun x => x.2) hkeys]
  -- what is replayed was walked, and what was walked is replayed
  constructor
  · rintro ⟨x, hx, rfl, rfl⟩
    obtain ⟨z, hz, rfl⟩ := List.mem_map.mp (hwalks.2.mem_iff.mp hx)
    exact AList.mem_lookup_iff.mpr hz
  · intro hy
    refine ⟨(wp, y), hwalks.2.mem_iff.mpr (List.mem_map.mpr ⟨⟨wp, y⟩, ?_, rfl⟩), rfl, rfl⟩
    exact AList.mem_lookup_iff.mp hy

/-- A compacted log replays to the live state. -/
theorem Mirrors.image (h : d.Tracked cacheDir f) (hwalks : d.log.Walks opens streams)
    (s fhMark upto : Nat) :
    Mirrors cacheDir d f (Log.image s fhMark upto d.table opens streams) where
  names := namesOf_image h.holds s fhMark upto opens streams
  handles := lookup_handles_image h hwalks s fhMark upto
  streams _ _ wp _ _ := lookup_streams_image hwalks s fhMark upto wp
  fresh fh hfh := by
    rw [lookup_streams_image hwalks]
    exact (h.fresh fh hfh).1

/-- Records that are about no handle and no stream. -/
theorem Mirrors.quiet {c es : Entries} {d' : Daemon} {f' : Nat ≃. PathBuf}
    (h : Mirrors cacheDir d f c) (hes : ∀ e ∈ es, e.2.NoHandle ∧ e.2.NoStream)
    (hnames : namesOf (c ++ es) = f') (hhandles : d'.handles = d.handles)
    (hnext : d.nextFh ≤ d'.nextFh) (hopens : d'.log.opens = d.log.opens)
    (hstreams : d'.log.streams = d.log.streams) : Mirrors cacheDir d' f' (c ++ es) where
  names := hnames
  handles fh := by
    rw [replay_handles_append c fun e he => (hes e he).1, hopens]
    exact h.handles fh
  streams fh rec wp hrec hwp := by
    rw [replay_streams_append c fun e he => (hes e he).2, hstreams]
    exact h.streams fh rec wp (hhandles ▸ hrec) hwp
  fresh fh hfh := by
    rw [replay_streams_append c fun e he => (hes e he).2]
    exact h.fresh fh (hnext.trans hfh)

/-- What a log mirrors is in a few fields. -/
theorem Mirrors.congr {c : Entries} {d' : Daemon} (h : Mirrors cacheDir d f c)
    (hhandles : d'.handles = d.handles) (hnext : d.nextFh ≤ d'.nextFh)
    (hopens : d'.log.opens = d.log.opens) (hstreams : d'.log.streams = d.log.streams) :
    Mirrors cacheDir d' f c := by
  have hsame : Mirrors cacheDir d' f (c ++ []) :=
    h.quiet (by simp) (by simpa using h.names) hhandles hnext hopens hstreams
  simpa using hsame

end

namespace Daemon.Mirrored

variable {cacheDir : PathBuf} {d d' : Daemon} {f f' : Nat ≃. PathBuf} {es : Entries}

/-- What a hook has to show: its record does to a log what its caller does to the live state. A file
the writer has lost does not get the record. -/
theorem of_continues (h : d.Mirrored cacheDir f) (hlog : d.log.Continues d'.log es)
    (htracked : d'.Tracked cacheDir f')
    (hmirror : ∀ c, Mirrors cacheDir d f c → Mirrors cacheDir d' f' (c ++ es))
    (hkept : d.log.attached = true ∨ d.log.failed = true ∨
      ∀ c, Mirrors cacheDir d f c → Mirrors cacheDir d' f' c) : d'.Mirrored cacheDir f' where
  toTracked := htracked
  on := hlog.on.trans h.on
  logs c hc := by
    obtain ⟨c₀, hc₀, rfl⟩ := hlog.receiving c hc
    exact hmirror c₀ (h.logs c₀ hc₀)
  detached ha c hc := by
    have ha' : d.log.attached = false := hlog.attached.symm.trans ha
    obtain hatt | hf | hsame := hkept
    · exact absurd (hatt.symm.trans ha') (by decide)
    · rw [hlog.gone h.gone (hlog.failed hf)] at hc
      cases hc
    · exact hsame c (h.detached ha' c (hlog.detached ha' c hc))
  gone := hlog.gone h.gone
  here hf := by
    refine hlog.here (h.here ?_) hf
    cases hf' : d.log.failed with
    | false => rfl
    | true => exact absurd ((hlog.failed hf').symm.trans hf) (by decide)

/-- The counter of handles, and what is queued. -/
theorem quiet (h : d.Mirrored cacheDir f) (hlog : d.log.Continues d'.log es)
    (hes : ∀ e ∈ es, e.2.NoHandle ∧ e.2.NoStream ∧ ∀ g, e.2.rename g = g)
    (htable : d'.table = d.table) (hhandles : d'.handles = d.handles)
    (hnext : d.nextFh ≤ d'.nextFh) (hstarted : d'.streams = d.streams)
    (hopens : d'.log.opens = d.log.opens) (hstreams : d'.log.streams = d.log.streams) :
    d'.Mirrored cacheDir f := by
  have hquiet : ∀ e ∈ es, e.2.NoHandle ∧ e.2.NoStream := fun e he => ⟨(hes e he).1, (hes e he).2.1⟩
  have hnames : ∀ c, namesOf (c ++ es) = namesOf c := by
    intro c
    rw [namesOf, List.foldl_append]
    exact foldl_rename_of_eq (fun e he => (hes e he).2.2) _
  refine h.of_continues hlog ?_ (fun c hc => ?_)
    (.inr (.inr fun c hc => hc.congr hhandles hnext hopens hstreams))
  · constructor
    · rw [htable]
      exact h.holds
    · rw [hopens, hhandles]
      exact h.opens
    · intro fh rec hrec
      rw [hhandles] at hrec
      obtain ⟨hfh, hlt, hwp⟩ := h.fhs fh rec hrec
      exact ⟨hfh, hlt.trans_le hnext, hwp⟩
    · rw [hstreams, hhandles, hstarted]
      exact h.streams
    · rw [hstreams, hstarted]
      exact fun fh hfh => h.fresh fh (hnext.trans hfh)
  · exact hc.quiet hquiet ((hnames c).trans hc.names) hhandles hnext hopens hstreams

/-- A new number. -/
theorem allocate (h : d.Mirrored cacheDir f) {path : PathBuf}
    (hpath : d.table.paths.lookup path = none) (io io' : Io)
    (hkept : d.log.attached = true ∨ d.log.failed = true) :
    ({ d with
      table := d.table.add path
      log := d.log.inodeAllocated d.table.nextInode path io io' } : Daemon).Mirrored cacheDir
      (f.place d.table.nextInode path) := by
  have hlog := d.log.continues_inodeAllocated h.on d.table.nextInode path io io'
  -- handles and streams are not touched
  have hfields : (d.log.inodeAllocated d.table.nextInode path io io').opens = d.log.opens ∧
      (d.log.inodeAllocated d.table.nextInode path io io').streams = d.log.streams := by
    simp only [Log.inodeAllocated, h.on, if_true, Log.put_opens, Log.put_streams, Log.reserve]
    split <;> simp
  obtain ⟨hopens, hstreams⟩ := hfields
  refine h.of_continues hlog ?_ (fun c hc => ?_) (hkept.imp id .inl)
  · refine ⟨h.holds.add hpath, ?_, h.fhs, ?_, ?_⟩
    · rw [hopens]
      exact h.opens
    · rw [hstreams]
      exact h.streams
    · rw [hstreams]
      exact h.fresh
  · -- a reservation names nothing
    have hreserve : ∀ e ∈ d.log.numberedReserve d.table.nextInode,
        e.2.NoHandle ∧ e.2.NoStream ∧ ∀ g, e.2.rename g = g := by
      intro e he
      unfold Log.numberedReserve at he
      split at he
      · obtain rfl := List.mem_singleton.mp he
        exact ⟨trivial, trivial, fun _ => rfl⟩
      · cases he
    refine hc.quiet (fun e he => ?_) ?_ rfl le_rfl hopens hstreams
    · obtain he | he := List.mem_append.mp he
      · exact ⟨(hreserve e he).1, (hreserve e he).2.1⟩
      · obtain rfl := List.mem_singleton.mp he
        exact ⟨trivial, trivial⟩
    · -- and the entry behind it places the path as the table does
      rw [← List.append_assoc, namesOf_snoc, namesOf, List.foldl_append,
        foldl_rename_of_eq fun e he => (hreserve e he).2.2]
      exact congrArg (fun g => g.place d.table.nextInode path) hc.names

/-- One turn of a rename. -/
theorem moveOne (h : d.Mirrored cacheDir f) {source target : PathBuf} {x : (PathBuf × Nat) × Io}
    (hx : f x.1.2 = some x.1.1) (hnew : InodeTable.movedTo source target x.1.1 ≠ [])
    (hkept : d.log.attached = true ∨ d.log.failed = true) :
    (d.moveOne source target x).Mirrored cacheDir
      (f.place x.1.2 (InodeTable.movedTo source target x.1.1)) := by
  have hlog := d.log.continues_inodeMoved x.1.2 (InodeTable.movedTo source target x.1.1)
    (d.table.displaced x.1.1 (InodeTable.movedTo source target x.1.1) x.1.2) x.2
  have hfields : (d.moveOne source target x).log.opens = d.log.opens ∧
      (d.moveOne source target x).log.streams = d.log.streams := by
    simp only [Daemon.moveOne, Log.inodeMoved, h.on, if_true, Log.put_opens, Log.put_streams,
      and_self]
  obtain ⟨hopens, hstreams⟩ := hfields
  refine h.of_continues hlog ?_ (fun c hc => ?_) (hkept.imp id .inl)
  · refine ⟨h.holds.move hx hnew, ?_, h.fhs, ?_, ?_⟩
    · rw [hopens]
      exact h.opens
    · rw [hstreams]
      exact h.streams
    · rw [hstreams]
      exact h.fresh
  · rw [Log.numbered, if_pos h.on]
    refine hc.quiet (fun e he => ?_) ?_ rfl le_rfl hopens hstreams
    · obtain rfl := List.mem_singleton.mp he
      exact ⟨trivial, trivial⟩
    · rw [namesOf_snoc, hc.names]
      exact h.holds.rename_mv hx hnew

/-- A new handle. -/
theorem «open» (h : d.Mirrored cacheDir f) {rec : OpenRecord} (hrec : d.CanOpen cacheDir rec)
    (io : Io) (hkept : d.log.attached = true ∨ d.log.failed = true) :
    ({ d with
      handles := d.handles.insert rec.fh rec
      nextFh := d.nextFh + 1
      log := d.log.handleOpened rec io } : Daemon).Mirrored cacheDir f := by
  obtain ⟨hfh, hwp⟩ := hrec
  have hlog := d.log.continues_handleOpened rec io
  rw [Log.numbered, if_pos h.on] at hlog
  have hopens : (d.log.handleOpened rec io).opens =
      d.log.opens.insert rec.fh (d.log.seq + 1, rec) := by
    simp [Log.handleOpened, h.on]
  have hstreams : (d.log.handleOpened rec io).streams = d.log.streams := by
    simp [Log.handleOpened, h.on]
  -- a handle is the new one or was there before
  have hcases : ∀ {fh r}, (d.handles.insert rec.fh rec).lookup fh = some r →
      (fh = rec.fh ∧ r = rec) ∨ d.handles.lookup fh = some r := by
    intro fh r hr
    rw [AList.lookup_insert_eq_ite] at hr
    split at hr
    · exact .inl ⟨‹_›, (Option.some.inj hr).symm⟩
    · exact .inr hr
  -- its staging file is the one of the next number
  have hnew : ∀ {wp}, rec.writePath = some wp → wp = PathBuf.writePath cacheDir d.nextFh := by
    intro wp hwp'
    obtain hwp | hwp := hwp
    · rw [hwp] at hwp'
      cases hwp'
    · rw [hwp, hfh] at hwp'
      exact (Option.some.inj hwp').symm
  refine h.of_continues hlog ?_ (fun c hc => ?_) (hkept.imp id .inl)
  · -- the tables: the new handle, and no stream for it yet
    constructor
    · exact h.holds
    · intro fh
      simp only [hopens, AList.lookup_insert_eq_ite]
      split
      · rfl
      · exact h.opens fh
    · intro fh r hr
      obtain ⟨rfl, rfl⟩ | hr := hcases hr
      · exact ⟨rfl, by simp only [hfh]; omega, hwp⟩
      · obtain ⟨h₁, h₂, h₃⟩ := h.fhs fh r hr
        exact ⟨h₁, by simp only; omega, h₃⟩
    · intro fh r wp hr hwp'
      simp only [hstreams]
      obtain ⟨rfl, rfl⟩ | hr := hcases hr
      · -- a number that was not given out has no stream
        obtain ⟨h₁, h₂⟩ := h.fresh d.nextFh le_rfl
        rw [hnew hwp', h₁, h₂]
        rfl
      · exact h.streams fh r wp hr hwp'
    · intro fh hfh'
      simp only [hstreams]
      exact h.fresh fh (by simp only at hfh'; omega)
  · -- the log: the entry opens the handle, and no stream
    constructor
    · rw [namesOf_snoc]
      exact hc.names
    · intro fh
      rw [replay_snoc]
      simp only [hopens, Replayer.applyEntry, AList.lookup_insert_eq_ite, hc.handles]
    · intro fh r wp hr hwp'
      rw [replay_streams_of_noStream c (by trivial)]
      simp only [hstreams]
      obtain ⟨rfl, rfl⟩ | hr := hcases hr
      · rw [hnew hwp', hc.fresh d.nextFh le_rfl, (h.fresh d.nextFh le_rfl).1]
      · exact hc.streams fh r wp hr hwp'
    · intro fh hfh'
      rw [replay_streams_of_noStream c (by trivial)]
      exact hc.fresh fh (by simp only at hfh'; omega)

/-- A change of an open handle that leaves its number and its staging file. -/
theorem change (h : d.Mirrored cacheDir f) {fh : Nat} {rec : OpenRecord}
    (hrec : d.handles.lookup fh = some rec) (g : OpenRecord → OpenRecord) (e : Entry)
    (hg : ∀ r, (g r).fh = r.fh ∧ (g r).writePath = r.writePath)
    (he : ∀ (r : Replayer) s, r.applyEntry s e =
      ({ r with maxSeq := max r.maxSeq s } : Replayer).modifyHandle fh g)
    (hname : ∀ f, e.rename f = f) (io : Io)
    (hkept : d.log.attached = true ∨ d.log.failed = true) :
    ({ d with
      handles := d.handles.insert fh (g rec)
      log := d.log.handleChanged fh g e io } : Daemon).Mirrored cacheDir f := by
  obtain ⟨x, hx, hxrec⟩ : ∃ x, d.log.opens.lookup fh = some x ∧ x.2 = rec := by
    have := h.opens fh
    rw [hrec, Option.map_eq_some_iff] at this
    exact this
  have hlog := d.log.continues_handleChanged fh g e io
  rw [Log.numberedOpen_of_open h.on hx] at hlog
  have hopens : (d.log.handleChanged fh g e io).opens = d.log.opens.insert fh (x.1, g rec) := by
    simp [Log.handleChanged, h.on, hx, hxrec]
  have hstreams : (d.log.handleChanged fh g e io).streams = d.log.streams := by
    simp [Log.handleChanged, h.on, hx]
  -- the change is replayed on the handle as it was made
  -- handles keep their numbers and staging files
  have hcases : ∀ {i r}, (d.handles.insert fh (g rec)).lookup i = some r →
      ∃ r', d.handles.lookup i = some r' ∧ r.fh = r'.fh ∧ r.writePath = r'.writePath := by
    intro i r hr
    rw [AList.lookup_insert_eq_ite] at hr
    split at hr
    · rename_i hi
      obtain rfl := Option.some.inj hr
      exact ⟨rec, hi ▸ hrec, hg rec⟩
    · exact ⟨r, hr, rfl, rfl⟩
  have hreplay : ∀ c, (replay (c ++ [(d.log.seq + 1, e)])).streams = (replay c).streams := by
    intro c
    rw [replay_snoc, he, Replayer.modifyHandle_streams]
  refine h.of_continues hlog ?_ (fun c hc => ?_) (hkept.imp id .inl)
  · -- the tables: the changed handle, with the stream it had
    constructor
    · exact h.holds
    · intro i
      simp only [hopens, AList.lookup_insert_eq_ite]
      split
      · rfl
      · exact h.opens i
    · intro i r hr
      obtain ⟨r', hr', hfh, hwp⟩ := hcases hr
      rw [hfh, hwp]
      exact h.fhs i r' hr'
    · intro i r wp hr hwp'
      obtain ⟨r', hr', -, hwp⟩ := hcases hr
      simp only [hstreams]
      exact h.streams i r' wp hr' (hwp ▸ hwp')
    · simp only [hstreams]
      exact h.fresh
  · -- the log: the entry makes the same change
    constructor
    · rw [namesOf_snoc, hname]
      exact hc.names
    · intro i
      rw [replay_snoc, he, Replayer.lookup_modifyHandle]
      simp only [hopens, AList.lookup_insert_eq_ite, hc.handles, hx, hxrec, Option.map_some]
    · intro i r wp hr hwp'
      obtain ⟨r', hr', -, hwp⟩ := hcases hr
      rw [hreplay]
      simp only [hstreams]
      exact hc.streams i r' wp hr' (hwp ▸ hwp')
    · rw [hreplay]
      exact hc.fresh

/-- A handle the writer does not have is not in the table either. -/
theorem release_unknown (h : d.Mirrored cacheDir f) {fh : Nat}
    (hfh : d.log.opens.lookup fh = none) (io : Io) :
    ({ d with handles := d.handles.erase fh, log := d.log.handleReleased fh io } :
      Daemon).Mirrored cacheDir f := by
  -- a handle the log does not know is not open
  have hnone : d.handles.lookup fh = none := by
    rw [← h.opens, hfh]
    rfl
  have hlog : d.log.handleReleased fh io = d.log := by
    simp [Log.handleReleased, h.on, hfh]
  -- so releasing it changes nothing
  have hhandles : ∀ i, (d.handles.erase fh).lookup i = d.handles.lookup i := by
    intro i
    rw [AList.lookup_erase_eq_ite]
    split
    · rename_i hi
      rw [hi, hnone]
    · rfl
  have hsame : ∀ c, Mirrors cacheDir d f c → Mirrors cacheDir
      { d with handles := d.handles.erase fh, log := d.log } f c := fun c hc =>
    ⟨hc.names, hc.handles, fun i r wp hr => hc.streams i r wp ((hhandles i).symm.trans hr), hc.fresh⟩
  rw [hlog]
  refine h.of_continues (.refl d.log) ?_ (fun c hc => ?_) (.inr (.inr hsame))
  · refine ⟨h.holds, fun i => ?_, fun i r hr => ?_, fun i r wp hr => ?_, h.fresh⟩
    · rw [h.opens i]
      exact (hhandles i).symm
    · exact h.fhs i r ((hhandles i).symm.trans hr)
    · exact h.streams i r wp ((hhandles i).symm.trans hr)
  · rw [List.append_nil]
    exact hsame c hc

/-- The last close of a handle. -/
theorem release (h : d.Mirrored cacheDir f) {fh : Nat} {x : Nat × OpenRecord}
    (hx : d.log.opens.lookup fh = some x) (io : Io)
    (hkept : d.log.attached = true ∨ d.log.failed = true) :
    ({ d with handles := d.handles.erase fh, log := d.log.handleReleased fh io } :
      Daemon).Mirrored cacheDir f := by
  obtain ⟨hrec, -⟩ := h.opens_fh hx
  obtain ⟨-, hlt, hwp⟩ := h.fhs fh x.2 hrec
  have hlog := d.log.continues_handleReleased fh io
  rw [Log.numberedOpen_of_open h.on hx] at hlog
  have hopens : (d.log.handleReleased fh io).opens = d.log.opens.erase fh := by
    simp [Log.handleReleased, h.on, hx]
  -- only the stream of the handle's own staging file goes
  have hstreams : ∀ i, i ≠ fh → (d.log.handleReleased fh io).streams.lookup
      (PathBuf.writePath cacheDir i) = d.log.streams.lookup (PathBuf.writePath cacheDir i) := by
    intro i hi
    simp only [Log.handleReleased, h.on, if_true, hx, Log.put_streams]
    obtain hwp | hwp := hwp
    · rw [hwp]
    · rw [hwp]
      exact AList.lookup_erase_ne fun heq => hi (PathBuf.writePath_inj.mp heq)
  -- the handles left are the others
  have hcases : ∀ {i r}, (d.handles.erase fh).lookup i = some r →
      i ≠ fh ∧ d.handles.lookup i = some r := by
    intro i r hr
    rw [AList.lookup_erase_eq_ite] at hr
    split at hr
    · cases hr
    · exact ⟨‹_›, hr⟩
  -- and their streams stay
  have hpath : ∀ {i r wp}, (d.handles.erase fh).lookup i = some r → r.writePath = some wp →
      (d.log.handleReleased fh io).streams.lookup wp = d.log.streams.lookup wp := by
    intro i r wp hr hwp'
    obtain ⟨hi, hr⟩ := hcases hr
    obtain ⟨-, -, hnone | hwp⟩ := h.fhs i r hr
    · rw [hnone] at hwp'
      cases hwp'
    · rw [hwp] at hwp'
      obtain rfl := Option.some.inj hwp'
      exact hstreams i hi
  refine h.of_continues hlog ?_ (fun c hc => ?_) (hkept.imp id .inl)
  · -- the tables: without the handle and its stream
    refine ⟨h.holds, fun i => ?_, fun i r hr => h.fhs i r (hcases hr).2, fun i r wp hr hwp' => ?_,
      fun i hi => ⟨?_, (h.fresh i hi).2⟩⟩
    · simp only [hopens, AList.lookup_erase_eq_ite]
      split
      · rfl
      · exact h.opens i
    · simp only [hpath hr hwp']
      exact h.streams i r wp (hcases hr).2 hwp'
    · exact (hstreams i (by simp only at hi; omega)).trans (h.fresh i hi).1
  · -- the log: the entry releases the handle, and the stream it leaves is of no open one
    constructor
    · rw [namesOf_snoc]
      exact hc.names
    · intro i
      rw [replay_snoc]
      simp only [hopens, Replayer.applyEntry, AList.lookup_erase_eq_ite, hc.handles]
    · intro i r wp hr hwp'
      rw [replay_streams_of_noStream c (by trivial)]
      exact (hc.streams i r wp (hcases hr).2 hwp').trans (hpath hr hwp').symm
    · intro i hi
      rw [replay_streams_of_noStream c (by trivial)]
      exact hc.fresh i hi

/-- The start of a streamed upload. -/
theorem startStream (h : d.Mirrored cacheDir f) {fh : Nat} (hfh : fh < d.nextFh)
    (uploadsBase : String) (io : Io) (hkept : d.log.attached = true ∨ d.log.failed = true) :
    ({ d with
      streams := d.streams.insert (PathBuf.writePath cacheDir fh) uploadsBase
      log := d.log.streamStarted (PathBuf.writePath cacheDir fh) uploadsBase io } :
      Daemon).Mirrored cacheDir f := by
  have hlog := d.log.continues_streamStarted (PathBuf.writePath cacheDir fh) uploadsBase io
  rw [Log.numbered, if_pos h.on] at hlog
  have hopens : (d.log.streamStarted (PathBuf.writePath cacheDir fh) uploadsBase io).opens =
      d.log.opens := by
    simp [Log.streamStarted, h.on]
  have hstreams : (d.log.streamStarted (PathBuf.writePath cacheDir fh) uploadsBase io).streams =
      d.log.streams.insert (PathBuf.writePath cacheDir fh) (d.log.seq + 1, uploadsBase) := by
    simp [Log.streamStarted, h.on]
  -- a number that was not given out has another staging file
  have hfresh : ∀ i, d.nextFh ≤ i →
      PathBuf.writePath cacheDir i ≠ PathBuf.writePath cacheDir fh := by
    intro i hi heq
    rw [PathBuf.writePath_inj] at heq
    omega
  refine h.of_continues hlog ?_ (fun c hc => ?_) (hkept.imp id .inl)
  · -- the tables: the stream of the handle's staging file
    refine ⟨h.holds, ?_, h.fhs, fun i r wp hr hwp => ?_, fun i hi => ?_⟩
    · rw [hopens]
      exact h.opens
    · simp only [hstreams, AList.lookup_insert_eq_ite]
      split
      · rfl
      · exact h.streams i r wp hr hwp
    · simp only [hstreams, AList.lookup_insert_eq_ite, if_neg (hfresh i hi)]
      exact h.fresh i hi
  · -- the log: the entry starts it
    constructor
    · rw [namesOf_snoc]
      exact hc.names
    · intro i
      rw [replay_handles_of_noHandle c (by trivial), hopens]
      exact hc.handles i
    · intro i r wp hr hwp
      rw [replay_snoc]
      simp only [Replayer.applyEntry, hstreams, AList.lookup_insert_eq_ite,
        hc.streams i r wp hr hwp]
    · intro i hi
      rw [replay_snoc]
      simp only [Replayer.applyEntry, AList.lookup_insert_eq_ite, if_neg (hfresh i hi)]
      exact hc.fresh i hi

/-- The first half of a compaction. -/
theorem compactBegin (h : d.Mirrored cacheDir f) {opens : List (Nat × OpenRecord)}
    {streams : List (PathBuf × Nat × String)} (hwalks : d.log.Walks opens streams) (ok : Bool) :
    ({ d with log := d.log.compactBegin d.table opens streams ok } : Daemon).Mirrored
      cacheDir f := by
  obtain ⟨hon, ha, hopens, hstreams, hdisk, hfailed⟩ :=
    d.log.compactBegin_fields d.table opens streams ok
  rw [if_pos h.on] at hdisk hfailed
  have hflush := d.log.continues_flush ok
  -- compaction touches no table
  have hsame : ∀ c, Mirrors cacheDir d f c → Mirrors cacheDir
      { d with log := d.log.compactBegin d.table opens streams ok } f c := fun c hc =>
    hc.congr rfl le_rfl hopens hstreams
  constructor
  · refine ⟨h.holds, ?_, h.fhs, ?_, ?_⟩
    · rw [hopens]
      exact h.opens
    · rw [hstreams]
      exact h.streams
    · rw [hstreams]
      exact h.fresh
  · exact hon.trans h.on
  · -- the image of the tables is what the new file receives, the old one goes on as before
    intro c hc
    obtain hc | rfl := Log.mem_receiving_compactBegin hc
    · exact hsame c (h.logs c hc)
    · exact hsame _ (Mirrors.image h.toTracked hwalks _ _ _)
  · -- a detached log was flushed as it was
    intro ha' c hc
    have ha'' := ha.symm.trans ha'
    exact hsame c (h.detached ha'' c (hflush.detached ha'' c (hdisk.symm.trans hc)))
  · exact Log.gone_compactBegin h.gone
  · -- nothing was lost by the flush
    intro hf
    have hf' := hfailed.symm.trans hf
    rw [hdisk]
    refine hflush.here (h.here ?_) hf'
    cases hl : d.log.failed with
    | false => rfl
    | true => exact absurd ((hflush.failed hl).symm.trans hf') (by decide)

/-- The second half. -/
theorem compactEnd (h : d.Mirrored cacheDir f) (ok : Bool) (swap : Log.Swap) :
    ({ d with log := d.log.compactEnd ok swap } : Daemon).Mirrored cacheDir f := by
  obtain ⟨hon, -, hopens, hstreams⟩ := d.log.compactEnd_fields ok swap
  have hsame : ∀ c, Mirrors cacheDir d f c → Mirrors cacheDir
      { d with log := d.log.compactEnd ok swap } f c := fun c hc =>
    hc.congr rfl le_rfl hopens hstreams
  constructor
  · refine ⟨h.holds, ?_, h.fhs, ?_, ?_⟩
    · rw [hopens]
      exact h.opens
    · rw [hstreams]
      exact h.streams
    · rw [hstreams]
      exact h.fresh
  · exact hon.trans h.on
  · exact fun c hc => hsame c (h.logs c (Log.mem_receiving_compactEnd hc))
  · intro ha c hc
    obtain ⟨ha', hc'⟩ | hc' := Log.disk_compactEnd h.gone ha hc
    · exact hsame c (h.detached ha' c hc')
    · exact hsame c (h.logs c hc')
  · exact Log.gone_compactEnd h.gone
  · exact Log.here_compactEnd h.here

end Daemon.Mirrored

/-! ## Runs -/

namespace Daemon

/-- The record of a step that changes the live state goes to the file at the log's path, or there is
no log any more. -/
def Kept (d : Daemon) : Event → Prop
  | .allocate path _ _ =>
    d.table.paths.lookup path = none → d.log.attached = true ∨ d.log.failed = true
  | .rename _ _ _ moves => moves ≠ [] → d.log.attached = true ∨ d.log.failed = true
  | .open _ _ | .unlink _ _ | .retarget _ _ _ | .startStream _ _ _ =>
    d.log.attached = true ∨ d.log.failed = true
  | .release fh _ =>
    (d.handles.lookup fh).isSome = true → d.log.attached = true ∨ d.log.failed = true
  | .opendir | .tick _ _ | .flush _ | .compactBegin _ _ _ | .compactEnd _ _ => True

namespace Mirrored

variable {cacheDir : PathBuf} {d d' : Daemon} {f : Nat ≃. PathBuf}

/-- A rename moves the names below its source, one entry each. -/
theorem rename (h : d.Mirrored cacheDir f) {source target : PathBuf} {subtree : Bool}
    {moves : List ((PathBuf × Nat) × Io)}
    (hkept : moves ≠ [] → d.log.attached = true ∨ d.log.failed = true)
    (hstep : d.step cacheDir (.rename source target subtree moves) = some d') :
    ∃ f', d'.Mirrored cacheDir f' := by
  by_cases hnil : moves = []
  · obtain ⟨-, -, rfl⟩ := Daemon.step_rename hstep
    exact ⟨f, by rwa [hnil]⟩
  · obtain ⟨f', ⟨h', -⟩, -⟩ := Daemon.rename_induction hstep
      (P := fun d f => d.Mirrored cacheDir f ∧ (d.log.attached = true ∨ d.log.failed = true))
      (fun d f x hP _ hx hnew => by
        obtain ⟨hP, hkept⟩ := hP
        have hlog := d.log.continues_inodeMoved x.1.2 (InodeTable.movedTo source target x.1.1)
          (d.table.displaced x.1.1 (InodeTable.movedTo source target x.1.1) x.1.2) x.2
        exact ⟨hP.moveOne hx hnew hkept, hkept.imp hlog.attached.trans hlog.failed⟩)
      ⟨h, hkept hnil⟩ h.holds
    exact ⟨f', h'⟩

/-- What every step keeps. -/
theorem step (h : d.Mirrored cacheDir f) {e : Event} (hkept : d.Kept e)
    (hstep : d.step cacheDir e = some d') : ∃ f', d'.Mirrored cacheDir f' := by
  cases e with
  | allocate path io io' =>
    -- a path that has an inode gets no other one
    simp only [Daemon.step, Daemon.allocateInode] at hstep
    cases hpath : d.table.paths.lookup path with
    | some ino =>
      rw [hpath] at hstep
      cases hstep
      exact ⟨f, h⟩
    | none =>
      rw [hpath] at hstep
      cases hstep
      exact ⟨_, h.allocate hpath io io' (hkept hpath)⟩
  | rename source target subtree moves => exact h.rename hkept hstep
  | «open» rec io =>
    simp only [Daemon.step] at hstep
    split at hstep
    · rename_i hcan
      cases hstep
      exact ⟨f, h.open hcan io hkept⟩
    · cases hstep
  | opendir =>
    -- a folder handle is not logged
    cases hstep
    exact ⟨f, h.quiet (.refl d.log) (by simp) rfl rfl (by simp) rfl rfl rfl⟩
  | release fh io =>
    -- a handle the log knows, or none
    cases hstep
    cases hfh : d.log.opens.lookup fh with
    | none => exact ⟨f, h.release_unknown hfh io⟩
    | some x =>
      refine ⟨f, h.release hfh io (hkept ?_)⟩
      rw [(h.opens_fh hfh).1]
      rfl
  | unlink fh io =>
    -- the file of a handle is deleted, or has a new path
    simp only [Daemon.step, Daemon.changeHandle, Option.map_eq_some_iff] at hstep
    obtain ⟨rec, hrec, rfl⟩ := hstep
    exact ⟨f, h.change hrec (fun rec => { rec with unlinked := true }) (.unlinked fh)
      (fun _ => ⟨rfl, rfl⟩) (fun _ _ => rfl) (fun _ => rfl) io hkept⟩
  | retarget fh path io =>
    simp only [Daemon.step, Daemon.changeHandle, Option.map_eq_some_iff] at hstep
    obtain ⟨rec, hrec, rfl⟩ := hstep
    exact ⟨f, h.change hrec (fun rec => { rec with path := path }) (.retarget fh path)
      (fun _ => ⟨rfl, rfl⟩) (fun _ _ => rfl) (fun _ => rfl) io hkept⟩
  | startStream fh uploadsBase io =>
    simp only [Daemon.step] at hstep
    split at hstep
    · rename_i hfh
      cases hstep
      exact ⟨f, h.startStream hfh uploadsBase io hkept⟩
    · cases hstep
  | tick io ok =>
    -- a tick flushes the log, and may put the handle mark in front of it
    cases hstep
    have hfields : (d.log.tick d.nextFh io ok).opens = d.log.opens ∧
        (d.log.tick d.nextFh io ok).streams = d.log.streams := by
      simp only [Log.tick, h.on, if_true, Log.flush_opens, Log.flush_streams]
      split <;> simp
    obtain hlog | hlog := d.log.continues_tick d.nextFh io ok
    · exact ⟨f, h.quiet hlog (by simp) rfl rfl le_rfl rfl hfields.1 hfields.2⟩
    · refine ⟨f, h.quiet hlog (fun e he => ?_) rfl rfl le_rfl rfl hfields.1 hfields.2⟩
      obtain rfl := List.mem_singleton.mp he
      exact ⟨trivial, trivial, fun _ => rfl⟩
  | flush ok =>
    cases hstep
    simp only [h.on, if_true]
    exact ⟨f, h.quiet (d.log.continues_flush ok) (by simp) rfl rfl le_rfl rfl (by simp) (by simp)⟩
  | compactBegin opens streams ok =>
    simp only [Daemon.step] at hstep
    split at hstep
    · rename_i hguard
      cases hstep
      exact ⟨f, h.compactBegin hguard.2 ok⟩
    · cases hstep
  | compactEnd ok swap =>
    simp only [Daemon.step] at hstep
    split at hstep
    · cases hstep
      exact ⟨f, h.compactEnd ok swap⟩
    · cases hstep

end Mirrored

/-- A fresh mount whose log has just been written. -/
def start (paths : List PathBuf) : Daemon where
  table := .ofPaths paths
  log := .startFresh (.ofPaths paths)

/-- A daemon that starts mirrors its tables. -/
theorem mirrored_start (cacheDir : PathBuf) (paths : List PathBuf) :
    ∃ f, (start paths).Mirrored cacheDir f := by
  obtain ⟨f, hf⟩ := InodeTable.Holds.ofPaths paths
  have hnone : ∀ {fh rec}, (start paths).handles.lookup fh ≠ some rec := fun {fh rec} hr => by
    rw [show (start paths).handles.lookup fh = none from rfl] at hr
    cases hr
  have htracked : (start paths).Tracked cacheDir f :=
    ⟨hf, fun _ => rfl, fun _ _ hr => absurd hr hnone, fun _ _ _ hr => absurd hr hnone,
      fun _ _ => ⟨rfl, rfl⟩⟩
  refine ⟨f, htracked, rfl, fun c hc => ?_, nofun, nofun, fun _ => rfl⟩
  simp only [start, Log.mem_receiving, Log.startFresh] at hc
  obtain ⟨-, ⟨-, es, hes, rfl⟩ | ⟨k, hk, -⟩⟩ := hc
  · obtain rfl := Option.some.inj hes
    rw [List.append_nil]
    exact Mirrors.image htracked ⟨List.Perm.nil, List.Perm.nil⟩ 1 0 _
  · cases hk

/-- Every step of a run keeps to the condition. -/
def AllKept (cacheDir : PathBuf) (d : Daemon) : List Event → Prop
  | [] => True
  | e :: es => d.Kept e ∧
    match d.step cacheDir e with
    | some d' => AllKept cacheDir d' es
    | none => True

/-- A run in which what changes is kept mirrors its tables. -/
theorem Mirrored.steps {cacheDir : PathBuf} {d d' : Daemon} {f : Nat ≃. PathBuf}
    (h : d.Mirrored cacheDir f) {es : List Event} (hkept : d.AllKept cacheDir es)
    (hsteps : d.steps cacheDir es = some d') : ∃ f', d'.Mirrored cacheDir f' := by
  induction es generalizing d f with
  | nil =>
    cases hsteps
    exact ⟨f, h⟩
  | cons e es ih =>
    simp only [Daemon.steps, Option.bind_eq_some_iff] at hsteps
    obtain ⟨d₁, hstep, hsteps⟩ := hsteps
    obtain ⟨hk, hrest⟩ := hkept
    rw [hstep] at hrest
    obtain ⟨f₁, h₁⟩ := h.step hk hstep
    exact ih h₁ hrest hsteps

end Daemon

/-- What is restored is the live state: the node-id table without the root, the records of the open
handles, and the streams of those of them whose staging file started one. -/
structure Restored.IsLive (r : Restored) (d : Daemon) : Prop where
  inodes : ∀ i, r.inodes.lookup i = if i = 1 then none else d.table.inodes.lookup i
  handles : ∀ fh, (r.handles.lookup fh).map Prod.snd = d.handles.lookup fh
  streams : ∀ fh rec wp, d.handles.lookup fh = some rec → rec.writePath = some wp →
    (r.streams.lookup wp).map Prod.snd = d.streams.lookup wp
  streams_open : ∀ wp, r.streams.lookup wp ≠ none →
    ∃ fh rec, d.handles.lookup fh = some rec ∧ rec.writePath = some wp

/-- A log that mirrors the live state is restored to it. -/
theorem Mirrors.isLive {cacheDir : PathBuf} {d : Daemon} {f : Nat ≃. PathBuf} {c : Entries}
    (h : Mirrors cacheDir d f c) (htracked : d.Tracked cacheDir f) :
    (replay c).finish.IsLive d := by
  -- what is replayed is what is open
  have hhandles : ∀ fh, ((replay c).handles.lookup fh).map Prod.snd = d.handles.lookup fh := by
    intro fh
    rw [h.handles, htracked.opens]
  -- the streams kept are those of open handles
  have hopen : ∀ wp, ((replay c).handles.entries.any fun x => x.2.2.writePath = some wp) = true ↔
      ∃ fh rec, d.handles.lookup fh = some rec ∧ rec.writePath = some wp := by
    intro wp
    rw [List.any_eq_true]
    constructor
    · rintro ⟨x, hx, hwp⟩
      have hlookup : (replay c).handles.lookup x.1 = some x.2 := AList.mem_lookup_iff.mpr hx
      refine ⟨x.1, x.2.2, ?_, by simpa using hwp⟩
      rw [← hhandles, hlookup]
      rfl
    · rintro ⟨fh, rec, hrec, hwp⟩
      rw [← hhandles, Option.map_eq_some_iff] at hrec
      obtain ⟨y, hy, rfl⟩ := hrec
      exact ⟨⟨fh, y⟩, AList.mem_lookup_iff.mp hy, by simpa using hwp⟩
  constructor
  · -- the inodes of the log are those of the table, the root apart
    intro i
    rw [show (replay c).finish.inodes = (replay c).inodes from rfl, (names_replay c).inodes,
      h.names, htracked.holds.inodes]
    by_cases hi : i = 1
    · simp [hi, htracked.holds.root]
    · simp [hi]
  · exact hhandles
  · -- an open handle's stream is kept
    intro fh rec wp hrec hwp
    simp only [Replayer.finish, AList.lookup_retain, if_pos ((hopen wp).mpr ⟨fh, rec, hrec, hwp⟩)]
    rw [h.streams fh rec wp hrec hwp]
    exact htracked.streams fh rec wp hrec hwp
  · -- and no other one
    intro wp hwp
    simp only [Replayer.finish, AList.lookup_retain, ne_eq, ite_eq_right_iff, Classical.not_imp] at hwp
    exact (hopen wp).mp hwp.1

/-- Whenever nothing is queued and no write has failed, loading the log gives the live state, after
any hooks and with any compactions, while no hook's record goes to a file that is not the one at the
log's path. -/
theorem log_mirrors_live_tables (cacheDir : PathBuf) (dev : ConnDev) (mountPoint : PathBuf)
    (paths : List PathBuf) (es : List Event) (d : Daemon)
    (hkept : (Daemon.start paths).AllKept cacheDir es)
    (hsteps : (Daemon.start paths).steps cacheDir es = some d) (hok : d.log.failed = false)
    (hbuf : d.log.buf = []) :
    ∃ c r, d.log.disk = some c ∧
      loadRecords dev mountPoint (records dev mountPoint c) = .ok r ∧ r.IsLive d := by
  obtain ⟨f₀, h₀⟩ := Daemon.mirrored_start cacheDir paths
  obtain ⟨f, h⟩ := h₀.steps hkept hsteps
  obtain ⟨c, hc⟩ := Option.isSome_iff_exists.mp (h.here hok)
  refine ⟨c, _, hc, loadRecords_records dev mountPoint c, ?_⟩
  have hmirrors : Mirrors cacheDir d f c := by
    cases ha : d.log.attached with
    | true =>
      refine h.logs c (Log.mem_receiving.mpr ⟨hok, .inl ⟨ha, c, hc, ?_⟩⟩)
      rw [hbuf, List.append_nil]
    | false => exact h.detached ha c hc
  exact hmirrors.isLive h.toTracked

/-- A handle on a file that is being written. -/
def openA : OpenRecord where
  fh := 1
  ino := 2
  path := ["a"]
  writePath := some ["cache", "write_1"]
  ioKind := .directIo

/-- A file is opened and renamed over another while a compaction runs. -/
def compactedRun : List Event :=
  [.allocate ["a"] {} {}, .allocate ["b"] {} {}, .open openA {}, .startStream 1 "uploads/1" {},
    .compactBegin [(5, openA)] [(["cache", "write_1"], 6, "uploads/1")] true,
    .rename ["a"] ["b"] false [((["a"], 2), {})], .retarget 1 ["b"] {}, .compactEnd true .swapped]

/-- After a compaction the log holds what the daemon has, as renamed and released since. -/
theorem compacted_log_is_live :
    ∃ d c r, (Daemon.start []).steps ["cache"] compactedRun = some d ∧
      d.table.inodes.lookup 2 = some ["b"] ∧ d.table.inodes.lookup 3 = none ∧
      d.log.disk = some c ∧ loadRecords ⟨0, 52⟩ ["m"] (records ⟨0, 52⟩ ["m"] c) = .ok r ∧
      r.IsLive d := by
  obtain ⟨d, hsteps, h2, h3, hok, hbuf⟩ : ∃ d, (Daemon.start []).steps ["cache"] compactedRun =
      some d ∧ d.table.inodes.lookup 2 = some ["b"] ∧ d.table.inodes.lookup 3 = none ∧
      d.log.failed = false ∧ d.log.buf = [] := ⟨_, rfl, rfl, rfl, rfl, rfl⟩
  have hkept : (Daemon.start []).AllKept ["cache"] compactedRun :=
    ⟨fun _ => .inl rfl, fun _ => .inl rfl, .inl rfl, .inl rfl, trivial, fun _ => .inl rfl, .inl rfl,
      trivial, trivial⟩
  obtain ⟨c, r, hc, hr, hlive⟩ := log_mirrors_live_tables ["cache"] ⟨0, 52⟩ ["m"] [] compactedRun d
    hkept hsteps hok hbuf
  exact ⟨d, c, r, hsteps, h2, h3, hc, hr, hlive⟩

/-- The new log could not be opened after it replaced the old one: what is logged next goes to the
old file, which is at no path any more. -/
theorem lost_file_is_not_live :
    ∃ d c r, (Daemon.start []).steps ["cache"]
        [.allocate ["a"] {} {}, .compactBegin [] [] true, .compactEnd true .unopened,
          .allocate ["b"] {} {}, .flush true] = some d ∧
      d.log.failed = false ∧ d.log.buf = [] ∧ d.log.disk = some c ∧
      loadRecords ⟨0, 52⟩ ["m"] (records ⟨0, 52⟩ ["m"] c) = .ok r ∧
      d.table.inodes.lookup 3 = some ["b"] ∧ r.inodes.lookup 3 = none ∧ ¬ r.IsLive d := by
  obtain ⟨d, c, r, hsteps, hok, hbuf, hc, hr, hd, hno⟩ : ∃ d c r, (Daemon.start []).steps ["cache"]
      [.allocate ["a"] {} {}, .compactBegin [] [] true, .compactEnd true .unopened,
        .allocate ["b"] {} {}, .flush true] = some d ∧
      d.log.failed = false ∧ d.log.buf = [] ∧ d.log.disk = some c ∧
      loadRecords ⟨0, 52⟩ ["m"] (records ⟨0, 52⟩ ["m"] c) = .ok r ∧
      d.table.inodes.lookup 3 = some ["b"] ∧ r.inodes.lookup 3 = none :=
    ⟨_, _, _, rfl, rfl, rfl, rfl, rfl, rfl, rfl⟩
  refine ⟨d, c, r, hsteps, hok, hbuf, hc, hr, hd, hno, fun hlive => ?_⟩
  have h3 := hlive.inodes 3
  rw [hno, hd] at h3
  cases h3

end Handoff

end Ncrs
