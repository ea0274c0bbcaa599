import Ncrs.ForStd.PEquiv
import Ncrs.Native.HandoffDaemon
import Ncrs.Spec.HandoffLogCorrect

/-!
# What a handoff log stands for

A log names nodes: it stands for a partial equivalence between node ids and paths, and so does the
node-id table of a running filesystem, besides its root. Both make the same of an allocation and of
a turn of a rename.

## Key results

- `loadRecords_records`: a log that starts with its connection always loads.
- `names_replay`: the node ids and paths of a replay are the names its records give.
- `Holds.add`, `Holds.move`: what the table does with an allocation and with a move.
- `namesOf_image`: a compacted log has the names of the table.
-/

namespace Ncrs

namespace Handoff

/-! ## Replay of numbered records -/

/-- The replay of a log after its first record. -/
def replay (es : Entries) : Replayer :=
  es.foldl (fun r e => r.applyEntry e.1 e.2) { based := true }

theorem replay_snoc (es : Entries) (e : Nat × Entry) :
    replay (es ++ [e]) = (replay es).applyEntry e.1 e.2 := by
  simp [replay]

theorem loadRecords_records (dev : ConnDev) (mountPoint : PathBuf) (es : Entries) :
    loadRecords dev mountPoint (records dev mountPoint es) = .ok (replay es).finish := by
  have hrun : ∀ (es : Entries) (r : Replayer), r.based = true →
      (es.map fun e => Record.entry e.1 e.2).foldlM (Replayer.apply dev mountPoint) r =
        .ok (es.foldl (fun r e => r.applyEntry e.1 e.2) r) ∧
      (es.foldl (fun r e => r.applyEntry e.1 e.2) r).based = true := by
    intro es
    induction es with
    | nil => exact fun r hr => ⟨rfl, hr⟩
    | cons e es ih =>
      intro r hr
      have hstep := ih (r.applyEntry e.1 e.2) ((Replayer.applyEntry_based r e.1 e.2).trans hr)
      rw [List.map_cons, List.foldlM_cons, Replayer.apply_entry hr]
      exact hstep
  obtain ⟨hfold, hbased⟩ := hrun es { based := true } rfl
  have hbase : Replayer.apply dev mountPoint {} (.base dev mountPoint) =
      .ok { based := true } := by
    simp [Replayer.apply]
  rw [loadRecords, records, List.foldlM_cons, hbase]
  show (es.map fun e => Record.entry e.1 e.2).foldlM (Replayer.apply dev mountPoint)
    { based := true } >>= Replayer.done = _
  rw [hfold]
  exact if_pos hbased

/-! ## Names -/

/-- The two maps are the directions of `f`. -/
structure Names (inodes : AList (fun _ : Nat => PathBuf)) (paths : AList (fun _ : PathBuf => Nat))
    (f : Nat ≃. PathBuf) : Prop where
  inodes : ∀ i, inodes.lookup i = f i
  paths : ∀ p, paths.lookup p = f.symm p

/-- What a record does to the names. -/
def Entry.rename (f : Nat ≃. PathBuf) : Entry → Nat ≃. PathBuf
  | .ino i p => f.place i p
  | .mv i p dropped =>
    match dropped.filter (· ≠ i) with
    | some d => (f.place i p).remove d
    | none => f.place i p
  | _ => f

/-- A name that is there after a record was there before, or is the record's. -/
theorem Entry.rename_eq_some {f : Nat ≃. PathBuf} {e : Entry} {i : Nat} {p : PathBuf}
    (h : e.rename f i = some p) : f i = some p ∨ e = .ino i p ∨ ∃ d, e = .mv i p d := by
  have hplace : ∀ {j : Nat} {q : PathBuf}, f.place j q i = some p →
      (i = j ∧ p = q) ∨ f i = some p := by
    intro j q hp
    rw [PEquiv.place_apply] at hp
    split at hp
    · exact .inl ⟨‹_›, (Option.some.inj hp).symm⟩
    · split at hp
      · cases hp
      · exact .inr hp
  cases e with
  | ino j q =>
    obtain ⟨rfl, rfl⟩ | hold := hplace h
    · exact .inr (.inl rfl)
    · exact .inl hold
  | mv j q dropped =>
    have hp : f.place j q i = some p := by
      simp only [Entry.rename] at h
      split at h
      · rw [PEquiv.remove_apply] at h
        split at h
        · cases h
        · exact h
      · exact h
    obtain ⟨rfl, rfl⟩ | hold := hplace hp
    · exact .inr (.inr ⟨dropped, rfl⟩)
    · exact .inl hold
  | _ => exact .inl h

/-- The names a log gives. -/
def namesOf (es : Entries) : Nat ≃. PathBuf := es.foldl (fun f e => e.2.rename f) ⊥

theorem namesOf_snoc (es : Entries) (e : Nat × Entry) :
    namesOf (es ++ [e]) = e.2.rename (namesOf es) := by
  simp [namesOf]

namespace Replayer

variable {r : Replayer} {f : Nat ≃. PathBuf}

theorem lookup_pathsLeft (h : Names r.inodes r.paths f) (ino : Nat) (path p : PathBuf) :
    (r.pathsLeft ino path).lookup p =
      if p ≠ path ∧ f.symm p = some ino then none else f.symm p := by
  unfold pathsLeft
  rw [h.inodes ino]
  cases hino : f ino with
  | none =>
    have hp : f.symm p ≠ some ino := fun hp => by
      rw [f.eq_some_iff, hino] at hp
      cases hp
    rw [if_neg fun hc => hp hc.2]
    exact h.paths p
  | some q =>
    have hq : f.symm q = some ino := f.eq_some_iff.mpr hino
    have hp : f.symm p = some ino ↔ p = q := by
      rw [f.eq_some_iff, hino, Option.some.injEq, eq_comm]
    simp only [h.paths q, hq, and_true, hp]
    by_cases hqp : q = path
    · rw [if_neg (by simpa using hqp), if_neg (by rw [hqp]; tauto)]
      exact h.paths p
    · rw [if_pos hqp, AList.lookup_erase_eq_ite, h.paths p]
      by_cases hpq : p = q
      · rw [if_pos hpq, if_pos ⟨by rwa [hpq], hpq⟩]
      · rw [if_neg hpq, if_neg fun hc => hpq hc.2]

theorem names_set (h : Names r.inodes r.paths f) (ino : Nat) (path : PathBuf) :
    Names (r.set ino path).inodes (r.set ino path).paths (f.place ino path) := by
  constructor
  · intro i
    have hpath : (r.pathsLeft ino path).lookup path = f.symm path := by
      simp [lookup_pathsLeft h]
    have hfree : f i = some path ↔ f.symm path = some i := f.eq_some_iff.symm
    simp only [set, hpath, PEquiv.place_apply, hfree]
    cases hother : f.symm path with
    | none => simp [AList.lookup_insert_eq_ite, h.inodes]
    | some other =>
      by_cases hne : other = ino
      · subst hne
        by_cases hi : i = other
        · subst hi
          simp
        · simp [hi, h.inodes, Ne.symm hi]
      · simp only [ne_eq, hne, not_false_eq_true, if_true, AList.lookup_erase_eq_ite,
          AList.lookup_insert_eq_ite, h.inodes, Option.some.injEq]
        by_cases hi : i = other
        · simp [hi, hne]
        · simp [hi, Ne.symm hi]
  · intro p
    simp only [set, AList.lookup_insert_eq_ite, lookup_pathsLeft h, PEquiv.symm_place,
      PEquiv.place_apply]
    by_cases hp : p = path <;> simp [hp]

theorem names_dropIno (h : Names r.inodes r.paths f) (d : Nat) :
    Names (r.dropIno d).inodes (r.dropIno d).paths (f.remove d) := by
  unfold dropIno
  rw [h.inodes d]
  cases hd : f d with
  | none =>
    rw [PEquiv.remove_of_none hd]
    exact h
  | some p =>
    have hp : f.symm p = some d := f.eq_some_iff.mpr hd
    constructor
    · intro i
      simp only [AList.lookup_erase_eq_ite, PEquiv.remove_apply, h.inodes]
    · intro q
      have hq : f.symm q = some d ↔ q = p := by
        rw [f.eq_some_iff, hd, Option.some.injEq, eq_comm]
      simp only [h.paths, hp, if_true, AList.lookup_erase_eq_ite, PEquiv.symm_remove_apply, hq]

/-- A record changes the replayed names as it does the names. -/
theorem names_applyEntry (h : Names r.inodes r.paths f) (s : Nat) (e : Entry) :
    Names (r.applyEntry s e).inodes (r.applyEntry s e).paths (e.rename f) := by
  cases e with
  | ino i p => exact names_set ⟨h.inodes, h.paths⟩ i p
  | mv i p dropped =>
    have hset := names_set (r := { r with maxSeq := max r.maxSeq s, maxIno := max r.maxIno i })
      ⟨h.inodes, h.paths⟩ i p
    simp only [applyEntry, Entry.rename]
    cases dropped.filter (· ≠ i) with
    | none => exact hset
    | some d => exact names_dropIno hset d
  | unlinked fh | retarget fh p =>
    simp only [applyEntry, modifyHandle]
    split <;> exact ⟨h.inodes, h.paths⟩
  | _ => exact ⟨h.inodes, h.paths⟩

end Replayer

/-- The replayed node ids and paths are the names the records give. -/
theorem names_replay (es : Entries) : Names (replay es).inodes (replay es).paths (namesOf es) := by
  induction es using List.reverseRecOn with
  | nil => exact ⟨fun i => rfl, fun p => rfl⟩
  | append_singleton es e ih =>
    rw [replay_snoc, namesOf_snoc]
    exact Replayer.names_applyEntry ih e.1 e.2

/-! ## The node-id table -/

/-- The two maps are the directions of `f`, with the root besides. -/
structure Rooted (inodes : AList (fun _ : Nat => PathBuf)) (paths : AList (fun _ : PathBuf => Nat))
    (f : Nat ≃. PathBuf) : Prop where
  inodes : ∀ i, inodes.lookup i = if i = 1 then some [] else f i
  paths : ∀ p, paths.lookup p = if p = [] then some 1 else f.symm p
  root : f 1 = none
  rootPath : f.symm [] = none

namespace Rooted

variable {inodes : AList (fun _ : Nat => PathBuf)} {paths : AList (fun _ : PathBuf => Nat)}
  {f : Nat ≃. PathBuf}

theorem ne_root (h : Rooted inodes paths f) {i : Nat} {p : PathBuf} (hi : f i = some p) :
    i ≠ 1 ∧ p ≠ [] := by
  constructor
  · rintro rfl
    rw [h.root] at hi
    cases hi
  · rintro rfl
    rw [← f.eq_some_iff, h.rootPath] at hi
    cases hi

/-- An entry more, where neither the node nor the path is in another pair. -/
theorem insert (h : Rooted inodes paths f) {i : Nat} {p : PathBuf} (hi : i ≠ 1) (hp : p ≠ [])
    (hpath : ∀ j, f j = some p → j = i) (hnode : ∀ q, f i = some q → q = p) :
    Rooted (inodes.insert i p) (paths.insert p i) (f.place i p) := by
  constructor
  · intro j
    rw [AList.lookup_insert_eq_ite, PEquiv.place_apply, h.inodes j]
    by_cases hj : j = i
    · simp [hj, hi]
    · have hjp : f j ≠ some p := fun h => hj (hpath j h)
      simp [hj, hjp]
  · intro q
    rw [AList.lookup_insert_eq_ite, PEquiv.symm_place, PEquiv.place_apply, h.paths q]
    by_cases hq : q = p
    · simp [hq, hp]
    · have hqi : f.symm q ≠ some i := fun h => hq (hnode q (f.eq_some_iff.mp h))
      simp [hq, hqi]
  · simp [PEquiv.place_apply, Ne.symm hi, h.root]
  · simp [PEquiv.place_apply, Ne.symm hp, h.rootPath]

end Rooted

/-- The table holds the nodes of `f` and the root, all below its counter. -/
structure InodeTable.Holds (t : InodeTable) (f : Nat ≃. PathBuf) : Prop
    extends Rooted t.inodes t.paths f where
  below : ∀ i p, f i = some p → i < t.nextInode
  next : 1 < t.nextInode

namespace InodeTable

theorem holds_fresh : InodeTable.fresh.Holds ⊥ := by
  constructor
  · constructor
    · exact fun i => AList.lookup_insert_eq_ite ∅ 1 i []
    · exact fun p => AList.lookup_insert_eq_ite ∅ [] p 1
    · rfl
    · rfl
  · intro i p h
    cases h
  · decide

namespace Holds

variable {t : InodeTable} {f : Nat ≃. PathBuf}

theorem path_free (h : t.Holds f) {path : PathBuf} (hpath : t.paths.lookup path = none) :
    path ≠ [] ∧ f.symm path = none := by
  rw [h.paths] at hpath
  split at hpath
  · cases hpath
  · exact ⟨‹_›, hpath⟩

theorem next_free (h : t.Holds f) : f t.nextInode = none := by
  cases hn : f t.nextInode with
  | none => rfl
  | some p => exact absurd (h.below _ p hn) (lt_irrefl _)

/-- A new number for a path the table does not have. -/
theorem add (h : t.Holds f) {path : PathBuf} (hpath : t.paths.lookup path = none) :
    (t.add path).Holds (f.place t.nextInode path) := by
  obtain ⟨hne, hfree⟩ := h.path_free hpath
  have hnext : t.nextInode ≠ 1 := Nat.ne_of_gt h.next
  refine ⟨h.toRooted.insert hnext hne ?_ ?_, ?_, ?_⟩
  · intro j hj
    rw [← f.eq_some_iff, hfree] at hj
    cases hj
  · intro q hq
    rw [h.next_free] at hq
    cases hq
  · intro i p hi
    rw [PEquiv.place_apply_of_free hfree] at hi
    simp only [InodeTable.add]
    split at hi
    · omega
    · have := h.below i p hi
      omega
  · have := h.next
    simp only [InodeTable.add]
    omega

/-- A filesystem that has only allocated nodes. -/
theorem ofPaths (paths : List PathBuf) : ∃ f, (InodeTable.ofPaths paths).Holds f := by
  have hfold : ∀ (paths : List PathBuf) (t : InodeTable) (f : Nat ≃. PathBuf), t.Holds f →
      ∃ f', (paths.foldl (fun t path =>
        if (t.paths.lookup path).isNone then t.add path else t) t).Holds f' := by
    intro paths
    induction paths with
    | nil => exact fun t f h => ⟨f, h⟩
    | cons path paths ih =>
      intro t f h
      rw [List.foldl_cons]
      split
      · rename_i hpath
        exact ih _ _ (h.add (Option.isNone_iff_eq_none.mp hpath))
      · exact ih t f h
  exact hfold paths _ _ holds_fresh

/-- A turn of a rename displaces what is at the new path, unless the path is the node's own. -/
theorem displaced_eq (h : t.Holds f) {ino : Nat} {old new : PathBuf} (hold : f ino = some old)
    (hnew : new ≠ []) :
    t.displaced old new ino = if new = old then none else f.symm new := by
  unfold displaced
  rw [AList.lookup_erase_eq_ite, h.paths, if_neg hnew]
  split
  · rfl
  · rename_i hne
    cases hd : f.symm new with
    | none => rfl
    | some d =>
      rw [f.eq_some_iff] at hd
      have hdi : d ≠ ino := fun hdi => hne (Option.some.inj (hd.symm.trans (hdi ▸ hold)))
      simp [hdi]

/-- A turn of a rename. -/
theorem move (h : t.Holds f) {ino : Nat} {old new : PathBuf} (hold : f ino = some old)
    (hnew : new ≠ []) : (t.move old new ino).Holds (f.place ino new) := by
  obtain ⟨hino, hne⟩ := h.toRooted.ne_root hold
  have hold' : f.symm old = some ino := f.eq_some_iff.mpr hold
  refine ⟨⟨?_, ?_, ?_, ?_⟩, ?_, h.next⟩
  · intro i
    have hfree : f i = some new ↔ f.symm new = some i := f.eq_some_iff.symm
    simp only [InodeTable.move, h.displaced_eq hold hnew, PEquiv.place_apply, hfree]
    by_cases hn : new = old
    · subst hn
      simp only [if_true, AList.lookup_insert_eq_ite, h.inodes, hold', Option.some.injEq]
      by_cases hi : i = ino
      · simp [hi, hino]
      · simp [hi, Ne.symm hi]
    · rw [if_neg hn]
      cases hd : f.symm new with
      | none =>
        simp only [AList.lookup_insert_eq_ite, h.inodes]
        by_cases hi : i = ino
        · simp [hi, hino]
        · simp [hi]
      | some d =>
        have hd' : f d = some new := f.eq_some_iff.mp hd
        have hdi : d ≠ ino := fun hdi => hn (Option.some.inj (hd'.symm.trans (hdi ▸ hold)))
        have hd1 : d ≠ 1 := (h.toRooted.ne_root hd').1
        simp only [AList.lookup_erase_eq_ite, AList.lookup_insert_eq_ite, h.inodes,
          Option.some.injEq]
        by_cases hi : i = d
        · simp [hi, hdi, hd1]
        · by_cases hi' : i = ino
          · simp [hi', Ne.symm hdi, hino]
          · simp [hi, hi', Ne.symm hi]
  · intro p
    simp only [InodeTable.move, AList.lookup_insert_eq_ite, AList.lookup_erase_eq_ite, h.paths,
      PEquiv.symm_place, PEquiv.place_apply]
    have hp : f.symm p = some ino ↔ p = old := by
      rw [f.eq_some_iff, hold, Option.some.injEq, eq_comm]
    simp only [hp]
    by_cases hpn : p = new
    · simp [hpn, hnew]
    · by_cases hpo : p = old
      · simp [hpo, hne, hpo ▸ hpn]
      · simp [hpn, hpo]
  · simp [PEquiv.place_apply, Ne.symm hino, h.root]
  · simp [PEquiv.place_apply, Ne.symm hnew, h.rootPath]
  · intro i p hi
    rw [PEquiv.place_apply] at hi
    simp only [InodeTable.move]
    split at hi
    · rename_i hii
      rw [hii]
      exact h.below ino old hold
    · split at hi
      · cases hi
      · exact h.below i p hi

/-- The record of a turn says what the turn does to the names. -/
theorem rename_mv (h : t.Holds f) {ino : Nat} {old new : PathBuf} (hold : f ino = some old)
    (hnew : new ≠ []) :
    (Entry.mv ino new (t.displaced old new ino)).rename f = f.place ino new := by
  rw [h.displaced_eq hold hnew]
  simp only [Entry.rename]
  split
  · rename_i d hd
    rw [Option.filter_eq_some_iff] at hd
    obtain ⟨hd, hdi⟩ := hd
    split at hd
    · cases hd
    · refine PEquiv.remove_of_none ?_
      rw [PEquiv.place_apply, if_neg (by simpa using hdi), if_pos (f.eq_some_iff.mp hd)]
  · rfl

/-- The nodes of the table, besides the root. -/
theorem mem_nodes (h : t.Holds f) {i : Nat} {p : PathBuf} :
    (⟨i, p⟩ : Sigma fun _ : Nat => PathBuf) ∈ t.inodes.entries.filter (fun x => x.1 ≠ 1) ↔
      f i = some p := by
  rw [List.mem_filter, ← AList.mem_lookup_iff, Option.mem_def, h.inodes]
  by_cases hi : i = 1
  · simp [hi, h.root]
  · simp [hi]

end Holds

end InodeTable

/-! ## Images -/

theorem foldl_rename_of_eq {l : Entries} (hl : ∀ e ∈ l, ∀ f, e.2.rename f = f)
    (f : Nat ≃. PathBuf) : l.foldl (fun f e => e.2.rename f) f = f := by
  induction l generalizing f with
  | nil => rfl
  | cons e l ih =>
    rw [List.foldl_cons, hl e List.mem_cons_self]
    exact ih (fun e he => hl e (List.mem_cons_of_mem _ he)) f

/-- A compacted log has the names of the table. -/
theorem namesOf_image {t : InodeTable} {f : Nat ≃. PathBuf} (h : t.Holds f)
    (s fhMark reservedUpto : Nat) (opens : List (Nat × OpenRecord))
    (streams : List (PathBuf × Nat × String)) :
    namesOf (Log.image s fhMark reservedUpto t opens streams) = f := by
  have hnodes : namesOf (Log.image s fhMark reservedUpto t opens streams) =
      (((t.inodes.entries.filter fun x => x.1 ≠ 1).insertionSort fun x y => x.1 ≤ y.1).map
        fun x => (x.1, x.2)).foldl (fun g x => g.place x.1 x.2) ⊥ := by
    simp only [namesOf, Log.image, List.foldl_cons, List.foldl_append]
    rw [foldl_rename_of_eq, foldl_rename_of_eq, List.foldl_map, List.foldl_map]
    · rfl
    · intro e he f
      obtain ⟨x, -, rfl⟩ := List.mem_map.mp he
      rfl
    · intro e he f
      obtain ⟨x, -, rfl⟩ := List.mem_map.mp he
      rfl
  rw [hnodes]
  refine PEquiv.foldl_place_eq fun i p => ?_
  rw [List.mem_insertionSort, h.mem_nodes]

/-! ## Renames -/

theorem InodeTable.movedTo_append (source target rel : PathBuf) :
    movedTo source target (source ++ rel) = target ++ rel := by
  simp only [movedTo, PathBuf.stripPrefix_append]
  split
  · rfl
  · rename_i hrel
    simp only [ne_eq, not_not] at hrel
    simp [hrel]

/-- A turn's new path is no other turn's old one. -/
theorem InodeTable.movedTo_ne {source target old old' : PathBuf}
    (h : Daemon.CanRename source target) (hold : source <+: old) (hold' : source <+: old')
    (hne : old ≠ old') : movedTo source target old ≠ old' := by
  obtain ⟨rel, rfl⟩ := hold
  rw [movedTo_append]
  obtain ⟨-, -, rfl | ⟨hst, hts⟩⟩ := h
  · exact hne
  · intro heq
    have htarget : target <+: old' := ⟨rel, heq⟩
    obtain hp | hp := List.prefix_or_prefix_of_prefix hold' htarget
    · exact hst hp
    · exact hts hp

/-- The turns of a rename: each node is at its old path, below the source, and none is moved twice. -/
def Turns (f : Nat ≃. PathBuf) (source : PathBuf) (turns : List (PathBuf × Nat)) : Prop :=
  turns.Nodup ∧ ∀ x ∈ turns, f x.2 = some x.1 ∧ source <+: x.1

namespace InodeTable.Holds

variable {t : InodeTable} {f : Nat ≃. PathBuf}

theorem nodup_moves (t : InodeTable) (source : PathBuf) (subtree : Bool) :
    (t.moves source subtree).Nodup := by
  unfold moves
  rw [List.nodup_append]
  refine ⟨?_, ?_, ?_⟩
  · cases t.paths.lookup source <;> simp
  · split
    · refine List.Nodup.map ?_ ((t.paths.nodupKeys.nodup).filter _)
      rintro ⟨p, i⟩ ⟨q, j⟩ h
      cases h
      rfl
    · exact List.nodup_nil
  · -- the source itself is left out below it
    intro x hx y hy hxy
    subst hxy
    rw [List.mem_map] at hx
    obtain ⟨i, -, rfl⟩ := hx
    split at hy
    · rw [List.mem_map] at hy
      obtain ⟨z, hz, hzx⟩ := hy
      rw [List.mem_filter] at hz
      have hne : z.1 ≠ source := by simpa using (Bool.and_eq_true_iff.mp hz.2).2
      exact hne (congrArg Prod.fst hzx)
    · cases hy

theorem turns_moves (h : t.Holds f) {source : PathBuf} (hs : source ≠ []) (subtree : Bool) :
    Turns f source (t.moves source subtree) := by
  refine ⟨nodup_moves t source subtree, fun x hx => ?_⟩
  have hlookup : t.paths.lookup x.1 = some x.2 ∧ source <+: x.1 := by
    unfold moves at hx
    rw [List.mem_append] at hx
    obtain hx | hx := hx
    · rw [List.mem_map] at hx
      obtain ⟨i, hi, rfl⟩ := hx
      exact ⟨by simpa using hi, List.prefix_rfl⟩
    · split at hx
      · rw [List.mem_map] at hx
        obtain ⟨y, hy, rfl⟩ := hx
        rw [List.mem_filter] at hy
        have hpre : source <+: y.1 := by
          simpa using (Bool.and_eq_true_iff.mp hy.2).1
        exact ⟨AList.mem_lookup_iff.mpr hy.1, hpre⟩
      · cases hx
  have hne : x.1 ≠ [] := by
    intro hnil
    have := hlookup.2
    rw [hnil, List.prefix_nil] at this
    exact hs this
  rw [h.paths, if_neg hne] at hlookup
  exact ⟨f.eq_some_iff.mp hlookup.1, hlookup.2⟩

end InodeTable.Holds

/-- What is left of a rename after one turn. -/
theorem Turns.tail {f : Nat ≃. PathBuf} {source target : PathBuf} {x : PathBuf × Nat}
    {turns : List (PathBuf × Nat)} (hcan : Daemon.CanRename source target)
    (h : Turns f source (x :: turns)) :
    Turns (f.place x.2 (InodeTable.movedTo source target x.1)) source turns := by
  obtain ⟨hnodup, hall⟩ := h
  obtain ⟨hx, hturns⟩ := List.nodup_cons.mp hnodup
  obtain ⟨hxf, hxs⟩ := hall x List.mem_cons_self
  refine ⟨hturns, fun y hy => ?_⟩
  obtain ⟨hyf, hys⟩ := hall y (List.mem_cons_of_mem _ hy)
  have hyx : y.2 ≠ x.2 := by
    intro heq
    have hpath : y.1 = x.1 := by
      rw [heq, hxf] at hyf
      exact (Option.some.inj hyf).symm
    exact hx (Prod.ext hpath heq ▸ hy)
  have hpath : x.1 ≠ y.1 := by
    intro heq
    exact hyx (f.inj hyf (heq ▸ hxf))
  refine ⟨?_, hys⟩
  rw [PEquiv.place_apply, if_neg hyx, if_neg, hyf]
  rw [hyf]
  intro heq
  exact InodeTable.movedTo_ne hcan hxs hys hpath (Option.some.inj heq).symm

/-- What every turn of a rename keeps holds after all of them. -/
theorem foldl_moveOne {source target : PathBuf} (hcan : Daemon.CanRename source target)
    {P : Daemon → (Nat ≃. PathBuf) → Prop}
    (hstep : ∀ d f x, P d f → d.table.Holds f → f x.1.2 = some x.1.1 →
      InodeTable.movedTo source target x.1.1 ≠ [] →
      P (d.moveOne source target x) (f.place x.1.2 (InodeTable.movedTo source target x.1.1)))
    (moves : List ((PathBuf × Nat) × Io)) {d : Daemon} {f : Nat ≃. PathBuf} (hP : P d f)
    (ht : d.table.Holds f) (hturns : Turns f source (moves.map Prod.fst)) :
    ∃ f', P (moves.foldl (Daemon.moveOne source target) d) f' ∧
      (moves.foldl (Daemon.moveOne source target) d).table.Holds f' := by
  induction moves generalizing d f with
  | nil => exact ⟨f, hP, ht⟩
  | cons x moves ih =>
    obtain ⟨hxf, hxs⟩ := hturns.2 x.1 List.mem_cons_self
    have hnew : InodeTable.movedTo source target x.1.1 ≠ [] := by
      obtain ⟨rel, hrel⟩ := hxs
      rw [← hrel, InodeTable.movedTo_append]
      simp [hcan.2.1]
    exact ih (hstep d f x hP ht hxf hnew) (ht.move hxf hnew) (hturns.tail hcan)

/-- The turns of a rename are what the table has at the source and, for a folder, below it. -/
theorem Daemon.step_rename {cacheDir source target : PathBuf} {subtree : Bool}
    {moves : List ((PathBuf × Nat) × Io)} {d d' : Daemon}
    (h : d.step cacheDir (.rename source target subtree moves) = some d') :
    CanRename source target ∧ (moves.map Prod.fst).Perm (d.table.moves source subtree) ∧
      d' = moves.foldl (moveOne source target) d := by
  simp only [step] at h
  split at h
  · rename_i hguard
    obtain ⟨hcan, hhead, hrest⟩ := hguard
    refine ⟨hcan, ?_, (Option.some.inj h).symm⟩
    have hwhole : d.table.moves source false <+: d.table.moves source subtree := by
      simp [InodeTable.moves]
    rw [← List.prefix_iff_eq_append.mp hhead, ← List.prefix_iff_eq_append.mp hwhole]
    exact hrest.append_left _
  · cases h

/-- What every turn of a rename keeps is kept by the rename. -/
theorem Daemon.rename_induction {cacheDir source target : PathBuf} {subtree : Bool}
    {moves : List ((PathBuf × Nat) × Io)} {d d' : Daemon} {f : Nat ≃. PathBuf}
    (h : d.step cacheDir (.rename source target subtree moves) = some d')
    {P : Daemon → (Nat ≃. PathBuf) → Prop}
    (hstep : ∀ d f x, P d f → d.table.Holds f → f x.1.2 = some x.1.1 →
      InodeTable.movedTo source target x.1.1 ≠ [] →
      P (d.moveOne source target x) (f.place x.1.2 (InodeTable.movedTo source target x.1.1)))
    (hP : P d f) (ht : d.table.Holds f) : ∃ f', P d' f' ∧ d'.table.Holds f' := by
  obtain ⟨hcan, hperm, rfl⟩ := step_rename h
  have hall := ht.turns_moves hcan.1 subtree
  refine foldl_moveOne hcan hstep moves hP ht ⟨hperm.nodup_iff.mpr hall.1, ?_⟩
  exact fun x hx => hall.2 x (hperm.mem_iff.mp hx)

end Handoff

end Ncrs
