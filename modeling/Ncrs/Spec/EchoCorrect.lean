import Ncrs.Native.Echo
import Ncrs.Spec.DeleteGuardCorrect

/-!
# When echoing server changes leaves the server alone

A call made for a change record is taken for an echo while the ghost entry of its path is there,
fresh and of the right kind. `EchoMount.Kept` says that every record that is fresh and not performed
yet has its ghost entry (or pair), and that no two of them share a path. It holds along every run in
which records are performed once and in time, and nothing else works on a path with such a record
(`EchoMount.Meets`).

## Key results

- `DirDiff.ghosts_changes`: a refresh leaves a ghost entry for every record it queues
- `EchoMount.Kept.step`: an event that meets its condition keeps the invariant
- `echoes_leave_the_server_alone`: in such a run a call made for a record queues nothing, sends
  nothing and leaves the delete and upload guards of the cache as they are
- `late_echo_deletes_new_file`: a second process performs a record after the file came back
-/

namespace Ncrs

/-! ## Ghost entries -/

/-- The paths a record's ghost entries are at. -/
def FileChange.paths (c : FileChange) : List PathBuf :=
  match c.kind with
  | .renamed src => [src, c.path]
  | .modified => []
  | _ => [c.path]

/-- The ghost entries of a record are in place. -/
def HasGhost (g : PathBuf → Option GhostEntry) (c : FileChange) (now : Nat) : Prop :=
  match c.kind with
  | .added | .dirAdded => ∃ pair, g c.path = some ⟨.hiddenAdd, now, pair⟩
  | .removed | .dirRemoved => ∃ pair, g c.path = some ⟨.visibleDelete, now, pair⟩
  | .renamed src => ∃ pair, g src = some ⟨.visibleDelete, now, some pair⟩ ∧
      g c.path = some ⟨.hiddenAdd, now, some pair⟩
  | .modified => True

/-- Only the record's own paths matter. -/
theorem HasGhost.congr {g g' : PathBuf → Option GhostEntry} {c : FileChange} {now : Nat}
    (h : HasGhost g c now) (heq : ∀ p ∈ c.paths, g' p = g p) : HasGhost g' c now := by
  obtain ⟨kind, path⟩ := c
  cases kind with
  | modified => trivial
  | renamed src =>
    obtain ⟨pair, hsrc, hdst⟩ := h
    exact ⟨pair, (heq src List.mem_cons_self).trans hsrc,
      (heq path (List.mem_cons_of_mem _ List.mem_cons_self)).trans hdst⟩
  | added => exact h.imp fun pair hp => (heq path List.mem_cons_self).trans hp
  | dirAdded => exact h.imp fun pair hp => (heq path List.mem_cons_self).trans hp
  | removed => exact h.imp fun pair hp => (heq path List.mem_cons_self).trans hp
  | dirRemoved => exact h.imp fun pair hp => (heq path List.mem_cons_self).trans hp

/-- Each path of a record has an entry made when the record was queued. -/
theorem HasGhost.entry {g : PathBuf → Option GhostEntry} {c : FileChange} {now : Nat}
    (h : HasGhost g c now) {p : PathBuf} (hp : p ∈ c.paths) :
    ∃ e, g p = some e ∧ e.createdAt = now := by
  -- one ghost for each path of the change, two for a rename
  obtain ⟨kind, path⟩ := c
  cases kind with
  | modified => cases hp
  | renamed src =>
    obtain ⟨pair, hsrc, hdst⟩ := h
    rcases List.mem_cons.mp hp with rfl | hp
    · exact ⟨_, hsrc, rfl⟩
    · rw [List.mem_singleton.mp hp]
      exact ⟨_, hdst, rfl⟩
  | added =>
    obtain ⟨pair, hg⟩ := h
    rw [List.mem_singleton.mp hp]
    exact ⟨_, hg, rfl⟩
  | dirAdded =>
    obtain ⟨pair, hg⟩ := h
    rw [List.mem_singleton.mp hp]
    exact ⟨_, hg, rfl⟩
  | removed =>
    obtain ⟨pair, hg⟩ := h
    rw [List.mem_singleton.mp hp]
    exact ⟨_, hg, rfl⟩
  | dirRemoved =>
    obtain ⟨pair, hg⟩ := h
    rw [List.mem_singleton.mp hp]
    exact ⟨_, hg, rfl⟩

section

variable {gs : List (PathBuf × GhostEntry)} {f : PathBuf → Option GhostEntry} {p : PathBuf}

/-- A path no entry is inserted at. -/
theorem foldl_insert_of_notMem (h : p ∉ gs.map (·.1)) :
    gs.foldl (fun f x q => if q = x.1 then some x.2 else f q) f p = f p := by
  induction gs generalizing f with
  | nil => rfl
  | cons x gs ih =>
    rw [List.map_cons, List.mem_cons, not_or] at h
    rw [List.foldl_cons, ih h.2, if_neg h.1]

/-- With one entry per path, each is there in the end. -/
theorem foldl_insert_of_mem (hnodup : (gs.map (·.1)).Nodup) {e : GhostEntry}
    (h : (p, e) ∈ gs) :
    gs.foldl (fun f x q => if q = x.1 then some x.2 else f q) f p = some e := by
  induction gs generalizing f with
  | nil => cases h
  | cons x gs ih =>
    obtain ⟨hx, hgs⟩ := List.nodup_cons.mp hnodup
    rw [List.foldl_cons]
    rcases List.mem_cons.mp h with rfl | h
    · rw [foldl_insert_of_notMem hx, if_pos rfl]
    · exact ih hgs h

end

/-! ## What a refresh queues and inserts -/

namespace OldDirSnapshot

variable {old : OldDirSnapshot} {fresh : List RemoteEntry} {fileid : PathBuf → Option Nat}

/-- The removed names are different. -/
theorem rawRemoved_nodup : (old.rawRemoved fresh).Nodup := (List.nodup_dedup _).filter _

/-- So are the added ones. -/
theorem rawAdded_nodup : (old.rawAdded fresh).Nodup := (List.nodup_dedup _).filter _

/-- No name is both. -/
theorem rawRemoved_disjoint : ∀ p ∈ old.rawRemoved fresh, p ∉ old.rawAdded fresh := by
  intro p hr ha
  have hr := of_decide_eq_true (List.mem_filter.mp hr).2
  exact hr (List.mem_dedup.mp (List.mem_of_mem_filter ha))

/-- What a rename of the difference is. -/
theorem mem_renames {r : PathBuf × PathBuf × Bool}
    (h : r ∈ (old.computeDirDiff fresh fileid).renames) :
    r.1 ∈ old.rawRemoved fresh ∧ old.renamedTo fresh fileid r.1 = some r.2.1 ∧
      r.2.1 ∈ old.rawAdded fresh := by
  obtain ⟨p, hp, heq⟩ := List.mem_filterMap.mp h
  obtain ⟨q, hq, rfl⟩ := Option.map_eq_some_iff.mp heq
  refine ⟨hp, hq, ?_⟩
  unfold renamedTo at hq
  split at hq
  · cases hq
  · exact of_decide_eq_true (Option.filter_eq_some_iff.mp hq).2

/-- No name is moved twice. -/
theorem sources_nodup : ((old.computeDirDiff fresh fileid).renames.map (·.1)).Nodup := by
  have hmap : ∀ l : List PathBuf, (l.filterMap fun p =>
      (old.renamedTo fresh fileid p).map fun q => (p, q, (old.isDir p).getD false)).map (·.1) =
        l.filter fun p => (old.renamedTo fresh fileid p).isSome := by
    intro l
    induction l with
    | nil => rfl
    | cons p l ih =>
      cases hp : old.renamedTo fresh fileid p with
      | none =>
        rw [List.filterMap_cons_none (by rw [hp]; rfl), List.filter_cons_of_neg (by simp [hp]), ih]
      | some q =>
        rw [List.filterMap_cons_some (b := (p, q, (old.isDir p).getD false)) (by rw [hp]; rfl),
          List.filter_cons_of_pos (by simp [hp]), List.map_cons, ih]
  show (List.map _ ((old.rawRemoved fresh).filterMap _)).Nodup
  rw [hmap]
  exact rawRemoved_nodup.filter _

/-- The paths of a difference: no path is in two places, if no two files take one new name. -/
theorem diff_paths_nodup
    (hone : ((old.computeDirDiff fresh fileid).renames.map (·.2.1)).Nodup) :
    let d := old.computeDirDiff fresh fileid
    (d.removed ++ (d.renames.map (·.1) ++ (d.renames.map (·.2.1) ++ d.added))).Nodup := by
  intro d
  have hremoved : ∀ p ∈ d.removed, p ∈ old.rawRemoved fresh ∧ p ∉ d.renames.map (·.1) := by
    intro p hp
    refine ⟨List.mem_of_mem_filter hp, fun hmem => ?_⟩
    obtain ⟨r, hr, rfl⟩ := List.mem_map.mp hmem
    have hnone := (List.mem_filter.mp hp).2
    rw [(mem_renames hr).2.1] at hnone
    cases hnone
  have hadded : ∀ p ∈ d.added, p ∈ old.rawAdded fresh ∧ p ∉ d.renames.map (·.2.1) := by
    intro p hp
    exact ⟨List.mem_of_mem_filter hp, of_decide_eq_true (List.mem_filter.mp hp).2⟩
  have hsources : ∀ p ∈ d.renames.map (·.1), p ∈ old.rawRemoved fresh := by
    intro p hp
    obtain ⟨r, hr, rfl⟩ := List.mem_map.mp hp
    exact (mem_renames hr).1
  have htargets : ∀ p ∈ d.renames.map (·.2.1), p ∈ old.rawAdded fresh := by
    intro p hp
    obtain ⟨r, hr, rfl⟩ := List.mem_map.mp hp
    exact (mem_renames hr).2.2
  -- Old names are not in the fresh listing and new names are.
  have hnew : ∀ p ∈ d.renames.map (·.2.1) ++ d.added, p ∈ old.rawAdded fresh := by
    intro p hp
    rcases List.mem_append.mp hp with hp | hp
    · exact htargets p hp
    · exact (hadded p hp).1
  -- removed, sources, targets and added, one after the other
  rw [List.nodup_append, List.nodup_append, List.nodup_append]
  refine ⟨rawRemoved_nodup.filter _, ⟨sources_nodup, ⟨hone, rawAdded_nodup.filter _, ?_⟩, ?_⟩, ?_⟩
  · rintro p hp q hq rfl
    exact (hadded p hq).2 hp
  · rintro p hp q hq rfl
    exact rawRemoved_disjoint p (hsources p hp) (hnew p hq)
  · rintro p hp q hq rfl
    rcases List.mem_append.mp hq with hq | hq
    · exact (hremoved p hp).2 hq
    · exact rawRemoved_disjoint p (hremoved p hp).1 (hnew p hq)

end OldDirSnapshot

namespace DirDiff

variable {d : DirDiff} {listed : Option (List RemoteEntry)} {now pair : Nat}

/-- Every path of the difference. -/
def paths (d : DirDiff) : List PathBuf :=
  d.removed ++ (d.renames.map (·.1) ++ (d.renames.map (·.2.1) ++ d.added))

/-- The old names are still listed. -/
def Known (d : DirDiff) (listed : Option (List RemoteEntry)) : Prop :=
  ∀ p ∈ d.removed ++ d.renames.map (·.1), ∃ e ∈ listed.getD [], e.path = p

/-- When the old names are still listed every one gets its ghost entry. -/
theorem ghosts_eq (h : d.Known listed) : d.ghosts listed now pair =
    (d.removed.map fun p => (p, { kind := .visibleDelete, createdAt := now })) ++
    (d.renames.zipIdx pair).flatMap (fun r =>
      [(r.1.1, { kind := .visibleDelete, createdAt := now, renamePairId := some r.2 }),
        (r.1.2.1, { kind := .hiddenAdd, createdAt := now, renamePairId := some r.2 })]) ++
    d.added.map fun p => (p, { kind := .hiddenAdd, createdAt := now }) := by
  have hknown : ∀ p ∈ d.removed ++ d.renames.map (·.1),
      ((listed.getD []).any fun e => decide (e.path = p)) = true := by
    intro p hp
    obtain ⟨e, he, hpath⟩ := h p hp
    exact List.any_eq_true.mpr ⟨e, he, decide_eq_true hpath⟩
  have hremoved : (d.removed.filter fun p =>
      (listed.getD []).any fun e => decide (e.path = p)) = d.removed :=
    List.filter_eq_self.mpr fun p hp => hknown p (List.mem_append_left _ hp)
  have hrenames : ((d.renames.zipIdx pair).filter fun r =>
      (listed.getD []).any fun e => decide (e.path = r.1.1)) = d.renames.zipIdx pair := by
    refine List.filter_eq_self.mpr fun r hr => hknown _ (List.mem_append_right _ ?_)
    exact List.mem_map.mpr ⟨r.1, List.fst_mem_of_mem_zipIdx hr, rfl⟩
  unfold ghosts
  dsimp only
  rw [hremoved, hrenames]

/-- The paths of the pairs, sorted by side. -/
theorem flatMap_pair_perm {α : Type} (l : List α) (f g : α → PathBuf) :
    (l.flatMap fun a => [f a, g a]).Perm (l.map f ++ l.map g) := by
  have hperm := List.flatMap_append_perm l (fun a => [f a]) fun a => [g a]
  rw [← List.map_eq_flatMap, ← List.map_eq_flatMap] at hperm
  exact hperm.symm

/-- The paths the entries are inserted at. -/
theorem ghosts_keys (h : d.Known listed) :
    ((d.ghosts listed now pair).map (·.1)).Perm d.paths := by
  have hkeys : (d.ghosts listed now pair).map (·.1) =
      d.removed ++ (d.renames.flatMap fun r => [r.1, r.2.1]) ++ d.added := by
    have hfst : d.renames.flatMap (fun r => [r.1, r.2.1]) =
        ((d.renames.zipIdx pair).map Prod.fst).flatMap fun r => [r.1, r.2.1] := by
      rw [List.zipIdx_map_fst]
    rw [ghosts_eq h, hfst, List.flatMap_map]
    simp only [List.map_append, List.map_map, List.map_flatMap, List.map_cons, List.map_nil]
    congr 1
    · congr 1
      exact List.map_id _
    · exact List.map_id _
  rw [hkeys, paths, List.append_assoc, ← List.append_assoc (d.renames.map _)]
  exact ((flatMap_pair_perm d.renames _ _).append_right _).append_left _

variable {old : OldDirSnapshot} {fresh : List RemoteEntry}

/-- The paths of the records. -/
theorem changes_paths : ((d.changes old fresh).flatMap FileChange.paths).Perm d.paths := by
  have hadded : ∀ l : List PathBuf, (l.map fun p =>
      (⟨if (fresh.reverse.find? fun f => decide (f.path = p)).any (·.isDir) then .dirAdded
        else .added, p⟩ : FileChange)).flatMap FileChange.paths = l := by
    intro l
    induction l with
    | nil => rfl
    | cons p l ih =>
      rw [List.map_cons, List.flatMap_cons, ih]
      split <;> rfl
  have hremoved : ∀ l : List PathBuf, (l.map fun p =>
      (⟨if (old.isDir p).getD false then .dirRemoved else .removed, p⟩ : FileChange)).flatMap
        FileChange.paths = l := by
    intro l
    induction l with
    | nil => rfl
    | cons p l ih =>
      rw [List.map_cons, List.flatMap_cons, ih]
      split <;> rfl
  have hmodified : ∀ l : List PathBuf, (l.map fun p =>
      (⟨.modified, p⟩ : FileChange)).flatMap FileChange.paths = [] := by
    intro l
    rw [List.flatMap_map]
    exact List.flatMap_eq_nil_iff.mpr fun _ _ => rfl
  -- the sum of the four kinds
  unfold changes paths
  rw [List.flatMap_append, List.flatMap_append, List.flatMap_append]
  dsimp only
  rw [hadded, hremoved, hmodified, List.append_nil, List.flatMap_map]
  have hpairs := flatMap_pair_perm d.renames (·.1) (·.2.1)
  calc (d.added ++ d.removed ++ d.renames.flatMap fun r => [r.1, r.2.1]).Perm
        (d.added ++ d.removed ++ (d.renames.map (·.1) ++ d.renames.map (·.2.1))) :=
        hpairs.append_left _
    _ = d.added ++ (d.removed ++ (d.renames.map (·.1) ++ d.renames.map (·.2.1))) :=
        List.append_assoc ..
    List.Perm _ (d.removed ++ (d.renames.map (·.1) ++ d.renames.map (·.2.1)) ++ d.added) :=
        List.perm_append_comm
    _ = _ := by rw [List.append_assoc, List.append_assoc]

/-- A refresh leaves the ghost entries of every record it queues. -/
theorem ghosts_changes (h : d.Known listed) (hnodup : d.paths.Nodup)
    (f : PathBuf → Option GhostEntry) :
    ∀ c ∈ d.changes old fresh, HasGhost ((d.ghosts listed now pair).foldl
      (fun f x q => if q = x.1 then some x.2 else f q) f) c now := by
  have hkeys : ((d.ghosts listed now pair).map (·.1)).Nodup :=
    (ghosts_keys h).nodup_iff.mpr hnodup
  have hput : ∀ p e, (p, e) ∈ d.ghosts listed now pair →
      (d.ghosts listed now pair).foldl (fun f x q => if q = x.1 then some x.2 else f q) f p =
        some e := fun p e hmem => foldl_insert_of_mem hkeys hmem
  intro c hc
  unfold changes at hc
  -- an added path, a removed one, a modified one, or a rename
  rcases List.mem_append.mp hc with hc | hc
  · rcases List.mem_append.mp hc with hc | hc
    · rcases List.mem_append.mp hc with hc | hc
      · obtain ⟨p, hp, rfl⟩ := List.mem_map.mp hc
        have hg := hput p ⟨.hiddenAdd, now, none⟩ (by
          rw [ghosts_eq h]
          exact List.mem_append_right _ (List.mem_map.mpr ⟨p, hp, rfl⟩))
        dsimp only
        split <;> exact ⟨none, hg⟩
      · obtain ⟨p, hp, rfl⟩ := List.mem_map.mp hc
        have hg := hput p ⟨.visibleDelete, now, none⟩ (by
          rw [ghosts_eq h]
          exact List.mem_append_left _ (List.mem_append_left _ (List.mem_map.mpr ⟨p, hp, rfl⟩)))
        split <;> exact ⟨none, hg⟩
    · obtain ⟨p, -, rfl⟩ := List.mem_map.mp hc
      trivial
  · obtain ⟨r, hr, rfl⟩ := List.mem_map.mp hc
    -- The pair's number is the rename's place in the list.
    obtain ⟨i, hi⟩ : ∃ i, (r, i) ∈ d.renames.zipIdx pair := by
      have hmem : r ∈ (d.renames.zipIdx pair).map Prod.fst := by
        rw [List.zipIdx_map_fst]
        exact hr
      obtain ⟨x, hx, rfl⟩ := List.mem_map.mp hmem
      exact ⟨x.2, hx⟩
    have hpair : ∀ x ∈ [(r.1, (⟨.visibleDelete, now, some i⟩ : GhostEntry)),
        (r.2.1, ⟨.hiddenAdd, now, some i⟩)], x ∈ d.ghosts listed now pair := by
      intro x hx
      rw [ghosts_eq h]
      refine List.mem_append_left _ (List.mem_append_right _ ?_)
      exact List.mem_flatMap.mpr ⟨(r, i), hi, hx⟩
    exact ⟨i, hput _ _ (hpair _ List.mem_cons_self),
      hput _ _ (hpair _ (List.mem_cons_of_mem _ List.mem_cons_self))⟩

end DirDiff

/-! ## The handlers and the ghost entries -/

namespace DirMount

variable {m : DirMount}

/-- Everything but the ghost entries of the given paths is as before, as far as the server and
    the file manager's records are concerned. -/
structure Echoes (ps : List PathBuf) (m m' : DirMount) : Prop where
  journal : m'.journal = m.journal
  now : m'.now = m.now
  ghosts : ∀ p, p ∉ ps → m'.ghosts p = m.ghosts p
  deleting : m'.cache.deleting = m.cache.deleting

/-- Nothing happened. -/
theorem Echoes.refl (ps : List PathBuf) (m : DirMount) : Echoes ps m m :=
  ⟨rfl, rfl, fun _ _ => rfl, rfl⟩

/-- One after the other. -/
theorem Echoes.trans {ps : List PathBuf} {m m' m'' : DirMount} (h : Echoes ps m m')
    (h' : Echoes ps m' m'') : Echoes ps m m'' :=
  ⟨h'.journal.trans h.journal, h'.now.trans h.now, fun p hp => (h'.ghosts p hp).trans (h.ghosts p hp),
    h'.deleting.trans h.deleting⟩

/-- A ghost of one of the paths may go. -/
theorem Echoes.dropGhost {ps : List PathBuf} (m : DirMount) {p : PathBuf} (hp : p ∈ ps) :
    Echoes ps m (m.dropGhost p) := by
  refine ⟨rfl, rfl, fun q hq => ?_, rfl⟩
  show (if q = p then none else m.ghosts q) = _
  exact if_neg fun h : q = p => hq (h ▸ hp)

/-- The cache may change beside. -/
theorem Echoes.cache (ps : List PathBuf) (m : DirMount) {c : FsCache}
    (hc : c.deleting = m.cache.deleting) : Echoes ps m { m with cache := c } :=
  ⟨rfl, rfl, fun _ _ => rfl, hc⟩

/-- Handing out an inode deletes nothing. -/
theorem allocateInode_deleting (c : FsCache) (path : PathBuf) :
    (c.allocateInode path).2.deleting = c.deleting := by
  unfold FsCache.allocateInode
  split <;> rfl

/-- A lookup drops a ghost entry only when it is not fresh. -/
theorem lookup_ghosts (m : DirMount) (path : PathBuf) (excluded : List PathBuf)
    (fetched : Option (List RemoteEntry)) {p : PathBuf} {g : GhostEntry}
    (hg : m.ghosts p = some g) (hfresh : g.fresh m.now = true) :
    (m.lookup path excluded fetched).2.2.ghosts p = some g := by
  unfold lookup
  split
  · exact hg
  · split
    · exact hg
    · rename_i hnone
      have hne : p ≠ path := by
        rintro rfl
        rw [hg, Option.filter_some, if_pos hfresh] at hnone
        cases hnone
      have hdrop : (m.dropGhost path).ghosts p = some g := by
        show (if p = path then none else m.ghosts p) = _
        rw [if_neg hne, hg]
      dsimp only
      split
      · exact hdrop
      · exact hdrop

/-- A lookup takes no time. -/
theorem lookup_now (m : DirMount) (path : PathBuf) (excluded : List PathBuf)
    (fetched : Option (List RemoteEntry)) : (m.lookup path excluded fetched).2.2.now = m.now := by
  unfold lookup
  split
  · rfl
  · split
    · rfl
    · dsimp only
      split <;> rfl

/-- A lookup of a path with a fresh ghost entry asks nobody and finds what the entry says. -/
theorem lookup_fresh {path : PathBuf} {g : GhostEntry} (hg : m.ghosts path = some g)
    (hfresh : g.fresh m.now = true) (excluded : List PathBuf)
    (fetched : Option (List RemoteEntry)) :
    m.lookup path excluded fetched =
      (decide (path ∉ excluded) && decide (g.kind = .visibleDelete), [], m) := by
  unfold lookup
  split
  · rename_i hex
    simp [hex]
  · rename_i hex
    rw [hg, Option.filter_some, if_pos hfresh]
    simp [hex]

/-- A fresh ghost is recognized by its kind. -/
theorem freshGhost_of {path : PathBuf} {g : GhostEntry} (hg : m.ghosts path = some g)
    (hfresh : g.fresh m.now = true) (kind : GhostKind) :
    m.freshGhost path kind = decide (g.kind = kind) := by
  unfold freshGhost
  rw [hg]
  simp [hfresh]

/-! ### Calls made for a record -/

variable {parent newparent : Nat} {name newname : String} {dir newdir : PathBuf}

/-- A file that is created and closed again commits nothing. -/
theorem createClose_echoes (hdir : m.cache.inodes parent = some dir) (path : PathBuf) :
    Echoes [dir ++ [name]] m (m.createClose parent name path) := by
  have hcreate : Echoes [dir ++ [name]] m (m.create parent name).2 := by
    have hdrop := Echoes.dropGhost m (List.mem_singleton_self (dir ++ [name]))
    unfold create
    rw [hdir]
    dsimp only
    split
    · exact Echoes.refl _ _
    · split
      · exact hdrop.trans (Echoes.cache _ _ (allocateInode_deleting _ _))
      · split
        · exact hdrop
        · refine hdrop.trans (Echoes.cache _ _ ?_)
          exact (GuardMount.modifyFiles_deleting ..).trans (allocateInode_deleting _ _)
  unfold createClose
  dsimp only
  split
  · exact hcreate.trans (Echoes.cache _ _ rfl)
  · exact hcreate

/-- A directory that the client has made already is made silently. -/
theorem mkdir_echoes (hdir : m.cache.inodes parent = some dir)
    (hghost : m.freshGhost (dir ++ [name]) .hiddenAdd = true) :
    Echoes [dir ++ [name]] m (m.mkdir parent name) := by
  unfold mkdir
  split
  · exact Echoes.refl _ _
  · split
    · exact Echoes.refl _ _
    · rw [hdir]
      dsimp only
      rw [if_pos hghost]
      exact (Echoes.dropGhost m (List.mem_singleton_self _)).trans
        (Echoes.cache _ _ (allocateInode_deleting _ _))

/-- A file that is gone already is unlinked silently. -/
theorem unlink_echoes (hdir : m.cache.inodes parent = some dir)
    (hghost : m.freshGhost (dir ++ [name]) .visibleDelete = true) :
    Echoes [dir ++ [name]] m (m.unlink parent name) := by
  unfold unlink
  split
  · exact Echoes.refl _ _
  · rw [hdir]
    dsimp only
    split
    · exact Echoes.cache _ _ (GuardMount.modifyFiles_deleting ..)
    · exact Echoes.dropGhost m (List.mem_singleton_self _)

/-- A directory that is gone already is removed silently. -/
theorem rmdir_echoes (hdir : m.cache.inodes parent = some dir)
    (hghost : m.freshGhost (dir ++ [name]) .visibleDelete = true) :
    Echoes [dir ++ [name]] m (m.rmdir parent name).2 := by
  unfold rmdir
  split
  · exact Echoes.refl _ _
  · rw [hdir]
    dsimp only
    rw [if_pos hghost]
    exact Echoes.dropGhost m (List.mem_singleton_self _)

/-- A rename that has happened already is silent. -/
theorem rename_echoes (hdir : m.cache.inodes parent = some dir)
    (hnewdir : m.cache.inodes newparent = some newdir)
    (hpair : m.ghostPair (dir ++ [name]) (newdir ++ [newname]) = true) :
    Echoes [dir ++ [name], newdir ++ [newname]] m
      (m.rename parent name newparent newname .none).2 := by
  unfold rename
  split
  · exact Echoes.refl _ _
  · by_cases hlacks : m.cache.lacks parent (if parent ≠ newparent then 'V' else 'N') = true
    · rw [if_pos hlacks]
      exact Echoes.refl _ _
    · rw [if_neg hlacks, hdir, hnewdir]
      dsimp only
      rw [if_pos hpair]
      exact (Echoes.dropGhost m List.mem_cons_self).trans
        (Echoes.dropGhost _ (List.mem_cons_of_mem _ List.mem_cons_self))

end DirMount

/-! ### Calls of the user -/

namespace EchoMount

/-- The paths whose ghost entries a user's call may take out. -/
def touched (m : DirMount) : UserCall → List PathBuf
  | .create parent name | .mkdir parent name | .unlink parent name | .rmdir parent name =>
    (m.cache.inodes parent).toList.map (· ++ [name])
  | .rename parent name newparent newname =>
    (m.cache.inodes parent).toList.map (· ++ [name]) ++
      (m.cache.inodes newparent).toList.map (· ++ [newname])

/-- The other ghosts stay. -/
theorem dropGhost_ghosts (m : DirMount) {p q : PathBuf} (h : p ≠ q) :
    (m.dropGhost q).ghosts p = m.ghosts p := if_neg h

/-- Renaming the entries keeps the ghosts. -/
theorem renameTo_ghosts (m : DirMount) (src dst : PathBuf) :
    (m.renameTo src dst).ghosts = m.ghosts ∧ (m.renameTo src dst).now = m.now := by
  unfold DirMount.renameTo
  dsimp only
  split
  · exact ⟨rfl, rfl⟩
  · split
    · exact ⟨rfl, rfl⟩
    · exact ⟨rfl, rfl⟩

/-- A call on one path takes out its ghost entry at most. -/
theorem dropGhost_outside {m : DirMount} {c : UserCall} {q : PathBuf} (hc : touched m c = [q]) :
    ∀ p, p ∉ touched m c → (m.dropGhost q).ghosts p = m.ghosts p := by
  intro p hp
  rw [hc] at hp
  exact dropGhost_ghosts m fun h => hp (h ▸ List.mem_singleton_self _)

/-- A user's call takes out no ghost entry but those of its own paths. -/
theorem userCall_ghosts (m : DirMount) (c : UserCall) :
    (userCall m c).now = m.now ∧
      ∀ p, p ∉ touched m c → (userCall m c).ghosts p = m.ghosts p := by
  have hstay : m.now = m.now ∧ ∀ p, p ∉ touched m c → m.ghosts p = m.ghosts p :=
    ⟨rfl, fun _ _ => rfl⟩
  -- every call drops at most the ghosts of its own paths
  cases c with
  | create parent name =>
    simp only [userCall, DirMount.create]
    cases hdir : m.cache.inodes parent with
    | none => exact hstay
    | some dir =>
      have hdrop := dropGhost_outside (m := m) (c := .create parent name) (q := dir ++ [name])
        -- the ghost under the new name may go
        (by simp [touched, hdir])
      dsimp only
      split
      · exact hstay
      · split
        · exact ⟨rfl, hdrop⟩
        · split
          · exact ⟨rfl, hdrop⟩
          · exact ⟨rfl, hdrop⟩
  | mkdir parent name =>
    simp only [userCall, DirMount.mkdir]
    split
    · exact hstay
    · split
      · exact hstay
      · cases hdir : m.cache.inodes parent with
        | none => exact hstay
        | some dir =>
          have hdrop := dropGhost_outside (m := m) (c := .mkdir parent name) (q := dir ++ [name])
            (by simp [touched, hdir])
          dsimp only
          split
          · exact ⟨rfl, hdrop⟩
          · exact ⟨rfl, hdrop⟩
  | unlink parent name =>
    simp only [userCall, DirMount.unlink]
    split
    · exact hstay
    · cases hdir : m.cache.inodes parent with
      | none => exact hstay
      | some dir =>
        have hdrop := dropGhost_outside (m := m) (c := .unlink parent name) (q := dir ++ [name])
          (by simp [touched, hdir])
        dsimp only
        split
        · exact hstay
        · split
          · exact ⟨rfl, hdrop⟩
          · exact ⟨rfl, hdrop⟩
  | rmdir parent name =>
    simp only [userCall, DirMount.rmdir]
    split
    · exact hstay
    · cases hdir : m.cache.inodes parent with
      | none => exact hstay
      | some dir =>
        have hdrop := dropGhost_outside (m := m) (c := .rmdir parent name) (q := dir ++ [name])
          (by simp [touched, hdir])
        dsimp only
        split
        · exact ⟨rfl, hdrop⟩
        · exact ⟨rfl, hdrop⟩
  | rename parent name newparent newname =>
    simp only [userCall, DirMount.rename]
    split
    · exact hstay
    · by_cases hlacks : m.cache.lacks parent (if parent ≠ newparent then 'V' else 'N') = true
      · rw [if_pos hlacks]
        exact hstay
      · rw [if_neg hlacks]
        split
        · rename_i dir newdir hdir hnew
          -- the two ghosts of a rename go together
          split
          · refine ⟨rfl, fun p hp => ?_⟩
            have hp : p ≠ dir ++ [name] ∧ p ≠ newdir ++ [newname] := by
              simpa [touched, hdir, hnew] using hp
            rw [dropGhost_ghosts _ hp.2, dropGhost_ghosts _ hp.1]
          · obtain ⟨hg, hn⟩ := renameTo_ghosts m (dir ++ [name]) (newdir ++ [newname])
            exact ⟨hn, fun p _ => congrFun hg p⟩
        · exact hstay

/-! ## The system -/

/-- Record `i` is `r`, no process has performed it yet, and its ghost entries still count. -/
def Outstanding (s : EchoMount) (i : Nat) (r : ChangeRecord) : Prop :=
  s.log[i]? = some r ∧ i ∉ s.performed ∧ s.mount.now - r.queuedAt < GHOST_TTL

/-- A path of an outstanding record. -/
def Reserved (s : EchoMount) (p : PathBuf) : Prop :=
  ∃ i r, s.Outstanding i r ∧ p ∈ r.change.paths

/-- Every outstanding record has its ghost entries, and no two share a path. -/
structure Kept (s : EchoMount) : Prop where
  ghost : ∀ i r, s.Outstanding i r → HasGhost s.mount.ghosts r.change r.queuedAt
  apart : ∀ i j r r', s.Outstanding i r → s.Outstanding j r' → i ≠ j →
    ∀ p ∈ r.change.paths, p ∉ r'.change.paths

/-- The events after which every echo is taken for one. A refresh finds the old names still listed
    and no two files with one id, and like a user's call it stays away from the paths of
    outstanding records; a record is performed once and in time, and for a new file the kernel
    asks first. -/
def Meets (s : EchoMount) : EchoEvent → Prop
  | .refresh dir old _ _ fresh fileid =>
    let d := old.computeDirDiff fresh fileid
    d.Known (s.mount.cache.listed dir) ∧ (d.renames.map (·.2.1)).Nodup ∧
      ∀ p ∈ d.paths, ¬ s.Reserved p
  | .user c => ∀ p ∈ touched s.mount c, ¬ s.Reserved p
  | .echo i _ _ cached _ =>
    ∃ r, s.Outstanding i r ∧ (r.change.kind = .added → cached = false)
  | _ => True

/-- Every event of a run meets its condition. -/
def AllMeet (s : EchoMount) : List EchoEvent → Prop
  | [] => True
  | ev :: evs =>
    s.Meets ev ∧
      match s.step ev with
      | some s' => s'.AllMeet evs
      | none => True

variable {s s' : EchoMount}

/-- Ghost entries of outstanding records stay, and none becomes outstanding. -/
theorem Kept.of_ghosts (h : s.Kept)
    (hout : ∀ i r, s'.Outstanding i r → s.Outstanding i r)
    (hg : ∀ i r, s'.Outstanding i r → ∀ p ∈ r.change.paths, s'.mount.ghosts p = s.mount.ghosts p) :
    s'.Kept where
  ghost i r hr := (h.ghost i r (hout i r hr)).congr (hg i r hr)
  apart i j r r' hr hr' := h.apart i j r r' (hout i r hr) (hout j r' hr')

/-- The ghost entries of an outstanding record are fresh. -/
theorem Kept.fresh (h : s.Kept) {i : Nat} {r : ChangeRecord} (hr : s.Outstanding i r)
    {p : PathBuf} (hp : p ∈ r.change.paths) :
    ∃ e, s.mount.ghosts p = some e ∧ e.fresh s.mount.now = true := by
  obtain ⟨e, he, hat⟩ := (h.ghost i r hr).entry hp
  refine ⟨e, he, decide_eq_true ?_⟩
  rw [hat]
  exact hr.2.2

/-- Time passes. -/
theorem Kept.tick (h : s.Kept) (n : Nat) :
    (s.onMount fun m => { m with now := m.now + n }).Kept := by
  refine h.of_ghosts (fun i r hr => ⟨hr.1, hr.2.1, ?_⟩) fun _ _ _ _ _ => rfl
  have hlater : s.mount.now + n - r.queuedAt < GHOST_TTL := hr.2.2
  omega

/-- A lookup changes no ghosts. -/
theorem Kept.lookup (h : s.Kept) (path : PathBuf) (fetched : Option (List RemoteEntry)) :
    (s.onMount fun m => (m.lookup path s.excludeFolders fetched).2.2).Kept := by
  have hout : ∀ i r, (s.onMount fun m => (m.lookup path s.excludeFolders fetched).2.2).Outstanding
      i r → s.Outstanding i r := by
    intro i r hr
    refine ⟨hr.1, hr.2.1, ?_⟩
    have hfresh := hr.2.2
    rw [show (s.onMount fun m => (m.lookup path s.excludeFolders fetched).2.2).mount.now =
      s.mount.now from s.mount.lookup_now ..] at hfresh
    exact hfresh
  refine h.of_ghosts hout fun i r hr p hp => ?_
  obtain ⟨e, he, hfresh⟩ := h.fresh (hout i r hr) hp
  rw [he]
  exact s.mount.lookup_ghosts path _ fetched he hfresh

/-- A call of the user keeps the ghosts of the records that are outstanding. -/
theorem Kept.user (h : s.Kept) {c : UserCall} (hm : s.Meets (.user c)) :
    (s.onMount fun m => userCall m c).Kept := by
  obtain ⟨hnow, hghosts⟩ := userCall_ghosts s.mount c
  have hout : ∀ i r, (s.onMount fun m => userCall m c).Outstanding i r → s.Outstanding i r := by
    intro i r hr
    refine ⟨hr.1, hr.2.1, ?_⟩
    have hfresh : (userCall s.mount c).now - r.queuedAt < GHOST_TTL := hr.2.2
    rwa [hnow] at hfresh
  refine h.of_ghosts hout fun i r hr p hp => hghosts p fun htouched => ?_
  exact hm p htouched ⟨i, r, hout i r hr, hp⟩

/-- A refresh leaves a ghost for each of its records. -/
theorem Kept.refresh (h : s.Kept) {dir : PathBuf} {old : OldDirSnapshot} {etag : Option String}
    {selfEntry : Option RemoteEntry} {fresh : List RemoteEntry} {fileid : PathBuf → Option Nat}
    (hm : s.Meets (.refresh dir old etag selfEntry fresh fileid)) :
    (s.refresh dir old etag selfEntry fresh fileid).Kept := by
  obtain ⟨hknown, hone, hfree⟩ := hm
  have hnodup : (old.computeDirDiff fresh fileid).paths.Nodup :=
    OldDirSnapshot.diff_paths_nodup hone
  revert hknown hfree hnodup
  generalize hd : old.computeDirDiff fresh fileid = d
  intro hknown hfree hnodup
  have hlog : (s.refresh dir old etag selfEntry fresh fileid).log = s.log ++
      (d.changes old fresh).map fun c => { change := c, queuedAt := s.mount.now } := by
    show s.log ++ ((old.computeDirDiff fresh fileid).changes old fresh).map _ = _
    rw [hd]
  have hghosts : (s.refresh dir old etag selfEntry fresh fileid).mount.ghosts =
      (d.ghosts (s.mount.cache.listed dir) s.mount.now s.nextPair).foldl
        (fun f x q => if q = x.1 then some x.2 else f q) s.mount.ghosts := by
    show ((old.computeDirDiff fresh fileid).ghosts ..).foldl _ _ = _
    rw [hd]
  -- A record of the new log is an old one, or one of this refresh.
  have hcases : ∀ i r, (s.refresh dir old etag selfEntry fresh fileid).Outstanding i r →
      (i < s.log.length ∧ s.Outstanding i r) ∨
      (s.log.length ≤ i ∧ ∃ c, (d.changes old fresh)[i - s.log.length]? = some c ∧
        r = { change := c, queuedAt := s.mount.now }) := by
    rintro i r ⟨hi, hp, hf⟩
    rw [hlog] at hi
    by_cases hlt : i < s.log.length
    · rw [List.getElem?_append_left hlt] at hi
      exact Or.inl ⟨hlt, hi, hp, hf⟩
    · rw [List.getElem?_append_right (by omega), List.getElem?_map] at hi
      obtain ⟨c, hc, rfl⟩ := Option.map_eq_some_iff.mp hi
      exact Or.inr ⟨by omega, c, hc, rfl⟩
  have hin : ∀ c ∈ d.changes old fresh, ∀ p ∈ c.paths, p ∈ d.paths := by
    intro c hc p hp
    exact DirDiff.changes_paths.subset (List.mem_flatMap.mpr ⟨c, hc, hp⟩)
  constructor
  · -- every outstanding record has its ghost
    intro i r hr
    rw [hghosts]
    rcases hcases i r hr with ⟨-, hold⟩ | ⟨-, c, hc, rfl⟩
    · refine (h.ghost i r hold).congr fun p hp => foldl_insert_of_notMem fun hkey => ?_
      exact hfree p ((DirDiff.ghosts_keys hknown).subset hkey) ⟨i, r, hold, hp⟩
    · exact DirDiff.ghosts_changes hknown hnodup _ c (List.mem_of_getElem? hc)
  · -- no two of them share a path
    intro i j r r' hr hr' hij p hp hp'
    rcases hcases i r hr with ⟨hi, hold⟩ | ⟨hi, c, hc, rfl⟩
    · rcases hcases j r' hr' with ⟨-, hold'⟩ | ⟨-, c', hc', rfl⟩
      · exact h.apart i j r r' hold hold' hij p hp hp'
      · exact hfree p (hin c' (List.mem_of_getElem? hc') p hp') ⟨i, r, hold, hp⟩
    · rcases hcases j r' hr' with ⟨-, hold'⟩ | ⟨hj, c', hc', rfl⟩
      · exact hfree p (hin c (List.mem_of_getElem? hc) p hp) ⟨j, r', hold', hp'⟩
      · -- Two records of one refresh have no path in common.
        have hpair : (d.changes old fresh).Pairwise fun c c' => List.Disjoint c.paths c'.paths :=
          (List.nodup_flatMap.mp (DirDiff.changes_paths.nodup_iff.mpr hnodup)).2
        have hdisj := List.pairwise_iff_getElem.mp hpair
        obtain ⟨hlt, rfl⟩ := List.getElem?_eq_some_iff.mp hc
        obtain ⟨hlt', rfl⟩ := List.getElem?_eq_some_iff.mp hc'
        rcases Nat.lt_or_gt_of_ne (show i - s.log.length ≠ j - s.log.length by omega) with hlt₁ | hlt₁
        · exact hdisj _ _ hlt hlt' hlt₁ hp hp'
        · exact hdisj _ _ hlt' hlt hlt₁ hp' hp

/-! ### Performing a record -/

/-- Looking up a path with a fresh ghost entry changes nothing, and a hidden one is not found. -/
theorem walk_fresh {path : PathBuf} {g : GhostEntry} (hg : s.mount.ghosts path = some g)
    (hfresh : g.fresh s.mount.now = true) (cached : Bool) (fetched : Option (List RemoteEntry)) :
    ∃ b, s.walk path cached fetched = (b, s) ∧
      (g.kind = .hiddenAdd → cached = false → b = false) := by
  unfold walk
  cases cached with
  | true => exact ⟨true, rfl, fun _ h => nomatch h⟩
  | false =>
    rw [DirMount.lookup_fresh hg hfresh]
    refine ⟨decide (path ∉ s.excludeFolders) && decide (g.kind = .visibleDelete), ?_, fun hk _ => ?_⟩
    · simp only [Bool.false_eq_true, if_false, List.append_nil]
    · rw [hk]
      simp

/-- What a call made for a record leaves as it was. -/
structure Silent (c : FileChange) (s s' : EchoMount) : Prop where
  mount : DirMount.Echoes c.paths s.mount s'.mount
  sent : s'.sent = s.sent
  log : s'.log = s.log
  performed : s'.performed = s.performed

/-- Nothing is sent. -/
theorem Silent.refl (c : FileChange) (s : EchoMount) : Silent c s s :=
  ⟨DirMount.Echoes.refl _ _, rfl, rfl, rfl⟩

/-- A path is its name under its parent. -/
theorem parent_append {p : PathBuf} {name : String} (h : p.fileName = some name) :
    p.parent ++ [name] = p :=
  List.dropLast_append_getLast? name h

/-- A call made for an outstanding record is taken for an echo. -/
theorem Kept.call (h : s.Kept) {i : Nat} {r : ChangeRecord} (hr : s.Outstanding i r)
    {name newname : String} (hname : r.change.source.fileName = some name)
    (hnewname : r.change.path.fileName = some newname) {parent newparent : Nat}
    (hdir : s.mount.cache.inodes parent = some r.change.source.parent)
    (hnewdir : s.mount.cache.inodes newparent = some r.change.path.parent) {cached : Bool}
    (hcached : r.change.kind = .added → cached = false) (fetched : Option (List RemoteEntry)) :
    Silent r.change s (s.call r.change name newname parent newparent cached fetched) := by
  have hghost := h.ghost i r hr
  obtain ⟨⟨kind, path⟩, queuedAt⟩ := r
  have hnow : s.mount.now - queuedAt < GHOST_TTL := hr.2.2
  -- A call on one path works at the record's path.
  have hpath := parent_append hnewname
  have hsource := parent_append hname
  unfold EchoMount.call
  -- the record's ghost decides what the walk shows, and with it which call is made
  cases kind with
  | modified => exact Silent.refl _ s
  | added =>
    obtain ⟨pair, hg⟩ := hghost
    obtain ⟨b, hwalk, hb⟩ := walk_fresh hg (decide_eq_true hnow) cached fetched
    obtain rfl := hb rfl (hcached rfl)
    dsimp only
    rw [hwalk]
    have he : DirMount.Echoes _ s.mount (s.mount.createClose parent name path) :=
      DirMount.createClose_echoes hdir path
    rw [hsource] at he
    exact ⟨he, rfl, rfl, rfl⟩
  | dirAdded =>
    obtain ⟨pair, hg⟩ := hghost
    obtain ⟨b, hwalk, -⟩ := walk_fresh hg (decide_eq_true hnow) cached fetched
    dsimp only
    -- the walk shows the entry before the call, so that no call is made, or makes the call silent
    rw [hwalk]
    cases b with
    | true => exact Silent.refl _ s
    | false =>
      have hfg := DirMount.freshGhost_of hg (decide_eq_true hnow) .hiddenAdd
      have he : DirMount.Echoes _ s.mount (s.mount.mkdir parent name) :=
        DirMount.mkdir_echoes hdir (by rw [hsource]; exact hfg)
      rw [hsource] at he
      exact ⟨he, rfl, rfl, rfl⟩
  | removed =>
    obtain ⟨pair, hg⟩ := hghost
    obtain ⟨b, hwalk, -⟩ := walk_fresh hg (decide_eq_true hnow) cached fetched
    dsimp only
    rw [hwalk]
    cases b with
    | false => exact Silent.refl _ s
    | true =>
      have hfg := DirMount.freshGhost_of hg (decide_eq_true hnow) .visibleDelete
      have he : DirMount.Echoes _ s.mount (s.mount.unlink parent name) :=
        DirMount.unlink_echoes hdir (by rw [hsource]; exact hfg)
      rw [hsource] at he
      exact ⟨he, rfl, rfl, rfl⟩
  | dirRemoved =>
    obtain ⟨pair, hg⟩ := hghost
    obtain ⟨b, hwalk, -⟩ := walk_fresh hg (decide_eq_true hnow) cached fetched
    dsimp only
    rw [hwalk]
    cases b with
    | false => exact Silent.refl _ s
    | true =>
      have hfg := DirMount.freshGhost_of hg (decide_eq_true hnow) .visibleDelete
      have he : DirMount.Echoes _ s.mount (s.mount.rmdir parent name).2 :=
        DirMount.rmdir_echoes hdir (by rw [hsource]; exact hfg)
      rw [hsource] at he
      exact ⟨he, rfl, rfl, rfl⟩
  | renamed src =>
    obtain ⟨pair, hsrc, hdst⟩ := hghost
    obtain ⟨b, hwalk, -⟩ := walk_fresh hsrc (decide_eq_true hnow) cached fetched
    dsimp only
    rw [hwalk]
    cases b with
    | false => exact Silent.refl _ s
    | true =>
      obtain ⟨b', hwalk', -⟩ := walk_fresh hdst (decide_eq_true hnow) false fetched
      dsimp only
      rw [if_pos rfl, hwalk']
      have hpair : s.mount.ghostPair src path = true := by
        unfold DirMount.ghostPair
        rw [hsrc, hdst]
        simp [GhostEntry.fresh, hnow]
      have he : DirMount.Echoes _ s.mount
          (s.mount.rename parent name newparent newname .none).2 :=
        DirMount.rename_echoes hdir hnewdir (by rw [hsource, hpath]; exact hpair)
      rw [hsource, hpath] at he
      exact ⟨he, rfl, rfl, rfl⟩

/-- An echo of an outstanding record is silent, and takes the record off. -/
theorem Kept.echo (h : s.Kept) {i parent newparent : Nat} {cached : Bool}
    {fetched : Option (List RemoteEntry)} (hm : s.Meets (.echo i parent newparent cached fetched))
    (hs : s.echo i parent newparent cached fetched = some s') :
    s'.Kept ∧ s'.mount.journal = s.mount.journal ∧ s'.sent = s.sent ∧
      s'.mount.cache.deleting = s.mount.cache.deleting := by
  obtain ⟨r, hr, hcached⟩ := hm
  unfold EchoMount.echo at hs
  rw [hr.1] at hs
  dsimp only at hs
  split at hs
  · rename_i name newname hname hnewname
    split at hs
    · rename_i hdirs
      have hcall := h.call hr hname hnewname hdirs.1 hdirs.2 hcached fetched
      cases hs
      refine ⟨?_, hcall.mount.journal, hcall.sent, hcall.mount.deleting⟩
      -- the records that are still outstanding, without this one
      have hout : ∀ j r', EchoMount.Outstanding { s.call r.change name newname parent newparent
          cached fetched with performed := i :: s.performed } j r' →
          s.Outstanding j r' ∧ i ≠ j := by
        rintro j r' ⟨hj, hp, hf⟩
        refine ⟨⟨hcall.log ▸ hj, fun hmem => hp (List.mem_cons_of_mem _ hmem), ?_⟩, ?_⟩
        · have hf : (s.call r.change name newname parent newparent cached fetched).mount.now -
            r'.queuedAt < GHOST_TTL := hf
          rwa [hcall.mount.now] at hf
        · rintro rfl
          exact hp List.mem_cons_self
      refine h.of_ghosts (fun j r' hj => (hout j r' hj).1) fun j r' hj p hp => ?_
      obtain ⟨hold, hij⟩ := hout j r' hj
      exact hcall.mount.ghosts p fun hmem => h.apart i j r r' hr hold hij p hmem hp
    · cases hs
  · cases hs

/-- Every event that meets its condition keeps the ghosts. -/
theorem Kept.step (h : s.Kept) {ev : EchoEvent} (hm : s.Meets ev) (hs : s.step ev = some s') :
    s'.Kept := by
  cases ev with
  | tick n =>
    cases hs
    exact h.tick n
  | refresh dir old etag selfEntry fresh fileid =>
    cases hs
    exact h.refresh hm
  | lookup path fetched =>
    cases hs
    exact h.lookup path fetched
  | user c =>
    cases hs
    exact h.user hm
  | other m =>
    cases hs
    exact h.of_ghosts (fun _ _ hr => hr) fun _ _ _ _ _ => rfl
  | echo i parent newparent cached fetched => exact (h.echo hm hs).1

/-- A run whose events all meet their condition keeps the invariant. -/
theorem Kept.steps (h : s.Kept) {evs : List EchoEvent} (hm : s.AllMeet evs)
    (hs : s.steps evs = some s') : s'.Kept := by
  induction evs generalizing s with
  | nil =>
    cases hs
    exact h
  | cons ev evs ih =>
    obtain ⟨hev, hrest⟩ := hm
    obtain ⟨s₁, hs₁, hs⟩ := Option.bind_eq_some_iff.mp hs
    rw [hs₁] at hrest
    exact ih (h.step hev hs₁) hrest hs

/-- At the start there are no records. -/
theorem Kept.start (m : DirMount) (excluded : List PathBuf) : (EchoMount.start m excluded).Kept :=
  ⟨fun _ _ hr => (nomatch hr.1), fun _ _ _ _ hr => (nomatch hr.1)⟩

end EchoMount

/-- In a run in which every record is performed once, within the life of its ghost entries and
    before anything else works on its paths, a call made for a record queues no journal entry,
    sends no request and starts no delete: whatever the server has there stays. -/
theorem echoes_leave_the_server_alone (m : DirMount) (excluded : List PathBuf)
    (evs : List EchoEvent) (s s' : EchoMount) (i parent newparent : Nat) (cached : Bool)
    (fetched : Option (List RemoteEntry))
    (hm : (EchoMount.start m excluded).AllMeet evs)
    (hs : (EchoMount.start m excluded).steps evs = some s)
    (hmeets : s.Meets (.echo i parent newparent cached fetched))
    (hs' : s.step (.echo i parent newparent cached fetched) = some s') :
    s'.mount.journal = s.mount.journal ∧ s'.sent = s.sent ∧
      s'.mount.cache.deleting = s.mount.cache.deleting :=
  (((EchoMount.Kept.start m excluded).steps hm hs).echo hmeets hs').2

/-! ## Two runs -/

/-- The file of the example. -/
def fileA : RemoteEntry := { path := ["a"], isDir := false, size := 1 }

/-- A mount whose root lists `/a`. -/
def listedMount : DirMount :=
  { cache := { ({} : FsCache).setDir [] { files := [fileA] } with
      inodes := fun i => if i = 1 then some [] else none }
    journal := emptyJournal }

/-- `/a` is gone on the server. -/
def goneRefresh : EchoEvent :=
  .refresh [] { names := [["a"]] } none none [] fun _ => none

/-- Performing the record of a deleted file leaves the journal alone. -/
theorem first_echo_is_silent :
    ∃ s s', (EchoMount.start listedMount []).steps [goneRefresh] = some s ∧
      s.step (.echo 0 1 1 false none) = some s' ∧ s'.mount.journal = s.mount.journal ∧
      s'.sent = s.sent := by
  obtain ⟨s, hs, hlog, hperf, hnow⟩ : ∃ s, (EchoMount.start listedMount []).steps [goneRefresh] =
      some s ∧ s.log = [⟨⟨.removed, ["a"]⟩, 0⟩] ∧ s.performed = [] ∧ s.mount.now = 0 :=
    ⟨_, rfl, rfl, rfl, rfl⟩
  obtain ⟨s', hs'⟩ : ∃ s', s.step (.echo 0 1 1 false none) = some s' := by
    cases hs
    exact ⟨_, rfl⟩
  have hm : (EchoMount.start listedMount []).AllMeet [goneRefresh] := by
    refine ⟨⟨?_, ?_, ?_⟩, trivial⟩
    · show ∀ p ∈ _, ∃ e ∈ _, _
      decide
    · decide
    · rintro p - ⟨i, r, hr, -⟩
      exact (nomatch hr.1)
  have hmeets : s.Meets (.echo 0 1 1 false none) := by
    refine ⟨⟨⟨.removed, ["a"]⟩, 0⟩, ⟨by rw [hlog]; rfl, by rw [hperf]; decide, ?_⟩, nofun⟩
    rw [hnow]
    decide
  have h := echoes_leave_the_server_alone listedMount [] [goneRefresh] s s' 0 1 1 false none hm hs
    hmeets hs'
  exact ⟨s, s', hs, hs', h.1, h.2.1⟩

/-- One process has performed the deletion of `/a` and its return. -/
def returnedRun : List EchoEvent :=
  [goneRefresh, .echo 0 1 1 false none, .refresh [] { names := [] } none none [fileA] fun _ => none,
    .echo 1 1 1 false none]

/-- A second process performs the deletion only now: it deletes the file that came back. -/
theorem late_echo_deletes_new_file :
    ∃ s s', (EchoMount.start listedMount []).steps returnedRun = some s ∧
      s.mount.journal.entries = [] ∧ (s.mount.cache.listed []) = some [fileA] ∧
      s.step (.echo 0 1 1 false none) = some s' ∧
      s'.mount.journal.entries.map (·.op) = [.unlink ["a"]] :=
  ⟨_, _, rfl, rfl, rfl, rfl, rfl⟩

end Ncrs
