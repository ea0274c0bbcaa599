import Ncrs.Native.DirStatus
import Ncrs.ForStd.AList
import Ncrs.ForStd.List

/-!
# Where the batched status agrees with the single one

Both queries roll a directory's status up from the same counts as long as the index of children has an
entry for it. Without one the single query scans the status map, and the batched one counts nothing;
the two agree then just when what the scan finds does not show.

## Key results

- `DirAgg.foldl_tally`: the counts of a list of statuses
- `DirAgg.rollUp_eq_own_iff`: when a directory shows its own status
- `StatusMaps.lookup_dirAgg`: the counts the batched query holds of a subdirectory
- `detaildir_agrees_iff`: when the records of a listing are what `DETAIL` and `STATUS` answer
- `unindexed_folder_differs`: a folder with a kept file and no entry in the index
-/

namespace Ncrs

namespace FileStatus

/-- Held on this machine. -/
def isLocal : FileStatus → Bool
  | .kept | .synced | .cached => true
  | _ => false

/-- Does not keep a directory from showing as kept. -/
def keeps : FileStatus → Bool
  | .kept | .synced | .uploading => true
  | _ => false

/-- Each status has a name of its own. -/
theorem asStr_injective : Function.Injective asStr := by
  intro a b h
  cases a <;> cases b <;> simp [asStr] at h ⊢

/-- No status is called partial. -/
theorem asStr_ne_partial (st : FileStatus) : st.asStr ≠ "partial" := by
  cases st <;> simp [asStr]

end FileStatus

namespace DirAgg

/-- The counts of a list of statuses. -/
theorem foldl_tally (sts : List FileStatus) (a : DirAgg) :
    sts.foldl tally a =
      { total := a.total + sts.length
        «local» := a.local + sts.countP FileStatus.isLocal
        allKept := a.allKept && sts.all FileStatus.keeps
        uploading := a.uploading + sts.count .uploading } := by
  induction sts generalizing a with
  | nil => simp
  | cons st sts ih =>
    rw [List.foldl_cons, ih]
    cases st <;> simp [tally, List.countP_cons, FileStatus.isLocal, FileStatus.keeps] <;> omega

/-- Without children the directory shows its own status. -/
theorem rollUp_empty {own : Option FileStatus} (hd : own ≠ some .downloading)
    (hu : own ≠ some .uploading) : rollUp own {} = (own.getD .remote).asStr := by
  simp [rollUp, hd, hu]

/-- A shown status other than remote is the directory's own. -/
theorem asStr_own_eq_iff {own : Option FileStatus} {st : FileStatus} (hst : st ≠ .remote) :
    (own.getD .remote).asStr = st.asStr ↔ own = some st := by
  rw [FileStatus.asStr_injective.eq_iff]
  cases own with
  | none => simp [hst.symm]
  | some own => simp

/-- A directory shows its own status as if it had no children: one in transfer always does, and
    another one unless its children say something else. -/
theorem rollUp_eq_own_iff (own : Option FileStatus) (sts : List FileStatus) :
    rollUp own (sts.foldl tally {}) = rollUp own {} ↔
      own = some .downloading ∨ own = some .uploading ∨
      (.uploading ∉ sts ∧ ((∀ st ∈ sts, st.isLocal = false) ∨
        (own = some .kept ∧ ∀ st ∈ sts, st = .kept ∨ st = .synced) ∨
        (own = some .cached ∧ (∀ st ∈ sts, st.isLocal = true) ∧ .cached ∈ sts))) := by
  -- a transfer of the directory itself always shows
  by_cases hd : own = some .downloading
  · simp [rollUp, hd]
  by_cases hu : own = some .uploading
  · simp [rollUp, hu]
  rw [rollUp_empty hd hu, foldl_tally, rollUp, if_neg hd, if_neg hu]
  simp only [hd, hu, false_or, Nat.zero_add, Bool.true_and]
  by_cases hup : FileStatus.uploading ∈ sts
  · -- An upload shows, and the directory's own status is another one.
    have hown := @asStr_own_eq_iff own .uploading (by decide)
    rw [if_pos (List.count_pos_iff.mpr hup)]
    simp only [hup, not_true_eq_false, false_and, iff_false]
    intro h
    exact hu (hown.mp h.symm)
  rw [if_neg (by simpa using hup)]
  simp only [hup, not_false_eq_true, true_and]
  -- nothing below is here: the directory shows its own status
  by_cases hnone : ∀ st ∈ sts, st.isLocal = false
  · have hzero : sts.countP FileStatus.isLocal = 0 := by
      rw [List.countP_eq_zero]
      intro st hst
      simp [hnone st hst]
    rw [hzero, if_neg (by omega), if_neg (by omega)]
    simp only [true_iff]
    exact .inl hnone
  have hsome : 0 < sts.countP FileStatus.isLocal := by
    rw [List.countP_pos_iff]
    by_contra hno
    exact hnone fun st hst => by_contra fun h => hno ⟨st, hst, by simpa using h⟩
  -- everything below is here
  by_cases hall : ∀ st ∈ sts, st.isLocal = true
  · have hcount : sts.countP FileStatus.isLocal = sts.length := List.countP_eq_length.mpr hall
    rw [if_pos ⟨by omega, hcount⟩]
    -- All children are here: the directory shows whether all of them are pinned.
    have hkept : sts.all FileStatus.keeps = true ↔ ∀ st ∈ sts, st = .kept ∨ st = .synced := by
      rw [List.all_eq_true]
      refine forall₂_congr fun st hst => ?_
      have hst := hall st hst
      cases st <;> simp_all [FileStatus.keeps, FileStatus.isLocal]
    have hcached : .cached ∈ sts ↔ ¬ ∀ st ∈ sts, st = .kept ∨ st = .synced := by
      constructor
      · intro hmem h
        have := h _ hmem
        simp at this
      · intro h
        by_contra hno
        refine h fun st hst => ?_
        have hst' := hall st hst
        cases st <;> simp_all [FileStatus.isLocal]
    have hkeptOwn := @asStr_own_eq_iff own .kept (by decide)
    have hcachedOwn := @asStr_own_eq_iff own .cached (by decide)
    -- all of it pinned shows as kept, otherwise as cached
    split
    · rename_i hk
      have hk := hkept.mp hk
      constructor
      · exact fun h => .inr (.inl ⟨hkeptOwn.mp h.symm, hk⟩)
      · rintro (h | ⟨h, -⟩ | ⟨-, -, h⟩)
        · exact absurd h hnone
        · exact (hkeptOwn.mpr h).symm
        · exact absurd hk (hcached.mp h)
    · rename_i hk
      rw [hkept] at hk
      constructor
      · exact fun h => .inr (.inr ⟨hcachedOwn.mp h.symm, hall, hcached.mpr hk⟩)
      · rintro (h | ⟨-, h⟩ | ⟨h, -⟩)
        · exact absurd h hnone
        · exact absurd h hk
        · exact (hcachedOwn.mpr h).symm
  · -- a part of it is here, which no status of its own says
    have hlt : sts.countP FileStatus.isLocal ≠ sts.length := fun h => hall (List.countP_eq_length.mp h)
    rw [if_neg (by omega), if_pos hsome]
    have hpart := FileStatus.asStr_ne_partial (own.getD .remote)
    simp only [hpart.symm, hnone, hall, false_or, false_and, and_false, or_false, false_iff]
    intro ⟨_, hkept⟩
    refine hall fun st hst => ?_
    obtain rfl | rfl := hkept st hst <;> rfl

end DirAgg

namespace StatusMaps

variable {m : StatusMaps} {dir : PathBuf}

/-- The children of a folder are the paths right below it. -/
theorem isChild_iff {p : PathBuf} : isChild dir p = true ↔ p ≠ [] ∧ p.parent = dir := by
  simp [isChild]

/-! ## The counts of one directory -/

/-- A status recorded directly below `dir`. -/
def Below (m : StatusMaps) (dir : PathBuf) (st : FileStatus) : Prop :=
  ∃ p, m.status.lookup p = some st ∧ p ≠ [] ∧ p.parent = dir

/-- The statuses a scan counts. -/
def scanned (m : StatusMaps) (dir : PathBuf) : List FileStatus :=
  (m.status.entries.filter fun x => isChild dir x.1).map (·.2)

/-- What the scan meets are the statuses below the folder. -/
theorem mem_scanned {st : FileStatus} : st ∈ m.scanned dir ↔ m.Below dir st := by
  simp only [scanned, List.mem_map, List.mem_filter, isChild_iff, Below]
  constructor
  · intro ⟨x, ⟨hx, hchild⟩, hst⟩
    exact ⟨x.1, AList.mem_lookup_iff.mpr (hst ▸ hx), hchild⟩
  · intro ⟨p, hp, hchild⟩
    exact ⟨⟨p, st⟩, ⟨AList.mem_lookup_iff.mp hp, hchild⟩, rfl⟩

/-- The scan tallies what it meets. -/
theorem scan_eq : m.scan dir = (m.scanned dir).foldl DirAgg.tally {} := by
  rw [scan, scanned, List.foldl_map, List.foldl_filter]

/-- What a scan finds below a directory does not show in its status: the directory is in transfer, or
    no upload is below it and either nothing there is local, or everything is, in the way the
    directory's own status says. -/
def ScanHidden (m : StatusMaps) (dir : PathBuf) : Prop :=
  m.status.lookup dir = some .downloading ∨ m.status.lookup dir = some .uploading ∨
  (¬ m.Below dir .uploading ∧ ((∀ st, m.Below dir st → st.isLocal = false) ∨
    (m.status.lookup dir = some .kept ∧ ∀ st, m.Below dir st → st = .kept ∨ st = .synced) ∨
    (m.status.lookup dir = some .cached ∧ (∀ st, m.Below dir st → st.isLocal = true) ∧
      m.Below dir .cached)))

/-- The scan shows the folder's own status when what it meets is hidden behind it. -/
theorem scan_agrees_iff : DirAgg.rollUp (m.status.lookup dir) (m.scan dir) =
    DirAgg.rollUp (m.status.lookup dir) {} ↔ m.ScanHidden dir := by
  rw [scan_eq, DirAgg.rollUp_eq_own_iff]
  simp only [mem_scanned, ScanHidden]

/-! ## The counts of all subdirectories -/

/-- What the batched query counts of a subdirectory. -/
def counted (m : StatusMaps) (child : PathBuf) : DirAgg :=
  match m.children child with
  | some grandchildren => m.countSet {} grandchildren
  | none => {}

/-- One pass over distinct children tallies each of them at its own. -/
theorem lookup_foldl_aggregate {cs : List PathBuf} (hcs : cs.Nodup)
    {aggs : AList fun _ : PathBuf => DirAgg} (haggs : ∀ c ∈ cs, aggs.lookup c = none) (p : PathBuf) :
    (cs.foldl m.aggregate aggs).lookup p =
      if p ∈ cs ∧ (m.details.lookup p).any (·.isDir) then some (m.counted p) else aggs.lookup p := by
  induction cs generalizing aggs with
  | nil => simp
  | cons c cs ih =>
    obtain ⟨hc, hcs⟩ := List.nodup_cons.mp hcs
    have hfirst := haggs c List.mem_cons_self
    have hstep : ∀ q, (m.aggregate aggs c).lookup q =
        if q = c ∧ (m.details.lookup c).any (·.isDir) then some (m.counted c) else aggs.lookup q := by
      intro q
      unfold aggregate counted
      cases m.details.lookup c with
      | none => simp
      | some detail =>
        cases hdir : detail.isDir with
        | false => simp [hdir]
        | true =>
          cases m.children c <;>
            simp [hdir, AList.lookup_insert_eq_ite, hfirst]
    have hrest : ∀ c' ∈ cs, (m.aggregate aggs c).lookup c' = none := by
      intro c' hc'
      have hne : c' ≠ c := fun h => hc (h ▸ hc')
      rw [hstep, if_neg (by simp [hne])]
      exact haggs c' (List.mem_cons_of_mem c hc')
    rw [List.foldl_cons, ih hcs hrest, hstep]
    by_cases hp : p = c
    · subst hp
      simp [hc]
    · simp [hp]

/-- A folder's children are listed once. -/
theorem dirChildren_nodup (m : StatusMaps) (dir : PathBuf) : (m.dirChildren dir).Nodup := by
  unfold dirChildren
  split
  · rename_i cs _
    exact cs.2
  · exact m.details.keys_nodup.filter _

/-- The counts the batched query holds of a subdirectory of the listing. -/
theorem lookup_dirAgg {child : PathBuf} (hchild : child ∈ m.dirChildren dir)
    (hdir : (m.details.lookup child).any (·.isDir)) :
    (m.dirAgg (m.dirChildren dir)).lookup child = some (m.counted child) := by
  rw [dirAgg, lookup_foldl_aggregate (m.dirChildren_nodup dir) (by simp), if_pos ⟨hchild, hdir⟩]

/-- The roll-up over the counted children is the one over the scan, or both are hidden. -/
theorem rollUp_counted_iff {child : PathBuf} :
    DirAgg.rollUp (m.status.lookup child) (m.counted child) = m.dirStatusFromChildren child ↔
      (m.children child = none → m.ScanHidden child) := by
  unfold counted dirStatusFromChildren
  cases hchildren : m.children child with
  | some cs => simp
  | none =>
    simp only [true_implies]
    rw [← scan_agrees_iff]
    exact eq_comm

/-! ## The records of a listing -/

/-- The record of a child that has a name and a detail entry. -/
def record (m : StatusMaps) (child : PathBuf) (name : String) (detail : FileDetail) : ChildRecord :=
  { child := child
    name := name
    detail :=
      { status := if detail.isDir then DirAgg.rollUp (m.status.lookup child) (m.counted child)
          else (m.statusOr child).asStr
        sharing := m.sharing child detail
        perms := detail.permissions.getD ""
        owner := detail.ownerDisplayName.getD ""
        size := detail.size } }

/-- The records of a folder are those of its children with details. -/
theorem detaildirRecords_eq (m : StatusMaps) (dir : PathBuf) :
    m.detaildirRecords dir = (m.dirChildren dir).filterMap fun child =>
      match m.details.lookup child, child.fileName with
      | some detail, some name => some (m.record child name detail)
      | _, _ => none := by
  refine List.filterMap_congr fun child hchild => ?_
  cases hdetail : m.details.lookup child with
  | none => rfl
  | some detail =>
    cases child.fileName with
    | none => rfl
    | some name =>
      cases hdir : detail.isDir with
      | false => simp [record, hdir]
      | true =>
        have hcounts := lookup_dirAgg hchild (by simp [hdetail, hdir])
        simp [record, hdir, hcounts]

/-- A record is a child's, with its name and detail. -/
theorem mem_detaildirRecords {r : ChildRecord} : r ∈ m.detaildirRecords dir ↔
    ∃ child ∈ m.dirChildren dir, ∃ name, child.fileName = some name ∧
      ∃ detail, m.details.lookup child = some detail ∧ r = m.record child name detail := by
  rw [detaildirRecords_eq, List.mem_filterMap]
  refine exists_congr fun child => and_congr_right fun _ => ?_
  cases m.details.lookup child with
  | none => simp
  | some detail =>
    cases child.fileName with
    | none => simp
    | some name => simp [eq_comm]

/-- The records are in the order of the children. -/
theorem map_child_detaildirRecords (m : StatusMaps) (dir : PathBuf) :
    ((m.detaildirRecords dir).map (·.child)).Sublist (m.dirChildren dir) := by
  rw [detaildirRecords_eq]
  refine List.map_filterMap_sublist (fun child r hr => ?_) _
  split at hr
  · obtain rfl := Option.some.inj hr
    rfl
  · cases hr

/-- A record's detail is the child's when its status is. -/
theorem record_detail_eq_iff {child : PathBuf} {name : String} {detail : FileDetail}
    (hdetail : m.details.lookup child = some detail) :
    (m.record child name detail).detail = m.detailReply child ↔
      (detail.isDir = true → m.children child = none → m.ScanHidden child) := by
  cases hdir : detail.isDir with
  | false => simp [record, detailReply, hdetail, hdir]
  | true =>
    rw [← rollUp_counted_iff]
    simp [record, detailReply, hdetail, hdir]

/-- `STATUS` says what `DETAIL` says. -/
theorem statusReply_eq (m : StatusMaps) (child : PathBuf) : m.statusReply child =
    if child ∈ m.shared then (m.detailReply child).status ++ ",shared"
    else (m.detailReply child).status := by
  unfold statusReply detailReply
  cases m.details.lookup child <;> rfl

/-- The listed children with a detail entry have exactly one record each. -/
theorem one_record {child : PathBuf} (hchild : child ∈ m.dirChildren dir) (hroot : child ≠ [])
    (hdetail : (m.details.lookup child).isSome) :
    ((m.detaildirRecords dir).filter fun r => decide (r.child = child)).length = 1 := by
  -- the child has details and a name, so it has a record
  obtain ⟨detail, hdetail⟩ := Option.isSome_iff_exists.mp hdetail
  obtain ⟨name, hname⟩ : ∃ name, child.fileName = some name :=
    ⟨_, List.getLast?_eq_some_getLast hroot⟩
  -- each child's record says whose it is
  have hrecord : ∀ c r, (match m.details.lookup c, c.fileName with
      | some detail, some name => some (m.record c name detail)
      | _, _ => none) = some r → r.child = c := by
    intro c r h
    split at h
    · obtain rfl := Option.some.inj h
      rfl
    · cases h
  rw [detaildirRecords_eq]
  obtain ⟨pre, post, hsplit⟩ := List.append_of_mem hchild
  have hnodup := m.dirChildren_nodup dir
  rw [hsplit, List.nodup_append, List.nodup_cons] at hnodup
  obtain ⟨-, ⟨hpost, -⟩, hpre⟩ := hnodup
  -- No other child's record is this child's.
  have hother : ∀ cs : List PathBuf, child ∉ cs → (cs.filterMap fun child =>
      match m.details.lookup child, child.fileName with
      | some detail, some name => some (m.record child name detail)
      | _, _ => none).filter (fun r => decide (r.child = child)) = [] := by
    intro cs hcs
    rw [List.filter_eq_nil_iff]
    intro r hr heq
    obtain ⟨c, hc, hr⟩ := List.mem_filterMap.mp hr
    have := hrecord c r hr
    have heq : r.child = child := by simpa using heq
    exact hcs (heq ▸ this ▸ hc)
  -- the children before and behind this one have none of it
  rw [hsplit, List.filterMap_append, List.filterMap_cons_some (b := m.record child name detail)
    (by rw [hdetail, hname]), List.filter_append, List.filter_cons, hother pre fun h =>
      hpre child h child List.mem_cons_self rfl, hother post hpost]
  simp [record]

/-- The children a listing owes a record: the direct ones that the index lists or, without an entry
    for the directory, those with a detail entry. -/
def Owed (m : StatusMaps) (dir child : PathBuf) : Prop :=
  child ≠ [] ∧ child.parent = dir ∧ (m.details.lookup child).isSome ∧
    ∀ cs, m.children dir = some cs → child ∈ cs.1

/-- An owed child is listed. -/
theorem Owed.listed {child : PathBuf} (h : m.Owed dir child) : child ∈ m.dirChildren dir := by
  obtain ⟨hroot, hparent, hdetail, hindex⟩ := h
  unfold dirChildren
  split
  · rename_i cs hcs
    exact hindex cs hcs
  · refine List.mem_filter.mpr ⟨AList.mem_keys.mpr ?_, isChild_iff.mpr ⟨hroot, hparent⟩⟩
    exact AList.lookup_isSome.mp hdetail

/-- The records of a listing carry what `DETAIL` and `STATUS` answer, and each owed child has one,
    just when no subdirectory without an entry in the index has children a scan shows. -/
theorem detaildir_agrees_iff (m : StatusMaps) (dir : PathBuf) :
    ((∀ r ∈ m.detaildirRecords dir, r.detail = m.detailReply r.child ∧
        m.statusReply r.child =
          if r.child ∈ m.shared then r.detail.status ++ ",shared" else r.detail.status) ∧
      ∀ child, m.Owed dir child →
        ((m.detaildirRecords dir).filter fun r => decide (r.child = child)).length = 1) ↔
    ∀ child ∈ m.dirChildren dir, child ≠ [] → (m.details.lookup child).any (·.isDir) →
      m.children child = none → m.ScanHidden child := by
  constructor
  · intro ⟨hagrees, _⟩ child hchild hroot hdir
    obtain ⟨detail, hdetail, hdir⟩ := (Option.any_eq_true _ _).mp hdir
    obtain ⟨name, hname⟩ : ∃ name, child.fileName = some name :=
      ⟨_, List.getLast?_eq_some_getLast hroot⟩
    have hr := hagrees (m.record child name detail)
      (mem_detaildirRecords.mpr ⟨child, hchild, name, hname, detail, hdetail, rfl⟩)
    exact (record_detail_eq_iff hdetail).mp hr.1 hdir
  · intro hhidden
    refine ⟨?_, fun child h => one_record h.listed h.1 h.2.2.1⟩
    intro r hr
    obtain ⟨child, hchild, name, hname, detail, hdetail, rfl⟩ := mem_detaildirRecords.mp hr
    have hroot : child ≠ [] := by
      rintro rfl
      cases hname
    have heq := (@record_detail_eq_iff m child name detail hdetail).mpr fun hdir =>
      hhidden child hchild hroot (by simp [hdetail, hdir])
    refine ⟨heq, ?_⟩
    rw [heq]
    exact m.statusReply_eq child

/-- A folder with a kept file in it, which only its parent's entry in the index lists. -/
def keptInFolder : StatusMaps where
  details := (∅ : AList fun _ : PathBuf => FileDetail).insert ["d"] { isDir := true }
  status := (∅ : AList fun _ : PathBuf => FileStatus).insert ["d", "f"] .kept
  shared := ∅
  children := fun dir => if dir = [] then some ⟨[["d"]], by decide⟩ else none
  username := "alice"

/-- The listing shows the folder as remote, `DETAIL` as kept. -/
theorem unindexed_folder_differs :
    ¬ ∀ r ∈ keptInFolder.detaildirRecords [], r.detail = keptInFolder.detailReply r.child := by
  decide

end StatusMaps

end Ncrs
