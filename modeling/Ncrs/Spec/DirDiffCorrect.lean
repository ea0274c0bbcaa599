import Ncrs.Native.ChangeWatch
import Ncrs.Spec.EchoCorrect
import Ncrs.ForStd.List

/-!
# What a directory's difference leaves out

The difference of two listings sees a changed etag at a path that both list, and a new path for a
file id. It does not look at the kind of what a path names, except to pass over directories, nor at
the etag of what moved. So it is the whole change unless one of these two changed unseen.

## Key results

- `DirDiff.mem_applyTo`: the old listing after the difference
- `dir_diff_is_exact_iff`: when the difference turns the old listing into the fresh one
- `edited_and_renamed_is_missed`: a file that was edited and renamed between the listings
-/

namespace Ncrs

/-- The entry of `p` in a listing. -/
def entryAt (files : List RemoteEntry) (p : PathBuf) : Option RemoteEntry :=
  files.find? fun e => decide (e.path = p)

/-- In a listing without duplicates the entry at a path is the one with that path. -/
theorem entryAt_eq_some {files : List RemoteEntry} (h : (files.map (·.path)).Nodup) {p : PathBuf}
    {e : RemoteEntry} : entryAt files p = some e ↔ e ∈ files ∧ e.path = p :=
  List.find?_key_eq_some h

namespace DirDiff

/-- The entry at its new name. -/
def follow (d : DirDiff) (e : RemoteEntry) : RemoteEntry :=
  match d.renames.find? fun r => decide (r.1 = e.path) with
  | some r => { e with path := r.2.1 }
  | none => e

/-- The fresh version of a modified entry. -/
def takeNew (d : DirDiff) (fresh : List RemoteEntry) (e : RemoteEntry) : RemoteEntry :=
  if e.path ∈ d.modified then (entryAt fresh e.path).getD e else e

/-- The old listing with the difference applied: what was removed is dropped, what was renamed moves,
    what was modified and what was added is taken from the fresh listing. -/
def applyTo (d : DirDiff) (old fresh : List RemoteEntry) : List RemoteEntry :=
  (old.filter fun e => decide (e.path ∉ d.removed)).map (fun e => d.takeNew fresh (d.follow e)) ++
    d.added.filterMap (entryAt fresh)

/-- The paths a difference names. -/
def mentioned (d : DirDiff) : List PathBuf :=
  d.removed ++ (d.renames.map (·.1) ++ (d.renames.map (·.2.1) ++ (d.added ++ d.modified)))

/-- The difference is the whole change from `old` to `fresh`. -/
structure Exact (d : DirDiff) (old fresh : List RemoteEntry) : Prop where
  paths : ∀ p, p ∈ (d.applyTo old fresh).map (·.path) ↔ p ∈ fresh.map (·.path)
  current : ∀ e ∈ d.applyTo old fresh, ∀ f ∈ fresh, e.path = f.path →
    e.isDir = f.isDir ∧ (f.isDir = false → e.changeToken = f.changeToken)
  disjoint : (d.removed ++ (d.renames.map (·.1) ++ (d.renames.map (·.2.1) ++ d.added))).Nodup
  complete : ∀ o ∈ old, ∀ f ∈ fresh, o.path = f.path → (o.isDir = false ∨ f.isDir = false) →
    (o.isDir ≠ f.isDir ∨ o.changeToken ≠ f.changeToken) → f.path ∈ d.mentioned

end DirDiff

/-! ## The difference, entry by entry -/

section

variable {old fresh : List RemoteEntry} {oldId freshId : PathBuf → Option Nat}

/-- No two of the paths have one file id. -/
def DistinctIds (files : List RemoteEntry) (fileid : PathBuf → Option Nat) : Prop :=
  ∀ e ∈ files, ∀ f ∈ files, (fileid e.path).isSome → fileid e.path = fileid f.path → e.path = f.path

/-- The file `o` of the old listing is `f` in the fresh one, under a new name. -/
structure Renamed (old fresh : List RemoteEntry) (oldId freshId : PathBuf → Option Nat)
    (o f : RemoteEntry) : Prop where
  mem_old : o ∈ old
  mem_fresh : f ∈ fresh
  gone : o.path ∉ fresh.map (·.path)
  new : f.path ∉ old.map (·.path)
  hasId : (oldId o.path).isSome
  sameId : oldId o.path = freshId f.path

/-- The difference of the two listings. -/
abbrev diffOf (old fresh : List RemoteEntry) (oldId freshId : PathBuf → Option Nat) : DirDiff :=
  (OldDirSnapshot.of old oldId).computeDirDiff fresh freshId

/-- The snapshot has the change token of each listed path. -/
theorem of_etags (h : (old.map (·.path)).Nodup) (p : PathBuf) :
    (OldDirSnapshot.of old oldId).etags p = (entryAt old p).map (·.changeToken) := by
  show (old.reverse.find? _).map _ = _
  rw [List.reverse_find?_key h]
  rfl

/-- The snapshot has the id of each listed path. -/
theorem of_fileids {p : PathBuf} (h : p ∈ old.map (·.path)) :
    (OldDirSnapshot.of old oldId).fileids p = oldId p := if_pos h

/-- What is removed was listed, and is not any more. -/
theorem mem_rawRemoved {p : PathBuf} : p ∈ (OldDirSnapshot.of old oldId).rawRemoved fresh ↔
    p ∈ old.map (·.path) ∧ p ∉ fresh.map (·.path) := by
  rw [OldDirSnapshot.rawRemoved, List.mem_filter, List.mem_dedup, decide_eq_true_iff]
  rfl

/-- What is added is listed, and was not before. -/
theorem mem_rawAdded {p : PathBuf} : p ∈ (OldDirSnapshot.of old oldId).rawAdded fresh ↔
    p ∈ fresh.map (·.path) ∧ p ∉ old.map (·.path) := by
  rw [OldDirSnapshot.rawAdded, List.mem_filter, List.mem_dedup, decide_eq_true_iff]
  rfl

/-- With distinct file ids a rename is found by the id alone. -/
theorem renamedTo_eq_some (hids : DistinctIds fresh freshId) {p q : PathBuf}
    (hp : p ∈ old.map (·.path)) :
    (OldDirSnapshot.of old oldId).renamedTo fresh freshId p = some q ↔
      (oldId p).isSome ∧ oldId p = freshId q ∧ q ∈ fresh.map (·.path) ∧ q ∉ old.map (·.path) := by
  unfold OldDirSnapshot.renamedTo
  rw [of_fileids hp]
  cases hid : oldId p with
  | none => simp
  | some fid =>
    -- ids are distinct, so the search finds the only path with this one
    have hfind : ∀ q', ((fresh.map (·.path)).reverse.find? fun q => decide (freshId q = some fid)) =
        some q' → ∀ q ∈ fresh.map (·.path), freshId q = some fid → q = q' := by
      intro q' hq' q hq hqid
      have hmem := List.mem_reverse.mp (List.mem_of_find?_eq_some hq')
      have hkey : freshId q' = some fid := by simpa using List.find?_some hq'
      obtain ⟨f, hf, rfl⟩ := List.mem_map.mp hq
      obtain ⟨f', hf', rfl⟩ := List.mem_map.mp hmem
      exact hids f hf f' hf' (by rw [hqid]; rfl) (hqid.trans hkey.symm)
    simp only [Option.filter_eq_some_iff, decide_eq_true_eq, Option.isSome_some, true_and]
    constructor
    · rintro ⟨hq, hadded⟩
      have hkey : freshId q = some fid := by simpa using List.find?_some hq
      exact ⟨hkey.symm, mem_rawAdded.mp hadded⟩
    · rintro ⟨hkey, hq, hnew⟩
      refine ⟨?_, mem_rawAdded.mpr ⟨hq, hnew⟩⟩
      -- the search finds something, which is that path
      obtain ⟨q', hq'⟩ := Option.isSome_iff_exists.mp (List.find?_isSome.mpr
        ⟨q, List.mem_reverse.mpr hq, decide_eq_true hkey.symm⟩ :
          ((fresh.map (·.path)).reverse.find? fun q => decide (freshId q = some fid)).isSome)
      rw [hq', hfind q' hq' q hq hkey.symm]

/-- The renames are the entries found again under another name. -/
theorem mem_diff_renames (hids : DistinctIds fresh freshId) {p q : PathBuf} :
    (∃ dir, (p, q, dir) ∈ (diffOf old fresh oldId freshId).renames) ↔
      ∃ o f, Renamed old fresh oldId freshId o f ∧ o.path = p ∧ f.path = q := by
  constructor
  · rintro ⟨dir, h⟩
    obtain ⟨hremoved, hto, -⟩ := OldDirSnapshot.mem_renames h
    obtain ⟨hp, hgone⟩ := mem_rawRemoved.mp hremoved
    obtain ⟨hsome, hsame, hq, hnew⟩ := (renamedTo_eq_some hids hp).mp hto
    obtain ⟨o, ho, rfl⟩ := List.mem_map.mp hp
    obtain ⟨f, hf, rfl⟩ := List.mem_map.mp hq
    exact ⟨o, f, ⟨ho, hf, hgone, hnew, hsome, hsame⟩, rfl, rfl⟩
  · rintro ⟨o, f, h, rfl, rfl⟩
    have hp := List.mem_map_of_mem (f := (·.path)) h.mem_old
    have hto := (renamedTo_eq_some hids hp).mpr
      ⟨h.hasId, h.sameId, List.mem_map_of_mem h.mem_fresh, h.new⟩
    refine ⟨((OldDirSnapshot.of old oldId).isDir o.path).getD false,
      List.mem_filterMap.mpr ⟨o.path, mem_rawRemoved.mpr ⟨hp, h.gone⟩, ?_⟩⟩
    rw [hto, Option.map_some]

/-- What is removed is not listed any more, under no name. -/
theorem mem_diff_removed (hids : DistinctIds fresh freshId) {o : RemoteEntry} (ho : o ∈ old) :
    o.path ∈ (diffOf old fresh oldId freshId).removed ↔
      o.path ∉ fresh.map (·.path) ∧ ∀ f, ¬ Renamed old fresh oldId freshId o f := by
  have hp := List.mem_map_of_mem (f := (·.path)) ho
  show o.path ∈ List.filter _ _ ↔ _
  rw [List.mem_filter, mem_rawRemoved, Option.isNone_iff_eq_none, Option.eq_none_iff_forall_ne_some]
  constructor
  · rintro ⟨⟨-, hgone⟩, hnone⟩
    exact ⟨hgone, fun f h => hnone f.path ((renamedTo_eq_some hids hp).mpr
      ⟨h.hasId, h.sameId, List.mem_map_of_mem h.mem_fresh, h.new⟩)⟩
  · rintro ⟨hgone, hnone⟩
    refine ⟨⟨hp, hgone⟩, fun q hq => ?_⟩
    obtain ⟨hsome, hsame, hq, hnew⟩ := (renamedTo_eq_some hids hp).mp hq
    obtain ⟨f, hf, rfl⟩ := List.mem_map.mp hq
    exact hnone f ⟨ho, hf, hgone, hnew, hsome, hsame⟩

/-- What is added was not listed before, under no name. -/
theorem mem_diff_added (hids : DistinctIds fresh freshId) {f : RemoteEntry} (hf : f ∈ fresh) :
    f.path ∈ (diffOf old fresh oldId freshId).added ↔ f.path ∉ old.map (·.path) ∧
      ∀ o f', Renamed old fresh oldId freshId o f' → f'.path ≠ f.path := by
  show f.path ∈ List.filter _ _ ↔ _
  rw [List.mem_filter, mem_rawAdded, decide_eq_true_iff]
  constructor
  · rintro ⟨⟨-, hnew⟩, hnot⟩
    refine ⟨hnew, fun o f' h heq => hnot ?_⟩
    obtain ⟨dir, hmem⟩ := (mem_diff_renames hids).mpr ⟨o, f', h, rfl, heq⟩
    exact List.mem_map.mpr ⟨_, hmem, rfl⟩
  · rintro ⟨hnew, hnot⟩
    refine ⟨⟨List.mem_map_of_mem hf, hnew⟩, fun hmem => ?_⟩
    obtain ⟨⟨p, q, dir⟩, hr, hq⟩ := List.mem_map.mp hmem
    obtain ⟨o, f', h, -, heq⟩ := (mem_diff_renames hids).mp ⟨dir, hr⟩
    exact hnot o f' h (heq.trans hq)

/-- What is modified is listed before and after with another token. -/
theorem mem_diff_modified (hold : (old.map (·.path)).Nodup) {p : PathBuf} :
    p ∈ (diffOf old fresh oldId freshId).modified ↔ ∃ o ∈ old, ∃ f ∈ fresh,
      o.path = p ∧ f.path = p ∧ f.isDir = false ∧ o.changeToken ≠ f.changeToken := by
  show p ∈ List.map _ (List.filter _ _) ↔ _
  simp only [List.mem_map, List.mem_filter, Bool.and_eq_true, Bool.not_eq_true', of_etags hold,
    Option.any_map, Option.any_eq_true, decide_eq_true_eq, entryAt_eq_some hold]
  constructor
  · rintro ⟨f, ⟨hf, hfile, o, ⟨ho, hpath⟩, hne⟩, rfl⟩
    exact ⟨o, ho, f, hf, hpath, rfl, hfile, hne⟩
  · rintro ⟨o, ho, f, hf, hpath, rfl, hfile, hne⟩
    exact ⟨f, ⟨hf, hfile, o, ⟨ho, hpath⟩, hne⟩, rfl⟩

/-- No two renames lead to one path. -/
theorem targets_nodup (hold : DistinctIds old oldId) (hfresh : DistinctIds fresh freshId) :
    ((diffOf old fresh oldId freshId).renames.map (·.2.1)).Nodup := by
  have hsources := @OldDirSnapshot.sources_nodup (.of old oldId) fresh freshId
  refine List.Nodup.map_on ?_ hsources.of_map
  intro r hr r' hr' htarget
  obtain ⟨o, f, h, hsource, hf⟩ := (mem_diff_renames hfresh).mp ⟨r.2.2, hr⟩
  obtain ⟨o', f', h', hsource', hf'⟩ := (mem_diff_renames hfresh).mp ⟨r'.2.2, hr'⟩
  have hname : f.path = f'.path := by rw [hf, hf', htarget]
  have hsame : o.path = o'.path := by
    apply hold o h.mem_old o' h'.mem_old h.hasId
    rw [h.sameId, h'.sameId, hname]
  exact List.inj_on_of_nodup_map hsources hr hr' (by rw [← hsource, ← hsource', hsame])

/-! ## The old listing after the difference -/

/-- An entry that is still listed stays where it is. -/
theorem follow_of_listed (hids : DistinctIds fresh freshId) {o : RemoteEntry}
    (h : o.path ∈ fresh.map (·.path)) : (diffOf old fresh oldId freshId).follow o = o := by
  have hnone : ((diffOf old fresh oldId freshId).renames.find? fun r => decide (r.1 = o.path)) =
      none := by
    rw [List.find?_eq_none]
    intro r hr heq
    obtain ⟨o', f, h', hsource, -⟩ := (mem_diff_renames hids).mp ⟨r.2.2, hr⟩
    have hpath : o'.path = o.path := hsource.trans (by simpa using heq)
    exact h'.gone (hpath ▸ h)
  rw [DirDiff.follow, hnone]

/-- A renamed entry goes to its new path. -/
theorem follow_of_renamed (hids : DistinctIds fresh freshId) {o f : RemoteEntry}
    (h : Renamed old fresh oldId freshId o f) :
    (diffOf old fresh oldId freshId).follow o = { o with path := f.path } := by
  obtain ⟨dir, hr⟩ := (mem_diff_renames hids).mpr ⟨o, f, h, rfl, rfl⟩
  have hfind : ((diffOf old fresh oldId freshId).renames.find? fun r => decide (r.1 = o.path)) =
      some (o.path, f.path, dir) :=
    (List.find?_key_eq_some OldDirSnapshot.sources_nodup).mpr ⟨hr, rfl⟩
  rw [DirDiff.follow, hfind]

/-- What becomes of an entry that both listings have. -/
def newerOf (o f : RemoteEntry) : RemoteEntry :=
  if f.isDir = false ∧ o.changeToken ≠ f.changeToken then f else o

/-- The newer of two entries at a path is at that path. -/
theorem newerOf_path {o f : RemoteEntry} (h : o.path = f.path) : (newerOf o f).path = f.path := by
  unfold newerOf
  split
  · rfl
  · exact h

/-- A listed entry takes what the new listing says of it. -/
theorem takeNew_of_listed (hold : (old.map (·.path)).Nodup) (hfresh : (fresh.map (·.path)).Nodup)
    {o f : RemoteEntry} (ho : o ∈ old) (hf : f ∈ fresh) (h : o.path = f.path) :
    (diffOf old fresh oldId freshId).takeNew fresh o = newerOf o f := by
  have hentry : entryAt fresh o.path = some f := (entryAt_eq_some hfresh).mpr ⟨hf, h.symm⟩
  have hmodified : o.path ∈ (diffOf old fresh oldId freshId).modified ↔
      f.isDir = false ∧ o.changeToken ≠ f.changeToken := by
    rw [mem_diff_modified hold]
    constructor
    · intro ⟨o', ho', f', hf', hpath, hpath', hfile, hne⟩
      obtain rfl := List.inj_on_of_nodup_map hold ho' ho hpath
      obtain rfl := List.inj_on_of_nodup_map hfresh hf' hf (hpath'.trans h)
      exact ⟨hfile, hne⟩
    · intro ⟨hfile, hne⟩
      exact ⟨o, ho, f, hf, rfl, h.symm, hfile, hne⟩
  simp only [DirDiff.takeNew, newerOf, hmodified, hentry, Option.getD_some]

/-- A renamed entry keeps what was known of it, at its new path. -/
theorem takeNew_of_renamed (hold : (old.map (·.path)).Nodup) {o f : RemoteEntry}
    (h : Renamed old fresh oldId freshId o f) :
    (diffOf old fresh oldId freshId).takeNew fresh { o with path := f.path } =
      { o with path := f.path } := by
  refine if_neg fun hmodified => ?_
  obtain ⟨o', ho', f', -, hpath, -⟩ := (mem_diff_modified hold).mp hmodified
  exact h.new (hpath ▸ List.mem_map_of_mem ho')

/-- An entry of the old listing is listed again, renamed or removed. -/
theorem listed_or_renamed_or_removed (hids : DistinctIds fresh freshId) {o : RemoteEntry}
    (ho : o ∈ old) : o.path ∈ fresh.map (·.path) ∨ (∃ f, Renamed old fresh oldId freshId o f) ∨
      o.path ∈ (diffOf old fresh oldId freshId).removed := by
  by_cases hlisted : o.path ∈ fresh.map (·.path)
  · exact .inl hlisted
  · by_cases hrenamed : ∃ f, Renamed old fresh oldId freshId o f
    · exact .inr (.inl hrenamed)
    · exact .inr (.inr ((mem_diff_removed hids ho).mpr ⟨hlisted, not_exists.mp hrenamed⟩))

/-- The old listing after the difference. -/
theorem DirDiff.mem_applyTo (hold : (old.map (·.path)).Nodup) (hfresh : (fresh.map (·.path)).Nodup)
    (hids : DistinctIds fresh freshId) {e : RemoteEntry} :
    e ∈ (diffOf old fresh oldId freshId).applyTo old fresh ↔
      (∃ o ∈ old, ∃ f ∈ fresh, o.path = f.path ∧ e = newerOf o f) ∨
      (∃ o f, Renamed old fresh oldId freshId o f ∧ e = { o with path := f.path }) ∨
      (e ∈ fresh ∧ e.path ∈ (diffOf old fresh oldId freshId).added) := by
  have hadded : e ∈ (diffOf old fresh oldId freshId).added.filterMap (entryAt fresh) ↔
      e ∈ fresh ∧ e.path ∈ (diffOf old fresh oldId freshId).added := by
    simp only [List.mem_filterMap, entryAt_eq_some hfresh]
    constructor
    · intro ⟨p, hp, he, hpath⟩
      exact ⟨he, hpath ▸ hp⟩
    · intro ⟨he, hp⟩
      exact ⟨e.path, hp, he, rfl⟩
  simp only [DirDiff.applyTo, List.mem_append, hadded, List.mem_map, List.mem_filter,
    decide_eq_true_eq, ← or_assoc]
  refine or_congr_left ⟨?_, ?_⟩
  · intro ⟨o, ⟨ho, hkept⟩, heq⟩
    -- an old entry is still listed, or renamed, or removed
    obtain hlisted | ⟨f, h⟩ | hremoved := listed_or_renamed_or_removed hids ho
    · obtain ⟨f, hf, hpath⟩ := List.mem_map.mp hlisted
      rw [follow_of_listed hids hlisted, takeNew_of_listed hold hfresh ho hf hpath.symm] at heq
      exact .inl ⟨o, ho, f, hf, hpath.symm, heq.symm⟩
    · rw [follow_of_renamed hids h, takeNew_of_renamed hold h] at heq
      exact .inr ⟨o, f, h, heq.symm⟩
    · -- a removed one is not in the outcome
      exact absurd hremoved hkept
  · rintro (⟨o, ho, f, hf, hpath, rfl⟩ | ⟨o, f, h, rfl⟩)
    · -- neither a listed entry nor a renamed one is removed
      have hlisted : o.path ∈ fresh.map (·.path) := hpath ▸ List.mem_map_of_mem hf
      refine ⟨o, ⟨ho, fun h => ((mem_diff_removed hids ho).mp h).1 hlisted⟩, ?_⟩
      rw [follow_of_listed hids hlisted, takeNew_of_listed hold hfresh ho hf hpath]
    · refine ⟨o, ⟨h.mem_old, fun hr => ((mem_diff_removed hids h.mem_old).mp hr).2 f h⟩, ?_⟩
      rw [follow_of_renamed hids h, takeNew_of_renamed hold h]

/-- The paths are always right. -/
theorem applyTo_paths (hold : (old.map (·.path)).Nodup) (hfresh : (fresh.map (·.path)).Nodup)
    (hids : DistinctIds fresh freshId) (p : PathBuf) :
    p ∈ ((diffOf old fresh oldId freshId).applyTo old fresh).map (·.path) ↔
      p ∈ fresh.map (·.path) := by
  constructor
  · intro hp
    obtain ⟨e, he, rfl⟩ := List.mem_map.mp hp
    obtain ⟨o, -, f, hf, hpath, rfl⟩ | ⟨o, f, h, rfl⟩ | ⟨he, -⟩ :=
      (DirDiff.mem_applyTo hold hfresh hids).mp he
    · -- each kind of entry is at a path of the new listing
      rw [newerOf_path hpath]
      exact List.mem_map_of_mem hf
    · exact List.mem_map.mpr ⟨f, h.mem_fresh, rfl⟩
    · exact List.mem_map_of_mem he
  · intro hp
    obtain ⟨f, hf, rfl⟩ := List.mem_map.mp hp
    have hmem : ∀ e, e ∈ (diffOf old fresh oldId freshId).applyTo old fresh → e.path = f.path →
        f.path ∈ ((diffOf old fresh oldId freshId).applyTo old fresh).map (·.path) :=
      fun e he hpath => List.mem_map.mpr ⟨e, he, hpath⟩
    -- a listed path is an old one, or an added one, or a rename's target
    by_cases hkept : f.path ∈ old.map (·.path)
    · obtain ⟨o, ho, hpath⟩ := List.mem_map.mp hkept
      exact hmem (newerOf o f)
        ((DirDiff.mem_applyTo hold hfresh hids).mpr (.inl ⟨o, ho, f, hf, hpath, rfl⟩))
        (newerOf_path hpath)
    · by_cases hadded : f.path ∈ (diffOf old fresh oldId freshId).added
      · exact hmem f ((DirDiff.mem_applyTo hold hfresh hids).mpr (.inr (.inr ⟨hf, hadded⟩))) rfl
      · -- A new name that was not added is the target of a rename.
        have htarget : ∃ o f', Renamed old fresh oldId freshId o f' ∧ f'.path = f.path := by
          by_contra hno
          exact hadded ((mem_diff_added hids hf).mpr
            ⟨hkept, fun o f' h heq => hno ⟨o, f', h, heq⟩⟩)
        obtain ⟨o, f', h, hpath⟩ := htarget
        exact hmem _ ((DirDiff.mem_applyTo hold hfresh hids).mpr (.inr (.inl ⟨o, f', h, rfl⟩))) hpath

/-! ## When the difference is exact -/

/-- No change between the listings is of the two kinds the difference does not see: another kind
    under the same name, unless it is a file with another etag; and another kind or, of a file,
    another etag under another name. -/
structure Followable (old fresh : List RemoteEntry) (oldId freshId : PathBuf → Option Nat) : Prop where
  kept : ∀ o ∈ old, ∀ f ∈ fresh, o.path = f.path →
    o.isDir = f.isDir ∨ (f.isDir = false ∧ o.changeToken ≠ f.changeToken)
  moved : ∀ o f, Renamed old fresh oldId freshId o f →
    o.isDir = f.isDir ∧ (f.isDir = false → o.changeToken = f.changeToken)

/-- An exact outcome needs renames that can be followed. -/
theorem followable_of_exact (hold : (old.map (·.path)).Nodup) (hfresh : (fresh.map (·.path)).Nodup)
    (hids : DistinctIds fresh freshId) (h : (diffOf old fresh oldId freshId).Exact old fresh) :
    Followable old fresh oldId freshId where
  kept := by
    intro o ho f hf hpath
    have hcurrent := h.current (newerOf o f)
      ((DirDiff.mem_applyTo hold hfresh hids).mpr (.inl ⟨o, ho, f, hf, hpath, rfl⟩)) f hf
      (newerOf_path hpath)
    unfold newerOf at hcurrent
    split at hcurrent
    · rename_i hnew
      exact .inr hnew
    · exact .inl hcurrent.1
  moved := fun o f hr => h.current { o with path := f.path }
    ((DirDiff.mem_applyTo hold hfresh hids).mpr (.inr (.inl ⟨o, f, hr, rfl⟩))) f hr.mem_fresh rfl

/-- When the renames can be followed, each entry of the outcome is the new listing's. -/
theorem Followable.current (h : Followable old fresh oldId freshId) (hold : (old.map (·.path)).Nodup)
    (hfresh : (fresh.map (·.path)).Nodup) (hids : DistinctIds fresh freshId) {e : RemoteEntry}
    (he : e ∈ (diffOf old fresh oldId freshId).applyTo old fresh) {f : RemoteEntry} (hf : f ∈ fresh)
    (hpath : e.path = f.path) :
    e.isDir = f.isDir ∧ (f.isDir = false → e.changeToken = f.changeToken) := by
  obtain ⟨o, ho, f', hf', hlisted, rfl⟩ | ⟨o, f', hr, rfl⟩ | ⟨he, -⟩ :=
    (DirDiff.mem_applyTo hold hfresh hids).mp he
  · obtain rfl := List.inj_on_of_nodup_map hfresh hf' hf ((newerOf_path hlisted).symm.trans hpath)
    unfold newerOf
    split
    · exact ⟨rfl, fun _ => rfl⟩
    · rename_i hsame
      obtain hkind | hnew := h.kept o ho f' hf' hlisted
      · exact ⟨hkind, fun hfile => by_contra fun hne => hsame ⟨hfile, hne⟩⟩
      · exact absurd hnew hsame
  · obtain rfl := List.inj_on_of_nodup_map hfresh hr.mem_fresh hf hpath
    exact h.moved o f' hr
  · obtain rfl := List.inj_on_of_nodup_map hfresh he hf hpath
    exact ⟨rfl, fun _ => rfl⟩

/-- When the renames can be followed, each entry of the new listing is in the outcome. -/
theorem Followable.complete (h : Followable old fresh oldId freshId)
    (hold : (old.map (·.path)).Nodup) {o f : RemoteEntry} (ho : o ∈ old) (hf : f ∈ fresh)
    (hpath : o.path = f.path) (hfile : o.isDir = false ∨ f.isDir = false)
    (hdiffers : o.isDir ≠ f.isDir ∨ o.changeToken ≠ f.changeToken) :
    f.path ∈ (diffOf old fresh oldId freshId).mentioned := by
  have hmodified : f.isDir = false ∧ o.changeToken ≠ f.changeToken := by
    obtain hkind | hnew := h.kept o ho f hf hpath
    · rw [hkind, or_self] at hfile
      exact ⟨hfile, hdiffers.resolve_left (absurd hkind)⟩
    · exact hnew
  simp [DirDiff.mentioned, (mem_diff_modified hold).mpr ⟨o, ho, f, hf, hpath, rfl, hmodified⟩]

end

/-- The difference of two listings turns the one into the other just when it can follow what
    happened between them. -/
theorem dir_diff_is_exact_iff (old fresh : List RemoteEntry) (oldId freshId : PathBuf → Option Nat)
    (hold : (old.map (·.path)).Nodup) (hfresh : (fresh.map (·.path)).Nodup)
    (holdIds : DistinctIds old oldId) (hfreshIds : DistinctIds fresh freshId) :
    ((OldDirSnapshot.of old oldId).computeDirDiff fresh freshId).Exact old fresh ↔
      Followable old fresh oldId freshId := by
  constructor
  · exact followable_of_exact hold hfresh hfreshIds
  · intro h
    exact {
      paths := applyTo_paths hold hfresh hfreshIds
      current := fun e he f hf => h.current hold hfresh hfreshIds he hf
      disjoint := OldDirSnapshot.diff_paths_nodup (targets_nodup holdIds hfreshIds)
      complete := fun o ho f hf => h.complete hold ho hf }

/-- The file `name`, at version `etag`. -/
def fileVersion (name etag : String) : RemoteEntry :=
  { path := [name], isDir := false, size := 1, changeToken := some etag }

/-- A file saved on the server and one renamed there: the difference is exact. -/
theorem edit_and_rename_are_followed :
    ((OldDirSnapshot.of [fileVersion "a" "1", fileVersion "b" "1"]
        fun p => if p = ["a"] then some 7 else some 8).computeDirDiff
      [fileVersion "a" "2", fileVersion "c" "1"]
        fun p => if p = ["a"] then some 7 else some 8).Exact
      [fileVersion "a" "1", fileVersion "b" "1"] [fileVersion "a" "2", fileVersion "c" "1"] := by
  refine (dir_diff_is_exact_iff _ _ _ _ (by decide) (by decide) (by unfold DistinctIds; decide)
    (by unfold DistinctIds; decide)).mpr ⟨by decide, fun o f h => ?_⟩
  have hgone := h.gone
  have hnew := h.new
  obtain rfl | rfl := List.mem_pair.mp h.mem_old
  · exact absurd hgone (by decide)
  · obtain rfl | rfl := List.mem_pair.mp h.mem_fresh
    · exact absurd hnew (by decide)
    · decide

/-- A file edited and renamed between the listings keeps its old etag, and one replaced by a
    directory of its name is not even mentioned. -/
theorem edited_and_renamed_is_missed :
    ¬ ((OldDirSnapshot.of [fileVersion "a" "1"] fun _ => some 7).computeDirDiff
        [fileVersion "b" "2"] fun _ => some 7).Exact
        [fileVersion "a" "1"] [fileVersion "b" "2"] ∧
      ¬ ((OldDirSnapshot.of [fileVersion "a" "1"] fun _ => some 7).computeDirDiff
        [{ fileVersion "a" "2" with isDir := true }] fun _ => some 8).Exact
        [fileVersion "a" "1"] [{ fileVersion "a" "2" with isDir := true }] := by
  constructor
  · intro h
    have := (h.current { fileVersion "a" "1" with path := ["b"] } (by decide)
      (fileVersion "b" "2") (by decide) rfl).2 rfl
    exact absurd this (by decide)
  · intro h
    exact absurd (h.complete (fileVersion "a" "1") (by decide)
      { fileVersion "a" "2" with isDir := true } (by decide) rfl (.inl rfl) (.inl (by decide)))
      (by decide)

end Ncrs
