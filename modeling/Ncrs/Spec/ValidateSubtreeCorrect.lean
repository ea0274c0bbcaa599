import Ncrs.ForStd.AList
import Ncrs.Native.DirCacheFile
import Ncrs.Native.ValidateSubtree
import Ncrs.Spec.ListedMountCorrect

/-!
# What a validation reaches

A validation compares the children of every directory it lists, and it lists the children that
differ. What it does not come to keeps its listing and its trust: below a child whose etag matches,
below one that is not cached, and below the depth. A parent listed later than its children matches
while they do not.

## Key results

- `Reached`: the directories a validation lists or compares, read off the cache it starts with.
- `validateSubtree_effect`: what is reached agrees with the server afterwards, and nothing else
  changes.
- `validated_trust_iff`: no changed listing stays trusted if and only if all of them are reached.
- `grandchild_stays_trusted`: a listing below a refreshed parent.
-/

namespace Ncrs

/-- A server at rest: a listing names the directory's children, each with its own etag. -/
structure ServerTree where
  listing : PathBuf → Option Listed
  root : (listing []).isSome
  child : ∀ d l e, listing d = some l → e ∈ l.files → ∃ name, e.path = d ++ [name]
  child_etag : ∀ d l e, listing d = some l → e ∈ l.files → e.isDir = true →
    ∃ l', listing e.path = some l' ∧ l'.etag = e.changeToken
  distinct : ∀ d l, listing d = some l → (l.files.map (·.path)).Nodup

namespace FsCache

/-- A trusted listing of `q` has the etag of the server's. -/
def Agrees (listing : PathBuf → Option Listed) (c : FsCache) (q : PathBuf) : Prop :=
  ∀ d, c.dir q = some d → d.invalidated = false → d.hardExpired = false →
    ∃ l, listing q = some l ∧ l.etag = d.etag

/-- The cache is within its limit. -/
def Fits (c : FsCache) : Prop :=
  c.dirCacheMaxDirs = 0 ∨ c.dirCache.entries.length ≤ c.dirCacheMaxDirs

/-- The child is cached with an etag that is not the one listed. -/
def Differs (c : FsCache) (e : RemoteEntry) : Prop :=
  ∃ d, c.dir e.path = some d ∧ sameEtag e.changeToken d.etag = false

/-- `c'` has no more listings than `c`. -/
structure NoLarger (c c' : FsCache) : Prop where
  max : c'.dirCacheMaxDirs = c.dirCacheMaxDirs
  length : c'.dirCache.entries.length ≤ c.dirCache.entries.length

variable {c c' c'' : FsCache} {p q : PathBuf}

/-- A cache is no larger than itself. -/
theorem NoLarger.refl (c : FsCache) : NoLarger c c := ⟨rfl, Nat.le_refl _⟩

/-- One step after the other. -/
theorem NoLarger.trans (h : NoLarger c c') (h' : NoLarger c' c'') : NoLarger c c'' :=
  ⟨h'.max.trans h.max, Nat.le_trans h'.length h.length⟩

/-- What fits still does in a smaller cache. -/
theorem Fits.noLarger (h : c.Fits) (hc : NoLarger c c') : c'.Fits := by
  obtain h | h := h
  · exact .inl (hc.max.trans h)
  · exact .inr (by rw [hc.max]; exact Nat.le_trans hc.length h)

/-! ## The operations on the cache -/

/-- Setting a directory that is cached adds none. -/
theorem noLarger_setDir {d : DirCacheEntry} (hp : (c.dir p).isSome) : NoLarger c (c.setDir p d) := by
  refine ⟨rfl, ?_⟩
  have hmem : p ∈ c.dirCache.entries.keys := AList.mem_keys.mp (AList.lookup_isSome.mp hp)
  obtain ⟨b, l₁, l₂, -, hl, herase⟩ := List.exists_of_kerase hmem
  have hlen := congrArg List.length hl
  rw [setDir, AList.entries_insert, List.length_cons, herase, List.length_append]
  rw [List.length_append, List.length_cons] at hlen
  omega

/-- Removing one adds none. -/
theorem noLarger_removeDir : NoLarger c (c.removeDir p) :=
  ⟨rfl, (List.kerase_sublist p _).length_le⟩

/-- It makes the cache smaller by one. -/
theorem length_removeDir (hp : (c.dir p).isSome) :
    (c.removeDir p).dirCache.entries.length + 1 = c.dirCache.entries.length := by
  have hmem : p ∈ c.dirCache.entries.keys := AList.mem_keys.mp (AList.lookup_isSome.mp hp)
  obtain ⟨b, l₁, l₂, -, hl, herase⟩ := List.exists_of_kerase hmem
  have hlen := congrArg List.length hl
  rw [show (c.removeDir p).dirCache.entries = c.dirCache.entries.kerase p from rfl, herase, List.length_append]
  rw [List.length_append, List.length_cons] at hlen
  omega

/-- And leaves the others. -/
theorem dir_removeDir : (c.removeDir p).dir q = if q = p then none else c.dir q :=
  AList.lookup_erase_eq_ite _ _ _

/-- Modifying an entry adds none. -/
theorem noLarger_modifyDir {f : DirCacheEntry → DirCacheEntry} : NoLarger c (c.modifyDir p f) := by
  unfold modifyDir
  cases h : c.dir p with
  | none => exact .refl c
  | some d => exact noLarger_setDir (by rw [h]; rfl)

/-- Nothing is evicted from a cache that fits. -/
theorem evictDirCache_of_fits (h : c.Fits) : c.evictDirCache = c := by
  unfold evictDirCache
  rw [if_pos]
  simpa [Fits] using h

/-- Storing a fresh listing in a cache with room for it evicts nothing. -/
theorem putDirCache_room {k : Nat} {etag : Option String} {selfEntry : Option RemoteEntry}
    {files : List RemoteEntry} {now : Nat}
    (hk : ∀ d, (c.setDir p d).dirCache.entries.length ≤ c.dirCache.entries.length + k)
    (hroom : c.dirCacheMaxDirs = 0 ∨ c.dirCache.entries.length + k ≤ c.dirCacheMaxDirs) :
    (c.putDirCache p etag selfEntry files now).dirCacheMaxDirs = c.dirCacheMaxDirs ∧
      (c.putDirCache p etag selfEntry files now).dirCache.entries.length ≤ c.dirCache.entries.length + k ∧
      ∀ q, q ≠ p → (c.putDirCache p etag selfEntry files now).dir q = c.dir q := by
  unfold putDirCache
  split
  · exact ⟨rfl, Nat.le_trans noLarger_removeDir.length (Nat.le_add_right _ _),
      fun q hq => AList.lookup_erase_ne hq⟩
  · rw [evictDirCache_of_fits]
    · exact ⟨rfl, hk _, fun q hq => AList.lookup_insert_ne hq⟩
    · exact hroom.imp_right (Nat.le_trans (hk _))

/-- The listing may be there already. -/
theorem putDirCache_fits {etag : Option String} {selfEntry : Option RemoteEntry}
    {files : List RemoteEntry} {now : Nat} (hfits : c.Fits) (hp : (c.dir p).isSome) :
    NoLarger c (c.putDirCache p etag selfEntry files now) ∧
      ∀ q, q ≠ p → (c.putDirCache p etag selfEntry files now).dir q = c.dir q := by
  obtain ⟨hmax, hlen, hdir⟩ := putDirCache_room (k := 0)
    (fun d => (noLarger_setDir hp).length) hfits
  exact ⟨⟨hmax, hlen⟩, hdir⟩

/-- Setting a directory adds at most one. -/
theorem length_setDir_le (d : DirCacheEntry) :
    (c.setDir p d).dirCache.entries.length ≤ c.dirCache.entries.length + 1 := by
  rw [setDir, AList.entries_insert, List.length_cons]
  exact Nat.succ_le_succ (List.kerase_sublist p _).length_le

/-- Removing several directories leaves the others. -/
theorem dir_foldl_removeDir (ps : List PathBuf) (c : FsCache) :
    (ps.foldl removeDir c).dir q = (if q ∈ ps then none else c.dir q) ∧ NoLarger c (ps.foldl removeDir c) := by
  induction ps generalizing c with
  | nil => exact ⟨by simp, .refl c⟩
  | cons p ps ih =>
    obtain ⟨hdir, hlarger⟩ := ih (c.removeDir p)
    refine ⟨?_, noLarger_removeDir.trans hlarger⟩
    rw [List.foldl_cons, hdir, dir_removeDir]
    by_cases hq : q ∈ ps <;> by_cases hqp : q = p <;> simp [hq, hqp]

/-- It makes the cache smaller by as many. -/
theorem length_foldl_removeDir {ps : List PathBuf} (hnodup : ps.Nodup) (hps : ∀ p ∈ ps, (c.dir p).isSome) :
    (ps.foldl removeDir c).dirCache.entries.length + ps.length = c.dirCache.entries.length := by
  induction ps generalizing c with
  | nil => rfl
  | cons p ps ih =>
    obtain ⟨hp, hnodup⟩ := List.nodup_cons.mp hnodup
    have hrest := ih hnodup (c := c.removeDir p) fun q hq => by
      rw [dir_removeDir, if_neg (by rintro rfl; exact hp hq)]
      exact hps q (List.mem_cons_of_mem _ hq)
    have hone := length_removeDir (hps p List.mem_cons_self)
    rw [List.foldl_cons, List.length_cons]
    omega

/-- Invalidating several leaves the others. -/
theorem dir_foldl_invalidateDir (ps : List PathBuf) (c : FsCache) :
    (ps.foldl invalidateDir c).dir q =
        (if q ∈ ps then (c.dir q).map fun d => { d with invalidated := true } else c.dir q) ∧
      NoLarger c (ps.foldl invalidateDir c) := by
  induction ps generalizing c with
  | nil => exact ⟨by simp, .refl c⟩
  | cons p ps ih =>
    obtain ⟨hdir, hlarger⟩ := ih (c.invalidateDir p)
    refine ⟨?_, noLarger_modifyDir.trans hlarger⟩
    rw [List.foldl_cons, hdir, invalidateDir, dir_modifyDir]
    by_cases hq : q ∈ ps <;> by_cases hqp : q = p <;> simp [hq, hqp, Function.comp_def]

/-- Confirming a directory keeps its etag. -/
theorem confirmDirFresh_spec (c : FsCache) (p : PathBuf) (now : Nat) :
    NoLarger c (c.confirmDirFresh p now).2 ∧
      (∀ q, q ≠ p → (c.confirmDirFresh p now).2.dir q = c.dir q) ∧
      ∀ d', (c.confirmDirFresh p now).2.dir p = some d' → ∃ d, c.dir p = some d ∧ d'.etag = d.etag := by
  unfold confirmDirFresh
  cases hd : c.dir p with
  | none =>
    refine ⟨.refl c, fun _ _ => rfl, fun d' hd' => ?_⟩
    rw [hd] at hd'
    cases hd'
  | some d =>
    dsimp only
    split
    · refine ⟨.refl c, fun _ _ => rfl, fun d' hd' => ⟨d, rfl, ?_⟩⟩
      rw [Option.some.inj (hd.symm.trans hd')]
    · refine ⟨noLarger_setDir (by rw [hd]; rfl), fun q hq => ?_, fun d' hd' => ⟨d, rfl, ?_⟩⟩
      · rw [dir_setDir, if_neg hq]
      · rw [dir_setDir, if_pos rfl] at hd'
        rw [← Option.some.inj hd']

/-- What the loop over a fresh listing finds changed, and what it does to the rest. -/
structure Checked (files : List RemoteEntry) (c : FsCache) (r : List PathBuf × FsCache) : Prop where
  nodup : r.1.Nodup
  changed : ∀ p, p ∈ r.1 ↔ ∃ e ∈ files, e.isDir = true ∧ e.path = p ∧ c.Differs e
  noLarger : NoLarger c r.2
  etag : ∀ q d', r.2.dir q = some d' → ∃ d, c.dir q = some d ∧ d'.etag = d.etag
  others : ∀ q, (∀ e ∈ files, e.isDir = true → e.path = q → c.Differs e) → r.2.dir q = c.dir q

/-- An entry the loop passes over. -/
theorem Checked.skip {files : List RemoteEntry} {r : List PathBuf × FsCache} (h : Checked files c r)
    {e : RemoteEntry} (he : e.isDir = true → ¬c.Differs e) : Checked (e :: files) c r := by
  refine ⟨h.nodup, fun p => ?_, h.noLarger, h.etag, fun q hq => ?_⟩
  · rw [h.changed p]
    constructor
    · intro ⟨x, hx, hrest⟩
      exact ⟨x, List.mem_cons_of_mem _ hx, hrest⟩
    · intro ⟨x, hx, hdir, hpath, hdiff⟩
      obtain rfl | hx := List.mem_cons.mp hx
      · exact absurd hdiff (he hdir)
      · exact ⟨x, hx, hdir, hpath, hdiff⟩
  · exact h.others q fun x hx => hq x (List.mem_cons_of_mem _ hx)

/-- Checking the children of a directory tells the changed ones from the others. -/
theorem checkChildren_checked (now : Nat) (files : List RemoteEntry) (c : FsCache)
    (hdistinct : (files.map (·.path)).Nodup) : Checked files c (checkChildren now files c) := by
  -- the induction is over the entries of the listing
  induction files generalizing c with
  | nil =>
    refine ⟨List.nodup_nil, fun p => by simp [checkChildren], .refl c, fun q d' hd' => ⟨d', hd', rfl⟩,
      fun _ _ => rfl⟩
  | cons e files ih =>
    rw [List.map_cons, List.nodup_cons] at hdistinct
    obtain ⟨hnew, hdistinct⟩ := hdistinct
    have hne : ∀ x ∈ files, x.path ≠ e.path := fun x hx heq => hnew (heq ▸ List.mem_map_of_mem hx)
    rw [checkChildren]
    split
    · -- a file, and a directory that is not cached, are skipped
      rename_i hfile
      exact (ih c hdistinct).skip fun hdir => by simp [hdir] at hfile
    · rename_i hfile
      have hisDir : e.isDir = true := by simpa using hfile
      split
      · rename_i hnone
        exact (ih c hdistinct).skip fun _ ⟨d, hd, _⟩ => by simp [hnone] at hd
      · rename_i d hd
        split
        · -- the child is confirmed: its etag stays, and the entries to come find theirs as before
          rename_i hsame
          obtain ⟨hlarger, hothers, hetag⟩ := confirmDirFresh_spec c e.path now
          have hrest := ih (c.confirmDirFresh e.path now).2 hdistinct
          have hdiffers : ∀ x ∈ files, (c.confirmDirFresh e.path now).2.Differs x ↔ c.Differs x := by
            intro x hx
            rw [Differs, Differs, hothers x.path (hne x hx)]
          have hnot : ¬c.Differs e := by
            intro ⟨d₂, hd₂, hdiff⟩
            rw [hd] at hd₂
            rw [← Option.some.inj hd₂, hsame] at hdiff
            cases hdiff
          refine ⟨hrest.nodup, fun p => ?_, hlarger.trans hrest.noLarger, fun q d' hd' => ?_, fun q hq => ?_⟩
          · rw [hrest.changed p]
            constructor
            · intro ⟨x, hx, hdir, hpath, hdiff⟩
              exact ⟨x, List.mem_cons_of_mem _ hx, hdir, hpath, (hdiffers x hx).mp hdiff⟩
            · intro ⟨x, hx, hdir, hpath, hdiff⟩
              obtain rfl | hx := List.mem_cons.mp hx
              · exact absurd hdiff hnot
              · exact ⟨x, hx, hdir, hpath, (hdiffers x hx).mpr hdiff⟩
          · obtain ⟨d₂, hd₂, heq⟩ := hrest.etag q d' hd'
            by_cases hq : q = e.path
            · subst hq
              obtain ⟨d₃, hd₃, heq'⟩ := hetag d₂ hd₂
              exact ⟨d₃, hd₃, heq.trans heq'⟩
            · exact ⟨d₂, (hothers q hq).symm.trans hd₂, heq⟩
          · have hqe : q ≠ e.path := by
              rintro rfl
              exact hnot (hq e List.mem_cons_self hisDir rfl)
            rw [hrest.others q fun x hx hdir hpath =>
              (hdiffers x hx).mpr (hq x (List.mem_cons_of_mem _ hx) hdir hpath)]
            exact hothers q hqe
        · rename_i hdiff
          have hrest := ih c hdistinct
          have hdiffers : c.Differs e := ⟨d, hd, by simpa using hdiff⟩
          refine ⟨List.nodup_cons.mpr ⟨fun hmem => ?_, hrest.nodup⟩, fun p => ?_, hrest.noLarger, hrest.etag,
            fun q hq => hrest.others q fun x hx => hq x (List.mem_cons_of_mem _ hx)⟩
          · obtain ⟨x, hx, -, hpath, -⟩ := (hrest.changed e.path).mp hmem
            exact hne x hx hpath
          · rw [List.mem_cons, hrest.changed p]
            constructor
            · intro hp
              obtain rfl | ⟨x, hx, hmore⟩ := hp
              · exact ⟨e, List.mem_cons_self, hisDir, rfl, hdiffers⟩
              · exact ⟨x, List.mem_cons_of_mem _ hx, hmore⟩
            · intro ⟨x, hx, hmore⟩
              obtain rfl | hx := List.mem_cons.mp hx
              · exact .inl hmore.2.1.symm
              · exact .inr ⟨x, hx, hmore⟩

end FsCache

/-! ## What a validation reaches -/

variable {server : ServerTree} {down : PathBuf → Bool} {c c' c'' : FsCache} {p q : PathBuf} {n : Nat}

/-- The directories a validation of `p` lists or compares: `p`, its child directories, and with depth
    left what is reached from a cached child that differs, unless the connection is gone by then. -/
def Reached (server : ServerTree) (down : PathBuf → Bool) (c : FsCache) : Nat → PathBuf → PathBuf → Prop
  | 0, p, q => q = p ∨ ∃ l, server.listing p = some l ∧ ∃ e ∈ l.files, e.isDir = true ∧ q = e.path
  | n + 1, p, q => q = p ∨ ∃ l, server.listing p = some l ∧ ∃ e ∈ l.files, e.isDir = true ∧
      (q = e.path ∨ 0 < n ∧ c.Differs e ∧ down e.path = false ∧ Reached server down c n e.path q)

theorem Reached.prefix (h : Reached server down c n p q) : p <+: q := by
  induction n generalizing p with
  | zero =>
    obtain rfl | ⟨l, hl, e, he, -, rfl⟩ := h
    · exact List.prefix_rfl
    · obtain ⟨name, hname⟩ := server.child p l e hl he
      rw [hname]
      exact List.prefix_append _ _
  | succ n ih =>
    obtain rfl | ⟨l, hl, e, he, -, h⟩ := h
    · exact List.prefix_rfl
    · obtain ⟨name, hname⟩ := server.child p l e hl he
      have hchild : p <+: e.path := by
        rw [hname]
        exact List.prefix_append _ _
      obtain rfl | ⟨-, -, -, h⟩ := h
      · exact hchild
      · exact hchild.trans (ih h)

/-- It depends on what is cached below `p` only. -/
theorem reached_congr (h : ∀ x, p <+: x → x ≠ p → c'.dir x = c.dir x) :
    Reached server down c' n p q ↔ Reached server down c n p q := by
  induction n generalizing p with
  | zero => exact Iff.rfl
  | succ n ih =>
    simp only [Reached]
    refine or_congr_right (exists_congr fun l => and_congr_right fun hl => exists_congr fun e =>
      and_congr_right fun he => and_congr_right fun _ => or_congr_right ?_)
    obtain ⟨name, hname⟩ := server.child p l e hl he
    have hbelow : ∀ x, e.path <+: x → p <+: x ∧ x ≠ p := by
      intro x hx
      have hlen := hx.length_le
      rw [hname] at hx hlen
      refine ⟨(List.prefix_append _ _).trans hx, ?_⟩
      rintro rfl
      simp at hlen
    have hdir : c'.dir e.path = c.dir e.path :=
      h e.path (hbelow _ List.prefix_rfl).1 (hbelow _ List.prefix_rfl).2
    rw [FsCache.Differs, FsCache.Differs, hdir,
      ih (p := e.path) fun x hx _ => h x (hbelow x hx).1 (hbelow x hx).2]

/-- The listings there are once everything asked for has landed. -/
def Revalidation.size (v : Revalidation) : Nat := v.cache.dirCache.entries.length + v.background.length

/-- What is reached agrees with the server, and nothing else changes or is asked for. -/
structure Effect (server : ServerTree) (R : PathBuf → Prop) (v v' : Revalidation) : Prop where
  noLarger : v.cache.NoLarger v'.cache
  size : v'.size ≤ v.size
  reached : ∀ q, R q → v'.cache.Agrees server.listing q
  unreached : ∀ q, ¬R q → v'.cache.dir q = v.cache.dir q
  background : ∀ q ∈ v'.background, q ∈ v.background ∨ R q

theorem FsCache.Agrees.congr (h : c.Agrees server.listing q) (hdir : c'.dir q = c.dir q) :
    c'.Agrees server.listing q := by
  intro d hd
  exact h d (hdir ▸ hd)

namespace Effect

variable {R R' : PathBuf → Prop} {v v' v'' : Revalidation}

theorem refl (v : Revalidation) (h : ∀ q, ¬R q) : Effect server R v v :=
  ⟨.refl v.cache, Nat.le_refl _, fun q hq => absurd hq (h q), fun _ _ => rfl, fun _ hq => .inl hq⟩

theorem trans (h : Effect server R v v') (h' : Effect server R' v' v'') :
    Effect server (fun q => R q ∨ R' q) v v'' := by
  refine ⟨h.noLarger.trans h'.noLarger, Nat.le_trans h'.size h.size, fun q hq => ?_, fun q hq => ?_,
    fun q hq => ?_⟩
  · by_cases hq' : R' q
    · exact h'.reached q hq'
    · exact (h.reached q (hq.resolve_right hq')).congr (h'.unreached q hq')
  · rw [not_or] at hq
    exact (h'.unreached q hq.2).trans (h.unreached q hq.1)
  · obtain hq | hq := h'.background q hq
    · exact (h.background q hq).imp_right .inl
    · exact .inr (.inr hq)

/-- The reached directories may be given another name. -/
theorem congr (h : Effect server R v v') (hR : ∀ q, R q ↔ R' q) : Effect server R' v v' where
  noLarger := h.noLarger
  size := h.size
  reached q hq := h.reached q ((hR q).mpr hq)
  unreached q hq := h.unreached q fun hr => hq ((hR q).mp hr)
  background q hq := (h.background q hq).imp_right (hR q).mp

/-- Asking for more of what is reached. -/
theorem request (h : Effect server R v v') (hcache : v''.cache = v'.cache) (hsize : v''.size ≤ v.size)
    (hbackground : ∀ q ∈ v''.background, q ∈ v'.background ∨ R q) : Effect server R v v'' where
  noLarger := hcache ▸ h.noLarger
  size := hsize
  reached q hq := hcache ▸ h.reached q hq
  unreached q hq := hcache ▸ h.unreached q hq
  background q hq := (hbackground q hq).elim (h.background q) .inr

end Effect

/-- What listing one directory does before any child is gone into. -/
theorem listed_effect {l : Listed} (hl : server.listing p = some l) {v : Revalidation}
    (hfits : v.cache.Fits) (hp : (v.cache.dir p).isSome) (depth now : Nat) :
    let r := checkChildren now l.files v.cache
    let c₁ := (distrust depth r.1 r.2).putDirCache p l.etag l.selfEntry l.files now
    Effect server (fun q => q = p ∨ ∃ e ∈ l.files, e.isDir = true ∧ q = e.path) v { v with cache := c₁ } ∧
      (1 < depth → ∀ q ∈ r.1, ∃ d, c₁.dir q = some d ∧ d.invalidated = true) ∧
      (¬1 < depth → c₁.dirCache.entries.length + r.1.length ≤ v.cache.dirCache.entries.length) := by
  intro r c₁
  set c := v.cache
  have hr : FsCache.Checked l.files c r := FsCache.checkChildren_checked now l.files c (server.distinct p l hl)
  have hchild : ∀ e ∈ l.files, e.path ≠ p := by
    intro e he heq
    obtain ⟨name, hname⟩ := server.child p l e hl he
    rw [heq] at hname
    simpa using congrArg List.length hname
  have hpchanged : p ∉ r.1 := by
    intro hmem
    obtain ⟨e, he, -, hpath, -⟩ := (hr.changed p).mp hmem
    exact hchild e he hpath
  -- a changed child is still cached: nothing else was found in its place
  have hcached : ∀ q ∈ r.1, (r.2.dir q).isSome := by
    intro q hq
    obtain ⟨e, he, hdir, rfl, d₀, hd₀, hdiff⟩ := (hr.changed q).mp hq
    rw [hr.others e.path fun x hx _ hxe => ?_, hd₀]
    · rfl
    · obtain rfl := List.inj_on_of_nodup_map (server.distinct p l hl) hx he hxe
      exact ⟨d₀, hd₀, hdiff⟩
  -- the changed children are dropped or marked, the others are left alone
  have hdistrust : c.NoLarger (distrust depth r.1 r.2) ∧
      (∀ q, q ∉ r.1 → (distrust depth r.1 r.2).dir q = r.2.dir q) ∧
      (∀ q ∈ r.1, ∀ d, (distrust depth r.1 r.2).dir q = some d → d.invalidated = true) ∧
      (1 < depth → ∀ q ∈ r.1, ((distrust depth r.1 r.2).dir q).isSome) ∧
      (¬1 < depth → (distrust depth r.1 r.2).dirCache.entries.length + r.1.length ≤
        c.dirCache.entries.length) := by
    unfold distrust
    -- the last level drops the changed children, the others mark them
    split
    · rename_i hdepth
      refine ⟨hr.noLarger.trans (FsCache.dir_foldl_removeDir (q := p) _ _).2, fun q hq => ?_,
        fun q hq d hd => ?_, fun h => absurd h (by omega), fun _ => ?_⟩
      · rw [(FsCache.dir_foldl_removeDir _ _).1, if_neg hq]
      · rw [(FsCache.dir_foldl_removeDir _ _).1, if_pos hq] at hd
        cases hd
      · rw [FsCache.length_foldl_removeDir hr.nodup hcached]
        exact hr.noLarger.length
    · refine ⟨hr.noLarger.trans (FsCache.dir_foldl_invalidateDir (q := p) _ _).2, fun q hq => ?_,
        fun q hq d hd => ?_, fun _ q hq => ?_, fun h => absurd (by omega) h⟩
      · rw [(FsCache.dir_foldl_invalidateDir _ _).1, if_neg hq]
      · rw [(FsCache.dir_foldl_invalidateDir _ _).1, if_pos hq] at hd
        obtain ⟨d₀, -, rfl⟩ := Option.map_eq_some_iff.mp hd
        rfl
      · rw [(FsCache.dir_foldl_invalidateDir _ _).1, if_pos hq, Option.isSome_map]
        exact hcached q hq
  obtain ⟨hlarger, hothers, hmarked, hkept, hcount⟩ := hdistrust
  have hpcached : ((distrust depth r.1 r.2).dir p).isSome := by
    rw [hothers p hpchanged, hr.others p fun e he _ hpath => absurd hpath (hchild e he)]
    exact hp
  obtain ⟨hput, hputdir⟩ := FsCache.putDirCache_fits
    (hfits.noLarger hlarger) hpcached
  have hsize : c₁.dirCache.entries.length ≤ c.dirCache.entries.length := (hlarger.trans hput).length
  refine ⟨⟨hlarger.trans hput, Nat.add_le_add_right hsize _, fun q hq => ?_, fun q hq => ?_,
    fun _ hq => .inl hq⟩, fun hdepth q hq => ?_, fun hdepth => ?_⟩
  · -- what was reached and is trusted now is as on the server
    intro d hd hinv hexp
    by_cases hqp : q = p
    · subst hqp
      obtain ⟨-, -, hetag⟩ | ⟨hne, -⟩ := FsCache.putDirCache_dir hd
      · exact ⟨l, hl, hetag.symm⟩
      · exact absurd rfl hne
    · obtain ⟨e, he, hdir, rfl⟩ := hq.resolve_left hqp
      rw [show c₁.dir e.path = _ from hputdir e.path hqp] at hd
      by_cases hmem : e.path ∈ r.1
      · rw [hmarked e.path hmem d hd] at hinv
        cases hinv
      · rw [hothers e.path hmem] at hd
        obtain ⟨d₀, hd₀, hetag⟩ := hr.etag e.path d hd
        -- a child that is neither dropped nor marked has the etag of the listing
        have hsame : sameEtag e.changeToken d₀.etag = true := by
          by_contra hdiff
          exact hmem ((hr.changed e.path).mpr ⟨e, he, hdir, rfl, d₀, hd₀, by simpa using hdiff⟩)
        obtain ⟨l', hl', hetag'⟩ := server.child_etag p l e hl he hdir
        refine ⟨l', hl', ?_⟩
        rw [hetag', hetag]
        unfold sameEtag at hsame
        split at hsame
        · rename_i f t hf ht
          rw [hf, ht, of_decide_eq_true hsame]
        · cases hsame
  · -- what was not reached is as before
    rw [not_or] at hq
    have hmem : q ∉ r.1 := by
      intro hmem
      obtain ⟨e, he, hdir, hpath, -⟩ := (hr.changed q).mp hmem
      exact hq.2 ⟨e, he, hdir, hpath.symm⟩
    rw [show c₁.dir q = _ from hputdir q hq.1, hothers q hmem]
    exact hr.others q fun e he hdir hpath => absurd ⟨e, he, hdir, hpath.symm⟩ hq.2
  · have hqp : q ≠ p := by
      rintro rfl
      exact hpchanged hq
    obtain ⟨d, hd⟩ := Option.isSome_iff_exists.mp (hkept hdepth q hq)
    exact ⟨d, (hputdir q hqp).trans hd, hmarked q hq d hd⟩
  · exact Nat.le_trans (Nat.add_le_add_right hput.length _) (hcount hdepth)

/-! ## The descent -/

/-- A listing that is asked for in the background leaves the cache alone. -/
theorem startBackgroundPropfind_spec (env : ValidateEnv) (path : PathBuf) (v : Revalidation) :
    (startBackgroundPropfind env path v).cache = v.cache ∧
      (startBackgroundPropfind env path v).size ≤ v.size + 1 ∧
      ∀ q ∈ (startBackgroundPropfind env path v).background, q ∈ v.background ∨ q = path := by
  unfold startBackgroundPropfind
  split
  · exact ⟨rfl, Nat.le_succ _, fun _ hq => .inl hq⟩
  · refine ⟨rfl, ?_, fun q hq => ?_⟩
    · simp [Revalidation.size, Nat.add_assoc]
    · simpa using hq

/-- With no depth left nothing is gone into. -/
theorem foldl_followUp_leaf {env : ValidateEnv} {depth : Nat} (hdepth : ¬1 < depth)
    (descend : PathBuf → Revalidation → Bool × Revalidation) (qs : List PathBuf) (v : Revalidation) :
    (qs.foldl (followUp env depth descend) v).cache = v.cache ∧
      (qs.foldl (followUp env depth descend) v).size ≤ v.size + qs.length ∧
      ∀ q ∈ (qs.foldl (followUp env depth descend) v).background, q ∈ v.background ∨ q ∈ qs := by
  induction qs generalizing v with
  | nil => exact ⟨rfl, Nat.le_refl _, fun _ hq => .inl hq⟩
  | cons x qs ih =>
    obtain ⟨hcache, hsize, hbackground⟩ := startBackgroundPropfind_spec env x v
    obtain ⟨hcache', hsize', hbackground'⟩ := ih (startBackgroundPropfind env x v)
    rw [List.foldl_cons, followUp, if_neg hdepth, List.length_cons]
    refine ⟨hcache'.trans hcache, by omega, fun q hq => ?_⟩
    obtain hq | hq := hbackground' q hq
    · obtain hq | rfl := hbackground q hq
      · exact .inl hq
      · exact .inr List.mem_cons_self
    · exact .inr (List.mem_cons_of_mem _ hq)

/-- The descent is what the recursion says of it, for one depth less. -/
def Descends (server : ServerTree) (env : ValidateEnv) (n : Nat) : Prop :=
  ∀ (p : PathBuf) (v : Revalidation), v.cache.Fits → (v.cache.dir p).isSome → env.down p = false →
    (server.listing p).isSome →
      (validateSubtree server.listing env n p v).1 = true ∧
      Effect server (Reached server env.down v.cache n p) v (validateSubtree server.listing env n p v).2

/-- A directory that is down is not validated. -/
theorem validateSubtree_down {answer : PathBuf → Option Listed} {env : ValidateEnv}
    (h : env.down p = true) (v : Revalidation) : validateSubtree answer env n p v = (false, v) := by
  cases n <;> simp [validateSubtree, validateDir, h]

/-- A changed child is validated in its turn, or goes on unvalidated and untrusted. -/
theorem followUp_effect {env : ValidateEnv} (hdescends : Descends server env n) (hn : 0 < n)
    {v : Revalidation} (hfits : v.cache.Fits) {d : DirCacheEntry} (hd : v.cache.dir q = some d)
    (hmarked : d.invalidated = true) (hlisted : (server.listing q).isSome) :
    Effect server (fun x => x = q ∨ env.down q = false ∧ Reached server env.down v.cache n q x) v
      (followUp env (n + 1) (validateSubtree server.listing env n) v q) := by
  rw [followUp, if_pos (by omega)]
  -- whether the child can be asked
  cases hdown : env.down q with
  | false =>
    obtain ⟨htrue, heffect⟩ := hdescends q v hfits (by rw [hd]; rfl) hdown hlisted
    simp only [htrue, if_true]
    refine heffect.congr fun x => ?_
    constructor
    · exact fun hx => .inr ⟨trivial, hx⟩
    · intro hx
      obtain rfl | ⟨-, hx⟩ := hx
      · cases n with
        | zero => omega
        | succ n => exact .inl rfl
      · exact hx
  | true =>
    -- the child keeps its mark, or goes and is asked for in the background
    simp only [validateSubtree_down hdown, Bool.false_eq_true, if_false]
    split
    · refine ⟨.refl _, Nat.le_refl _, fun x hx d' hd' hinv => ?_, fun _ _ => rfl, fun _ hx => .inl hx⟩
      obtain rfl : x = q := by simpa using hx
      rw [hd] at hd'
      rw [← Option.some.inj hd', hmarked] at hinv
      cases hinv
    · set v' : Revalidation := { v with cache := v.cache.removeDir q }
      obtain ⟨hcache, hsize, hbackground⟩ := startBackgroundPropfind_spec env q v'
      have hlen : v'.size + 1 = v.size := by
        have := FsCache.length_removeDir (c := v.cache) (p := q) (by rw [hd]; rfl)
        simp only [Revalidation.size, v']
        omega
      have hremoved : Effect server (fun x => x = q ∨ true = false ∧
        Reached server env.down v.cache n q x) v v' := by
        refine ⟨FsCache.noLarger_removeDir,
          by omega, fun x hx d' hd' => ?_, fun x hx => ?_, fun _ hx => .inl hx⟩
        · obtain rfl : x = q := by simpa using hx
          rw [FsCache.dir_removeDir, if_pos rfl] at hd'
          cases hd'
        · rw [FsCache.dir_removeDir, if_neg]
          exact fun heq => hx (.inl heq)
      exact hremoved.request hcache (by omega) fun x hx => (hbackground x hx).imp_right .inl

/-- Siblings do not meet: what one descent changes lies below its own child. -/
theorem foldl_followUp_effect {env : ValidateEnv} (hdescends : Descends server env n) (hn : 0 < n)
    {qs : List PathBuf} (hnodup : qs.Nodup) (hchildren : ∀ q ∈ qs, ∃ name, q = p ++ [name])
    (hlisted : ∀ q ∈ qs, (server.listing q).isSome) {v : Revalidation} (hfits : v.cache.Fits)
    (hmarked : ∀ q ∈ qs, ∃ d, v.cache.dir q = some d ∧ d.invalidated = true) :
    Effect server (fun x => ∃ q ∈ qs, x = q ∨ env.down q = false ∧ Reached server env.down v.cache n q x)
      v (qs.foldl (followUp env (n + 1) (validateSubtree server.listing env n)) v) := by
  -- the induction is over the children that are still to come
  induction qs generalizing v with
  | nil => exact .refl _ fun x ⟨q, hq, _⟩ => absurd hq List.not_mem_nil
  | cons q qs ih =>
    obtain ⟨d, hd, hinv⟩ := hmarked q List.mem_cons_self
    have hstep := followUp_effect hdescends hn hfits hd hinv (hlisted q List.mem_cons_self)
    rw [List.foldl_cons]
    generalize followUp env (n + 1) (validateSubtree server.listing env n) v q = v₁ at hstep ⊢
    obtain ⟨hq, hnodup⟩ := List.nodup_cons.mp hnodup
    -- the other children, and what is below them, are as they were
    have hsame : ∀ q' ∈ qs, ∀ x, q' <+: x → v₁.cache.dir x = v.cache.dir x := by
      intro q' hq' x hx
      apply hstep.unreached
      intro hreached
      have hprefix : q <+: x := by
        obtain rfl | ⟨-, hreached⟩ := hreached
        · exact List.prefix_rfl
        · exact hreached.prefix
      obtain ⟨name, hname⟩ := hchildren q List.mem_cons_self
      obtain ⟨name', hname'⟩ := hchildren q' (List.mem_cons_of_mem _ hq')
      have hlen : q.length = q'.length := by simp [hname, hname']
      obtain rfl := (List.prefix_of_prefix_length_le hprefix hx hlen.le).eq_of_length hlen
      exact hq hq'
    have hrest := ih hnodup (fun q' hq' => hchildren q' (List.mem_cons_of_mem _ hq'))
      (fun q' hq' => hlisted q' (List.mem_cons_of_mem _ hq')) (hfits.noLarger hstep.noLarger)
      fun q' hq' => by
        rw [hsame q' hq' q' List.prefix_rfl]
        exact hmarked q' (List.mem_cons_of_mem _ hq')
    refine (hstep.trans hrest).congr fun x => ?_
    have hreached : ∀ q' ∈ qs, Reached server env.down v₁.cache n q' x ↔
      Reached server env.down v.cache n q' x :=
      fun q' hq' => reached_congr fun y hy _ => hsame q' hq' y hy
    simp only [List.mem_cons, exists_eq_or_imp]
    refine or_congr_right (exists_congr fun q' => and_congr_right fun hq' => ?_)
    rw [hreached q' hq']

/-- A directory that is listed, with the depth left for its changed children. -/
theorem validateDir_effect {env : ValidateEnv} {depth : Nat} {l : Listed} (hl : server.listing p = some l)
    (hdown : env.down p = false) {v : Revalidation} (hp : (v.cache.dir p).isSome)
    (descend : PathBuf → Revalidation → Bool × Revalidation) :
    let r := checkChildren env.now l.files v.cache
    let c₁ := (distrust depth r.1 r.2).putDirCache p l.etag l.selfEntry l.files env.now
    validateDir server.listing env depth descend p v =
      (true, r.1.foldl (followUp env depth descend) { v with cache := c₁ }) := by
  have hnone : (v.cache.dir p).isNone = false := by
    cases hd : v.cache.dir p <;> simp_all
  simp [validateDir, hdown, hnone, hl]

/-- Without depth the changed children are left to the background. -/
theorem leaf_effect {env : ValidateEnv} {l : Listed} (hl : server.listing p = some l) {v : Revalidation}
    (hfits : v.cache.Fits) (hp : (v.cache.dir p).isSome) {depth : Nat} (hdepth : ¬1 < depth)
    (descend : PathBuf → Revalidation → Bool × Revalidation) :
    let r := checkChildren env.now l.files v.cache
    let c₁ := (distrust depth r.1 r.2).putDirCache p l.etag l.selfEntry l.files env.now
    Effect server (fun q => q = p ∨ ∃ e ∈ l.files, e.isDir = true ∧ q = e.path) v
      (r.1.foldl (followUp env depth descend) { v with cache := c₁ }) := by
  intro r c₁
  have hr := FsCache.checkChildren_checked env.now l.files v.cache (server.distinct p l hl)
  obtain ⟨hcache, hsize, hbackground⟩ := foldl_followUp_leaf hdepth descend r.1 { v with cache := c₁ }
  obtain ⟨heffect, -, hcount⟩ := listed_effect hl hfits hp depth env.now
  have hlen : c₁.dirCache.entries.length + r.1.length ≤ v.cache.dirCache.entries.length := hcount hdepth
  refine heffect.request hcache ?_ fun q hq => ?_
  · simp only [Revalidation.size] at hsize ⊢
    omega
  refine (hbackground q hq).imp_right fun hq => ?_
  obtain ⟨e, he, hdir, hpath, -⟩ := (hr.changed q).mp hq
  exact .inr ⟨e, he, hdir, hpath.symm⟩

/-- Validating a subtree brings up to date what it reaches, and leaves the rest. -/
theorem validateSubtree_effect (env : ValidateEnv) (n : Nat) : Descends server env n := by
  -- the induction is over the levels that are left
  induction n with
  | zero =>
    intro p v hfits hp hdown hlisted
    obtain ⟨l, hl⟩ := Option.isSome_iff_exists.mp hlisted
    rw [validateSubtree, validateDir_effect hl hdown hp]
    refine ⟨rfl, ?_⟩
    refine (leaf_effect hl hfits hp (by omega) _).congr fun q => ?_
    simp [Reached, hl]
  | succ n ih =>
    intro p v hfits hp hdown hlisted
    obtain ⟨l, hl⟩ := Option.isSome_iff_exists.mp hlisted
    rw [validateSubtree, validateDir_effect hl hdown hp]
    refine ⟨rfl, ?_⟩
    -- on the last level the changed children are dropped
    by_cases hn : 0 < n
    · obtain ⟨heffect, hmarked, -⟩ := listed_effect hl hfits hp (n + 1) env.now
      have hchecked := FsCache.checkChildren_checked env.now l.files v.cache (server.distinct p l hl)
      generalize checkChildren env.now l.files v.cache = r at heffect hmarked hchecked ⊢
      generalize (distrust (n + 1) r.1 r.2).putDirCache p l.etag l.selfEntry l.files env.now = c₁
        at heffect hmarked ⊢
      have hchildren : ∀ q ∈ r.1, ∃ name, q = p ++ [name] := by
        intro q hq
        obtain ⟨e, he, -, rfl, -⟩ := (hchecked.changed q).mp hq
        exact server.child p l e hl he
      have hlisted : ∀ q ∈ r.1, (server.listing q).isSome := by
        intro q hq
        obtain ⟨e, he, hdir, rfl, -⟩ := (hchecked.changed q).mp hq
        obtain ⟨l', hl', -⟩ := server.child_etag p l e hl he hdir
        rw [hl']
        rfl
      have hloop := foldl_followUp_effect ih hn hchecked.nodup hchildren hlisted
        (v := { v with cache := c₁ }) (hfits.noLarger heffect.noLarger) (hmarked (by omega))
      -- below a child the cache is still the one the validation began with
      have hreached : ∀ q ∈ r.1, ∀ x, Reached server env.down c₁ n q x ↔
          Reached server env.down v.cache n q x := by
        intro q hq x
        obtain ⟨name, rfl⟩ := hchildren q hq
        apply reached_congr
        intro y hy hne
        apply heffect.unreached
        have hlen : (p ++ [name]).length < y.length := by
          refine Nat.lt_of_le_of_ne hy.length_le fun heq => hne (hy.eq_of_length heq).symm
        rw [List.length_append, List.length_singleton] at hlen
        intro hy'
        obtain rfl | ⟨e, he, -, rfl⟩ := hy'
        · omega
        · obtain ⟨name', hname'⟩ := server.child p l e hl he
          simp [hname'] at hlen
      -- what is reached: the directory, its children, and what is below the changed ones
      refine (heffect.trans hloop).congr fun q => ?_
      simp only [Reached, hl, Option.some.injEq, exists_eq_left', or_assoc]
      refine or_congr_right ?_
      constructor
      · intro h
        obtain ⟨e, he, hdir, rfl⟩ | ⟨q', hq', hx⟩ := h
        · exact ⟨e, he, hdir, .inl rfl⟩
        · rw [hreached q' hq'] at hx
          obtain ⟨e, he, hdir, rfl, hdiff⟩ := (hchecked.changed q').mp hq'
          exact ⟨e, he, hdir, hx.imp_right fun hx => ⟨hn, hdiff, hx⟩⟩
      · intro ⟨e, he, hdir, hx⟩
        obtain rfl | ⟨-, hdiff, hx⟩ := hx
        · exact .inl ⟨e, he, hdir, rfl⟩
        · have hq' : e.path ∈ r.1 := (hchecked.changed e.path).mpr ⟨e, he, hdir, rfl, hdiff⟩
          refine .inr ⟨e.path, hq', ?_⟩
          rw [hreached e.path hq']
          exact .inr hx
    · refine (leaf_effect hl hfits hp (by omega) _).congr fun q => ?_
      simp [Reached, hl, hn]

/-! ## What is trusted in the end -/

/-- A listing that lands carries the server's etag. -/
theorem landBackground_agrees (now : Nat) (landed : List PathBuf)
    (h : c.Agrees server.listing q) : (landBackground server.listing now landed c).Agrees server.listing q := by
  refine List.foldlRecOn (motive := fun b : FsCache => b.Agrees server.listing q) _ _ h
    fun b hb p _ => ?_
  split
  · rename_i l hl
    intro d hd hinv hexp
    obtain ⟨rfl, -, hetag⟩ | ⟨-, hd⟩ := FsCache.putDirCache_dir hd
    · exact ⟨l, hl, hetag.symm⟩
    · exact hb d hd hinv hexp
  · exact hb

/-- There is room for all that lands, and the others stay. -/
theorem landBackground_dir (now : Nat) {landed : List PathBuf} (hq : q ∉ landed)
    (hroom : c.dirCacheMaxDirs = 0 ∨ c.dirCache.entries.length + landed.length ≤ c.dirCacheMaxDirs) :
    (landBackground server.listing now landed c).dir q = c.dir q := by
  induction landed generalizing c with
  | nil => rfl
  | cons p landed ih =>
    rw [List.mem_cons, not_or] at hq
    rw [List.length_cons] at hroom
    rw [landBackground, List.foldl_cons]
    split
    · rename_i l hl
      obtain ⟨hmax, hlen, hdir⟩ := FsCache.putDirCache_room (k := 1)
        (c := c) (p := p)
        FsCache.length_setDir_le (by omega)
      rw [← hdir q hq.1]
      exact ih hq.2 (by omega)
    · exact ih hq.2 (by omega)

/-- Nothing is listed: the cache is served as it is. -/
theorem validateSubtree_stops {env : ValidateEnv} (h : ¬((c.dir []).isSome ∧ env.down [] = false))
    (answer : PathBuf → Option Listed) :
    validateSubtree answer env n [] { cache := c } = (false, { cache := c }) := by
  rw [not_and_or] at h
  cases n <;> obtain hroot | hup := h <;> simp_all [validateSubtree, validateDir]

/-- Where the validation does not come, what was cached is there after all requests are answered. -/
theorem unreached_stays {env : ValidateEnv} {depth : Nat} (hfits : c.Fits) {landed : List PathBuf} (now : Nat)
    (hlanded : landed.Subperm (validateSubtree server.listing env depth [] { cache := c }).2.background)
    (hq : ¬((c.dir []).isSome ∧ env.down [] = false ∧ Reached server env.down c depth [] q)) :
    (landBackground server.listing now landed
      (validateSubtree server.listing env depth [] { cache := c }).2.cache).dir q = c.dir q := by
  by_cases hstarts : (c.dir []).isSome ∧ env.down [] = false
  · obtain ⟨hroot, hup⟩ := hstarts
    have hnot : ¬Reached server env.down c depth [] q := fun h => hq ⟨hroot, hup, h⟩
    obtain ⟨-, heffect⟩ := validateSubtree_effect env depth [] { cache := c } hfits hroot
      hup server.root
    generalize (validateSubtree server.listing env depth [] { cache := c }).2 = v at heffect hlanded ⊢
    have hmem : q ∉ landed := by
      intro hmem
      exact hnot ((heffect.background q (hlanded.subset hmem)).resolve_left List.not_mem_nil)
    -- what lands has the room of what was taken out
    have hroom : v.cache.dirCacheMaxDirs = 0 ∨
        v.cache.dirCache.entries.length + landed.length ≤ v.cache.dirCacheMaxDirs := by
      have hsize := heffect.size
      have hlen := hlanded.length_le
      rw [show v.cache.dirCacheMaxDirs = c.dirCacheMaxDirs from heffect.noLarger.max]
      simp only [Revalidation.size, List.length_nil] at hsize
      exact hfits.imp_right fun h => by omega
    exact (landBackground_dir now hmem hroom).trans (heffect.unreached q hnot)
  · rw [validateSubtree_stops hstarts] at hlanded ⊢
    rw [List.subperm_nil.mp hlanded]
    rfl

/-- What is trusted after the validation has the server's etag if and only if each trusted listing that
    had another one was reached. -/
theorem validated_trust_iff (server : ServerTree) (env : ValidateEnv) (depth : Nat) (c : FsCache)
    (hfits : c.Fits) (landed : List PathBuf) (now : Nat)
    (hlanded : landed.Subperm (validateSubtree server.listing env depth [] { cache := c }).2.background) :
    (∀ q, (landBackground server.listing now landed
        (validateSubtree server.listing env depth [] { cache := c }).2.cache).Agrees server.listing q) ↔
      ∀ q, ¬c.Agrees server.listing q →
        (c.dir []).isSome ∧ env.down [] = false ∧ Reached server env.down c depth [] q := by
  constructor
  · intro h q hq
    by_contra hnot
    exact hq ((h q).congr (unreached_stays hfits now hlanded hnot).symm)
  · intro h q
    by_cases hq : c.Agrees server.listing q
    · by_cases hreached : (c.dir []).isSome ∧ env.down [] = false ∧ Reached server env.down c depth [] q
      · obtain ⟨hroot, hup, hreached⟩ := hreached
        obtain ⟨-, heffect⟩ := validateSubtree_effect env depth [] { cache := c } hfits
          hroot hup server.root
        exact landBackground_agrees now landed (heffect.reached q hreached)
      · exact hq.congr (unreached_stays hfits now hlanded hreached)
    · obtain ⟨hroot, hup, hreached⟩ := h q hq
      obtain ⟨-, heffect⟩ := validateSubtree_effect env depth [] { cache := c } hfits
        hroot hup server.root
      exact landBackground_agrees now landed (heffect.reached q hreached)

/-! ## A parent listed later -/

/-- A file two directories down, and the etags above it. -/
def docsListing (v : String) : PathBuf → Option Listed
  | [] => some { etag := some v, files := [{ path := ["docs"], isDir := true, size := 0, changeToken := some v }] }
  | ["docs"] => some { etag := some v, files :=
      [{ path := ["docs", "old"], isDir := true, size := 0, changeToken := some v }] }
  | ["docs", "old"] => some { etag := some v, files :=
      [{ path := ["docs", "old", "a.txt"], isDir := false, size := 1, changeToken := some v }] }
  | _ => none

/-- The directories of the example have one version. -/
theorem docsListing_eq_some {v : String} {l : Listed} (h : docsListing v p = some l) :
    (p = [] ∨ p = ["docs"] ∨ p = ["docs", "old"]) ∧ l.etag = some v := by
  unfold docsListing at h
  split at h
  all_goals cases h
  all_goals simp

/-- The server while everything below the root is at version `v`. -/
def docsServer (v : String) : ServerTree where
  listing := docsListing v
  root := rfl
  child d l e hl he := by
    obtain ⟨rfl | rfl | rfl, -⟩ := docsListing_eq_some hl
    all_goals
      cases hl
      obtain rfl := List.mem_singleton.mp he
      exact ⟨_, rfl⟩
  child_etag d l e hl he hdir := by
    obtain ⟨rfl | rfl | rfl, -⟩ := docsListing_eq_some hl
    all_goals
      cases hl
      obtain rfl := List.mem_singleton.mp he
    · exact ⟨_, rfl, rfl⟩
    · exact ⟨_, rfl, rfl⟩
    · cases hdir
  distinct d l hl := by
    obtain ⟨rfl | rfl | rfl, -⟩ := docsListing_eq_some hl
    all_goals
      cases hl
      exact List.nodup_singleton _

/-- The listings of the three directories at version `v`. -/
def docsCached (v : String) (d : PathBuf) : DirCacheEntry :=
  { files := ((docsListing v d).getD {}).files, etag := some v }

/-- `/docs/old` listed at version `x`, `/docs` at `y` and the root at `z`. -/
def docsCache (x y z : String) : FsCache :=
  (((FsCache.startup 0).setDir ["docs", "old"] (docsCached x ["docs", "old"])).setDir ["docs"]
    (docsCached y ["docs"])).setDir [] (docsCached z [])

/-- The cached listings of the example have theirs. -/
theorem docsCache_eq_some {x y z : String} {d : DirCacheEntry} (h : (docsCache x y z).dir q = some d) :
    q = [] ∧ d = docsCached z [] ∨ q = ["docs"] ∧ d = docsCached y ["docs"] ∨
      q = ["docs", "old"] ∧ d = docsCached x ["docs", "old"] := by
  simp only [docsCache, FsCache.dir_setDir] at h
  split at h
  · rename_i hq
    exact .inl ⟨hq, (Option.some.inj h).symm⟩
  split at h
  · rename_i hq
    exact .inr (.inl ⟨hq, (Option.some.inj h).symm⟩)
  split at h
  · rename_i hq
    exact .inr (.inr ⟨hq, (Option.some.inj h).symm⟩)
  · cases h

/-- A server that can be asked. -/
def online : ValidateEnv where
  down _ := false
  downAfter _ := false
  starts _ := true
  now := 0

/-- Listings that are all outdated: two levels are listed, the third in the background. -/
theorem outdated_tree_is_validated :
    (landBackground (docsServer "2").listing 0
      (validateSubtree (docsServer "2").listing online 2 [] { cache := docsCache "1" "1" "1" }).2.background
      (validateSubtree (docsServer "2").listing online 2 [] { cache := docsCache "1" "1" "1" }).2.cache).Agrees
        (docsServer "2").listing ["docs", "old"] := by
  refine (validated_trust_iff (docsServer "2") online 2 (docsCache "1" "1" "1") (.inl rfl) _ 0
    (List.Subperm.refl _)).mpr (fun q hq => ⟨rfl, rfl, ?_⟩) ["docs", "old"]
  have hdiffers : (docsCache "1" "1" "1").Differs
      { path := ["docs"], isDir := true, size := 0, changeToken := some "2" } := ⟨_, rfl, by decide⟩
  have hcached : q = [] ∨ q = ["docs"] ∨ q = ["docs", "old"] := by
    by_contra hnot
    apply hq
    intro d hd
    obtain ⟨rfl, -⟩ | ⟨rfl, -⟩ | ⟨rfl, -⟩ := docsCache_eq_some hd
    all_goals simp at hnot
  obtain rfl | rfl | rfl := hcached
  all_goals simp [Reached, docsServer, docsListing, hdiffers, online]

/-- Between two states of a server, a collection's etag changes whenever anything below it does. -/
def ServerTree.Propagates (before after : ServerTree) : Prop :=
  ∀ p q, p <+: q → after.listing q ≠ before.listing q →
    (after.listing p).map (·.etag) ≠ (before.listing p).map (·.etag)

/-- What is cached was listed from one of the two states. -/
def FsCache.ListedFrom (c : FsCache) (before after : ServerTree) : Prop :=
  ∀ q d, c.dir q = some d → ∃ l, (before.listing q = some l ∨ after.listing q = some l) ∧
    d.etag = l.etag ∧ d.files = l.files

/-- An etag changes up to the root. -/
theorem docsServer_propagates {v w : String} (h : v ≠ w) : (docsServer v).Propagates (docsServer w) := by
  intro p q hpq hne
  have hq : q = [] ∨ q = ["docs"] ∨ q = ["docs", "old"] := by
    cases hv : docsListing v q with
    | some l => exact (docsListing_eq_some hv).1
    | none =>
      cases hw : docsListing w q with
      | some l => exact (docsListing_eq_some hw).1
      | none => exact absurd (hw.trans hv.symm) hne
  have hp : p ∈ q.inits := (List.mem_inits _ _).mpr hpq
  have hp' : p = [] ∨ p = ["docs"] ∨ p = ["docs", "old"] := by
    obtain rfl | rfl | rfl := hq
    all_goals
      simp [List.inits] at hp
      tauto
  obtain rfl | rfl | rfl := hp'
  all_goals simp [docsServer, docsListing, Ne.symm h]

/-- The listings were cached from these two versions. -/
theorem docsCache_listedFrom : (docsCache "1" "2" "2").ListedFrom (docsServer "1") (docsServer "2") := by
  intro q d hd
  obtain ⟨rfl, rfl⟩ | ⟨rfl, rfl⟩ | ⟨rfl, rfl⟩ := docsCache_eq_some hd
  · exact ⟨_, .inr rfl, rfl, rfl⟩
  · exact ⟨_, .inr rfl, rfl, rfl⟩
  · exact ⟨_, .inl rfl, rfl, rfl⟩

/-- Every validation stops at `/docs`, whose etag matches, and `/docs/old` stays trusted with the etag of
    version 1. -/
theorem grandchild_stays_trusted :
    (docsServer "1").Propagates (docsServer "2") ∧
      (docsCache "1" "2" "2").ListedFrom (docsServer "1") (docsServer "2") ∧
      ∀ (env : ValidateEnv) (depth now : Nat),
        ¬(landBackground (docsServer "2").listing now
            (validateSubtree (docsServer "2").listing env depth []
              { cache := docsCache "1" "2" "2" }).2.background
            (validateSubtree (docsServer "2").listing env depth []
              { cache := docsCache "1" "2" "2" }).2.cache).Agrees
          (docsServer "2").listing ["docs", "old"] := by
  refine ⟨docsServer_propagates (by decide), docsCache_listedFrom, fun env depth now hagrees => ?_⟩
  have hnot : ¬Reached (docsServer "2") env.down (docsCache "1" "2" "2") depth [] ["docs", "old"] := by
    have hsame : ¬(docsCache "1" "2" "2").Differs
        { path := ["docs"], isDir := true, size := 0, changeToken := some "2" } := by
      intro ⟨d, hd, hdiff⟩
      cases hd
      cases hdiff
    cases depth <;> simp [Reached, docsServer, docsListing, hsame]
  obtain ⟨l, hl, hetag⟩ := hagrees.congr (unreached_stays (c := docsCache "1" "2" "2") (.inl rfl) now
    (List.Subperm.refl _) fun h => hnot h.2.2).symm _ rfl rfl rfl
  cases hl
  exact absurd hetag (by decide)

end Ncrs
