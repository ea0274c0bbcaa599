import Ncrs.Spec.ListedEdits

/-!
# What the etag of a cached listing vouches for

A change is due from the request that edits the listing until the server has carried it out. Where a
cached listing carries the server's etag and yet differs from the server about a child, a change of
that child is due: requests queue what they edit, a change that is carried out renews the etag, and
a stored listing differs from what the server answered only by its guards.

Not every change that ends was carried out. A file made and closed unwritten is never uploaded, an
entry out of attempts is dropped, and the edit stays in a listing the probe confirms.

## Key results

- `ListedMount.leaving`: which changes a step ends, read off the state before it
- `ListedMount.Inv.leave`: the invariant under edits of changes that are due, while those that end
  are right in the listing
- `ListedMount.Inv.become`: under a change at the server, with the changes it carries out
- `ListedMount.Inv.store`: under a listing being stored
- `ListedMount.etag_vouches`: over all runs, while changes end by being carried out
-/

namespace Ncrs

/-! ## The server -/

namespace DavServer

variable {v v' : DavServer} {dir p : PathBuf} {tag : String}

/-- What has a kind is in the tree. -/
theorem mem_keys_of_kind {k : Bool} (h : v.kind p = some k) : p ∈ v.tree.keys := by
  obtain ⟨e, he, -⟩ := Option.map_eq_some_iff.mp h
  exact AList.lookup_isSome.mp (Option.isSome_of_mem he)

/-- What has an etag is in the tree. -/
theorem mem_keys_of_etag (h : v.etag dir = some tag) : dir ∈ v.tree.keys := by
  obtain ⟨e, he, -⟩ := Option.bind_eq_some_iff.mp h
  exact AList.lookup_isSome.mp (Option.isSome_of_mem he)

/-- Two trees with the same children of a directory have them of the same kinds. -/
theorem kind_of_sameChildren (h : v.sameChildren v' dir = true) (hp : isChild dir p = true) :
    v'.kind p = v.kind p := by
  have hat : p ∈ v.tree.keys ++ v'.tree.keys → v'.kind p = v.kind p := by
    intro hmem
    have := List.all_eq_true.mp h p hmem
    simpa [hp, eq_comm] using this
  cases hk : v.kind p with
  | some k => exact (hat (List.mem_append_left _ (mem_keys_of_kind hk))).trans hk
  | none =>
    cases hk' : v'.kind p with
    | none => rfl
    | some k => exact (hk'.symm.trans (hat (List.mem_append_right _ (mem_keys_of_kind hk')))).trans hk

/-- An etag that a folder has had it still has, over the same children. -/
theorem follows_etag (h : v.follows v' = true) (htag : v'.etag dir = some tag)
    (hused : (dir, tag) ∈ v.used) :
    v.etag dir = some tag ∧ ∀ p, isChild dir p = true → v'.kind p = v.kind p := by
  have hdir := List.all_eq_true.mp h dir (mem_keys_of_etag htag)
  simp only [htag, hused, not_true_eq_false, decide_false, Bool.false_or, Bool.and_eq_true,
    decide_eq_true_eq] at hdir
  exact ⟨hdir.1, fun p hp => kind_of_sameChildren hdir.2 hp⟩

/-- An etag of the new tree counts as used. -/
theorem etag_mem_become {tree : AList (fun _ : PathBuf => RemoteEntry)}
    (h : (v.become tree).etag dir = some tag) :
    (dir, tag) ∈ (v.become tree).used := by
  refine List.mem_append_right _ (List.mem_filterMap.mpr ⟨dir, mem_keys_of_etag h, ?_⟩)
  exact (congrArg (Option.map (dir, ·)) h :)

/-- A renewed directory has an etag it never had before. -/
theorem not_used_of_renewed (h : v.renewed v' dir = true) (htag : v'.etag dir = some tag) :
    (dir, tag) ∉ v.used := by
  rw [renewed, htag, Option.all_some] at h
  exact of_decide_eq_true h

/-- A listing holds the children of the directory under their full paths. -/
theorem mem_listing {e : RemoteEntry} : e ∈ v.listing dir ↔
    isChild dir e.path = true ∧ ∃ x, v.tree.lookup e.path = some x ∧
    e = { x with path := e.path } := by
  constructor
  · intro he
    obtain ⟨⟨p, x⟩, hx, rfl⟩ := List.mem_map.mp he
    obtain ⟨hx, hchild⟩ := List.mem_filter.mp hx
    exact ⟨hchild, x, AList.mem_lookup_iff.mpr hx, rfl⟩
  · rintro ⟨hchild, x, hx, heq⟩
    exact List.mem_map.mpr ⟨⟨e.path, x⟩,
      List.mem_filter.mpr ⟨AList.mem_lookup_iff.mp hx, hchild⟩, heq.symm⟩

end DavServer

/-! ## What is due -/

namespace ListedMount

variable {s s' : ListedMount}

/-- A change is due until the server has carried it out. -/
def owes (s : ListedMount) (l : Landing) : Bool := l ∉ s.landed

/-- A handle made by `create` is to bring its file, under its guard. -/
def makes (s : ListedMount) (h : DirHandle) : Bool :=
  h.created && !h.unlinked && decide (h.remotePath ∈ s.cache.uploading)

/-- The paths of the handles that make a file. -/
def made (s : ListedMount) : List PathBuf := (s.mount.openFiles.filter s.makes).map (·.remotePath)

/-- Where something is still to appear on the server. -/
def dueAdds (s : ListedMount) : List PathBuf :=
  (s.journal.landings.filter s.owes).flatMap (·.adds) ++ s.made

/-- Where something is still to go. -/
def dueRemoves (s : ListedMount) : List PathBuf :=
  (s.journal.landings.filter s.owes).flatMap (·.removes)

/-- A listing carries the etag the server has for the directory. -/
def current (s : ListedMount) (dir : PathBuf) (d : DirCacheEntry) : Bool :=
  d.etag.isSome && d.etag = s.server.etag dir

/-- Whatever a current listing shows at `p` is there. -/
def shownRight (s : ListedMount) (p : PathBuf) : Bool :=
  p = trackerignorePath || (s.cache.dir p.parent).all fun d => !s.current p.parent d ||
    d.files.all fun e => e.path ≠ p || s.server.kind p = some e.isDir

/-- A current listing shows something at `p` if there is. -/
def hiddenRight (s : ListedMount) (p : PathBuf) : Bool :=
  p = trackerignorePath || (s.cache.dir p.parent).all fun d =>
    !s.current p.parent d || (s.server.kind p).isNone || d.files.any fun e => e.path = p

/-- `files` are what the server has in `dir`. -/
structure Lists (v : DavServer) (dir : PathBuf) (files : List RemoteEntry) : Prop where
  there : ∀ e ∈ files, v.kind e.path = some e.isDir
  all : ∀ p, DavServer.isChild dir p = true → (v.kind p).isSome → ∃ e ∈ files, e.path = p

/-- `files` differ from what the server has in `dir` only by changes that are due (and by the
    `.trackerignore` entry). -/
structure Vouched (s : ListedMount) (dir : PathBuf) (files : List RemoteEntry) : Prop where
  there : ∀ e ∈ files, e.path ≠ trackerignorePath → s.server.kind e.path = some e.isDir ∨
    e.path ∈ s.dueAdds
  all : ∀ p, DavServer.isChild dir p = true → p ≠ trackerignorePath → (s.server.kind p).isSome →
    (∃ e ∈ files, e.path = p) ∨ p ∈ s.dueRemoves

/-- What holds of the mount between events: the etags it has are the server's, and a listing with
    the server's etag shows the server's tree but for changes that are due. -/
structure Inv (s : ListedMount) : Prop where
  seqs : ∀ e ∈ s.journal.entries, e.seq < s.journal.nextSeq
  landed : ∀ l ∈ s.landed, l.seq < s.journal.nextSeq
  used : ∀ dir tag, s.server.etag dir = some tag → (dir, tag) ∈ s.server.used
  children : ∀ dir d, s.cache.dir dir = some d → ∀ e ∈ d.files, DavServer.isChild dir e.path = true
  known : ∀ dir d tag, s.cache.dir dir = some d → d.etag = some tag → (dir, tag) ∈ s.server.used
  /-- The etag of a listing vouches for it. -/
  vouched : ∀ dir d, s.cache.dir dir = some d → s.current dir d = true → s.Vouched dir d.files
  answers : ∀ a ∈ s.answers, (∀ e ∈ a.files, DavServer.isChild a.path e.path = true) ∧
    ∀ tag, a.etag = some tag → (a.path, tag) ∈ s.server.used ∧
      (s.server.etag a.path = some tag → Lists s.server a.path a.files)

/-- A path is due to appear where a queued change adds it or a handle makes it. -/
theorem mem_dueAdds {p : PathBuf} : p ∈ s.dueAdds ↔
    (∃ l ∈ s.journal.landings, s.owes l = true ∧ p ∈ l.adds) ∨ p ∈ s.made := by
  simp [dueAdds, and_assoc]

/-- A path is due to go where a queued change removes it. -/
theorem mem_dueRemoves {p : PathBuf} : p ∈ s.dueRemoves ↔
    ∃ l ∈ s.journal.landings, s.owes l = true ∧ p ∈ l.removes := by
  simp [dueRemoves, and_assoc]

/-- A path is made by some open handle that will commit it. -/
theorem mem_made {p : PathBuf} : p ∈ s.made ↔ ∃ h ∈ s.mount.openFiles, s.makes h = true ∧
    h.remotePath = p := by
  simp [made, and_assoc]

/-- A handle makes its file until it is unlinked, or its upload guard is gone. -/
theorem makes_iff {h : DirHandle} : s.makes h = true ↔
    h.created = true ∧ h.unlinked = false ∧ h.remotePath ∈ s.cache.uploading := by
  simp [makes, and_assoc]

/-! ## Changes that end -/

/-- What a step leaves of the changes that are due: those that stay queued and the handles that lose
    their guard or their name, with the names the step puts in order itself. -/
structure Leaving where
  queue : List Landing
  freed : DirHandle → Bool := fun _ => false
  adds : List PathBuf := []
  removes : List PathBuf := []

/-- Something is still to appear at `p`. -/
def stillAdds (s : ListedMount) (l : Leaving) (p : PathBuf) : Bool :=
  (l.queue.any fun x => s.owes x && decide (p ∈ x.adds))
    || s.mount.openFiles.any fun h => !l.freed h && s.makes h && decide (h.remotePath = p)

/-- Something is still to go from `p`. -/
def stillRemoves (s : ListedMount) (l : Leaving) (p : PathBuf) : Bool :=
  l.queue.any fun x => s.owes x && decide (p ∈ x.removes)

/-- A change that ends without having been carried out ends where the listing is right. -/
def leavesRight (s : ListedMount) (l : Leaving) : Bool :=
  (s.dueAdds.all fun p => decide (p ∈ l.adds) || s.stillAdds l p || s.shownRight p)
    && s.dueRemoves.all fun p => decide (p ∈ l.removes) || s.stillRemoves l p || s.hiddenRight p

/-- A step that leaves what `l` says. -/
structure Leaves (s s' : ListedMount) (l : Leaving) : Prop where
  server : s'.server = s.server
  landed : s'.landed ⊆ s.landed
  edited : FsCache.Edited s.cache s'.cache l.adds l.removes
  queue : l.queue ⊆ s'.journal.landings
  made : ∀ h ∈ s.mount.openFiles, l.freed h = false → s.makes h = true → h.remotePath ∈ s'.made
  adds : ∀ p ∈ l.adds, p ∈ s'.dueAdds ∨ s'.shownRight p = true
  removes : ∀ p ∈ l.removes, p ∈ s'.dueRemoves ∨ s'.hiddenRight p = true

/-- A listing that is current after an edit was so before. -/
theorem current_of_edited (hserver : s'.server = s.server) {dir : PathBuf} {d d' : DirCacheEntry}
    (hetag : d'.etag = d.etag) (hcur : s'.current dir d' = true) : s.current dir d = true := by
  rw [current, ← hetag, ← hserver]
  exact hcur

section Leaves

variable {l : Leaving} {p : PathBuf}

/-- What was owed is owed still. -/
theorem Leaves.owes (h : s.Leaves s' l) {x : Landing} (hx : s.owes x = true) : s'.owes x = true :=
  decide_eq_true fun hmem => of_decide_eq_true hx (h.landed hmem)

/-- A name that is right in the listing stays right under edits that do not add it. -/
theorem Leaves.shownRight (h : s.Leaves s' l) (hp : p ∉ l.adds) (hright : s.shownRight p = true) :
    s'.shownRight p = true := by
  rcases Bool.or_eq_true_iff.mp hright with htracker | hshown
  · exact Bool.or_eq_true_iff.mpr (.inl htracker)
  · refine Bool.or_eq_true_iff.mpr (.inr (Option.all_eq_true _ _ |>.mpr fun d' hd' => ?_))
    rw [Bool.or_eq_true, Bool.not_eq_true', List.all_eq_true]
    rcases h.edited p.parent d' hd' with ⟨hnone, -⟩ | ⟨d, hd, hetag, hfiles⟩
    · exact .inl (by simp [current, hnone])
    · cases hcur : s'.current p.parent d' with
      | false => exact .inl rfl
      | true =>
        have hold := (Option.all_eq_true _ _).mp hshown d hd
        rw [current_of_edited h.server hetag hcur, Bool.not_true, Bool.false_or,
          List.all_eq_true] at hold
        refine .inr fun e' he' => ?_
        rcases hfiles.from_old e' he' with ⟨e, he, hpath, hdir⟩ | ⟨hnew, -⟩
        · have := hold e he
          rwa [hpath, hdir, ← h.server] at this
        · have hne : e'.path ≠ p := fun heq => hp (heq ▸ hnew)
          simp [hne]

/-- A name that is rightly absent stays so under edits that do not remove it. -/
theorem Leaves.hiddenRight (h : s.Leaves s' l) (hp : p ∉ l.removes)
    (hright : s.hiddenRight p = true) :
    s'.hiddenRight p = true := by
  rcases Bool.or_eq_true_iff.mp hright with htracker | hshown
  · exact Bool.or_eq_true_iff.mpr (.inl htracker)
  · refine Bool.or_eq_true_iff.mpr (.inr (Option.all_eq_true _ _ |>.mpr fun d' hd' => ?_))
    rcases h.edited p.parent d' hd' with ⟨hnone, -⟩ | ⟨d, hd, hetag, hfiles⟩
    · simp [current, hnone]
    · cases hcur : s'.current p.parent d' with
      | false => rfl
      | true =>
        have hold := (Option.all_eq_true _ _).mp hshown d hd
        rw [current_of_edited h.server hetag hcur, Bool.not_true, Bool.false_or, ← h.server] at hold
        rw [Bool.not_true, Bool.false_or]
        refine Bool.or_eq_true_iff.mpr ((Bool.or_eq_true_iff.mp hold).imp_right fun hany => ?_)
        obtain ⟨e, he, hpath⟩ := List.any_eq_true.mp hany
        rcases hfiles.kept e he with ⟨e', he', hpath'⟩ | hgone
        · exact List.any_eq_true.mpr
            ⟨e', he', decide_eq_true (hpath'.trans (of_decide_eq_true hpath))⟩
        · exact absurd (of_decide_eq_true hpath ▸ hgone) hp

/-- What was to appear still is, or is shown rightly. -/
theorem Leaves.dueAdds (h : s.Leaves s' l) (hright : s.leavesRight l = true) (hp : p ∈ s.dueAdds) :
    p ∈ s'.dueAdds ∨ s'.shownRight p = true := by
  by_cases hown : p ∈ l.adds
  · exact h.adds p hown
  · have hend := List.all_eq_true.mp (Bool.and_eq_true_iff.mp hright).1 p hp
    rw [decide_eq_false hown, Bool.false_or] at hend
    rcases Bool.or_eq_true_iff.mp hend with hstill | hshown
    · refine .inl (mem_dueAdds.mpr ?_)
      rcases Bool.or_eq_true_iff.mp hstill with hqueue | hopen
      · obtain ⟨x, hx, hadds⟩ := List.any_eq_true.mp hqueue
        obtain ⟨howes, hadds⟩ := Bool.and_eq_true_iff.mp hadds
        exact .inl ⟨x, h.queue hx, h.owes howes, of_decide_eq_true hadds⟩
      · obtain ⟨x, hx, hmakes⟩ := List.any_eq_true.mp hopen
        simp only [Bool.and_eq_true, Bool.not_eq_true', decide_eq_true_eq] at hmakes
        obtain ⟨⟨hfreed, hmakes⟩, rfl⟩ := hmakes
        exact .inr (h.made x hx hfreed hmakes)
    · exact .inr (h.shownRight hown hshown)

/-- A removal that was due is still due, or right already. -/
theorem Leaves.dueRemoves (h : s.Leaves s' l) (hright : s.leavesRight l = true)
    (hp : p ∈ s.dueRemoves) :
    p ∈ s'.dueRemoves ∨ s'.hiddenRight p = true := by
  by_cases hown : p ∈ l.removes
  · exact h.removes p hown
  · have hend := List.all_eq_true.mp (Bool.and_eq_true_iff.mp hright).2 p hp
    rw [decide_eq_false hown, Bool.false_or] at hend
    rcases Bool.or_eq_true_iff.mp hend with hstill | hhidden
    · obtain ⟨x, hx, hremoves⟩ := List.any_eq_true.mp hstill
      obtain ⟨howes, hremoves⟩ := Bool.and_eq_true_iff.mp hremoves
      exact .inl (mem_dueRemoves.mpr ⟨x, h.queue hx, h.owes howes, of_decide_eq_true hremoves⟩)
    · exact .inr (h.hiddenRight hown hhidden)

/-- A current listing shows at `p` what is there. -/
theorem kind_of_shownRight {dir : PathBuf} {d : DirCacheEntry} (hright : s.shownRight p = true)
    (hp : DavServer.isChild dir p = true) (htracker : p ≠ trackerignorePath)
    (hd : s.cache.dir dir = some d)
    (hcur : s.current dir d = true) {e : RemoteEntry} (he : e ∈ d.files) (hpath : e.path = p) :
    s.server.kind p = some e.isDir := by
  rw [shownRight, (DavServer.isChild_iff.mp hp).2, hd, Option.all_some, hcur, Bool.not_true,
    Bool.false_or, decide_eq_false htracker, Bool.false_or] at hright
  have := List.all_eq_true.mp hright e he
  simpa [hpath] using this

/-- What the server has and a right listing should show is in it. -/
theorem listed_of_hiddenRight {dir : PathBuf} {d : DirCacheEntry} (hright : s.hiddenRight p = true)
    (hp : DavServer.isChild dir p = true) (htracker : p ≠ trackerignorePath)
    (hd : s.cache.dir dir = some d)
    (hcur : s.current dir d = true) (hkind : (s.server.kind p).isSome) :
    ∃ e ∈ d.files, e.path = p := by
  rw [hiddenRight, (DavServer.isChild_iff.mp hp).2, hd, Option.all_some, hcur, Bool.not_true,
    Bool.false_or, decide_eq_false htracker, Bool.false_or] at hright
  rcases Bool.or_eq_true_iff.mp hright with hnone | hany
  · rw [Option.isNone_iff_eq_none.mp hnone] at hkind
    cases hkind
  · simpa using hany

/-- An edit of listings: what it puts in is due or there, what it takes out is due to go or gone, and
    the changes that end are right in the listing. -/
theorem Inv.leave (h : s.Inv) (hleaves : s.Leaves s' l) (hanswers : s'.answers = s.answers)
    (hgrows : s.journal.Grows s'.journal) (hright : s.leavesRight l = true) : s'.Inv := by
  have hserver := hleaves.server
  -- An entry is put in under its parent, by the listing kept or by the change.
  have hchildren : ∀ dir d, s'.cache.dir dir = some d → ∀ e ∈ d.files,
    DavServer.isChild dir e.path = true := by
    intro dir d' hd' e' he'
    rcases hleaves.edited dir d' hd' with ⟨-, hold⟩ | ⟨d, hd, -, hfiles⟩
    · rcases hold e' he' with hchild | ⟨d, hd, e, he, hpath⟩
      · exact hchild
      · exact hpath ▸ h.children dir d hd e he
    · rcases hfiles.from_old e' he' with ⟨e, he, hpath, -⟩ | ⟨-, hchild⟩
      · exact hpath ▸ h.children dir d hd e he
      · exact hchild
  refine ⟨hgrows.seqs h.seqs,
    fun x hx => Nat.lt_of_lt_of_le (h.landed x (hleaves.landed hx)) hgrows.nextSeq, ?_, hchildren,
      fun dir d' tag hd' htag => ?_, fun dir d' hd' hcur => ?_, fun a ha => ?_⟩
  · -- The step leaves the server as it is, so its etags and its listings stay.
    rw [hserver]
    exact h.used
  · rw [hserver]
    rcases hleaves.edited dir d' hd' with ⟨hnone, -⟩ | ⟨d, hd, hetag, -⟩
    · rw [hnone] at htag
      cases htag
    · exact h.known dir d tag hd (hetag ▸ htag)
  · -- A listing without an etag vouches for nothing.
    rcases hleaves.edited dir d' hd' with ⟨hnone, -⟩ | ⟨d, hd, hetag, hfiles⟩
    · simp [current, hnone] at hcur
    · -- The listing had this etag before the step, and vouched for the folder then.
      have hold := h.vouched dir d hd (current_of_edited hserver hetag hcur)
      refine ⟨fun e' he' htracker => ?_, fun p hp htracker hkind => ?_⟩
      · -- what the listing shows was there before or has been put in
        have hchild := hchildren dir d' hd' e' he'
        have hthere : ∀ hdue : e'.path ∈ s'.dueAdds ∨ s'.shownRight e'.path = true,
            s'.server.kind e'.path = some e'.isDir ∨ e'.path ∈ s'.dueAdds :=
          fun hdue => hdue.symm.imp_left fun hright =>
            kind_of_shownRight hright hchild htracker hd' hcur he' rfl
        rcases hfiles.from_old e' he' with ⟨e, he, hpath, hdir⟩ | ⟨hnew, -⟩
        · rcases hold.there e he (hpath ▸ htracker) with hkind | hdue
          · rw [hserver, ← hpath, ← hdir]
            exact .inl hkind
          · exact hthere (hleaves.dueAdds hright (hpath ▸ hdue))
        · exact hthere (hleaves.adds e'.path hnew)
      · -- what it leaves out was left out before or has been taken out
        have hlisted : ∀ hdue : p ∈ s'.dueRemoves ∨ s'.hiddenRight p = true,
            (∃ e ∈ d'.files, e.path = p) ∨ p ∈ s'.dueRemoves :=
          fun hdue => hdue.symm.imp_left fun hright =>
            listed_of_hiddenRight hright hp htracker hd' hcur hkind
        rcases hold.all p hp htracker (hserver ▸ hkind) with ⟨e, he, hpath⟩ | hdue
        · rcases hfiles.kept e he with ⟨e', he', hpath'⟩ | hgone
          · exact .inl ⟨e', he', hpath'.trans hpath⟩
          · exact hlisted (hleaves.removes p (hpath ▸ hgone))
        · exact hlisted (hleaves.dueRemoves hright hdue)
  · rw [hserver]
    exact h.answers a (hanswers ▸ ha)

/-- Where nothing leaves the queue and no guard goes, nothing ends. -/
theorem leavesRight_of_kept (hqueue : s.journal.landings ⊆ l.queue)
    (hfreed : ∀ h, l.freed h = false) :
    s.leavesRight l = true := by
  refine Bool.and_eq_true_iff.mpr ⟨List.all_eq_true.mpr fun p hp => ?_,
    List.all_eq_true.mpr fun p hp => ?_⟩
  · have hstill : s.stillAdds l p = true := by
      rcases mem_dueAdds.mp hp with ⟨x, hx, howes, hadds⟩ | hmade
      · refine Bool.or_eq_true_iff.mpr (.inl (List.any_eq_true.mpr ⟨x, hqueue hx, ?_⟩))
        rw [howes, decide_eq_true hadds, Bool.and_self]
      · obtain ⟨x, hx, hmakes, hpath⟩ := mem_made.mp hmade
        refine Bool.or_eq_true_iff.mpr (.inr (List.any_eq_true.mpr ⟨x, hx, ?_⟩))
        rw [hfreed, hmakes, decide_eq_true hpath, Bool.not_false, Bool.and_self, Bool.and_self]
    rw [hstill, Bool.or_true, Bool.true_or]
  · obtain ⟨x, hx, howes, hremoves⟩ := mem_dueRemoves.mp hp
    have hstill : s.stillRemoves l p = true := by
      refine List.any_eq_true.mpr ⟨x, hqueue hx, ?_⟩
      rw [howes, decide_eq_true hremoves, Bool.and_self]
    rw [hstill, Bool.or_true, Bool.true_or]

end Leaves

/-! ## Changes at the server -/

/-- The server's own listing lists the directory. -/
theorem lists_listing (v : DavServer) (dir : PathBuf) : Lists v dir (v.listing dir) where
  there e he := by
    obtain ⟨-, x, hx, heq⟩ := DavServer.mem_listing.mp he
    have hdir : e.isDir = x.isDir := by rw [heq]
    rw [DavServer.kind, hx, hdir, Option.map_some]
  all p hp hkind := by
    obtain ⟨k, hk⟩ := Option.isSome_iff_exists.mp hkind
    obtain ⟨x, hx, -⟩ := Option.map_eq_some_iff.mp hk
    exact ⟨{ x with path := p }, DavServer.mem_listing.mpr ⟨hp, x, hx, rfl⟩, rfl⟩

/-- A tree with the same children is listed by the same listing. -/
theorem Lists.follow {v v' : DavServer} {dir : PathBuf} {files : List RemoteEntry}
    (h : Lists v dir files)
    (hchildren : ∀ e ∈ files, DavServer.isChild dir e.path = true)
    (hkinds : ∀ p, DavServer.isChild dir p = true → v'.kind p = v.kind p) : Lists v' dir files where
  there e he := (hkinds e.path (hchildren e he)).trans (h.there e he)
  all p hp hkind := h.all p hp (hkinds p hp ▸ hkind)

/-- A change at the server: where a change that was due is not any more, the folder is a new version,
    or what was to go is gone. -/
theorem Inv.become (h : s.Inv) {tree : AList (fun _ : PathBuf => RemoteEntry)}
    (hfollows : s.server.follows (s.server.become tree) = true)
    (hserver : s'.server = s.server.become tree)
    (hmount : s'.mount = s.mount) (hanswers : s'.answers = s.answers)
    (hlanded : ∀ l ∈ s'.landed, l.seq < s.journal.nextSeq)
    -- What is due stays due, unless the folder is a new version, whose cached listing is out of date.
    (hadds : ∀ p ∈ s.dueAdds, p ∈ s'.dueAdds ∨ s.server.renewed s'.server p.parent = true)
    (hremoves : ∀ p ∈ s.dueRemoves,
      p ∈ s'.dueRemoves ∨ s.server.renewed s'.server p.parent = true ∨ s'.server.kind p = none) :
        s'.Inv := by
  have hused : s.server.used ⊆ s'.server.used := by
    rw [hserver]
    exact List.subset_append_left _ _
  have hjournal : s'.journal = s.journal := congrArg DirMount.journal hmount
  have hcache : s'.cache = s.cache := congrArg DirMount.cache hmount
  rw [← hserver] at hfollows
  refine ⟨?_, ?_, fun dir tag htag => ?_, ?_, fun dir d tag hd htag => ?_,
    fun dir d hd hcur => ?_, ?_⟩
  · rw [hjournal]
    exact h.seqs
  · rw [hjournal]
    exact hlanded
  · rw [hserver] at htag ⊢
    exact DavServer.etag_mem_become htag
  · rw [hcache]
    exact h.children
  · exact hused (h.known dir d tag (hcache ▸ hd) htag)
  · -- A cached etag that still names the folder names the same children as before.
    rw [hcache] at hd
    obtain ⟨hsome, htag⟩ := Bool.and_eq_true_iff.mp hcur
    obtain ⟨tag, hd_tag⟩ := Option.isSome_iff_exists.mp hsome
    have htag' : s'.server.etag dir = some tag := (of_decide_eq_true htag).symm.trans hd_tag
    have hmem := h.known dir d tag hd hd_tag
    obtain ⟨hold, hkinds⟩ := DavServer.follows_etag hfollows htag' hmem
    have hcurOld : s.current dir d = true := by simp [current, hd_tag, hold]
    -- the folder is not a new version
    have hnew : ∀ p, DavServer.isChild dir p = true →
      s.server.renewed s'.server p.parent ≠ true := by
      intro p hp hrenewed
      rw [(DavServer.isChild_iff.mp hp).2] at hrenewed
      exact DavServer.not_used_of_renewed hrenewed htag' hmem
    have hv := h.vouched dir d hd hcurOld
    refine ⟨fun e he htracker => ?_, fun p hp htracker hkind => ?_⟩
    · have hchild := h.children dir d hd e he
      rcases hv.there e he htracker with hkind | hdue
      · exact .inl ((hkinds e.path hchild).trans hkind)
      · exact .inr ((hadds e.path hdue).resolve_right (hnew e.path hchild))
    · rcases hv.all p hp htracker (hkinds p hp ▸ hkind) with hlisted | hdue
      · exact .inl hlisted
      · rcases hremoves p hdue with hdue | hrenewed | hgone
        · exact .inr hdue
        · exact absurd hrenewed (hnew p hp)
        · rw [hgone] at hkind
          cases hkind
  · -- An answer on its way is for the version it was read at.
    rw [hanswers]
    intro a ha
    obtain ⟨hchildren, htags⟩ := h.answers a ha
    refine ⟨hchildren, fun tag htag => ⟨hused (htags tag htag).1, fun htag' => ?_⟩⟩
    obtain ⟨hold, hkinds⟩ := DavServer.follows_etag hfollows htag' (htags tag htag).1
    exact ((htags tag htag).2 hold).follow hchildren hkinds

/-- What is owed depends on the landed changes alone. -/
theorem owes_congr (hlanded : s'.landed = s.landed) : s'.owes = s.owes :=
  funext fun x => congrArg (fun l => decide (x ∉ l)) hlanded

/-- What is due is read from the queue, the answers, the handles and the guards. -/
theorem dueAdds_congr (hjournal : s'.journal.landings = s.journal.landings)
    (hlanded : s'.landed = s.landed)
    (hopen : s'.mount.openFiles = s.mount.openFiles)
    (huploading : s'.cache.uploading = s.cache.uploading) :
    s'.dueAdds = s.dueAdds := by
  have hmakes : s'.makes = s.makes := by
    funext h
    rw [makes, makes, huploading]
  rw [dueAdds, dueAdds, made, made, hjournal, owes_congr hlanded, hopen, hmakes]

/-- Removals are due as the queue and the answers say. -/
theorem dueRemoves_congr (hjournal : s'.journal.landings = s.journal.landings)
    (hlanded : s'.landed = s.landed) :
    s'.dueRemoves = s.dueRemoves := by
  rw [dueRemoves, dueRemoves, hjournal, owes_congr hlanded]

/-- Somebody else changes the server: each directory changed gets a new etag, and its listings are
    not vouched for. -/
theorem Inv.change (h : s.Inv) {tree : AList (fun _ : PathBuf => RemoteEntry)}
    (hs : s.step (.change tree) = some s') : s'.Inv := by
  obtain ⟨hfollows, hs⟩ := Option.ite_none_right_eq_some.mp hs
  obtain rfl := Option.some.inj hs
  exact h.become hfollows rfl rfl rfl h.landed (fun p hp => .inl hp) fun p hp => .inl hp

/-- What the server carries out is not due any more. -/
theorem Inv.land (h : s.Inv) {seq : SeqId} {tree : AList (fun _ : PathBuf => RemoteEntry)}
    (hs : s.step (.land seq tree) = some s') : s'.Inv := by
  delta step at hs
  dsimp only at hs
  split at hs
  · cases hs
  · rename_i e he
    obtain ⟨hmeets, rfl⟩ := Option.ite_none_right_eq_some.mp hs |>.imp id Option.some.inj
    simp only [Bool.and_eq_true] at hmeets
    obtain ⟨hfollows, hdone⟩ := hmeets
    obtain ⟨hdoneAdds, hdoneRemoves⟩ :=
      (Bool.and_eq_true_iff.mp hdone).imp List.all_eq_true.mp List.all_eq_true.mp
    -- what is not due any more is this change
    have hstill : ∀ x, s.owes x = true → owes { s with
        server := s.server.become tree
        landed := { seq, adds := e.op.adds, removes := e.op.removes } :: s.landed } x = true ∨
        x = { seq, adds := e.op.adds, removes := e.op.removes } := by
      intro x hx
      simp only [owes, List.mem_cons, decide_eq_true_eq, not_or] at hx ⊢
      by_cases hsame : x = { seq, adds := e.op.adds, removes := e.op.removes }
      · exact .inr hsame
      · exact .inl ⟨hsame, hx⟩
    refine h.become hfollows rfl rfl rfl (fun l hl => ?_) (fun p hp => ?_) fun p hp => ?_
    · -- The landed change was queued under a number given out before.
      rcases List.mem_cons.mp hl with rfl | hl
      · have hseq : e.seq = seq := by simpa using List.find?_some he
        exact hseq ▸ h.seqs e (List.mem_of_find?_eq_some he)
      · exact h.landed l hl
    · -- An entry due to appear is owed by another change, by this one, or by an open handle.
      rcases mem_dueAdds.mp hp with ⟨x, hx, howes, hadds⟩ | hmade
      · rcases hstill x howes with howes | rfl
        · exact .inl (mem_dueAdds.mpr (.inl ⟨x, hx, howes, hadds⟩))
        · exact .inr (hdoneAdds p hadds)
      · exact .inl (mem_dueAdds.mpr (.inr hmade))
    · -- An entry due to go is owed by another change, or gone with this one.
      obtain ⟨x, hx, howes, hremoves⟩ := mem_dueRemoves.mp hp
      rcases hstill x howes with howes | rfl
      · exact .inl (mem_dueRemoves.mpr ⟨x, hx, howes, hremoves⟩)
      · refine .inr ((Bool.or_eq_true_iff.mp (hdoneRemoves p hremoves)).imp id fun hgone => ?_)
        exact of_decide_eq_true hgone

/-- The answer to a PROPFIND is the server's listing at that moment. -/
theorem Inv.fetch (h : s.Inv) {path : PathBuf} (hs : s.step (.fetch path) = some s') : s'.Inv := by
  delta step at hs
  dsimp only at hs
  split at hs
  · cases hs
  · obtain rfl := Option.some.inj hs
    refine ⟨h.seqs, h.landed, h.used, h.children, h.known, fun dir d hd hcur => ?_, fun a ha => ?_⟩
    · exact ⟨(h.vouched dir d hd hcur).there, (h.vouched dir d hd hcur).all⟩
    · rcases List.mem_append.mp ha with ha | ha
      · exact h.answers a ha
      · obtain rfl := List.mem_singleton.mp ha
        exact ⟨fun e he => (DavServer.mem_listing.mp he).1, fun tag htag =>
          ⟨h.used path tag htag, fun _ => lists_listing s.server path⟩⟩

/-! ## Storing a listing -/

/-- Where the answer carries the server's etag, the guards it meets stand for changes that are
    due. -/
def storeFaithful (s : ListedMount) (a : DirAnswer) : Bool :=
  !(a.etag.isSome && a.etag = s.server.etag a.path)
    || (((s.cache.listed a.path).getD []).all fun o => decide (o.path ∉ s.cache.uploading)
        || a.files.any (fun f => f.path = o.path) || decide (o.path ∈ s.dueAdds))
      && a.files.all fun f => decide (f.path ∉ s.cache.deleting) || decide (f.path ∈ s.dueRemoves)

/-- An answer is stored; where its etag is the server's, it shows the server's tree. -/
theorem Inv.store (h : s.Inv) {i : Nat} {a : DirAnswer} (ha : s.answers[i]? = some a)
    (hfaithful : s.storeFaithful a = true) (hs : s.step (.store i) = some s') : s'.Inv := by
  delta step at hs
  simp only [ha, Option.some.injEq] at hs
  obtain ⟨hchildren, htags⟩ := h.answers a (List.mem_of_getElem? ha)
  -- Only the cache and the answers on their way change.
  have hcache : s'.cache = s.cache.putDirCache a.path a.etag a.selfEntry a.files s.mount.now :=
    by rw [← hs]; rfl
  have hserver : s'.server = s.server := by rw [← hs]; rfl
  have hjournal : s'.journal = s.journal := by rw [← hs]; rfl
  have hlanded : s'.landed = s.landed := by rw [← hs]; rfl
  have hopen : s'.mount.openFiles = s.mount.openFiles := by rw [← hs]; rfl
  have hdueAdds : s'.dueAdds = s.dueAdds :=
    dueAdds_congr (by rw [hjournal]) hlanded hopen (by rw [hcache, FsCache.putDirCache_uploading])
  have hdueRemoves : s'.dueRemoves = s.dueRemoves := dueRemoves_congr (by rw [hjournal]) hlanded
  have hanswers : ∀ b ∈ s'.answers, b ∈ s.answers := by
    rw [← hs]
    exact fun b hb => List.mem_of_mem_eraseIdx hb
  refine ⟨by rw [hjournal]; exact h.seqs, by rw [hjournal, hlanded]; exact h.landed, by rw [hserver]; exact h.used,
    fun dir d hd e he => ?_, fun dir d tag hd htag => ?_, fun dir d hd hcur => ?_,
    fun b hb => by rw [hserver]; exact h.answers b (hanswers b hb)⟩
  · -- The stored files, the entries whose upload still runs and the mount's own file are children.
    rw [hcache] at hd
    rcases FsCache.putDirCache_dir hd with ⟨rfl, hfiles, -⟩ | ⟨-, hold⟩
    · rw [hfiles] at he
      rcases FsCache.mergedFiles_from he with ⟨rfl, hroot⟩ | ⟨f, hf, hpath, -⟩ | ⟨d', hd', o, ho,
        -, hpath, -⟩
      · rw [hroot]
        rfl
      · exact hpath ▸ hchildren f hf
      · exact hpath ▸ h.children a.path d' hd' o ho
    · exact h.children dir d hold e he
  · rw [hcache] at hd
    rw [hserver]
    rcases FsCache.putDirCache_dir hd with ⟨rfl, -, hetag⟩ | ⟨-, hold⟩
    · exact (htags tag (hetag ▸ htag)).1
    · exact h.known dir d tag hold htag
  · -- Vouched: the answer if the stored listing is current, else what was cached.
    rw [hcache] at hd
    have hcur : s.current dir d = true := by
      have hcurrent : (d.etag.isSome && decide (d.etag = s'.server.etag dir)) = true := hcur
      rwa [hserver] at hcurrent
    rcases FsCache.putDirCache_dir hd with ⟨rfl, hfiles, hetag⟩ | ⟨-, hold⟩
    · obtain ⟨hsome, heq⟩ := Bool.and_eq_true_iff.mp hcur
      rw [hetag] at hsome heq
      obtain ⟨tag, htag⟩ := Option.isSome_iff_exists.mp hsome
      have hlists := (htags tag htag).2 ((of_decide_eq_true heq).symm.trans htag)
      simp only [storeFaithful, hsome, heq, Bool.and_self, Bool.not_true, Bool.false_or,
        Bool.and_eq_true] at hfaithful
      obtain ⟨hguards, hdeleting⟩ := hfaithful
      refine ⟨fun e he htracker => ?_, fun p hp _ hkind => ?_⟩
      · rw [hfiles] at he
        rw [hserver, hdueAdds]
        rcases FsCache.mergedFiles_from he with ⟨rfl, -⟩ | ⟨f, hf, hpath, hdir⟩ | ⟨d', hd', o, ho,
          hup, hpath, -, hnot⟩
        · exact absurd rfl htracker
        · rw [← hpath, ← hdir]
          exact .inl (hlists.there f hf)
        · -- An entry kept from the old listing has its upload running, so it is due by the condition.
          have ho' : o ∈ (s.cache.listed a.path).getD [] := by simpa [FsCache.listed, hd'] using ho
          have := List.all_eq_true.mp hguards o ho'
          simp only [hup, not_true_eq_false, decide_false, Bool.false_or, Bool.or_eq_true,
            List.any_eq_true, decide_eq_true_eq] at this
          rcases this with ⟨f, hf, hfo⟩ | hdue
          · exact absurd (List.mem_map.mpr ⟨f, hf, hfo.trans hpath⟩) hnot
          · exact .inr (hpath ▸ hdue)
      · rw [hserver] at hkind
        rw [hdueRemoves]
        obtain ⟨f, hf, rfl⟩ := hlists.all p hp hkind
        -- A listed entry is left out only while its delete runs, so it is due to go.
        by_cases hdel : f.path ∈ s.cache.deleting
        · have := List.all_eq_true.mp hdeleting f hf
          simp only [hdel, not_true_eq_false, decide_false, Bool.false_or, decide_eq_true_eq] at this
          exact .inr this
        · have hlisted : f.path ∈ (s.cache.mergedFiles a.path a.files).map (·.path) :=
            FsCache.mergedFiles_unguarded (List.mem_map_of_mem hf) hdel
          obtain ⟨e, he, hpath⟩ := List.mem_map.mp hlisted
          exact .inl ⟨e, hfiles ▸ he, hpath⟩
    · have hv := h.vouched dir d hold hcur
      refine ⟨fun e he htracker => ?_, fun p hp htracker hkind => ?_⟩
      · rw [hserver, hdueAdds]
        exact hv.there e he htracker
      · rw [hserver] at hkind
        rw [hdueRemoves]
        exact hv.all p hp htracker hkind

end ListedMount

namespace ListedMount

variable {s s' : ListedMount}

/-- The replay edits no listing. -/
theorem replayCache_edited (s : ListedMount) (st : ReplayStep) (size mtime : Nat)
    {adds removes : List PathBuf} :
    FsCache.Edited s.cache (s.replayCache st size mtime) adds removes := by
  unfold replayCache
  split
  · exact FsCache.edited_modifyEntry (fun _ => rfl) fun _ => rfl
  · rename_i e result hphase
    refine .of_dirCache ?_
    cases result with
    | ok => exact (clearDeleting_dirCache _ _).trans (releaseUploadGuard_dirCache _ _ _)
    | uploaded etag => exact (clearDeleting_dirCache _ _).trans (releaseUploadGuard_dirCache _ _ _)
    | conflict kind => exact releaseUploadGuard_dirCache _ _ _
    | idempotent => exact clearDeleting_dirCache _ _
    | retryable msg => rfl
    | serverError msg => exact clearDeleting_dirCache _ _
  · exact .of_dirCache (clearDeleting_dirCache _ _)
  · exact .refl _

/-- The replay lifts the guard of the upload it finished only. -/
theorem mem_replayCache {st : ReplayStep} {size mtime : Nat} {p : PathBuf}
    (hp : p ∈ s.cache.uploading)
    (hguard : ∀ e r, s.phase = .settled e r → st = .finish → r.ends = true →
    e.op.guard e.op.path ≠ some p) :
    p ∈ (s.replayCache st size mtime).uploading := by
  unfold replayCache
  split
  · exact (DirMount.modifyDir_uploading _ _ _).superset hp
  · rename_i e result hphase
    have hdeleting : ∀ c : FsCache, (clearDeleting c e.op).uploading = c.uploading :=
      clearDeleting_uploading e.op
    cases result with
    | ok => exact (hdeleting _).superset (mem_releaseUploadGuard hp (hguard e _ hphase rfl rfl))
    | uploaded etag => exact (hdeleting _).superset (mem_releaseUploadGuard hp (hguard e _ hphase rfl rfl))
    | conflict kind => exact mem_releaseUploadGuard hp (hguard e _ hphase rfl rfl)
    | idempotent => exact (hdeleting _).superset hp
    | retryable msg => exact hp
    | serverError msg => exact (hdeleting _).superset hp
  · exact (clearDeleting_uploading _ _).superset hp
  · exact hp

/-! ## Steps -/

/-- What steps leave that end no change. -/
def kept (s : ListedMount) : Leaving := { queue := s.journal.landings }

/-- What the close of a handle leaves: a commit replaces the uploads queued for its file. -/
def leavingRelease (s : ListedMount) (fh : Nat) (upload : Option DirMount.Commit) : Leaving :=
  match s.mount.openFiles.find? fun h => h.fh = fh with
  | none => s.kept
  | some h =>
    if h.commits upload then
      { queue := (s.journal.entries.filter fun e => !e.op.isUploadOf h.remotePath).map (·.landing)
        freed := fun x => x.fh = fh
        adds := [h.remotePath] }
    else
      { s.kept with freed := fun x => x.fh = fh || h.dropsGuard && decide (x.remotePath = h.remotePath) }

/-- Whether a withdrawn upload takes the guard of `p` away: it started as `p` or is queued for it. -/
def withdraws (s : ListedMount) (seq : SeqId) (startedAs p : PathBuf) : Bool :=
  match s.journal.entries.find? fun e => e.seq = seq with
  | some e => decide (p = startedAs) || decide (p = e.op.path)
  | none => decide (p = startedAs) && !s.journal.hasPendingPut p

/-- What the steps of workers and the replay leave, and the close of a handle. -/
def leaving (s : ListedMount) : ListedEvent → Leaving
  | .release fh upload => s.leavingRelease fh upload
  | .settleUpload seq _ _ =>
    { queue := if s.journal.withdraws seq then s.journal.landings.filter fun l => l.seq ≠ seq
        else s.journal.landings }
  | .skip _ op =>
    { s.kept with freed := fun h => !s.journal.hasPendingPut op.path && decide (h.remotePath = op.path) }
  | .withdrawn seq startedAs =>
    { s.kept with freed := fun h => s.withdraws seq startedAs h.remotePath }
  | .answer seq op dest _ a _ _ _ =>
    { queue := if a.ends op then s.journal.landings.filter fun l => l.seq ≠ seq else s.journal.landings
      freed := fun h => decide (op.guard dest = some h.remotePath) }
  | .replay st _ _ =>
    { queue := if ReplayLoop.dequeues { journal := s.journal, phase := s.phase, cacheDir := s.cacheDir } st
        then s.journal.landings.tail else s.journal.landings
      freed := fun h =>
        match s.phase, st with
        | .settled e r, .finish => r.ends && decide (e.op.guard e.op.path = some h.remotePath)
        | _, _ => false }
  | _ => s.kept

/-- No listing of `dir` carries the server's etag. -/
def unvouched (s : ListedMount) (dir : PathBuf) : Bool :=
  (s.cache.dir dir).all fun d => !s.current dir d

/-- Whether a rename is right about both names. One that queues no MOVE takes `src` out of its
    listing for good, and needs a file at `dst` that is still to be uploaded. -/
def movesRight (s : ListedMount) (src dst : PathBuf) : Bool :=
  let moved : Leaving :=
    { s.kept with freed := s.mount.displaces src dst, adds := [src, dst], removes := [src] }
  let gone := decide (src ∈ s.dueRemoves) || decide (s.server.kind src = none) || s.unvouched src.parent
  if s.mount.uncommittedSource src && !s.mount.journal.hasPendingPut src then
    s.leavesRight moved && gone && (decide (src ∈ s.cache.uploading) || s.unvouched dst.parent)
  else if !s.mount.sourceOnServer src && (s.mount.journal.retargetUpload src dst none).1 then
    s.leavesRight { moved with
      queue := (s.journal.entries.filter fun e => !e.op.isUploadOf src).map (·.landing) } && gone &&
      ((s.journal.entries.any fun e => e.op.isUploadOf src &&
        s.owes { seq := e.seq, adds := [dst], removes := [] })
        || s.unvouched dst.parent)
  else
    s.leavesRight { moved with
      queue := (s.journal.entries.map
        (MutationJournal.followRename (.rename src dst none none))).map (·.landing) }

/-- The changes that a step ends without their being carried out end where the listing is right. -/
def meets (s : ListedMount) : ListedEvent → Bool
  | .store i => (s.answers[i]?).all s.storeFaithful
  | .rename parent name newparent newname _ =>
    (s.mount.renamePaths parent name newparent newname).all fun x => s.movesRight x.1 x.2
  | ev => s.leavesRight (s.leaving ev)

/-- Every event of the run meets the condition in the state before it. -/
def allMeet (s : ListedMount) : List ListedEvent → Bool
  | [] => true
  | e :: es => s.meets e && (s.step e).all (·.allMeet es)

/-! ### Requests -/

/-- A change queued just now is due. -/
theorem Inv.owes_new (h : s.Inv) (hlanded : s'.landed = s.landed) {e : JournalEntry}
    (he : s.journal.nextSeq ≤ e.seq) : s'.owes e.landing = true := by
  refine decide_eq_true fun hmem => ?_
  rw [hlanded] at hmem
  exact absurd (h.landed _ hmem) (Nat.not_lt.mpr he)

/-- A change that was queued just now is due. -/
theorem Inv.due_new (h : s.Inv) {m : DirMount} {e : JournalEntry} {p : PathBuf}
    (he : e ∈ m.journal.entries)
    (hseq : s.journal.nextSeq ≤ e.seq) :
    (p ∈ e.op.adds → p ∈ (s.run m).dueAdds) ∧ (p ∈ e.op.removes → p ∈ (s.run m).dueRemoves) :=
  ⟨fun hp => mem_dueAdds.mpr (.inl ⟨e.landing, List.mem_map_of_mem he, h.owes_new rfl hseq, hp⟩),
    fun hp => mem_dueRemoves.mpr ⟨e.landing, List.mem_map_of_mem he, h.owes_new rfl hseq, hp⟩⟩

/-- The tracker's ignore file is made up by the mount, wherever it is listed. -/
theorem hiddenRight_tracker : s.hiddenRight trackerignorePath = true := by
  rw [hiddenRight, decide_eq_true rfl, Bool.true_or]

/-- What a request's edits take out is due to go. -/
theorem Inv.edits_removes (h : s.Inv) {m : DirMount} {adds removes : List PathBuf}
    (hedits : DirMount.Edits s.mount m adds removes) :
    ∀ p ∈ removes, p ∈ (s.run m).dueRemoves ∨ (s.run m).hiddenRight p = true := by
  intro p hp
  rcases hedits.removes p hp with rfl | ⟨e, he, hseq, hremoves⟩
  · exact .inr hiddenRight_tracker
  · exact .inl ((h.due_new he hseq).2 hremoves)

/-- A handle that stays open, with its guard, still makes its file. -/
theorem mem_made_of_kept {x : DirHandle} (hmakes : s.makes x = true) (hopen : x ∈ s'.mount.openFiles)
    (huploading : x.remotePath ∈ s'.cache.uploading) : x.remotePath ∈ s'.made := by
  obtain ⟨hcreated, hunlinked, -⟩ := makes_iff.mp hmakes
  exact mem_made.mpr ⟨x, hopen, makes_iff.mpr ⟨hcreated, hunlinked, huploading⟩, rfl⟩

/-- More handles and more guards make more files. -/
theorem made_mono (hopen : s.mount.openFiles ⊆ s'.mount.openFiles)
    (huploading : s.cache.uploading ⊆ s'.cache.uploading) : s.made ⊆ s'.made := by
  intro p hp
  obtain ⟨x, hx, hmakes, rfl⟩ := mem_made.mp hp
  exact mem_made_of_kept hmakes (hopen hx) (huploading (makes_iff.mp hmakes).2.2)

/-- A step that neither edits a listing nor ends a change. -/
theorem Inv.keep (h : s.Inv) (hserver : s'.server = s.server) (hanswers : s'.answers = s.answers)
    (hgrows : s.journal.Grows s'.journal) (hlanded : s'.landed ⊆ s.landed)
    (hedit : FsCache.Edited s.cache s'.cache [] [])
    (hqueue : s.journal.landings ⊆ s'.journal.landings)
    (hmade : s.made ⊆ s'.made) : s'.Inv :=
  h.leave (l := s.kept)
    ⟨hserver, hlanded, hedit, hqueue, fun x hx _ hmakes => hmade (mem_made.mpr ⟨x, hx, hmakes, rfl⟩),
      fun _ hp => (by cases hp), fun _ hp => (by cases hp)⟩
    hanswers hgrows (leavesRight_of_kept (List.Subset.refl _) fun _ => rfl)

/-- A request whose edits it queues, and that takes nothing out of the queue. -/
theorem Inv.request (h : s.Inv) {m : DirMount} {adds removes : List PathBuf}
    (hedits : DirMount.Edits s.mount m adds removes) (hkeeps : DirMount.Keeps s.mount m) :
    (s.run m).Inv := by
  refine h.leave (l := { s.kept with adds := adds, removes := removes })
    ⟨rfl, List.Subset.refl _, hedits.edited, List.map_subset _ hkeeps.entries,
      fun x hx _ hmakes => ?_, fun p hp => ?_, h.edits_removes hedits⟩
    rfl hedits.grows (leavesRight_of_kept (List.Subset.refl _) fun _ => rfl)
  · exact mem_made_of_kept hmakes (hkeeps.openFiles hx) (hkeeps.uploading (makes_iff.mp hmakes).2.2)
  · obtain ⟨e, he, hseq, hadds⟩ := hedits.adds p hp
    exact .inl ((h.due_new he hseq).1 hadds)

/-- A create that goes through adds an entry that its handle makes. -/
theorem Inv.create (h : s.Inv) (parent : Nat) (name : String) (fh : Nat) (streams : Bool) :
    (s.run (s.mount.createFile parent name fh streams)).Inv := by
  rcases s.mount.createFile_cases parent name fh streams with
    hidle | ⟨path, x, hcreates, hopen, hcreated, hunlinked, hpath⟩
  · exact h.request hidle.edits hidle.keeps
  · have hjournal : (s.run (s.mount.createFile parent name fh streams)).journal = s.journal :=
      hcreates.journal
    refine h.leave (l := { s.kept with adds := [path] })
      ⟨rfl, List.Subset.refl _, hcreates.edited, ?_, fun y hy _ hmakes => ?_, fun p hp => ?_,
        fun _ hp => (by cases hp)⟩
      rfl (.of_entries (congrArg _ hjournal) (congrArg _ hjournal))
      (leavesRight_of_kept (List.Subset.refl _) fun _ => rfl)
    · rw [hjournal]
      exact List.Subset.refl _
    · refine mem_made_of_kept hmakes (hopen ▸ List.mem_append_left _ hy) ?_
      exact hcreates.uploading ▸ Finset.mem_insert_of_mem (makes_iff.mp hmakes).2.2
    · -- the new handle's file is due
      obtain rfl := List.mem_singleton.mp hp
      refine .inl (mem_dueAdds.mpr
        (.inr (mem_made.mpr ⟨x, ?_, makes_iff.mpr ⟨hcreated, hunlinked, ?_⟩, hpath⟩)))
      · exact hopen ▸ List.mem_append_right _ List.mem_cons_self
      · rw [hpath]
        exact hcreates.uploading ▸ Finset.mem_insert_self _ _

/-- A path no listing shows is right. -/
theorem shownRight_of_hides {p : PathBuf} (h : s.cache.Hides p) : s.shownRight p = true := by
  refine Bool.or_eq_true_iff.mpr (.inr ((Option.all_eq_true _ _).mpr fun d hd => ?_))
  refine Bool.or_eq_true_iff.mpr (.inr (List.all_eq_true.mpr fun e he => ?_))
  rw [decide_eq_true (h d hd e he), Bool.true_or]

/-- What an unlink or a rmdir leaves: at most the changes for the name it takes out of the listing
    end. -/
def leavingRemove (m : DirMount) (path : PathBuf) : Leaving where
  queue := m.journal.landings
  freed x := decide (x.remotePath = path)
  adds := [path]
  removes := [path]

/-- An unlink or a rmdir that is queued ends at most changes of its own path. -/
theorem leavesRight_of_removes {m : DirMount} {path : PathBuf}
    (h : DirMount.Removes s.mount m path) :
    s.leavesRight (leavingRemove m path) = true := by
  -- The queue loses the uploads of the path and gains its delete, which makes nothing.
  have hqueue : ∀ x ∈ s.journal.landings, x ∈ m.journal.landings ∨ x.adds = [path] ∧
    x.removes = [] := by
    intro x hx
    obtain ⟨e, he, rfl⟩ := List.mem_map.mp hx
    exact (h.entries e he).imp_left fun he => List.mem_map_of_mem he
  refine Bool.and_eq_true_iff.mpr ⟨List.all_eq_true.mpr fun p hp => ?_,
    List.all_eq_true.mpr fun p hp => ?_⟩
  · by_cases hpath : p = path
    · rw [hpath, leavingRemove, decide_eq_true List.mem_cons_self, Bool.true_or, Bool.true_or]
    · have hstill : s.stillAdds (leavingRemove m path) p = true := by
        -- What is due for another path is kept by its change or by its open handle.
        rcases mem_dueAdds.mp hp with ⟨x, hx, howes, hadds⟩ | hmade
        · rcases hqueue x hx with hx | ⟨hown, -⟩
          · refine Bool.or_eq_true_iff.mpr (.inl (List.any_eq_true.mpr ⟨x, hx, ?_⟩))
            rw [howes, decide_eq_true hadds, Bool.and_self]
          · exact absurd (List.mem_singleton.mp (hown ▸ hadds)) hpath
        · obtain ⟨x, hx, hmakes, rfl⟩ := mem_made.mp hmade
          refine Bool.or_eq_true_iff.mpr (.inr (List.any_eq_true.mpr ⟨x, hx, ?_⟩))
          have hkept : (leavingRemove m path).freed x = false := decide_eq_false hpath
          rw [hkept, hmakes, decide_eq_true rfl]
          rfl
      rw [hstill, Bool.or_true, Bool.true_or]
  · -- A delete due before is due still.
    obtain ⟨x, hx, howes, hremoves⟩ := mem_dueRemoves.mp hp
    rcases hqueue x hx with hx | ⟨-, hnone⟩
    · have hstill : s.stillRemoves (leavingRemove m path) p = true := by
        refine List.any_eq_true.mpr ⟨x, hx, ?_⟩
        rw [howes, decide_eq_true hremoves, Bool.and_self]
      rw [hstill, Bool.or_true, Bool.true_or]
    · rw [hnone] at hremoves
      cases hremoves

/-- An unlink or a rmdir keeps the invariant: the removal is due from then on. -/
theorem Inv.remove (h : s.Inv) {m : DirMount} {path : PathBuf}
    (hremoves : DirMount.Removes s.mount m path) :
    (s.run m).Inv := by
  refine h.leave (l := leavingRemove m path)
    ⟨rfl, List.Subset.refl _, hremoves.edited.mono (List.nil_subset _) (List.Subset.refl _),
      List.Subset.refl _, fun x hx hfreed hmakes => ?_, fun p hp => ?_,
        h.edits_removes hremoves.toEdits⟩
    rfl hremoves.grows (leavesRight_of_removes hremoves)
  · have hne : x.remotePath ≠ path := of_decide_eq_false hfreed
    exact mem_made_of_kept hmakes (hremoves.openFiles x hx hne)
      (hremoves.uploading _ (makes_iff.mp hmakes).2.2 hne)
  · obtain rfl := List.mem_singleton.mp hp
    exact .inr (shownRight_of_hides hremoves.hides)

/-- A release keeps it where what it ends is right: what it commits is due from then on. -/
theorem Inv.release (h : s.Inv) {fh : Nat} {upload : Option DirMount.Commit}
    (hm : s.leavesRight (s.leavingRelease fh upload) = true) :
    (s.run (s.mount.release fh upload)).Inv := by
  have hcases := s.mount.release_cases fh upload
  unfold leavingRelease at hm
  -- No such handle: nothing changes.
  cases hfind : s.mount.openFiles.find? fun x => x.fh = fh with
  | none =>
    rw [hfind] at hcases
    rw [show s.mount.release fh upload = s.mount from hcases]
    exact h.request (DirMount.Edits.of_same rfl rfl) (DirMount.Idle.keeps ⟨rfl, rfl, rfl, rfl⟩)
  | some x =>
    simp only [hfind] at hcases hm
    -- Only this handle closes.
    have hclosed : ∀ y ∈ s.mount.openFiles, decide (y.fh = fh) = false →
      y ∈ (s.mount.closed fh).openFiles :=
      fun y hy hne => List.mem_filter.mpr ⟨hy, decide_eq_true (of_decide_eq_false hne)⟩
    split at hcases
    · -- the upload replaces what was queued for the file
      rename_i hcommits
      rw [if_pos hcommits] at hm
      have hedits : DirMount.Edits s.mount (s.mount.release fh upload) [] [] :=
        ⟨hcases.edited, hcases.grows, hcases.toEdits.adds, hcases.toEdits.removes⟩
      refine h.leave ⟨rfl, List.Subset.refl _,
        hedits.edited.mono (List.nil_subset _) (List.Subset.refl _), fun l hl => ?_,
          fun y hy hfreed hmakes => ?_, fun p hp => ?_, fun _ hp => (by cases hp)⟩
        rfl hedits.grows hm
      · -- A change that leaves the queue was an upload of this path, and so listed as leaving.
        obtain ⟨e, he, rfl⟩ := List.mem_map.mp hl
        obtain ⟨he, hother⟩ := List.mem_filter.mp he
        refine List.mem_map_of_mem ((hcases.entries e he).resolve_right fun hup => ?_)
        rw [hup] at hother
        cases hother
      · -- Another open handle still makes its path.
        exact mem_made_of_kept hmakes (hcases.openFiles ▸ hclosed y hy hfreed)
          (hcases.uploading (makes_iff.mp hmakes).2.2)
      · -- The path is due with the entry queued for it.
        obtain ⟨e, he, hseq, hadds⟩ := hcases.queued
        refine .inl ((h.due_new he hseq).1 ?_)
        exact List.mem_singleton.mp hp ▸ hadds
    · -- Nothing is queued: the path is freed if the handle held its guard.
      rename_i hcommits
      rw [if_neg hcommits] at hm
      obtain ⟨hjournal, hdirs, hopen, huploading⟩ := hcases
      have hedits : DirMount.Edits s.mount (s.mount.release fh upload) [] [] :=
        .of_same hdirs hjournal
      have hlandings : (s.run (s.mount.release fh upload)).journal.landings = s.journal.landings :=
        congrArg MutationJournal.landings hjournal
      refine h.leave
        (l := { s.kept with freed := fun y => y.fh = fh || x.dropsGuard && decide (y.remotePath = x.remotePath) }) ⟨rfl, List.Subset.refl _, hedits.edited,
        fun l hl => hlandings ▸ hl, fun y hy hfreed hmakes => ?_, fun _ hp => (by cases hp),
        fun _ hp => (by cases hp)⟩ rfl hedits.grows hm
      · obtain ⟨hopened, hguarded⟩ := Bool.or_eq_false_iff.mp hfreed
        refine mem_made_of_kept hmakes (hopen ▸ hclosed y hy hopened) ?_
        have hguard := (makes_iff.mp hmakes).2.2
        show y.remotePath ∈ (s.mount.release fh upload).cache.uploading
        rw [huploading]
        split
        · rename_i hdrops
          rw [hdrops, Bool.true_and] at hguarded
          exact Finset.mem_erase.mpr ⟨of_decide_eq_false hguarded, hguard⟩
        · exact hguard

/-! ### Renames -/

/-- A directory without a listing that is vouched for shows nothing wrong. -/
theorem shownRight_of_unvouched {p : PathBuf} (h : s.unvouched p.parent = true) :
    s.shownRight p = true := by
  refine Bool.or_eq_true_iff.mpr (.inr ((Option.all_eq_true _ _).mpr fun d hd => ?_))
  exact Bool.or_eq_true_iff.mpr (.inl ((Option.all_eq_true _ _).mp h d hd))

/-- Nor does it lack anything. -/
theorem hiddenRight_of_unvouched {p : PathBuf} (h : s.unvouched p.parent = true) :
    s.hiddenRight p = true := by
  refine Bool.or_eq_true_iff.mpr (.inr ((Option.all_eq_true _ _).mpr fun d hd => ?_))
  rw [(Option.all_eq_true _ _).mp h d hd, Bool.true_or, Bool.true_or]

/-- What the server does not have is rightly absent. -/
theorem hiddenRight_of_gone {p : PathBuf} (h : s.server.kind p = none) : s.hiddenRight p = true := by
  refine Bool.or_eq_true_iff.mpr (.inr ((Option.all_eq_true _ _).mpr fun d hd => ?_))
  rw [h, Option.isNone_none, Bool.or_true, Bool.true_or]

/-- An edited listing is not current where it was not before. -/
theorem unvouched_of_edited {m : DirMount} {adds removes : List PathBuf} {dir : PathBuf}
    (hedit : FsCache.Edited s.mount.cache m.cache adds removes) (h : s.unvouched dir = true) :
    (s.run m).unvouched dir = true := by
  refine (Option.all_eq_true _ _).mpr fun d' hd' => ?_
  rcases hedit dir d' hd' with ⟨hnone, -⟩ | ⟨d, hd, hetag, -⟩
  · simp [current, hnone]
  · cases hcur : (s.run m).current dir d' with
    | false => rfl
    | true =>
      have hold := (Option.all_eq_true _ _).mp h d hd
      have hcurOld : s.current dir d = true := current_of_edited rfl hetag hcur
      rw [hcurOld] at hold
      cases hold

/-- What a rename leaves, whatever it does to the queue: it is right about `src` and `dst` if the
    step is. -/
theorem Inv.moved (h : s.Inv) {m : DirMount} {src dst : PathBuf} {queue : List Landing}
    (hmoves : DirMount.Moves s.mount m src dst) (hgrows : s.journal.Grows m.journal)
    (hright : s.leavesRight { queue, freed := s.mount.displaces src dst, adds := [src, dst], removes := [src] } = true)
    (hqueue : queue ⊆ m.journal.landings)
    (hdst : dst ∈ (s.run m).dueAdds ∨ (s.run m).shownRight dst = true)
    (hsrc : src ∈ (s.run m).dueRemoves ∨ (s.run m).hiddenRight src = true) : (s.run m).Inv := by
  refine h.leave (l := { queue, freed := s.mount.displaces src dst, adds := [src, dst], removes := [src] })
    ⟨rfl, List.Subset.refl _, hmoves.edited.mono (List.subset_cons_self _ _) (List.Subset.refl _),
      hqueue, fun x hx hfreed hmakes => ?_, fun p hp => ?_,
        fun p hp => List.mem_singleton.mp hp ▸ hsrc⟩
    rfl hgrows hright
  · refine mem_made_of_kept hmakes (hmoves.openFiles x hx hfreed)
      (hmoves.uploading _ (makes_iff.mp hmakes).2.2 fun hsame => ?_)
    -- a handle on the source moves with it
    have hbelow := (Bool.or_eq_false_iff.mp hfreed).1
    rw [hsame, (PathBuf.stripPrefix_eq_some_iff src src []).mpr (List.append_nil src).symm] at hbelow
    cases hbelow
  · rcases List.mem_cons.mp hp with rfl | hp
    · by_cases hsame : p = dst
      · exact hsame ▸ hdst
      · exact .inr (shownRight_of_hides (hmoves.hides hsame))
    · exact List.mem_singleton.mp hp ▸ hdst

/-- The move of one path to another keeps the invariant where what it ends is right. -/
theorem Inv.renameTo (h : s.Inv) {src dst : PathBuf} (hdst : dst ≠ [])
    (hm : s.movesRight src dst = true) :
    (s.run (s.mount.renameTo src dst)).Inv := by
  obtain ⟨hmoves, hqueue⟩ := s.mount.renameTo_cases src dst hdst
  -- The destination's folder vouches for nothing, so it cannot be wrong there.
  have hunvouched : s.unvouched dst.parent = true →
    (s.run (s.mount.renameTo src dst)).shownRight dst = true :=
    fun hnone => shownRight_of_unvouched
      (unvouched_of_edited hmoves.edited hnone)
  -- without a MOVE the source has to be gone, or due to go already
  have hgone : (decide (src ∈ s.dueRemoves) || decide (s.server.kind src = none) || s.unvouched
    src.parent) = true →
      (src ∈ s.dueRemoves → src ∈ (s.run (s.mount.renameTo src dst)).dueRemoves) →
      src ∈ (s.run (s.mount.renameTo src dst)).dueRemoves ∨
        (s.run (s.mount.renameTo src dst)).hiddenRight src = true := by
    intro hgone hdue
    rcases Bool.or_eq_true_iff.mp hgone with hgone | hnone
    · rcases Bool.or_eq_true_iff.mp hgone with hremoved | hgone
      · exact .inl (hdue (of_decide_eq_true hremoved))
      · exact .inr (hiddenRight_of_gone (of_decide_eq_true hgone))
    · exact .inr (hiddenRight_of_unvouched
        (unvouched_of_edited hmoves.edited hnone))
  unfold movesRight at hm
  dsimp only [kept] at hm
  split at hqueue
  · -- the open handle commits under the new name
    rename_i huncommitted
    rw [if_pos huncommitted] at hm
    obtain ⟨hm, hshown⟩ := Bool.and_eq_true_iff.mp hm
    obtain ⟨hright, hsrc⟩ := Bool.and_eq_true_iff.mp hm
    obtain ⟨hjournal, hhandle⟩ := hqueue
    have hsame : (s.run (s.mount.renameTo src dst)).journal = s.journal := hjournal
    refine h.moved hmoves (hjournal ▸ .refl _) hright ?_ ?_ (hgone hsrc fun hdue => ?_)
    · rw [hjournal]
      exact List.Subset.refl _
    · -- The handle that made the source makes the destination now.
      rcases Bool.or_eq_true_iff.mp hshown with hguard | hnone
      · obtain ⟨x, hx, hcreated, hunlinked, hpath, hup⟩ := hhandle (of_decide_eq_true hguard)
        exact .inl (mem_dueAdds.mpr (.inr (mem_made.mpr
          ⟨x, hx, makes_iff.mpr ⟨hcreated, hunlinked, hpath ▸ hup⟩, hpath⟩)))
      · exact .inr (hunvouched hnone)
    · rwa [dueRemoves_congr (congrArg _ hsame) rfl]
  · rename_i hcommitted
    rw [if_neg hcommitted] at hm
    split at hqueue
    · -- the queued upload is re-pointed
      rename_i hrepoint
      rw [if_pos hrepoint] at hm
      obtain ⟨hm, hshown⟩ := Bool.and_eq_true_iff.mp hm
      obtain ⟨hright, hsrc⟩ := Bool.and_eq_true_iff.mp hm
      obtain ⟨base, hjournal⟩ := hqueue
      have hgranted : (s.journal.retargetUpload src dst base).1 = true :=
        (s.journal.retargetUpload_fst src dst base none).trans (Bool.and_eq_true_iff.mp hrepoint).2
      obtain ⟨e, staging, hone, hop, -, -, hentries⟩ := MutationJournal.retargetUpload_true hgranted
      have hlandings : (s.mount.renameTo src dst).journal.landings =
          (s.journal.entries.filter fun e => !e.op.isUploadOf src).map (·.landing) ++
            [{ seq := e.seq, adds := [dst], removes := [] }] := by
        have hjournal' : (s.mount.renameTo src dst).journal =
          (s.journal.retargetUpload src dst base).2 := hjournal
        rw [hjournal', hentries]
        exact List.map_append
      refine h.moved hmoves (hjournal ▸ MutationJournal.apply_grows s.journal
        (.retargetUpload src dst base)) hright
        (hlandings ▸ List.subset_append_left _ _) ?_ (hgone hsrc fun hdue => ?_)
      · -- The re-pointed upload is owed as before, under the destination.
        rcases Bool.or_eq_true_iff.mp hshown with howes | hnone
        · obtain ⟨x, hx, hup⟩ := List.any_eq_true.mp howes
          obtain ⟨hup, howes⟩ := Bool.and_eq_true_iff.mp hup
          have hxe : x = e := by
            have hmem : x ∈ s.journal.entries.filter fun e => e.op.isUploadOf src :=
              List.mem_filter.mpr ⟨hx, hup⟩
            rw [hone] at hmem
            exact List.mem_singleton.mp hmem
          refine .inl (mem_dueAdds.mpr
            (.inl ⟨{ seq := e.seq, adds := [dst], removes := [] }, ?_, hxe ▸ howes,
              List.mem_cons_self⟩))
          exact hlandings ▸ List.mem_append_right _ List.mem_cons_self
        · exact .inr (hunvouched hnone)
      · -- an upload takes nothing away
        obtain ⟨x, hx, howes, hremoves⟩ := mem_dueRemoves.mp hdue
        obtain ⟨y, hy, rfl⟩ := List.mem_map.mp hx
        refine mem_dueRemoves.mpr ⟨y.landing, hlandings ▸ List.mem_append_left _ ?_, howes, hremoves⟩
        refine List.mem_map_of_mem (List.mem_filter.mpr ⟨hy, ?_⟩)
        cases hup : y.op.isUploadOf src with
        | false => rfl
        | true =>
          have hnone : y.landing.removes = [] := (MutationOp.isUploadOf_paths hup).2.1
          rw [hnone] at hremoves
          cases hremoves
    · -- a MOVE is queued
      rename_i hmove
      rw [if_neg hmove] at hm
      obtain ⟨base, hjournal⟩ := hqueue
      have hentries : (s.mount.renameTo src dst).journal.entries =
          s.journal.entries.map (MutationJournal.followRename (.rename src dst none base)) ++
            [{ seq := s.journal.nextSeq, op := .rename src dst none base }] := by
        have hjournal' : (s.mount.renameTo src dst).journal =
            (s.journal.enqueue (.rename src dst none base)).2 := hjournal
        rw [hjournal', MutationJournal.enqueue_entries]
        rfl
      have hnew : { seq := s.journal.nextSeq, op := .rename src dst none base } ∈
          (s.mount.renameTo src dst).journal.entries :=
        hentries ▸ List.mem_append_right _ List.mem_cons_self
      -- The new MOVE is owed by its number: it has not landed.
      have hdue := fun p => h.due_new (p := p) hnew (Nat.le_refl _)
      refine h.moved hmoves (hjournal ▸ MutationJournal.apply_grows s.journal
        (.enqueue (.rename src dst none base)))
        hm (fun x hx => ?_) (.inl ((hdue dst).1 List.mem_cons_self))
          (.inl ((hdue src).2 List.mem_cons_self))
      -- the condition of the MOVE is none of the paths
      obtain ⟨y, hy, rfl⟩ := List.mem_map.mp hx
      obtain ⟨e, he, rfl⟩ := List.mem_map.mp hy
      refine List.mem_map.mpr ⟨_, hentries ▸ List.mem_append_left _ (List.mem_map_of_mem he), ?_⟩
      exact MutationJournal.followRename_landing src dst base none e

/-- A rename moves a path, or is refused. -/
theorem Inv.rename (h : s.Inv) {parent newparent : Nat} {name newname : String} {flags : RenameFlags}
    (hm : s.meets (.rename parent name newparent newname flags) = true) :
    (s.run (s.mount.rename parent name newparent newname flags).2).Inv := by
  have hcases := s.mount.rename_cases parent name newparent newname flags
  have hm : ((s.mount.renamePaths parent name newparent newname).all
    fun x => s.movesRight x.1 x.2) = true := hm
  cases hpaths : s.mount.renamePaths parent name newparent newname with
  | none =>
    rw [hpaths] at hcases
    have hidle : DirMount.Idle s.mount (s.mount.rename parent name newparent newname flags).2 :=
      hcases
    exact h.request hidle.edits hidle.keeps
  | some x =>
    rw [hpaths] at hcases hm
    obtain ⟨hdst, hrenamed⟩ := hcases
    rw [hrenamed]
    exact h.renameTo hdst hm

/-! ### Workers and the replay -/

/-- Writing to a handle makes no file less. -/
theorem made_write (s : ListedMount) (fh : Nat) (dirty uploadFailed : Bool)
    (stagedLen : Option Nat) :
    s.made ⊆ made { s with mount := { s.mount with openFiles := s.mount.openFiles.map fun h =>
      if h.fh = fh then { h with dirty, uploadFailed, stagedLen } else h } } := by
  intro p hp
  obtain ⟨h, hh, hmakes, hpath⟩ := mem_made.mp hp
  refine mem_made.mpr ⟨_, List.mem_map_of_mem hh, ?_⟩
  split
  · exact ⟨hmakes, hpath⟩
  · exact ⟨hmakes, hpath⟩

/-- Guards that are not named stay. -/
theorem mem_foldl_erase {l : List PathBuf} {t : Finset PathBuf} {p : PathBuf} (hp : p ∈ t)
    (hl : p ∉ l) :
    p ∈ l.foldl Finset.erase t := by
  induction l generalizing t with
  | nil => exact hp
  | cons q l ih =>
    obtain ⟨hne, hl⟩ := not_or.mp (List.mem_cons.not.mp hl)
    exact ih (Finset.mem_erase.mpr ⟨hne, hp⟩) hl

/-- A withdrawn upload takes the guards of its own names only. -/
theorem mem_withdrawGuards {seq : SeqId} {startedAs p : PathBuf} (hp : p ∈ s.cache.uploading)
    (hkept : s.withdraws seq startedAs p = false) :
    p ∈ (s.withdrawGuards seq startedAs).uploading := by
  refine mem_foldl_erase hp fun hgone => ?_
  unfold withdraws at hkept
  cases hfind : s.journal.entries.find? fun e => e.seq = seq with
  | none =>
    simp only [hfind, Option.map_none, Option.getD_none, List.mem_filter, List.mem_cons,
      List.not_mem_nil, or_false, or_self, Option.isSome_none, Bool.false_or] at hgone
    rw [hfind] at hkept
    have htaken : (decide (p = startedAs) && !s.journal.hasPendingPut p) = true := by
      rw [decide_eq_true hgone.1, hgone.2]
      rfl
    rw [htaken] at hkept
    cases hkept
  | some e =>
    simp only [hfind, Option.map_some, Option.getD_some, List.mem_filter, List.mem_cons,
      List.not_mem_nil, or_false, Option.isSome_some, Bool.true_or, and_true] at hgone
    rw [hfind] at hkept
    obtain ⟨hstarted, hqueued⟩ := Bool.or_eq_false_iff.mp hkept
    rcases hgone with hsame | hsame
    · exact of_decide_eq_false hstarted hsame
    · exact of_decide_eq_false hqueued hsame

/-- A step of a worker or the replay, which edits no listing: what it leaves is what `l` says. -/
theorem Inv.settle (h : s.Inv) {l : Leaving} (hserver : s'.server = s.server)
    (hanswers : s'.answers = s.answers)
    (hopen : s'.mount.openFiles = s.mount.openFiles) (hgrows : s.journal.Grows s'.journal)
    (hlanded : s'.landed ⊆ s.landed) (hedit : FsCache.Edited s.cache s'.cache l.adds l.removes)
    (hadds : l.adds = []) (hremoves : l.removes = []) (hqueue : l.queue ⊆ s'.journal.landings)
    (hguards : ∀ x : DirHandle, l.freed x = false → x.remotePath ∈ s.cache.uploading →
      x.remotePath ∈ s'.cache.uploading) (hright : s.leavesRight l = true) : s'.Inv := by
  refine h.leave ⟨hserver, hlanded, hedit, hqueue, fun x hx hfreed hmakes => ?_, fun p hp => ?_,
    fun p hp => ?_⟩
    hanswers hgrows hright
  · exact mem_made_of_kept hmakes (hopen ▸ hx) (hguards x hfreed (makes_iff.mp hmakes).2.2)
  · rw [hadds] at hp
    cases hp
  · rw [hremoves] at hp
    cases hp

/-- A worker's answer keeps the invariant where the change it ends is right in the listing. -/
theorem Inv.answer (h : s.Inv) {seq : SeqId} {op : MutationOp} {dest : PathBuf}
    {sent : Option String}
    {a : LiveAnswer} {size mtime : Nat} {sourceGone : Bool}
    (hm : s.leavesRight (s.leaving (.answer seq op dest sent a size mtime sourceGone)) = true)
    (hs : s.step (.answer seq op dest sent a size mtime sourceGone) = some s') : s'.Inv := by
  simp only [ListedMount.step, Option.ite_none_right_eq_some, Option.some.injEq] at hs
  obtain ⟨-, rfl⟩ := hs
  refine h.settle rfl rfl rfl (MutationJournal.foldl_grows _ _) (fun l hl => ?_)
    (a.settleCache_edited _ _ _ _ _ _ _) rfl rfl ?_ (fun x hfreed hguard => ?_) hm
  · have hl : l ∈ if a.saysDone op then s.landed else s.reopen seq := hl
    split at hl
    · exact hl
    · exact (List.mem_filter.mp hl).1
  · exact fun l hl => (MutationJournal.liveOps_landings s.journal seq op dest sent a).symm ▸ hl
  · exact a.mem_settleCache hguard (of_decide_eq_false hfreed)

/-- The replay does, where the change it ends is. -/
theorem Inv.replay (h : s.Inv) {st : ReplayStep} {size mtime : Nat}
    (hm : s.leavesRight (s.leaving (.replay st size mtime)) = true)
    (hs : s.step (.replay st size mtime) = some s') : s'.Inv := by
  simp only [ListedMount.step, Option.ite_none_right_eq_some, Option.some.injEq] at hs
  obtain ⟨-, rfl⟩ := hs
  refine h.settle rfl rfl rfl ?_ (fun l hl => ?_) (s.replayCache_edited st size mtime) rfl rfl ?_
    (fun x hfreed hguard => mem_replayCache hguard ?_) hm
  · exact MutationJournal.replayStep_grows
      { journal := s.journal, phase := s.phase, cacheDir := s.cacheDir } st
  · have hl : l ∈ s.replayLanded st := hl
    unfold replayLanded at hl
    split at hl
    · exact (List.mem_filter.mp hl).1
    · exact (List.mem_filter.mp hl).1
    · exact hl
  · exact fun l hl => (MutationJournal.replayStep_landings
      { journal := s.journal, phase := s.phase, cacheDir := s.cacheDir } st).symm ▸ hl
  · rintro e r hphase rfl hends hsame
    have hfreed : (match s.phase, ReplayStep.finish with
      | .settled e r, .finish => r.ends && decide (e.op.guard e.op.path = some x.remotePath)
      | _, _ => false) = false := hfreed
    rw [hphase] at hfreed
    dsimp only at hfreed
    rw [hends, decide_eq_true hsame] at hfreed
    cases hfreed

/-! ## Runs -/

/-- An event that only does something to the cache. -/
theorem Inv.setCache (h : s.Inv) {c : FsCache} (hedit : FsCache.Edited s.cache c [] [])
    (huploading : c.uploading = s.cache.uploading) : (s.setCache c).Inv :=
  h.keep rfl rfl (.refl _) (List.Subset.refl _) hedit (List.Subset.refl _)
    (made_mono (List.Subset.refl _) huploading.superset)

/-- Each event that meets its condition keeps the invariant. -/
theorem Inv.step (h : s.Inv) {ev : ListedEvent} (hm : s.meets ev = true)
    (hs : s.step ev = some s') : s'.Inv := by
  -- The file requests edit the listings and the journal in one step.
  cases ev with
  | create parent name fh streams =>
    simp only [ListedMount.step, Option.ite_none_left_eq_some, Option.some.injEq] at hs
    exact hs.2 ▸ h.create parent name fh streams
  | mkdir parent name =>
    obtain rfl := Option.some.inj hs
    obtain ⟨adds, hedits, hkeeps⟩ := s.mount.mkdir_edits parent name
    exact h.request hedits hkeeps
  | unlink parent name =>
    obtain rfl := Option.some.inj hs
    rcases s.mount.unlink_edits parent name with ⟨hedits, hkeeps⟩ | ⟨path, hremoves⟩
    · exact h.request hedits hkeeps
    · exact h.remove hremoves
  | rmdir parent name =>
    obtain rfl := Option.some.inj hs
    rcases s.mount.rmdir_edits parent name with hidle | ⟨path, hremoves⟩
    · exact h.request hidle.edits hidle.keeps
    · exact h.remove hremoves
  | rename parent name newparent newname flags =>
    obtain rfl := Option.some.inj hs
    exact h.rename hm
  | release fh upload =>
    obtain rfl := Option.some.inj hs
    exact h.release hm
  | «open» x =>
    -- Steps that leave the listings and the journal alone.
    simp only [ListedMount.step, Option.ite_none_left_eq_some, Option.some.injEq] at hs
    obtain ⟨-, rfl⟩ := hs
    exact h.keep rfl rfl (.refl _) (List.Subset.refl _) (.refl _) (List.Subset.refl _)
      (made_mono (List.subset_append_left _ _) subset_rfl)
  | write fh dirty uploadFailed stagedLen =>
    obtain rfl := Option.some.inj hs
    exact h.keep rfl rfl (.refl _) (List.Subset.refl _) (.refl _) (List.Subset.refl _)
      (s.made_write fh dirty uploadFailed stagedLen)
  | setOffline b =>
    obtain rfl := Option.some.inj hs
    exact h.keep rfl rfl (.refl _) (List.Subset.refl _) (.refl _) (List.Subset.refl _)
      (made_mono (List.Subset.refl _) subset_rfl)
  | allocate path =>
    -- Steps of the cache that list the same names.
    obtain rfl := Option.some.inj hs
    exact h.setCache (.of_dirCache (FsCache.allocateInode_dirCache _ _))
      (DirMount.allocateInode_uploading _ _)
  | ghost path g =>
    obtain rfl := Option.some.inj hs
    exact h.keep rfl rfl (.refl _) (List.Subset.refl _) (.refl _) (List.Subset.refl _)
      (made_mono (List.Subset.refl _) subset_rfl)
  | stat path size modified changeToken =>
    obtain rfl := Option.some.inj hs
    exact h.setCache (FsCache.edited_modifyEntry (fun _ => rfl) fun _ => rfl)
      (DirMount.modifyDir_uploading _ _ _)
  | relabel path d =>
    obtain rfl := Option.some.inj hs
    exact h.setCache (FsCache.edited_modifyDir (fun _ => rfl) fun _ => .refl _)
      (DirMount.modifyDir_uploading _ _ _)
  | evict path =>
    obtain rfl := Option.some.inj hs
    exact h.setCache (FsCache.edited_removeDir path) rfl
  -- The listing is read, and stored later.
  | fetch path => exact h.fetch hs
  | store i =>
    cases ha : s.answers[i]? with
    | none =>
      simp only [ListedMount.step, ha] at hs
      cases hs
    | some a =>
      have hfaithful : (s.answers[i]?).all s.storeFaithful = true := hm
      rw [ha] at hfaithful
      exact h.store ha hfaithful hs
  | change tree => exact h.change hs
  | land seq tree => exact h.land hs
  | claim seq =>
    obtain rfl := Option.some.inj hs
    exact h.keep rfl rfl (MutationJournal.apply_grows s.journal (.claim seq))
      (List.Subset.refl _) (.refl _)
      (fun l hl => (MutationJournal.claim_landings s.journal seq).symm ▸ hl)
        (made_mono (List.Subset.refl _) subset_rfl)
  | settleUpload seq startedAs ifMatch =>
    obtain rfl := Option.some.inj hs
    refine h.settle rfl rfl rfl
      (MutationJournal.apply_grows s.journal (.settleUpload seq startedAs ifMatch))
      (List.Subset.refl _) (.refl _) rfl rfl ?_ (fun _ _ hguard => hguard) hm
    show (if s.journal.withdraws seq then _ else _ : List Landing) ⊆ _
    split
    · exact s.journal.settleUpload_landings_subset seq startedAs ifMatch
    · rename_i hstays
      have hsame := MutationJournal.settleUpload_landings (Bool.eq_false_iff.mpr hstays)
        startedAs ifMatch
      exact fun l hl => hsame.symm ▸ hl
  | skip seq op =>
    simp only [ListedMount.step, Option.ite_none_right_eq_some, Option.some.injEq] at hs
    obtain ⟨-, rfl⟩ := hs
    refine h.settle rfl rfl rfl (.refl _) (List.Subset.refl _) (.of_dirCache ?_) rfl rfl
      (List.Subset.refl _)
      (fun x hfreed hguard => ?_) hm
    · show (if s.journal.hasPendingPut op.path then _ else _ : FsCache).dirCache = _
      split <;> rfl
    · show x.remotePath ∈ (if s.journal.hasPendingPut op.path then _ else _ : FsCache).uploading
      split
      · exact hguard
      · rename_i hpending
        have hfreed : (!s.journal.hasPendingPut op.path && decide (x.remotePath = op.path)) =
          false := hfreed
        rw [Bool.eq_false_iff.mpr hpending, Bool.not_false, Bool.true_and] at hfreed
        exact Finset.mem_erase.mpr ⟨of_decide_eq_false hfreed, hguard⟩
  | withdrawn seq startedAs =>
    simp only [ListedMount.step, Option.ite_none_right_eq_some, Option.some.injEq] at hs
    obtain ⟨-, rfl⟩ := hs
    exact h.settle rfl rfl rfl (.refl _) (List.Subset.refl _) (.of_dirCache rfl) rfl rfl
      (List.Subset.refl _)
      (fun _ hfreed hguard => mem_withdrawGuards hguard hfreed) hm
  | answer seq op dest sent a size mtime sourceGone => exact h.answer hm hs
  | replay st size mtime => exact h.replay hm hs

/-- So does a whole run. -/
theorem Inv.steps (h : s.Inv) {evs : List ListedEvent} (hm : s.allMeet evs = true)
    (hs : s.steps evs = some s') :
    s'.Inv := by
  induction evs generalizing s with
  | nil => exact Option.some.inj hs ▸ h
  | cons ev evs ih =>
    obtain ⟨s₁, hstep, hrest⟩ := Option.bind_eq_some_iff.mp hs
    simp only [allMeet, hstep, Option.all_some, Bool.and_eq_true] at hm
    exact ih (h.step hm.1 hstep) hm.2 hrest

end ListedMount

/-- An entry keeps its number when the journal is loaded. -/
theorem MutationJournal.loadEntry_seq {files : PathBuf → Option LocalFile} {e x : JournalEntry}
    (h : loadEntry files e = some x) : x.seq = e.seq := by
  unfold loadEntry at h
  split at h
  · split at h
    · exact Option.some.inj h ▸ rfl
    · exact Option.some.inj h ▸ rfl
  · exact Option.some.inj h ▸ rfl
  · split at h
    · split at h
      · exact Option.some.inj h ▸ rfl
      · cases h
    · exact Option.some.inj h ▸ rfl

/-- The numbers of a loaded journal lie below the next one. -/
theorem MutationJournal.loadOrCreate_seqs (d : CacheDir) :
    ∀ e ∈ (loadOrCreate d).entries, e.seq < (loadOrCreate d).nextSeq := by
  have hconflict : ∀ (l : List JournalEntry) (text : JournalEntry → ConflictKind)
    (j : MutationJournal),
      Grows j (l.foldl (fun j e => j.addConflict (text e)) j) := by
    intro l text
    induction l with
    | nil => exact fun j => .refl j
    | cons e l ih => exact fun j => (apply_grows j (.addConflict (text e))).trans (ih _)
  unfold loadOrCreate
  extract_lets list conflicts orphaned j j'
  have hseqs : ∀ e ∈ j.entries, e.seq < j.nextSeq := by
    intro e he
    obtain ⟨x, hx, hload⟩ := List.mem_filterMap.mp (List.mem_filter.mp he).1
    rw [loadEntry_seq hload]
    exact lt_maxOf_succ (List.mem_map_of_mem hx)
  have hj' : ∀ e ∈ j'.entries, e.seq < j'.nextSeq := (hconflict orphaned _ j).seqs hseqs
  split
  · exact hj'
  · exact hj'

namespace ListedMount

variable {s s' : ListedMount}

/-- A mount that has loaded its journal and the listings of the last session. `past` are the etags
    the server's folders have had. -/
def start (disk : CacheDir) (cacheDir : PathBuf) (c : FsCache) (offline : Bool)
    (past : List (PathBuf × String)) (tree : AList (fun _ : PathBuf => RemoteEntry)) :
    ListedMount where
  mount :=
    { cache := { c with uploading := ∅, deleting := ∅ }
      journal := MutationJournal.loadOrCreate disk
      offline := offline }
  cacheDir := cacheDir
  server := { tree := ∅, used := past : DavServer }.become tree

/-- The listings found at the start, under etags of that directory, differ from what the server has
    under them by what is queued. -/
structure Restored (s : ListedMount) : Prop where
  children : ∀ dir d, s.cache.dir dir = some d → ∀ e ∈ d.files, DavServer.isChild dir e.path = true
  known : ∀ dir d tag, s.cache.dir dir = some d → d.etag = some tag → (dir, tag) ∈ s.server.used
  vouched : ∀ dir d, s.cache.dir dir = some d → s.current dir d = true → s.Vouched dir d.files

/-- A mount that comes up over a restored cache satisfies the invariant. -/
theorem Inv.start {disk : CacheDir} {cacheDir : PathBuf} {c : FsCache} {offline : Bool}
    {past : List (PathBuf × String)} {tree : AList (fun _ : PathBuf => RemoteEntry)}
    (h : (start disk cacheDir c offline past tree).Restored) :
    (start disk cacheDir c offline past tree).Inv where
  seqs := MutationJournal.loadOrCreate_seqs disk
  landed _ hl := (by cases hl)
  used _ _ htag := DavServer.etag_mem_become htag
  children := h.children
  known := h.known
  vouched := h.vouched
  answers _ ha := (by cases ha)

/-- No queued or running change concerns a direct child of `dir`. -/
def quiet (s : ListedMount) (dir : PathBuf) : Bool :=
  (s.journal.entries.all fun e => (e.op.adds ++ e.op.removes).all fun p => !DavServer.isChild dir p)
    && decide (∀ p ∈ s.cache.uploading ∪ s.cache.deleting, DavServer.isChild dir p = false)

/-- In a directory where nothing is due no path is due to appear. -/
theorem dueAdds_of_quiet {dir p : PathBuf} (hquiet : s.quiet dir = true)
    (hp : DavServer.isChild dir p = true) :
    p ∉ s.dueAdds := by
  obtain ⟨hqueue, hguards⟩ := Bool.and_eq_true_iff.mp hquiet
  intro hdue
  rcases mem_dueAdds.mp hdue with ⟨l, hl, -, hadds⟩ | hmade
  · obtain ⟨e, he, rfl⟩ := List.mem_map.mp hl
    have := List.all_eq_true.mp (List.all_eq_true.mp hqueue e he) p (List.mem_append_left _ hadds)
    rw [hp] at this
    cases this
  · obtain ⟨h, -, hmakes, rfl⟩ := mem_made.mp hmade
    have := of_decide_eq_true hguards _ (Finset.mem_union_left _ (makes_iff.mp hmakes).2.2)
    rw [hp] at this
    cases this

/-- And none is due to go. -/
theorem dueRemoves_of_quiet {dir p : PathBuf} (hquiet : s.quiet dir = true)
    (hp : DavServer.isChild dir p = true) :
    p ∉ s.dueRemoves := by
  intro hdue
  obtain ⟨l, hl, -, hremoves⟩ := mem_dueRemoves.mp hdue
  obtain ⟨e, he, rfl⟩ := List.mem_map.mp hl
  have := List.all_eq_true.mp (List.all_eq_true.mp (Bool.and_eq_true_iff.mp hquiet).1 e he) p
    (List.mem_append_right _ hremoves)
  rw [hp] at this
  cases this

/-- A server with the given files in its root, which is at version `tag`. -/
def rootFolder (tag : String) (names : List String) : AList (fun _ : PathBuf => RemoteEntry) :=
  let files : AList (fun _ : PathBuf => RemoteEntry) := names.foldr (fun n t =>
    t.insert [n] { path := [n], isDir := false, size := 3, changeToken := some n }) ∅
  files.insert [] { path := [], isDir := true, size := 0, changeToken := some tag }

/-- A mount with nothing queued and no listing yet. -/
def freshMount : ListedMount :=
  start { files := fun _ => none } ["cache"]
    { inodes := fun i => if i = 1 then some [] else none, paths := fun p => if p = [] then some 1 else none }
    false [] (rootFolder "t1" ["a"])

/-- A mount over an empty cache is restored. -/
theorem freshMount_restored : freshMount.Restored := by
  have hnone : ∀ dir, freshMount.cache.dir dir = none := fun dir => AList.lookup_empty dir
  refine ⟨fun dir d hd => ?_, fun dir d tag hd => ?_, fun dir d hd => ?_⟩
  · rw [hnone] at hd
    cases hd
  · rw [hnone] at hd
    cases hd
  · rw [hnone] at hd
    cases hd

/-- `/f` is written and uploaded, and the root is listed again once the server has it. -/
def savedRun : List ListedEvent :=
  [.fetch [], .store 0, .create 1 "f" 7 false, .write 7 true false (some 3),
    .release 7 (some ⟨.put ["f"] ["cache", "p"] none, 3, 9⟩), .claim 1,
      .land 1 (rootFolder "t2" ["a", "f"]),
    .answer 1 (.put ["f"] ["cache", "p"] none) ["f"] none (.landed (some "f")) 3 9 false,
      .fetch [], .store 0]

/-- `/f` is created and closed unwritten. -/
def unwrittenRun : List ListedEvent := [.fetch [], .store 0, .create 1 "f" 7 false, .release 7 none]

end ListedMount

end Ncrs
