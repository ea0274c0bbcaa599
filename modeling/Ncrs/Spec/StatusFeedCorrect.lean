import Ncrs.Native.StatusFeed

/-!
# When a file manager's statuses converge

A listing the client holds may be out of date for a while, but then something that puts it right is
on its way: a refetch, a request the daemon has not answered, a reply it wrote just now, or a record
of the change that the feed has yet to deliver (`StatusFeed.Settled`, `StatusFeed.Pending`). There
are two gaps. The client asks for a directory before it opens the feed, and the record of a change
between the daemon's answer and the start of a feed without a sequence number is never delivered.
And a reply whose first child is called `error:` something is taken for a refusal, which keeps what
there was. In a run where no change and no such name falls into a gap (`StatusFeed.Meets`) the
statuses converge.

## Key results

- `Daemon.change_detaildirRecords`: a change concerns only the directories above its path
- `StatusFeed.Covered.foldl`: what one directory's treatment does, for a whole list of them
- `StatusFeed.Held.step`: what the client holds is the daemon's last answer
- `StatusFeed.Converging.step`: a step that meets its condition keeps the invariant
- `StatusFeed.cached_statuses_converge`: in a quiet state the listings are the daemon's
- `StatusFeed.change_before_feed_is_missed`: a change that falls into the gap
-/

namespace Ncrs

/-! ## What a change concerns -/

/-- `dir` is a directory above `p`. -/
def Below (dir p : PathBuf) : Prop := dir <+: p ∧ dir ≠ p

/-- A path is below its parent. -/
theorem below_of_parent {dir p : PathBuf} (hp : p ≠ []) (h : p.parent = dir) : Below dir p := by
  subst h
  refine ⟨List.dropLast_prefix p, fun heq => ?_⟩
  have hlen := congrArg List.length heq
  rw [PathBuf.parent, List.length_dropLast] at hlen
  have := List.length_pos_of_ne_nil hp
  omega

theorem Below.trans {a b c : PathBuf} (hab : Below a b) (hbc : Below b c) : Below a c := by
  refine ⟨hab.1.trans hbc.1, fun heq => hab.2 ?_⟩
  subst heq
  exact hab.1.eq_of_length_le hbc.1.length_le

/-- The ancestors that a change is rolled up to are the directories above it. -/
theorem StatusFeed.mem_ancestors {dir p : PathBuf} : dir ∈ ancestors p ↔ Below dir p := by
  unfold ancestors Below
  simp only [List.mem_map, List.mem_reverse, List.mem_range]
  constructor
  · rintro ⟨k, hk, rfl⟩
    refine ⟨List.take_prefix k p, fun heq => ?_⟩
    have hlen := congrArg List.length heq
    rw [List.length_take] at hlen
    omega
  · rintro ⟨hpre, hne⟩
    refine ⟨dir.length, ?_, (List.prefix_iff_eq_take.mp hpre).symm⟩
    have hle := hpre.length_le
    rcases Nat.lt_or_ge dir.length p.length with hlt | hge
    · exact hlt
    · exact absurd (hpre.eq_of_length_le hge) hne

/-- The record names a path below `dir`. -/
def FeedRecord.Concerns (r : FeedRecord) (dir : PathBuf) : Prop := ∃ p ∈ r.paths, Below dir p

namespace Daemon

variable {d : Daemon} {dir p : PathBuf} {st : Option FileStatus} {sh : Bool}

/-- The children of a directory lie below it. -/
theorem mem_dirChildren {c : PathBuf} (h : c ∈ d.dirChildren dir) : Below dir c := by
  unfold dirChildren at h
  split at h
  · rename_i cs hcs
    obtain ⟨hne, hpar⟩ := d.children_parent dir cs hcs c h
    exact below_of_parent hne hpar
  · simp only [List.mem_filter, Bool.and_eq_true, decide_eq_true_eq] at h
    exact below_of_parent h.2.1 h.2.2

/-- A change of one path leaves the status of the others. -/
theorem change_status_of_ne {q : PathBuf} (h : q ≠ p) :
    (d.change p st sh).status q = d.status q :=
  if_neg h

theorem change_statusOr_of_ne {q : PathBuf} (h : q ≠ p) :
    (d.change p st sh).statusOr q = d.statusOr q := by
  unfold statusOr
  rw [change_status_of_ne h]

/-- A change outside a directory leaves what the directory shows. -/
theorem change_dirStatus (hdir : dir ≠ p) (hin : ¬ Below dir p) :
    (d.change p st sh).dirStatus dir = d.dirStatus dir := by
  have hinside : ((d.children dir).getD []).map (d.change p st sh).statusOr =
      ((d.children dir).getD []).map d.statusOr := by
    apply List.map_congr_left
    intro c hc
    cases hcs : d.children dir with
    | none => simp [hcs] at hc
    | some cs =>
      rw [hcs, Option.getD_some] at hc
      obtain ⟨hne, hpar⟩ := d.children_parent dir cs hcs c hc
      have hcp : c ≠ p := fun heq => hin (heq ▸ below_of_parent hne hpar)
      exact change_statusOr_of_ne hcp
  have hchildren : (d.change p st sh).children dir = d.children dir := rfl
  unfold dirStatus
  simp only [hchildren, hinside, change_status_of_ne hdir, change_statusOr_of_ne hdir]

/-- A change of `p` shows only in the listings of directories above `p`. -/
theorem change_detaildirRecords (h : ¬ Below dir p) :
    (d.change p st sh).detaildirRecords dir = d.detaildirRecords dir := by
  unfold detaildirRecords
  show (d.dirChildren dir).filterMap _ = _
  apply List.filterMap_congr
  intro c hc
  have hbelow := mem_dirChildren hc
  have hcp : c ≠ p := fun heq => h (heq ▸ hbelow)
  have hin : ¬ Below c p := fun hcb => h (hbelow.trans hcb)
  rw [show (d.change p st sh).details = d.details from rfl]
  cases d.details.lookup c with
  | none => rfl
  | some detail =>
    cases c.fileName with
    | none => rfl
    | some name =>
      have hshared : (d.change p st sh).sharing c detail = d.sharing c detail := by
        unfold sharing
        rw [show (d.change p st sh).shared c = d.shared c from if_neg hcp]
        rfl
      simp only [change_dirStatus hcp hin, hshared, change_statusOr_of_ne hcp]

end Daemon

namespace StatusFeed

variable {s s' : StatusFeed} {pend pend' : PathBuf → Prop} {dir a : PathBuf} {d d' : DirCache}

/-! ## What puts a listing right -/

/-- The client reads what the daemon says of `dir` now as a listing. -/
def Readable (s : StatusFeed) (dir : PathBuf) : Prop :=
  isErrorLine (replyLine (s.detaildir dir)) = false

/-- The listing is the daemon's, or a refetch, a request, a current reply or the record of a change
    that is not in the log yet will make it so. -/
def Settled (s : StatusFeed) (dir : PathBuf) (d : DirCache) : Prop :=
  (d.inFlight = false ∧ d.children = childrenOf (s.detaildir dir)) ∨ dir ∈ s.refetch ∨
    d.refetchQueued = true ∨ dir ∈ s.wire ∨ (dir, s.detaildir dir) ∈ s.replies ∧ s.Readable dir ∨
    ∃ p ∈ s.dirty, Below dir p

/-- The directories with a request or a reply on its way. -/
def flight (s : StatusFeed) : List PathBuf := s.wire ++ s.replies.map (·.1)

/-- The listings in the cache are settled, but for those in `pend`. -/
structure Covered (s : StatusFeed) (pend : PathBuf → Prop) : Prop where
  inFlight : ∀ dir, (∃ d, s.dirs.lookup dir = some d ∧ d.inFlight = true) ↔ dir ∈ s.flight
  nodup : s.flight.Nodup
  settled : ∀ dir d, s.dirs.lookup dir = some d → s.Settled dir d ∨ pend dir

/-- More may be pending. -/
theorem Covered.mono (h : s.Covered pend) (hp : ∀ dir, pend dir → pend' dir) : s.Covered pend' :=
  { h with settled := fun dir d hd => (h.settled dir d hd).imp_right (hp dir) }

/-- One entry of the cache changes, and nothing that travels. -/
theorem Covered.set (h : s.Covered pend) (hd : s.dirs.lookup a = some d)
    (hdirs : s'.dirs = s.dirs.insert a d') (hflight : s'.flight = s.flight)
    (hin : d'.inFlight = d.inFlight)
    (hrest : ∀ dir e, dir ≠ a → s.Settled dir e ∨ pend dir → s'.Settled dir e ∨ pend' dir)
    (ha : s'.Settled a d' ∨ pend' a) : s'.Covered pend' where
  inFlight := fun dir => by
    -- The directory given is in flight as before; every other is untouched.
    rw [hflight, ← h.inFlight dir, hdirs]
    by_cases hdir : dir = a
    · subst hdir
      rw [AList.lookup_insert, hd]
      simp [hin]
    · rw [AList.lookup_insert_ne hdir]
  nodup := hflight ▸ h.nodup
  settled := fun dir e he => by
    rw [hdirs] at he
    by_cases hdir : dir = a
    · subst hdir
      rw [AList.lookup_insert] at he
      cases he
      exact ha
    · rw [AList.lookup_insert_ne hdir] at he
      exact hrest dir e hdir (h.settled dir e he)

/-- Whether an entry is settled is read from its request, its children and its place in the
    queue. -/
theorem Settled.congr_entry (h : s.Settled dir d) (hin : d'.inFlight = d.inFlight)
    (hc : d'.children = d.children) (hq : d'.refetchQueued = d.refetchQueued) :
    s.Settled dir d' := by
  unfold Settled at h ⊢
  rwa [hin, hc, hq]

/-- A request for a directory that has none on its way. -/
theorem Covered.requestDir_new (h : s.Covered fun dir => pend dir ∨ dir = a)
    (hn : ∀ d, s.dirs.lookup a = some d → d.inFlight = false) : (s.requestDir a).Covered pend := by
  -- Not asked for so far, so the request on the wire is the only one.
  have hfree : a ∉ s.flight := by
    intro hmem
    obtain ⟨d, hd, hin⟩ := (h.inFlight a).mpr hmem
    rw [hn d hd] at hin
    cases hin
  have hnot : ((s.dirs.lookup a).getD {}).inFlight = false := by
    cases hl : s.dirs.lookup a with
    | none => rfl
    | some d => exact hn d hl
  unfold requestDir
  simp only [hnot, Bool.false_eq_true, if_false]
  refine { inFlight := fun dir => ?_, nodup := ?_, settled := fun dir d hd => ?_ }
  · show (∃ d, (s.dirs.insert a _).lookup dir = some d ∧ d.inFlight = true) ↔
      dir ∈ (s.wire ++ [a]) ++ s.replies.map (·.1)
    by_cases hdir : dir = a
    · subst hdir
      simp [AList.lookup_insert]
    · rw [AList.lookup_insert_ne hdir, h.inFlight dir]
      simp [flight, hdir]
  · -- One more request, of a directory that had none.
    show ((s.wire ++ [a]) ++ s.replies.map (·.1)).Nodup
    have hperm : ((s.wire ++ [a]) ++ s.replies.map (·.1)).Perm (a :: s.flight) := by
      rw [List.append_assoc]
      exact List.perm_middle
    exact hperm.nodup_iff.mpr (List.nodup_cons.mpr ⟨hfree, h.nodup⟩)
  · by_cases hdir : dir = a
    · subst hdir
      -- The daemon has yet to answer this one.
      exact .inl (.inr (.inr (.inr (.inl (List.mem_append_right _ (List.mem_singleton.mpr rfl))))))
    · replace hd : s.dirs.lookup dir = some d := (AList.lookup_insert_ne hdir).symm.trans hd
      -- A directory settled so far stays so: the wire only gains.
      rcases h.settled dir d hd with hs | hp | heq
      · refine .inl ?_
        rcases hs with h1 | h1 | h1 | h1 | h1 | h1
        · exact .inl h1
        · exact .inr (.inl h1)
        · exact .inr (.inr (.inl h1))
        · exact .inr (.inr (.inr (.inl (List.mem_append_left _ h1))))
        · exact .inr (.inr (.inr (.inr (.inl h1))))
        · exact .inr (.inr (.inr (.inr (.inr h1))))
      · exact .inr hp
      · exact absurd heq hdir

/-- A request for a directory leaves it covered: its answer is still to come. -/
theorem Covered.requestDir (h : s.Covered pend) (a : PathBuf) : (s.requestDir a).Covered pend := by
  cases hl : s.dirs.lookup a with
  | none =>
    refine (h.mono fun _ => .inl).requestDir_new fun d hd => ?_
    rw [hl] at hd
    cases hd
  | some d =>
    cases hin : d.inFlight with
    | false =>
      refine (h.mono fun _ => .inl).requestDir_new fun e he => ?_
      rw [hl] at he
      cases he
      exact hin
    | true =>
      unfold StatusFeed.requestDir
      simp only [hl, Option.getD_some, hin, if_true]
      refine h.set hl rfl rfl hin.symm (fun _ _ _ hs => hs) ?_
      exact (h.settled a d hl).imp_left fun hs => hs.congr_entry hin.symm rfl rfl

/-- Fetching a directory again covers it. -/
theorem Covered.refetchDir (h : s.Covered fun dir => pend dir ∨ dir = a) :
    (s.refetchDir a).Covered pend := by
  unfold StatusFeed.refetchDir
  split
  · rename_i hl
    refine { h with settled := fun dir d hd => ?_ }
    -- Nothing is cached for the directory, so it has nothing to settle.
    rcases h.settled dir d hd with hs | hp | rfl
    · exact .inl hs
    · exact .inr hp
    · rw [hl] at hd
      cases hd
  · rename_i d hl
    split
    · -- A request is under way: the refetch is noted for its reply.
      refine h.set hl rfl rfl rfl (fun dir e hdir hs => ?_) (.inl (.inr (.inr (.inl rfl))))
      rcases hs with hs | hp | heq
      · exact .inl hs
      · exact .inr hp
      · exact absurd heq hdir
    · -- None is under way: the request goes out now.
      rename_i hin
      refine h.requestDir_new fun e he => ?_
      rw [hl] at he
      cases he
      exact Bool.not_eq_true _ ▸ hin

/-- Invalidating a directory covers it, whether it is cached or not. -/
theorem Covered.invalidateDir (h : s.Covered fun dir => pend dir ∨ dir = a) :
    (s.invalidateDir a).Covered pend := by
  unfold StatusFeed.invalidateDir
  split
  · rename_i hl
    refine { h with settled := fun dir d hd => ?_ }
    rcases h.settled dir d hd with hs | hp | rfl
    · exact .inl hs
    · exact .inr hp
    · rw [hl] at hd
      cases hd
  · rename_i d hl
    refine h.set hl rfl rfl rfl (fun dir e hdir hs => ?_)
      (.inl (.inr (.inl (Finset.mem_insert_self a s.refetch))))
    rcases hs with (h1 | h1 | h1) | hp | heq
    · exact .inl (.inl h1)
    · exact .inl (.inr (.inl (Finset.mem_insert_of_mem h1)))
    · exact .inl (.inr (.inr h1))
    · exact .inr hp
    · exact absurd heq hdir

/-- A treatment that takes its directory off the list, for all directories of a list. -/
theorem Covered.foldl {f : StatusFeed → PathBuf → StatusFeed}
    (hf : ∀ {s : StatusFeed} {a : PathBuf} {pend : PathBuf → Prop},
      s.Covered (fun dir => pend dir ∨ dir = a) → (f s a).Covered pend)
    {as : List PathBuf} (h : s.Covered fun dir => pend dir ∨ dir ∈ as) :
    (as.foldl f s).Covered pend := by
  induction as generalizing s with
  | nil => exact h.mono fun dir => Or.rec id fun hmem => absurd hmem List.not_mem_nil
  | cons a as ih =>
    have hsplit : s.Covered fun dir => (pend dir ∨ dir ∈ as) ∨ dir = a := by
      refine h.mono fun dir hdir => ?_
      rcases hdir with hp | hmem
      · exact .inl (.inl hp)
      · exact (List.mem_cons.mp hmem).elim .inr fun hmem => .inl (.inr hmem)
    exact ih (hf hsplit)

/-- After everything was invalidated nothing is pending. -/
theorem Covered.invalidateAll (h : s.Covered pend') : s.invalidateAll.Covered pend := by
  unfold StatusFeed.invalidateAll
  refine Covered.foldl Covered.invalidateDir { h with settled := fun dir d hd => .inr (.inr ?_) }
  show dir ∈ s.dirs
  exact AList.lookup_isSome.mp (by rw [hd]; rfl)

/-- Invalidating paths covers every directory above them. -/
theorem Covered.invalidatePaths {paths : List PathBuf}
    (h : s.Covered fun dir => pend dir ∨ ∃ p ∈ paths, Below dir p) :
    (paths.foldl invalidatePath s).Covered pend := by
  induction paths generalizing s with
  | nil => exact h.mono fun dir => Or.rec id fun ⟨p, hp, _⟩ => absurd hp List.not_mem_nil
  | cons p paths ih =>
    refine ih ?_
    refine Covered.foldl Covered.invalidateDir (h.mono fun dir hdir => ?_)
    rcases hdir with hp | ⟨q, hq, hbelow⟩
    · exact .inl (.inl hp)
    · rcases List.mem_cons.mp hq with rfl | hq
      · exact .inr (mem_ancestors.mpr hbelow)
      · exact .inl (.inr ⟨q, hq, hbelow⟩)

/-- The flush turns what was queued into requests. -/
theorem Covered.flush {order : List PathBuf} (h : s.Covered pend) (hs : s.flush order = some s') :
    s'.Covered pend := by
  unfold StatusFeed.flush at hs
  split at hs
  · rename_i hord
    cases hs
    refine Covered.foldl Covered.refetchDir { h with settled := fun dir d hd => ?_ }
    rcases h.settled dir d hd with (h1 | h1 | h1) | hp
    · exact .inl (.inl h1)
    · rw [← hord.2.2, List.mem_toFinset] at h1
      exact .inr (.inr h1)
    · exact .inl (.inr (.inr h1))
    · exact .inr (.inl hp)
  · cases hs

/-- A directory that is evicted shows nothing wrong. -/
theorem Covered.evict (h : s.Covered pend) (hs : s.evict dir = some s') : s'.Covered pend := by
  unfold StatusFeed.evict at hs
  split at hs
  · cases hs
  · rename_i d hl
    split at hs
    · rename_i hguard
      cases hs
      refine { inFlight := fun q => ?_, nodup := h.nodup, settled := fun q e he => ?_ }
      · -- An evicted directory has no request under way, so none is left without its entry.
        show (∃ e, (s.dirs.erase dir).lookup q = some e ∧ e.inFlight = true) ↔ q ∈ s.flight
        rw [← h.inFlight q]
        by_cases hq : q = dir
        · subst hq
          simp [AList.lookup_erase, hl, hguard.2.1]
        · rw [AList.lookup_erase_ne hq]
      · have he' : (s.dirs.erase dir).lookup q = some e := he
        -- Nothing is asked of a directory that is no longer cached.
        by_cases hq : q = dir
        · rw [hq, AList.lookup_erase] at he'
          cases he'
        · rw [AList.lookup_erase_ne hq] at he'
          exact h.settled q e he'
    · cases hs

/-- An answer that the client can read is on its way to it. -/
theorem Covered.answer (h : s.Covered pend) (hm : ∀ a rest, s.wire = a :: rest → s.Readable a)
    (hs : s.answer = some s') : s'.Covered pend := by
  unfold StatusFeed.answer at hs
  split at hs
  · cases hs
  · rename_i a rest hw
    cases hs
    -- The request moves from the wire to the replies.
    have hperm : (rest ++ (s.replies ++ [(a, s.detaildir a)]).map (·.1)).Perm s.flight := by
      rw [flight, hw, List.map_append, ← List.append_assoc]
      exact List.perm_append_singleton a _
    refine ⟨fun q => ?_, hperm.nodup_iff.mpr h.nodup, fun q e he => ?_⟩
    · rw [h.inFlight q]
      exact hperm.symm.mem_iff
    · rcases h.settled q e he with (h1 | h1 | h1 | h1 | h1 | h1) | hp
      · exact .inl (.inl h1)
      · exact .inl (.inr (.inl h1))
      · exact .inl (.inr (.inr (.inl h1)))
      · -- Still unanswered, unless it is the one answered now.
        rw [hw] at h1
        rcases List.mem_cons.mp h1 with rfl | h1
        · -- Answered now, and so with what the daemon says now.
          refine .inl (.inr (.inr (.inr (.inr (.inl ?_)))))
          exact ⟨List.mem_append_right _ (List.mem_singleton.mpr rfl), hm q rest hw⟩
        · exact .inl (.inr (.inr (.inr (.inl h1))))
      · exact .inl (.inr (.inr (.inr (.inr (.inl ⟨List.mem_append_left _ h1.1, h1.2⟩)))))
      · exact .inl (.inr (.inr (.inr (.inr (.inr h1)))))
      · exact .inr hp

/-- The reply settles its directory, or asks again where a change came in between. -/
theorem Covered.reply (h : s.Covered pend) (hs : s.reply = some s') : s'.Covered pend := by
  unfold StatusFeed.reply at hs
  split at hs
  · cases hs
  · rename_i a r rest hr
    cases hs
    have hflight : s.flight = s.wire ++ a :: rest.map (·.1) := by
      rw [flight, hr]
      rfl
    -- The reply read is that of exactly one request, which its directory's entry is waiting for.
    have hperm : s.flight.Perm (a :: (s.wire ++ rest.map (·.1))) := by
      rw [hflight]
      exact List.perm_middle
    have hnd := List.nodup_cons.mp (hperm.nodup_iff.mp h.nodup)
    obtain ⟨d, hd, hin⟩ := (h.inFlight a).mpr (hperm.mem_iff.mpr List.mem_cons_self)
    unfold applyDetailDir
    simp only [hd]
    refine { inFlight := fun q => ?_, nodup := hnd.2, settled := fun q e he => ?_ }
    · show (∃ e, (s.dirs.insert a _).lookup q = some e ∧ e.inFlight = true) ↔
        q ∈ s.wire ++ rest.map (·.1)
      -- The flag of this directory falls with its request; the others keep both.
      by_cases hq : q = a
      · subst hq
        rw [AList.lookup_insert]
        refine ⟨?_, fun hmem => absurd hmem hnd.1⟩
        rintro ⟨e, he, hein⟩
        cases he
        cases hein
      · rw [AList.lookup_insert_ne hq, h.inFlight q, hperm.mem_iff, List.mem_cons]
        exact or_iff_right hq
    · by_cases hq : q = a
      · subst hq
        have he' := (AList.lookup_insert s.dirs).symm.trans he
        cases he'
        -- How this directory was settled before says how it is now.
        rcases h.settled q d hd with (h1 | h1 | h1 | h1 | h1 | h1) | hp
        · rw [hin] at h1
          cases h1.1
        · -- A refetch already due stays due.
          refine .inl (.inr (.inl ?_))
          show q ∈ if d.refetchQueued = true then insert q s.refetch else s.refetch
          split
          · exact Finset.mem_insert_of_mem h1
          · exact h1
        · -- A refetch noted for the reply becomes due with it.
          refine .inl (.inr (.inl ?_))
          show q ∈ if d.refetchQueued = true then insert q s.refetch else s.refetch
          rw [if_pos h1]
          exact Finset.mem_insert_self q s.refetch
        · -- Its request was answered, so it is not on the wire as well.
          exact absurd (List.mem_append_left _ h1) hnd.1
        · -- The current reply is the one read now: there is no other.
          obtain ⟨h1, hread⟩ := h1
          rw [hr] at h1
          rcases List.mem_cons.mp h1 with heq | h1
          · cases heq
            exact .inl (.inl ⟨rfl, if_neg (by rw [hread]; exact Bool.false_ne_true)⟩)
          · exact absurd (List.mem_append_right _ (List.mem_map_of_mem h1)) hnd.1
        · exact .inl (.inr (.inr (.inr (.inr (.inr h1)))))
        · exact .inr hp
      · have he' : s.dirs.lookup q = some e := (AList.lookup_insert_ne hq).symm.trans he
        -- The other directories: only the refetches may have grown.
        rcases h.settled q e he' with (h1 | h1 | h1 | h1 | h1 | h1) | hp
        · exact .inl (.inl h1)
        · refine .inl (.inr (.inl ?_))
          show q ∈ if d.refetchQueued = true then insert a s.refetch else s.refetch
          split
          · exact Finset.mem_insert_of_mem h1
          · exact h1
        · exact .inl (.inr (.inr (.inl h1)))
        · exact .inl (.inr (.inr (.inr (.inl h1))))
        · -- Another directory's reply is still to be read.
          obtain ⟨h1, hread⟩ := h1
          rw [hr] at h1
          rcases List.mem_cons.mp h1 with heq | h1
          · cases heq
            exact absurd rfl hq
          · exact .inl (.inr (.inr (.inr (.inr (.inl ⟨h1, hread⟩)))))
        · exact .inl (.inr (.inr (.inr (.inr (.inr h1)))))
        · exact .inr hp

/-- A change is written to the log before anybody may miss it. -/
theorem Covered.change (h : s.Covered pend) (p : PathBuf) (st : Option FileStatus) (sh : Bool) :
    Covered { s with daemon := s.daemon.change p st sh, dirty := insert p s.dirty } pend where
  inFlight := h.inFlight
  nodup := h.nodup
  settled := fun q e he => by
    by_cases hq : Below q p
    · exact .inl (.inr (.inr (.inr (.inr (.inr ⟨p, Finset.mem_insert_self p s.dirty, hq⟩)))))
    · have hsame : (s.daemon.change p st sh).detaildirRecords q = s.detaildir q :=
        Daemon.change_detaildirRecords hq
      rcases h.settled q e he with (h1 | h1 | h1 | h1 | h1 | ⟨p', hp', hb⟩) | hp
      · exact .inl (.inl ⟨h1.1, h1.2.trans (congrArg childrenOf hsame.symm)⟩)
      · exact .inl (.inr (.inl h1))
      · exact .inl (.inr (.inr (.inl h1)))
      · exact .inl (.inr (.inr (.inr (.inl h1))))
      · refine .inl (.inr (.inr (.inr (.inr (.inl ?_)))))
        show (q, (s.daemon.change p st sh).detaildirRecords q) ∈ s.replies ∧
          isErrorLine (replyLine ((s.daemon.change p st sh).detaildirRecords q)) = false
        rw [hsame]
        exact h1
      · exact .inl (.inr (.inr (.inr (.inr (.inr ⟨p', Finset.mem_insert_of_mem hp', hb⟩)))))
      · exact .inr hp

/-- A lookup asks for the directory where it has nothing. -/
theorem Covered.lookup (h : s.Covered pend) (path : PathBuf) : (s.lookup path).Covered pend := by
  unfold StatusFeed.lookup
  split
  · split
    · exact h
    · split
      · exact h.requestDir _
      · rename_i d hl
        have htouch : Covered { s with
            dirs := s.dirs.insert path.parent { d with lastUsedMs := s.now } } pend :=
          h.set hl rfl rfl rfl (fun _ _ _ hs => hs)
            ((h.settled _ d hl).imp_left fun hs => hs.congr_entry rfl rfl rfl)
        dsimp only
        split
        · exact htouch.requestDir _
        · exact htouch
  · split
    · exact { h with }
    · exact h

/-! ## The feed -/

/-- The sequence number from which on the client is going to hear of changes. -/
def cursor (s : StatusFeed) : Option Nat :=
  if s.haveWatchSeq then some s.watchSeq
  else
    match s.watch with
    | .streaming _ (.watching n :: _) => some n
    | _ => none

/-- A change that concerns `dir` is still to be heard of. Without a cursor nothing is promised. -/
def Pending (s : StatusFeed) (dir : PathBuf) : Prop :=
  ∀ c, s.cursor = some c → ∃ i r, c ≤ i ∧ s.history[i]? = some r ∧ r.Concerns dir

/-- The lines on their way bring a reader at `c` to `since`: each tells of the records it skips. -/
def Chain (history : List FeedRecord) : Nat → List WatchLine → Nat → Prop
  | c, [], since => c = since
  | c, .watching n :: lines, since => n = c ∧ Chain history c lines since
  | _, .resync next :: lines, since => next ≤ history.length ∧ Chain history next lines since
  | c, .ev next records :: lines, since =>
    next ≤ history.length ∧
      (∀ i r, c ≤ i → i < next → history[i]? = some r → r ∈ records) ∧
      Chain history next lines since

/-- Lines that continue where others end. -/
theorem Chain.append {history : List FeedRecord} {c since next : Nat} {lines more : List WatchLine}
    (h : Chain history c lines since) (hmore : Chain history since more next) :
    Chain history c (lines ++ more) next := by
  induction lines generalizing c with
  | nil => exact (show c = since from h) ▸ hmore
  | cons line lines ih =>
    cases line with
    | watching n => exact ⟨h.1, ih h.2⟩
    | resync n => exact ⟨h.1, ih h.2⟩
    | ev n records => exact ⟨h.1, h.2.1, ih h.2.2⟩

/-- A longer history keeps what was handed out of it. -/
theorem Chain.grow {history more : List FeedRecord} {c since : Nat} {lines : List WatchLine}
    (h : Chain history c lines since) : Chain (history ++ more) c lines since := by
  have hlen : history.length ≤ (history ++ more).length := by simp
  induction lines generalizing c with
  | nil => exact h
  | cons line lines ih =>
    cases line with
    | watching n => exact ⟨h.1, ih h.2⟩
    | resync n => exact ⟨h.1.trans hlen, ih h.2⟩
    | ev n records =>
      refine ⟨h.1.trans hlen, fun i r hc hi hr => h.2.1 i r hc hi ?_, ih h.2.2⟩
      rwa [List.getElem?_append_left (hi.trans_le h.1)] at hr

/-- The log holds the end of the history, and the feed its place in it. -/
structure Feed (s : StatusFeed) : Prop where
  base_le : s.log.base ≤ s.history.length
  entries : s.log.entries = s.history.drop s.log.base
  asked : ∀ since, s.watch = .asked since ∨ s.watch = .marked since →
    since = if s.haveWatchSeq then some s.watchSeq else none
  chain : ∀ since lines, s.watch = .streaming since lines →
    ∃ c, s.cursor = some c ∧ Chain s.history c lines since
  cursor_le : ∀ c, s.cursor = some c → c ≤ s.history.length

/-- The head of the log counts the changes. -/
theorem Feed.head_eq (h : s.Feed) : s.log.head = s.history.length := by
  have hle := h.base_le
  rw [ChangeLog.head, h.entries, List.length_drop]
  omega

/-- The step touches neither the log nor the client's place in it. -/
structure Frame (s s' : StatusFeed) : Prop where
  log : s'.log = s.log
  history : s'.history = s.history
  have_eq : s'.haveWatchSeq = s.haveWatchSeq
  seq : s'.watchSeq = s.watchSeq
  watch : s'.watch = s.watch ∨ s.watch = .closed ∧ s'.watch = .opening

theorem Frame.refl (s : StatusFeed) : Frame s s := ⟨rfl, rfl, rfl, rfl, .inl rfl⟩

/-- Steps that leave the feed alone, one after the other. -/
theorem Frame.trans {s₁ : StatusFeed} (h : Frame s s₁) (h' : Frame s₁ s') : Frame s s' where
  log := h'.log.trans h.log
  history := h'.history.trans h.history
  have_eq := h'.have_eq.trans h.have_eq
  seq := h'.seq.trans h.seq
  watch := by
    rcases h.watch with hw | ⟨hw, hw₁⟩
    · rw [← hw]
      exact h'.watch
    · rcases h'.watch with hw' | ⟨hw', -⟩
      · exact .inr ⟨hw, hw'.trans hw₁⟩
      · rw [hw₁] at hw'
        cases hw'

/-- A list of such steps. -/
theorem Frame.foldl {f : StatusFeed → PathBuf → StatusFeed} (hf : ∀ s a, Frame s (f s a))
    (as : List PathBuf) : Frame s (as.foldl f s) := by
  induction as generalizing s with
  | nil => exact Frame.refl s
  | cons a as ih => exact (hf s a).trans ih

/-- A request goes out on a line of its own. -/
theorem frame_requestDir (s : StatusFeed) (a : PathBuf) : Frame s (s.requestDir a) := by
  unfold requestDir
  dsimp only
  split
  · exact { Frame.refl s with }
  · refine { Frame.refl s with watch := ?_ }
    show (if s.watch = .closed ∧ s.watchRetry = false then WatchConn.opening else s.watch) = _ ∨ _
    split
    · rename_i hclosed
      exact .inr ⟨hclosed.1, rfl⟩
    · exact .inl rfl

theorem frame_refetchDir (s : StatusFeed) (a : PathBuf) : Frame s (s.refetchDir a) := by
  unfold refetchDir
  split
  · exact Frame.refl s
  · split
    · exact { Frame.refl s with }
    · exact frame_requestDir s a

theorem frame_invalidateDir (s : StatusFeed) (a : PathBuf) : Frame s (s.invalidateDir a) := by
  unfold invalidateDir
  split
  · exact Frame.refl s
  · exact { Frame.refl s with }

theorem frame_invalidatePath (s : StatusFeed) (p : PathBuf) : Frame s (s.invalidatePath p) :=
  Frame.foldl frame_invalidateDir (ancestors p)

theorem frame_lookup (s : StatusFeed) (path : PathBuf) : Frame s (s.lookup path) := by
  unfold lookup
  split
  · split
    · exact Frame.refl s
    · split
      · exact frame_requestDir s _
      · dsimp only
        split
        · refine Frame.trans ?_ (frame_requestDir _ _)
          exact { Frame.refl s with }
        · exact { Frame.refl s with }
  · split
    · exact { Frame.refl s with }
    · exact Frame.refl s

/-- The cursor is the connection's or the last one noted. -/
theorem Frame.cursor (h : Frame s s') : s'.cursor = s.cursor := by
  unfold StatusFeed.cursor
  rw [h.have_eq, h.seq]
  rcases h.watch with hw | ⟨hw, hw'⟩
  · rw [hw]
  · rw [hw, hw']

/-- What is pending is read off the cursor. -/
theorem Frame.pending (h : Frame s s') : s'.Pending = s.Pending := by
  unfold Pending
  rw [h.cursor, h.history]

/-- The feed's own invariant is about the log and the lines only. -/
theorem Feed.frame (h : s.Feed) (hf : Frame s s') : s'.Feed where
  base_le := by
    rw [hf.log, hf.history]
    exact h.base_le
  entries := by
    rw [hf.log, hf.history]
    exact h.entries
  asked := fun since hw => by
    rw [hf.have_eq, hf.seq]
    -- A watch line is only ever dropped.
    rcases hf.watch with heq | ⟨-, heq⟩
    · exact h.asked since (heq ▸ hw)
    · rw [heq] at hw
      rcases hw with hw | hw <;> cases hw
  chain := fun since lines hw => by
    rw [hf.cursor, hf.history]
    rcases hf.watch with heq | ⟨-, heq⟩
    · exact h.chain since lines (heq ▸ hw)
    · rw [heq] at hw
      cases hw
  cursor_le := by
    rw [hf.cursor, hf.history]
    exact h.cursor_le

/-! ## The log grows -/

/-- `append` keeps the end of the history, whatever it drops. -/
theorem append_log {l : ChangeLog} {history : List FeedRecord} (records : List FeedRecord)
    (reader : Bool) (hb : l.base ≤ history.length) (he : l.entries = history.drop l.base) :
    (l.append records reader).base ≤ (history ++ records).length ∧
      (l.append records reader).entries = (history ++ records).drop
        (l.append records reader).base := by
  -- Records are kept in order behind those kept so far.
  have hall : l.entries ++ records = (history ++ records).drop l.base := by
    rw [he, List.drop_append_of_le_length hb]
  have hlen : (l.entries ++ records).length = history.length - l.base + records.length := by
    rw [hall, List.length_drop, List.length_append]
    omega
  unfold ChangeLog.append
  split
  · -- Nobody reads the log: it stays empty and only counts.
    rename_i hempty
    rw [List.isEmpty_iff.mp hempty, List.append_nil]
    exact ⟨hb, he⟩
  · dsimp only
    split
    · -- A reader is there: the oldest records beyond the cap are dropped and the base moves on.
      show l.base + _ ≤ _ ∧ List.drop _ _ = List.drop (l.base + _) _
      rw [hlen, hall, List.drop_drop, List.length_append]
      exact ⟨by omega, rfl⟩
    · show l.base + _ + List.length (List.drop _ _) ≤ _ ∧
        [] = List.drop (l.base + _ + List.length (List.drop _ _)) _
      rw [List.length_drop, hlen, List.length_append]
      refine ⟨by omega, (List.drop_eq_nil_of_le ?_).symm⟩
      rw [List.length_append]
      omega

/-- What a page of the log holds: everything from the reader's place up to its new one. -/
theorem readSince_page {l : ChangeLog} {history : List FeedRecord} (since max : Nat)
    (hb : l.base ≤ history.length) (he : l.entries = history.drop l.base) :
    (l.readSince since max).next ≤ history.length ∧
      ((l.readSince since max).resync = false → ∀ i r, since ≤ i →
        i < (l.readSince since max).next → history[i]? = some r →
        r ∈ (l.readSince since max).records) := by
  -- The head is the length of the whole history, since the log is its end.
  have hhead : l.head = history.length := by
    rw [ChangeLog.head, he, List.length_drop]
    omega
  obtain ⟨start, hstart⟩ : ∃ start, start = Nat.min (Nat.max since l.base) l.head := ⟨_, rfl⟩
  have hmin : start = min (Max.max since l.base) history.length := hhead ▸ hstart
  have hrecords : (l.readSince since max).records = (history.drop start).take max := by
    simp only [ChangeLog.readSince]
    rw [← hstart, he, List.drop_drop]
    congr 2
    omega
  have hnext : (l.readSince since max).next = start + ((history.drop start).take max).length := by
    rw [← hrecords, hstart]
    rfl
  rw [hnext, hrecords, List.length_take, List.length_drop]
  refine ⟨by omega, fun hres i r hi hlt hr => ?_⟩
  have hsince : l.base ≤ since := by
    simpa [ChangeLog.readSince] using hres
  -- Within the history the reader is not moved.
  have hin : i < history.length := (List.getElem?_eq_some_iff.mp hr).1
  have hplace : start = since := by omega
  apply List.mem_iff_getElem?.mpr
  refine ⟨i - start, ?_⟩
  rw [List.getElem?_take_of_lt (by omega), List.getElem?_drop, hplace, Nat.add_sub_cancel' hi]
  exact hr

/-- The pump hands the next page of the log to the client. -/
theorem Feed.pump {order : List PathBuf} (h : s.Feed) (hs : s.pump order = some s') : s'.Feed := by
  unfold StatusFeed.pump at hs
  split at hs
  · cases hs
    have hlog := append_log (s.fileChanges.map .file ++ order.map .status)
      (s.others || s.watch.reader) h.base_le h.entries
    exact {
      base_le := hlog.1
      entries := hlog.2
      asked := h.asked
      chain := fun since lines hw => by
        obtain ⟨c, hc, hchain⟩ := h.chain since lines hw
        exact ⟨c, hc, hchain.grow⟩
      cursor_le := fun c hc => (h.cursor_le c hc).trans (by simp) }
  · cases hs

/-- What the pump hands over is invalidated or still pending. -/
theorem Covered.pump {order : List PathBuf} (hf : s.Feed) (h : s.Covered s.Pending)
    (hs : s.pump order = some s') : s'.Covered s'.Pending := by
  unfold StatusFeed.pump at hs
  split at hs
  · rename_i hord
    cases hs
    refine ⟨h.inFlight, h.nodup, fun dir d hd => ?_⟩
    -- The pass sends what was due; the rest is as before.
    rcases h.settled dir d hd with (h1 | h1 | h1 | h1 | h1 | ⟨p, hp, hb⟩) | hp
    · exact .inl (.inl h1)
    · exact .inl (.inr (.inl h1))
    · exact .inl (.inr (.inr (.inl h1)))
    · exact .inl (.inr (.inr (.inr (.inl h1))))
    · exact .inl (.inr (.inr (.inr (.inr (.inl h1)))))
    · -- The change is in the log now, behind the cursor of every reader.
      refine .inr fun c hc => ?_
      have hmem : FeedRecord.status p ∈ s.fileChanges.map .file ++ order.map .status := by
        apply List.mem_append_right
        rw [← hord.2, List.mem_toFinset] at hp
        exact List.mem_map_of_mem hp
      obtain ⟨i, hi⟩ := List.mem_iff_getElem?.mp hmem
      have hle : c ≤ s.history.length := hf.cursor_le c hc
      refine ⟨s.history.length + i, .status p, by omega, ?_, p, List.mem_singleton.mpr rfl, hb⟩
      show (s.history ++ _)[s.history.length + i]? = _
      rw [List.getElem?_append_right (by omega), Nat.add_sub_cancel_left]
      exact hi
    · refine .inr fun c hc => ?_
      obtain ⟨i, r, hci, hr, hconc⟩ := hp c hc
      refine ⟨i, r, hci, ?_, hconc⟩
      have hi : i < s.history.length := (List.getElem?_eq_some_iff.mp hr).1
      show (s.history ++ _)[i]? = _
      rw [List.getElem?_append_left hi]
      exact hr
  · cases hs

/-! ## The condition -/

/-- The paths that have changed since the daemon last answered for a directory. -/
abbrev Changed := PathBuf → Finset PathBuf

/-- The directories with a change that the daemon had when a reply was made. -/
def changedBy (s : StatusFeed) (changed : Changed) : FeedEvent → Changed
  | .change path _ _ => fun dir => insert path (changed dir)
  | .answer =>
    match s.wire with
    | [] => changed
    | a :: _ => fun dir => if dir = a then ∅ else changed dir
  | _ => changed

/-- No reply looks like an error. And when the daemon starts a feed without a sequence number, a
    change below a directory of the cache since it last answered for it is not in the log yet, unless
    that directory is asked for again. -/
def Meets (s : StatusFeed) (changed : Changed) : FeedEvent → Prop
  | .answer => ∀ a rest, s.wire = a :: rest → s.Readable a
  | .startFeed => s.watch = .marked none → ∀ dir ∈ s.dirs, dir ∉ s.wire →
      ∀ p ∈ changed dir, Below dir p → p ∈ s.dirty
  | _ => True

/-! ## The last answers -/

/-- The listing is the daemon's, or a request or the current reply is on its way. -/
def HeldAt (s : StatusFeed) (dir : PathBuf) (d : DirCache) : Prop :=
  (d.inFlight = false ∧ d.children = childrenOf (s.detaildir dir)) ∨ dir ∈ s.wire ∨
    (dir, s.detaildir dir) ∈ s.replies ∧ s.Readable dir

/-- Where nothing has changed since the daemon's last answer, its answer is the one it gave. -/
def Held (s : StatusFeed) (changed : Changed) : Prop :=
  ∀ dir d, s.dirs.lookup dir = some d → (∀ p ∈ changed dir, ¬ Below dir p) → s.HeldAt dir d

variable {changed : Changed}

/-- An entry that is held is settled. -/
theorem HeldAt.settled (h : s.HeldAt dir d) : s.Settled dir d := by
  rcases h with h1 | h1 | h1
  · exact .inl h1
  · exact .inr (.inr (.inr (.inl h1)))
  · exact .inr (.inr (.inr (.inr (.inl h1))))

/-- Whether an entry is held is read from its request and its children. -/
theorem HeldAt.congr_entry (h : s.HeldAt dir d) (hin : d'.inFlight = d.inFlight)
    (hc : d'.children = d.children) : s.HeldAt dir d' := by
  unfold HeldAt at h ⊢
  rwa [hin, hc]

/-- What is held is read from the cache, the wire, the replies and the daemon. -/
theorem Held.congr (h : s.Held changed) (hd : s'.dirs = s.dirs) (hw : s'.wire = s.wire)
    (hr : s'.replies = s.replies) (hm : s'.daemon = s.daemon) : s'.Held changed := by
  unfold Held HeldAt Readable detaildir
  rw [hd, hw, hr, hm]
  exact h

/-- One entry of the cache changes, not in what it lists. -/
theorem Held.set (h : s.Held changed) (hd : s.dirs.lookup a = some d)
    (hin : d'.inFlight = d.inFlight)
    (hc : d'.children = d.children) : Held { s with dirs := s.dirs.insert a d' } changed := by
  intro dir e he hsame
  by_cases hdir : dir = a
  · subst hdir
    cases (AList.lookup_insert s.dirs).symm.trans he
    exact (h dir d hd hsame).congr_entry hin hc
  · exact h dir e ((AList.lookup_insert_ne hdir).symm.trans he) hsame

/-- A request may be answered with what the daemon has then. -/
theorem Held.requestDir (h : s.Held changed) (a : PathBuf) : (s.requestDir a).Held changed := by
  unfold StatusFeed.requestDir
  dsimp only
  split
  · rename_i hin
    cases hl : s.dirs.lookup a with
    | none =>
      rw [hl] at hin
      cases hin
    | some d => exact h.set hl rfl rfl
  · intro dir e he hsame
    by_cases hdir : dir = a
    · subst hdir
      exact .inr (.inl (List.mem_append_right _ (List.mem_singleton.mpr rfl)))
    · rcases h dir e ((AList.lookup_insert_ne hdir).symm.trans he) hsame with h1 | h1 | h1
      · exact .inl h1
      · exact .inr (.inl (List.mem_append_left _ h1))
      · exact .inr (.inr h1)

/-- A directory that is fetched again keeps what it shows until the reply. -/
theorem Held.refetchDir (h : s.Held changed) (a : PathBuf) : (s.refetchDir a).Held changed := by
  unfold StatusFeed.refetchDir
  split
  · exact h
  · rename_i d hl
    split
    · exact h.set hl rfl rfl
    · exact h.requestDir a

/-- So does one that is invalidated. -/
theorem Held.invalidateDir (h : s.Held changed) (a : PathBuf) :
    (s.invalidateDir a).Held changed := by
  unfold StatusFeed.invalidateDir
  split
  · exact h
  · rename_i d hl
    have hset : Held { s with dirs := s.dirs.insert a { d with fetchedAtMs := none } } changed :=
      h.set hl rfl rfl
    exact hset.congr rfl rfl rfl rfl

theorem Held.foldl {f : StatusFeed → PathBuf → StatusFeed}
    (hf : ∀ {s : StatusFeed}, s.Held changed → ∀ a, (f s a).Held changed) (h : s.Held changed)
    (as : List PathBuf) : (as.foldl f s).Held changed :=
  List.foldlRecOn (motive := fun t => t.Held changed) as f h fun _ ht a _ => hf ht a

/-- A lookup that finds an entry changes nothing; one that finds none makes a request. -/
theorem Held.lookup (h : s.Held changed) (path : PathBuf) : (s.lookup path).Held changed := by
  unfold StatusFeed.lookup
  split
  · split
    · exact h
    · split
      · exact h.requestDir _
      · rename_i d hl
        have htouch : Held { s with
            dirs := s.dirs.insert path.parent { d with lastUsedMs := s.now } } changed :=
          h.set hl rfl rfl
        dsimp only
        split
        · exact htouch.requestDir _
        · exact htouch
  · split
    · exact h.congr rfl rfl rfl rfl
    · exact h

/-- An evicted directory is not held to anything. -/
theorem Held.evict (h : s.Held changed) (hs : s.evict dir = some s') : s'.Held changed := by
  unfold StatusFeed.evict at hs
  split at hs
  · cases hs
  · split at hs
    · cases hs
      intro q e he hsame
      have he' : (s.dirs.erase dir).lookup q = some e := he
      by_cases hq : q = dir
      · rw [hq, AList.lookup_erase] at he'
        cases he'
      · rw [AList.lookup_erase_ne hq] at he'
        exact h q e he' hsame
    · cases hs

/-- An answer is current when it is given. -/
theorem Held.answer (h : s.Held changed) (hm : s.Meets changed .answer) (hs : s.answer = some s') :
    s'.Held (s.changedBy changed .answer) := by
  unfold StatusFeed.answer at hs
  split at hs
  · cases hs
  · rename_i a rest hw
    cases hs
    intro q e he hsame
    simp only [changedBy, hw] at hsame
    by_cases hq : q = a
    · subst hq
      exact .inr (.inr ⟨List.mem_append_right _ (List.mem_singleton.mpr rfl), hm q rest hw⟩)
    · rw [if_neg hq] at hsame
      rcases h q e he hsame with h1 | h1 | h1
      · exact .inl h1
      · rw [hw] at h1
        exact .inr (.inl ((List.mem_cons.mp h1).resolve_left hq))
      · exact .inr (.inr ⟨List.mem_append_left _ h1.1, h1.2⟩)

/-- The reply that is read is the only one for its directory. -/
theorem Held.reply (h : s.Held changed) (hc : s.Covered pend) (hs : s.reply = some s') :
    s'.Held changed := by
  unfold StatusFeed.reply at hs
  split at hs
  · cases hs
  · rename_i a r rest hr
    cases hs
    have hperm : s.flight.Perm (a :: (s.wire ++ rest.map (·.1))) := by
      rw [flight, hr]
      exact List.perm_middle
    have hnd := List.nodup_cons.mp (hperm.nodup_iff.mp hc.nodup)
    obtain ⟨d, hd, hin⟩ := (hc.inFlight a).mpr (hperm.mem_iff.mpr List.mem_cons_self)
    unfold applyDetailDir
    simp only [hd]
    intro q e he hsame
    by_cases hq : q = a
    · subst hq
      cases (AList.lookup_insert s.dirs).symm.trans he
      rcases h q d hd hsame with h1 | h1 | ⟨h1, hread⟩
      · rw [hin] at h1
        cases h1.1
      · exact absurd (List.mem_append_left _ h1) hnd.1
      · rw [hr] at h1
        rcases List.mem_cons.mp h1 with heq | h1
        · cases heq
          exact .inl ⟨rfl, if_neg (by rw [hread]; exact Bool.false_ne_true)⟩
        · exact absurd (List.mem_append_right _ (List.mem_map_of_mem h1)) hnd.1
    · rcases h q e ((AList.lookup_insert_ne hq).symm.trans he) hsame with h1 | h1 | ⟨h1, hread⟩
      · exact .inl h1
      · exact .inr (.inl h1)
      · rw [hr] at h1
        rcases List.mem_cons.mp h1 with heq | h1
        · cases heq
          exact absurd rfl hq
        · exact .inr (.inr ⟨h1, hread⟩)

/-- A change after the reply was made is one that is noted. -/
theorem Held.change (h : s.Held changed) (p : PathBuf) (st : Option FileStatus) (sh : Bool) :
    Held { s with daemon := s.daemon.change p st sh, dirty := insert p s.dirty }
      (s.changedBy changed (.change p st sh)) := by
  intro q e he hsame
  have hq : ¬ Below q p := hsame p (Finset.mem_insert_self p _)
  have hold : s.HeldAt q e := h q e he fun p' hp' => hsame p' (Finset.mem_insert_of_mem hp')
  have heq : (s.daemon.change p st sh).detaildirRecords q = s.detaildir q :=
    Daemon.change_detaildirRecords hq
  unfold HeldAt Readable detaildir
  rw [heq]
  exact hold

/-- Delivering a line takes no reply. -/
theorem Held.deliver (h : s.Held changed) (hs : s.deliver = some s') : s'.Held changed := by
  unfold StatusFeed.deliver at hs
  split at hs
  · cases hs
    rename_i line lines _
    cases line with
    | watching n => exact h.congr rfl rfl rfl rfl
    | resync n =>
      refine Held.foldl Held.invalidateDir ?_ _
      exact h.congr rfl rfl rfl rfl
    | ev n records =>
      refine Held.foldl (fun ht p => Held.foldl Held.invalidateDir ht _) ?_ _
      exact h.congr rfl rfl rfl rfl
  · cases hs

/-- The pump takes no reply. -/
theorem Held.pump {order : List PathBuf} (h : s.Held changed) (hs : s.pump order = some s') :
    s'.Held changed := by
  unfold StatusFeed.pump at hs
  split at hs
  · cases hs
    exact h.congr rfl rfl rfl rfl
  · cases hs

/-! ## The invariant -/

/-- What the client shows comes to what the daemon has. -/
def Converging (s : StatusFeed) : Prop := s.Feed ∧ s.Covered s.Pending

/-- A step that leaves the feed alone keeps the client converging if it keeps the cache covered. -/
theorem Converging.of_frame (hf : s.Feed) (hframe : Frame s s') (hc : s'.Covered s.Pending) :
    s'.Converging :=
  ⟨hf.frame hframe, hframe.pending ▸ hc⟩

/-- The client's side of a step, with a new place in the feed. -/
theorem Covered.congr (h : s.Covered pend) (hd : s'.dirs = s.dirs) (hw : s'.wire = s.wire)
    (hr : s'.replies = s.replies) (hf : s'.refetch = s.refetch) (hm : s'.daemon = s.daemon)
    (hdirty : s'.dirty = s.dirty) : s'.Covered pend := by
  refine ⟨?_, ?_, ?_⟩
  · unfold flight
    rw [hd, hw, hr]
    exact h.inFlight
  · unfold flight
    rw [hw, hr]
    exact h.nodup
  · unfold Settled Readable detaildir
    rw [hd, hw, hr, hf, hm, hdirty]
    exact h.settled

/-- A client that has a sequence number asks from there. -/
theorem cursor_of_have (h : s.haveWatchSeq = true) : s.cursor = some s.watchSeq := by
  unfold cursor
  rw [if_pos h]

/-- The page a reader gets: what follows its place, or the order to fetch everything again. -/
theorem Feed.push (h : s.Feed) (hc : s.Covered s.Pending) (hs : s.push = some s') :
    s'.Converging := by
  unfold StatusFeed.push at hs
  split at hs
  · rename_i since lines hw
    obtain ⟨c, hcur, hchain⟩ := h.chain since lines hw
    dsimp only at hs
    -- A new line at the end of the stream, which the chain takes.
    have hmain : ∀ {next : Nat} {line : WatchLine}, Chain s.history since [line] next →
        Converging { s with watch := .streaming next (lines ++ [line]) } := by
      intro next line hline
      have hcursor : cursor { s with watch := .streaming next (lines ++ [line]) } = some c := by
        rw [← hcur]
        unfold cursor
        rw [hw]
        cases lines with
        | nil =>
          cases hhave : s.haveWatchSeq with
          | true => rfl
          | false =>
            rw [cursor, hw, hhave] at hcur
            cases hcur
        | cons l ls => cases l <;> rfl
      refine ⟨⟨h.base_le, h.entries, ?_, ?_, ?_⟩, ⟨hc.inFlight, hc.nodup, fun dir d hd => ?_⟩⟩
      · intro since' hw'
        rcases hw' with hw' | hw' <;> cases hw'
      · intro since' lines' hw'
        cases hw'
        exact ⟨c, hcursor, hchain.append hline⟩
      · intro c' hc'
        rw [hcursor] at hc'
        cases hc'
        exact h.cursor_le c hcur
      · refine (hc.settled dir d hd).imp_right fun hp c' hc' => ?_
        rw [hcursor] at hc'
        cases hc'
        exact hp c hcur
    obtain ⟨hle, hpage⟩ := readSince_page since eventsPage h.base_le h.entries
    split at hs
    · cases hs
      exact hmain ⟨hle, rfl⟩
    · rename_i hres
      split at hs
      · cases hs
      · cases hs
        exact hmain ⟨hle, hpage (Bool.not_eq_true _ ▸ hres), rfl⟩
  · cases hs

/-- The client has read the feed up to `next`. -/
def readUpTo (s : StatusFeed) (since : Nat) (lines : List WatchLine) (next : Nat) : StatusFeed :=
  { s with watch := .streaming since lines, watchSeq := next, haveWatchSeq := true }

/-- The client has read the lines up to a place in the log. -/
theorem Feed.readUpTo (h : s.Feed) {since next : Nat} {lines : List WatchLine}
    (hle : next ≤ s.history.length) (hrest : Chain s.history next lines since) :
    (s.readUpTo since lines next).Feed := by
  have hcursor : (s.readUpTo since lines next).cursor = some next := cursor_of_have rfl
  refine ⟨h.base_le, h.entries, ?_, ?_, ?_⟩
  · intro since' hw'
    rcases hw' with hw' | hw' <;> cases hw'
  · intro since' lines' hw'
    cases hw'
    exact ⟨next, hcursor, hrest⟩
  · intro c' hc'
    rw [hcursor] at hc'
    cases hc'
    exact hle

/-- A line is read: what it skips is being fetched again. -/
theorem Converging.deliver (h : s.Converging) (hs : s.deliver = some s') : s'.Converging := by
  obtain ⟨hf, hc⟩ := h
  unfold StatusFeed.deliver at hs
  split at hs
  · rename_i since line lines hw
    cases hs
    obtain ⟨c, hcur, hchain⟩ := hf.chain since (line :: lines) hw
    cases line with
    | watching n =>
      obtain ⟨rfl, hrest⟩ := hchain
      refine ⟨hf.readUpTo (hf.cursor_le n hcur) hrest, hc.inFlight, hc.nodup, fun dir d hd => ?_⟩
      refine (hc.settled dir d hd).imp_right fun hp c' hc' => ?_
      cases (cursor_of_have rfl).symm.trans hc'
      exact hp n hcur
    | resync next =>
      obtain ⟨hle, hrest⟩ := hchain
      show (s.readUpTo since lines next).invalidateAll.Converging
      have hheld : (s.readUpTo since lines next).Covered s.Pending :=
        hc.congr rfl rfl rfl rfl rfl rfl
      exact .of_frame (hf.readUpTo hle hrest) (Frame.foldl frame_invalidateDir _)
        hheld.invalidateAll
    | ev next records =>
      obtain ⟨hle, hrecs, hrest⟩ := hchain
      show ((records.flatMap FeedRecord.paths).foldl invalidatePath
        (s.readUpTo since lines next)).Converging
      refine .of_frame (hf.readUpTo hle hrest) (Frame.foldl frame_invalidatePath _) ?_
      refine Covered.invalidatePaths ⟨hc.inFlight, hc.nodup, fun dir d hd => ?_⟩
      refine (hc.settled dir d hd).imp_right fun hp => ?_
      -- A record before the new place is on this line, one behind it is still to come.
      obtain ⟨i, r, hci, hr, hconc⟩ := hp c hcur
      rcases Nat.lt_or_ge i next with hlt | hge
      · obtain ⟨p, hp, hb⟩ := hconc
        exact .inr ⟨p, List.mem_flatMap.mpr ⟨r, hrecs i r hci hlt hr, hp⟩, hb⟩
      · refine .inl fun c' hc' => ?_
        cases (cursor_of_have rfl).symm.trans hc'
        exact ⟨i, r, hge, hr, hconc⟩
  · cases hs

/-- The daemon starts a stream at `n`, the client's place. -/
theorem Converging.stream {n : Nat} (hf : s.Feed) (hc : s.Covered pend) (hle : n ≤ s.history.length)
    (hcursor : cursor { s with watch := .streaming n [.watching n] } = some n)
    (hpend : ∀ dir d, s.dirs.lookup dir = some d →
      s.Settled dir d ∨ ∃ i r, n ≤ i ∧ s.history[i]? = some r ∧ r.Concerns dir) :
    Converging { s with watch := .streaming n [.watching n] } := by
  refine ⟨⟨hf.base_le, hf.entries, ?_, ?_, ?_⟩, hc.inFlight, hc.nodup, fun dir d hd => ?_⟩
  · intro since hw
    rcases hw with hw | hw <;> cases hw
  · intro since lines hw
    cases hw
    exact ⟨n, hcursor, rfl, rfl⟩
  · intro c hcur
    cases hcursor.symm.trans hcur
    exact hle
  · refine (hpend dir d hd).imp_right fun hp c hcur => ?_
    cases hcursor.symm.trans hcur
    exact hp

/-- A feed that resumes keeps the client's place; one without a place starts at the head. -/
theorem Converging.startFeed (h : s.Converging)
    (hm : s.watch = .marked none → ∀ dir d, s.dirs.lookup dir = some d → s.Settled dir d)
    (hs : s.step .startFeed = some s') : s'.Converging := by
  obtain ⟨hf, hc⟩ := h
  simp only [StatusFeed.step] at hs
  split at hs
  · rename_i since hw
    have hasked := hf.asked since (.inr hw)
    by_cases hhave : s.haveWatchSeq = true
    · rw [if_pos hhave] at hasked
      subst hasked
      cases hs
      have hold : s.cursor = some s.watchSeq := cursor_of_have hhave
      refine .stream hf hc (hf.cursor_le _ hold) (cursor_of_have hhave) fun dir d hd => ?_
      exact (hc.settled dir d hd).imp_right fun hp => hp _ hold
    · rw [if_neg hhave] at hasked
      subst hasked
      cases hs
      refine .stream hf hc hf.head_eq.le ?_ fun dir d hd => .inl (hm hw dir d hd)
      show (if s.haveWatchSeq = true then some s.watchSeq else some s.log.head) = _
      rw [if_neg hhave]
      rfl
  · cases hs

/-- The feed's connection changes before the daemon streams on it. -/
theorem Converging.reconnect (h : s.Converging) {w : WatchConn} {retry : Bool}
    (hw : ∀ since lines, w ≠ .streaming since lines)
    (hasked : ∀ since, w = .asked since ∨ w = .marked since →
      since = if s.haveWatchSeq then some s.watchSeq else none) :
    Converging { s with watch := w, watchRetry := retry } := by
  obtain ⟨hf, hc⟩ := h
  have hcursor : ∀ c, cursor { s with watch := w, watchRetry := retry } = some c →
      s.cursor = some c := by
    intro c hc'
    by_cases hhave : s.haveWatchSeq = true
    · simp only [cursor, if_pos hhave] at hc' ⊢
      exact hc'
    · simp only [cursor, if_neg hhave] at hc'
      split at hc'
      · exact absurd rfl (hw _ _)
      · cases hc'
  refine ⟨⟨hf.base_le, hf.entries, hasked, ?_, ?_⟩, hc.inFlight, hc.nodup, fun dir d hd => ?_⟩
  · intro since lines heq
    exact absurd heq (hw since lines)
  · exact fun c hc' => hf.cursor_le c (hcursor c hc')
  · exact (hc.settled dir d hd).imp_right fun hp c hc' => hp c (hcursor c hc')

/-- A connection that breaks leaves its cursor behind. -/
theorem Converging.dropConnection (h : s.Converging) : s.dropConnection.Converging := by
  obtain ⟨hf, -⟩ := h
  have hnone : s.dropConnection.cursor = none := rfl
  refine ⟨⟨hf.base_le, hf.entries, ?_, ?_, ?_⟩, ?_, List.nodup_nil, ?_⟩
  · intro since hw
    rcases hw with hw | hw <;> cases hw
  · intro since lines hw
    cases hw
  · intro c hc
    rw [hnone] at hc
    cases hc
  · intro dir
    simp [StatusFeed.dropConnection, flight]
  · intro dir d hd
    simp [StatusFeed.dropConnection] at hd

/-- What the daemon last said of a directory it is not asked for again is still right, or a change
    will be in the log. -/
theorem Held.startFeed (h : s.Held changed) (hm : s.Meets changed .startFeed)
    (hw : s.watch = .marked none) (hd : s.dirs.lookup dir = some d) : s.Settled dir d := by
  by_cases hsame : ∀ p ∈ changed dir, ¬ Below dir p
  · exact (h dir d hd hsame).settled
  · simp only [not_forall, not_not] at hsame
    obtain ⟨p, hp, hbelow⟩ := hsame
    by_cases hwire : dir ∈ s.wire
    · exact .inr (.inr (.inr (.inl hwire)))
    · have hmem : dir ∈ s.dirs := AList.lookup_isSome.mp (by rw [hd]; rfl)
      exact .inr (.inr (.inr (.inr (.inr ⟨p, hm hw dir hmem hwire p hp hbelow, hbelow⟩))))

/-- Each step that meets its condition keeps the client converging. -/
theorem Converging.step (h : s.Converging) (hheld : s.Held changed) {e : FeedEvent}
    (hm : s.Meets changed e) (hs : s.step e = some s') : s'.Converging := by
  have hplain : ∀ {t : StatusFeed}, Frame s t → t.Covered s.Pending → t.Converging :=
    fun hframe hc => .of_frame h.1 hframe hc
  cases e with
  | tick ms =>
    cases hs
    exact hplain { Frame.refl s with } (h.2.congr rfl rfl rfl rfl rfl rfl)
  | change path status shared =>
    cases hs
    exact hplain { Frame.refl s with } (h.2.change path status shared)
  | fileChange c =>
    cases hs
    exact hplain { Frame.refl s with } (h.2.congr rfl rfl rfl rfl rfl rfl)
  | pump order => exact ⟨h.1.pump hs, h.2.pump h.1 hs⟩
  | others reading =>
    cases hs
    exact hplain { Frame.refl s with } (h.2.congr rfl rfl rfl rfl rfl rfl)
  | lookup path =>
    cases hs
    exact hplain (frame_lookup s path) (h.2.lookup path)
  | connect =>
    simp only [StatusFeed.step] at hs
    split at hs
    · cases hs
      exact hplain { Frame.refl s with } (h.2.congr rfl rfl rfl rfl rfl rfl)
    · cases hs
  | hello order =>
    simp only [StatusFeed.step, StatusFeed.hello] at hs
    split at hs
    · cases hs
      refine hplain ?_ ?_
      · refine Frame.trans ?_ (Frame.foldl frame_requestDir order)
        exact { Frame.refl s with }
      · have hready : Covered { s with state := .ready, wantedBeforeHello := ∅ } s.Pending :=
          h.2.congr rfl rfl rfl rfl rfl rfl
        exact List.foldlRecOn (motive := fun t => t.Covered s.Pending) order requestDir hready
          fun t ht a _ => ht.requestDir a
    · cases hs
  | queryLost =>
    simp only [StatusFeed.step] at hs
    split at hs
    · cases hs
    · cases hs
      exact h.dropConnection
  | answer =>
    have hframe : Frame s s' := by
      simp only [StatusFeed.step, StatusFeed.answer] at hs
      split at hs
      · cases hs
      · cases hs
        exact { Frame.refl s with }
    exact hplain hframe (h.2.answer hm hs)
  | reply =>
    have hframe : Frame s s' := by
      simp only [StatusFeed.step, StatusFeed.reply, applyDetailDir] at hs
      split at hs
      · cases hs
      · cases hs
        split <;> exact { Frame.refl s with }
    exact hplain hframe (h.2.reply hs)
  | flush order =>
    have hframe : Frame s s' := by
      simp only [StatusFeed.step, StatusFeed.flush] at hs
      split at hs
      · cases hs
        refine Frame.trans ?_ (Frame.foldl frame_refetchDir order)
        exact { Frame.refl s with }
      · cases hs
    exact hplain hframe (h.2.flush hs)
  | evict dir =>
    have hframe : Frame s s' := by
      simp only [StatusFeed.step, StatusFeed.evict] at hs
      split at hs
      · cases hs
      · split at hs
        · cases hs
          exact { Frame.refl s with }
        · cases hs
    exact hplain hframe (h.2.evict hs)
  | watchConnected =>
    simp only [StatusFeed.step] at hs
    split at hs
    · cases hs
      apply h.reconnect
      · exact nofun
      · intro since hw
        rcases hw with hw | hw <;> cases hw
        rfl
    · cases hs
  | register order =>
    simp only [StatusFeed.step] at hs
    split at hs
    · rename_i since hw
      have hmark : Converging { s with watch := .marked since } := by
        apply h.reconnect
        · exact nofun
        · intro since' hw'
          rcases hw' with hw' | hw' <;> cases hw'
          exact h.1.asked since (.inl hw)
      exact ⟨hmark.1.pump hs, hmark.2.pump hmark.1 hs⟩
    · cases hs
  | startFeed => exact h.startFeed (fun hw _ _ hd => hheld.startFeed hm hw hd) hs
  | push => exact h.1.push h.2 hs
  | deliver => exact h.deliver hs
  | watchLost =>
    simp only [StatusFeed.step] at hs
    split at hs
    · cases hs
    · cases hs
      refine h.reconnect nofun fun since hw => ?_
      rcases hw with hw | hw <;> cases hw
  | watchRetry =>
    simp only [StatusFeed.step] at hs
    split at hs
    · cases hs
      refine hplain { Frame.refl s with watch := ?_ } (h.2.congr rfl rfl rfl rfl rfl rfl)
      show (if s.watch = .closed then WatchConn.opening else s.watch) = _ ∨ _
      split
      · rename_i hclosed
        exact .inr ⟨hclosed, rfl⟩
      · exact .inl rfl
    · cases hs

/-- The listings of the cache stay the daemon's last answers. -/
theorem Held.step (h : s.Held changed) (hc : s.Covered pend) {e : FeedEvent} (hm : s.Meets changed e)
    (hs : s.step e = some s') : s'.Held (s.changedBy changed e) := by
  have hsame : ∀ {t : StatusFeed}, t.dirs = s.dirs → t.wire = s.wire → t.replies = s.replies →
      t.daemon = s.daemon → t.Held changed := fun hd hw hr hm => h.congr hd hw hr hm
  cases e with
  | tick ms | fileChange c | others reading =>
    cases hs
    exact hsame rfl rfl rfl rfl
  | change path status shared =>
    cases hs
    exact h.change path status shared
  | pump order => exact h.pump hs
  | lookup path =>
    cases hs
    exact h.lookup path
  | hello order =>
    simp only [StatusFeed.step, StatusFeed.hello] at hs
    split at hs
    · cases hs
      refine Held.foldl Held.requestDir ?_ order
      exact hsame rfl rfl rfl rfl
    · cases hs
  | queryLost =>
    simp only [StatusFeed.step] at hs
    split at hs
    · cases hs
    · cases hs
      intro dir d hd
      simp [StatusFeed.dropConnection] at hd
  | answer => exact h.answer hm hs
  | reply => exact h.reply hc hs
  | flush order =>
    simp only [StatusFeed.step, StatusFeed.flush] at hs
    split at hs
    · cases hs
      refine Held.foldl Held.refetchDir ?_ order
      exact hsame rfl rfl rfl rfl
    · cases hs
  | evict dir => exact h.evict hs
  | register order =>
    simp only [StatusFeed.step] at hs
    split at hs
    · refine Held.pump ?_ hs
      exact hsame rfl rfl rfl rfl
    · cases hs
  | deliver => exact h.deliver hs
  | push =>
    simp only [StatusFeed.step, StatusFeed.push] at hs
    split at hs
    · split at hs
      · cases hs
        exact hsame rfl rfl rfl rfl
      · split at hs
        · cases hs
        · cases hs
          exact hsame rfl rfl rfl rfl
    · cases hs
  | connect | watchConnected | startFeed | watchLost | watchRetry =>
    simp only [StatusFeed.step] at hs
    split at hs <;> cases hs
    exact hsame rfl rfl rfl rfl

/-! ## Whole runs -/

/-- Every step of the run meets its condition. -/
def AllMeet (s : StatusFeed) (changed : Changed) : List FeedEvent → Prop
  | [] => True
  | e :: es => s.Meets changed e ∧
    match s.step e with
    | some s' => s'.AllMeet (s.changedBy changed e) es
    | none => True

/-- A client that has nothing cached is converging. -/
theorem Converging.start (d : Daemon) (cap cacheTtlMs maxCachedDirs : Nat) :
    (start d cap cacheTtlMs maxCachedDirs).Converging := by
  refine ⟨⟨le_rfl, rfl, ?_, ?_, ?_⟩, ?_, List.nodup_nil, ?_⟩
  · intro since hw
    rcases hw with hw | hw <;> cases hw
  · intro since lines hw
    cases hw
  · intro c hc
    cases hc
  · intro dir
    simp [StatusFeed.start, flight]
  · intro dir d hd
    simp [StatusFeed.start] at hd

/-- And so does a whole run. -/
theorem Converging.steps {es : List FeedEvent} (h : s.Converging) (hheld : s.Held changed)
    (hm : s.AllMeet changed es) (hs : s.steps es = some s') : s'.Converging := by
  induction es generalizing s changed with
  | nil =>
    cases hs
    exact h
  | cons e es ih =>
    obtain ⟨s₁, hs₁, hrest⟩ := Option.bind_eq_some_iff.mp hs
    obtain ⟨hme, hmes⟩ := hm
    rw [hs₁] at hmes
    exact ih (h.step hheld hme hs₁) (hheld.step h.2 hme hs₁) hmes hrest

/-- When nothing is on its way any more, only the daemon's own listing is left. -/
theorem Converging.quiet (h : s.Converging) (hq : s.Quiet) (hd : s.dirs.lookup dir = some d) :
    d.children = childrenOf (s.detaildir dir) := by
  rcases h.2.settled dir d hd with (h1 | h1 | h1 | h1 | h1 | ⟨p, hp, -⟩) | hp
  · exact h1.2
  · rw [hq.unscheduled] at h1
    exact absurd h1 (Finset.notMem_empty dir)
  · rw [hq.unqueued ⟨dir, d⟩ (AList.mem_lookup_iff.mp hd)] at h1
    cases h1
  · rw [hq.landed.1] at h1
    exact absurd h1 List.not_mem_nil
  · rw [hq.landed.2] at h1
    exact absurd h1.1 List.not_mem_nil
  · rw [hq.appended.1] at hp
    exact absurd hp (Finset.notMem_empty p)
  · -- The feed is delivered to the end of the history: there is no record left.
    obtain ⟨i, r, hi, hr, -⟩ := hp _ (cursor_of_have hq.delivered.1)
    have hlt := (List.getElem?_eq_some_iff.mp hr).1
    rw [hq.delivered.2, h.1.head_eq] at hi
    omega

/-- In a run where no change falls into the gap before a feed without a sequence number, and no reply
    looks like an error, the cached children of every directory are the daemon's in every quiet
    state. -/
theorem cached_statuses_converge (daemon : Daemon) (cap cacheTtlMs maxCachedDirs : Nat)
    (es : List FeedEvent) (s : StatusFeed)
    (hm : (start daemon cap cacheTtlMs maxCachedDirs).AllMeet (fun _ => ∅) es)
    (hs : (start daemon cap cacheTtlMs maxCachedDirs).steps es = some s) (hq : s.Quiet)
    (dir : PathBuf) (d : DirCache) (hd : s.dirs.lookup dir = some d) :
    d.children = childrenOf (s.detaildir dir) := by
  have hheld : (start daemon cap cacheTtlMs maxCachedDirs).Held fun _ => ∅ := by
    intro dir d hd
    simp [StatusFeed.start] at hd
  have h := (Converging.start daemon cap cacheTtlMs maxCachedDirs).steps hheld hm hs
  exact h.quiet hq hd

/-! ## Replies that look like errors -/

/-- A reply line begins with the name of the first record. -/
theorem replyLine_cons (r : DetailRecord) (rs : List DetailRecord) :
    ∃ rest, replyLine (r :: rs) = r.name.toList ++ '\t' :: rest := by
  have htext : ∃ rest, r.text = r.name.toList ++ '\t' :: rest := ⟨_, by
    simp only [DetailRecord.text, List.map_cons, List.cons_append, List.intercalate_cons_cons,
      List.append_assoc, List.nil_append]
    rfl⟩
  obtain ⟨rest, hrest⟩ := htext
  cases rs with
  | nil => exact ⟨rest, by simp [replyLine, hrest]⟩
  | cons r' rs =>
    refine ⟨rest ++ ['\x1e'] ++ replyLine (r' :: rs), ?_⟩
    simp [replyLine, List.intercalate_cons_cons, hrest]

/-- A listing is taken for an error exactly when the name of its first child looks like one. -/
theorem isErrorLine_replyLine (r : DetailRecord) (rs : List DetailRecord) :
    isErrorLine (replyLine (r :: rs)) = "error:".toList.isPrefixOf r.name.toList := by
  obtain ⟨rest, hline⟩ := replyLine_cons r rs
  have htab : '\t' ∉ "error:".toList := by decide
  have hunknown : r.name.toList ++ '\t' :: rest ≠ "unknown".toList := by
    intro h
    have hmem : '\t' ∈ "unknown".toList := h ▸ by simp
    exact absurd hmem (by decide)
  rw [hline, isErrorLine, decide_eq_false hunknown, Bool.or_false, Bool.eq_iff_iff,
    List.isPrefixOf_iff_prefix, List.isPrefixOf_iff_prefix]
  refine ⟨fun h => ?_, fun h => h.trans (List.prefix_append ..)⟩
  -- Within the name, or it would have the tab behind it.
  rcases List.prefix_or_prefix_of_prefix h (List.prefix_append ..) with hin | ⟨more, hmore⟩
  · exact hin
  · cases more with
    | nil => exact ⟨[], by rw [← hmore]; simp⟩
    | cons c more =>
      rw [← hmore] at h
      have hc := (List.prefix_append_right_inj _).mp h
      obtain rfl := (List.cons_prefix_cons.mp hc).1
      exact absurd (hmore ▸ by simp) htab

/-! ## Two runs -/

/-- A daemon with one file, `/a`, that is not downloaded. -/
def oneFileDaemon : Daemon where
  details := (∅ : AList fun _ : PathBuf => FileDetail).insert ["a"] {}
  children := fun dir => if dir = [] then some [["a"]] else none
  username := "u"
  status := fun _ => none
  shared := fun _ => false
  children_parent := by
    intro dir cs hcs c hc
    split at hcs
    · rename_i hdir
      cases hcs
      rw [List.mem_singleton.mp hc, hdir]
      exact ⟨by simp, rfl⟩
    · cases hcs

/-- The client has the listing of the root, and its feed is about to start. -/
def listedRun : List FeedEvent :=
  [.lookup ["a"], .connect, .hello [[]], .answer, .reply, .watchConnected, .register []]

/-- `/a` is kept once the feed has started: the record reaches the client, and it fetches again. -/
def keptRun : List FeedEvent :=
  listedRun ++ [.startFeed, .deliver, .change ["a"] (some .kept) false, .pump [["a"]],
    .push, .deliver, .flush [[]], .answer, .reply]

/-- `/a` is kept after the daemon's answer and before the feed. -/
def keptBeforeFeedRun : List FeedEvent :=
  listedRun ++ [.change ["a"] (some .kept) false, .pump [["a"]], .startFeed, .deliver]

/-- A run in which the file is kept while the directory is cached: the client shows it in the
    end. -/
theorem kept_file_is_shown :
    ∃ s d, (start oneFileDaemon 8 30000 256).steps keptRun = some s ∧ s.Quiet ∧
      s.dirs.lookup [] = some d ∧ d.children = childrenOf (s.detaildir []) := by
  obtain ⟨s, d, hs, hq, hd⟩ : ∃ s d, (start oneFileDaemon 8 30000 256).steps keptRun = some s ∧
      s.Quiet ∧ s.dirs.lookup [] = some d := by
    refine ⟨_, _, rfl, ⟨rfl, ⟨_, rfl⟩, ⟨rfl, rfl⟩, ⟨rfl, rfl⟩, rfl, ?_, ⟨rfl, rfl⟩⟩, rfl⟩
    intro x hx
    rw [List.mem_singleton.mp hx]
  have hm : (start oneFileDaemon 8 30000 256).AllMeet (fun _ => ∅) keptRun := by
    refine ⟨trivial, trivial, trivial, ?_, trivial, trivial, trivial, ?_, trivial, trivial,
      trivial, trivial, trivial, trivial, ?_, trivial, trivial⟩
    · rintro a rest ⟨⟩
      exact isErrorLine_replyLine _ _
    · -- Nothing has changed when the feed starts.
      intro _ dir _ _ p hp
      have hnone : p ∈ (if dir = [] then (∅ : Finset PathBuf) else ∅) := hp
      simp at hnone
    · rintro a rest ⟨⟩
      exact isErrorLine_replyLine _ _
  have h := cached_statuses_converge oneFileDaemon 8 30000 256 keptRun s hm hs hq [] d hd
  exact ⟨s, d, hs, hq, hd, h⟩

/-- The same change before the client follows the feed is never shown. -/
theorem change_before_feed_is_missed :
    ∃ s d, (start oneFileDaemon 8 30000 256).steps keptBeforeFeedRun = some s ∧ s.Quiet ∧
      s.dirs.lookup [] = some d ∧ (d.children "a").map (·.status) = some "remote" ∧
      (childrenOf (s.detaildir []) "a").map (·.status) = some "kept" := by
  refine ⟨_, _, rfl, ⟨rfl, ⟨_, rfl⟩, ⟨rfl, rfl⟩, ⟨rfl, rfl⟩, rfl, ?_, ⟨rfl, rfl⟩⟩, rfl, rfl, rfl⟩
  intro x hx
  rw [List.mem_singleton.mp hx]

end StatusFeed

end Ncrs
