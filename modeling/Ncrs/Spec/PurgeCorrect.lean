import Ncrs.Native.Purge
import Ncrs.Spec.JournalStagings

/-!
# What a purge deletes

A purge protects the staging files it saw in the journal and those of the handles it saw open. A
file that changes hands between the two looks is seen by neither. When no handle that will be
uploaded leaves the table between the two looks, none is on its way to the journal at the first,
and no staging file is made between the second look and the end (nor is one without its handle at
the second), each file that has an owner is protected, and what the purge deletes has none.

## Key results

- `stagingFh_writePath` : the name of a staging file gives its handle back
- `PurgeMount.Guarded.step` : what one step keeps
- `PurgeMount.purged_files_have_no_owner` : no purged file is a handle's or a queued upload's
- `PurgeMount.released_file_is_purged` : a release between the two looks loses its file
-/

namespace Ncrs

/-! ## Names -/

/-- Digits are read as the number that they write. -/
theorem parseU64_digits {l : List Char} (hne : l ≠ []) (hall : ∀ c ∈ l, c.isDigit = true) :
    parseU64 l = some (Nat.ofDigitChars 10 l 0) := by
  -- the first character is a digit, so there is no sign to skip
  have hsign : ∀ rest, l ≠ '+' :: rest := by
    intro rest h
    have hplus := hall '+' (by rw [h]; exact List.mem_cons_self)
    exact absurd hplus (by decide)
  unfold parseU64
  split
  · next rest => exact absurd rfl (hsign rest)
  · simp [hne, List.all_eq_true.mpr hall]

/-- A number that is written is read back. -/
theorem parseU64_toDigits (n : Nat) : parseU64 (Nat.toDigits 10 n) = some n := by
  rw [parseU64_digits Nat.toDigits_ne_nil
    fun c hc => Nat.isDigit_of_mem_toDigits (by omega) (by omega) hc]
  rw [Nat.ofDigitChars_ten_toDigits]

/-- The handle is read from its staging file's name. -/
theorem stagingFh_write (fh : Nat) : stagingFh s!"write_{fh}" = some fh := by
  have hlist : (s!"write_{fh}").toList = "write_".toList ++ Nat.toDigits 10 fh := by
    rw [← Nat.toList_repr, ← String.toList_append]
    rfl
  simp only [stagingFh, hlist]
  rw [if_pos (by simp)]
  exact parseU64_toDigits fh

/-- And from the file's path. -/
theorem stagingFh_writePath (cacheDir : PathBuf) (fh : Nat) :
    (PathBuf.writePath cacheDir fh).fileName.bind stagingFh = some fh := by
  simp only [PathBuf.writePath, PathBuf.fileName, List.getLast?_append, List.getLast?_singleton,
    Option.some_or, Option.bind_some]
  exact stagingFh_write fh

namespace PurgeMount

variable {m m' : PurgeMount}

/-! ## Owners -/

/-- A queued entry still needs the file. -/
def Queued (m : PurgeMount) (p : PathBuf) : Prop :=
  ∃ e ∈ m.journal.entries, e.op.stagingPath = some p

/-- The file is an open handle's. -/
def Open (m : PurgeMount) (p : PathBuf) : Prop := ∃ h ∈ m.openFiles, h.writePath = some p

/-- The file is that of a handle `open` or `create` has not inserted yet. -/
def Opening (m : PurgeMount) (p : PathBuf) : Prop := ∃ h ∈ m.opening, h.writePath = some p

/-- The file is that of a handle on its way from the table to the journal. -/
def Releasing (m : PurgeMount) (p : PathBuf) : Prop :=
  ∃ h ∈ m.releasing, h.queues = true ∧ h.writePath = some p

/-- What a purge must not delete. -/
def Owned (m : PurgeMount) (p : PathBuf) : Prop := m.Open p ∨ m.Queued p ∨ m.Releasing p

/-- The handle's staging file has its number in its name. -/
def Named (m : PurgeMount) (h : OpenHandle) : Prop :=
  ∀ p, h.writePath = some p → p = PathBuf.writePath m.cacheDir h.fh

/-- A cached copy's file lies in one of the two directories for copies. -/
def Placed (m : PurgeMount) (p : PathBuf) : Prop := ∃ remote kept, p = m.copyPath remote kept

/-- The scan leaves the file alone. -/
def Shielded (m : PurgeMount) (pg : Purge) (fhs : List Nat) (p : PathBuf) : Prop :=
  p ∈ pg.staged ∨ ∃ fh ∈ fhs, p = PathBuf.writePath m.cacheDir fh

/-- What holds between two steps when every step meets the condition. -/
structure Guarded (m : PurgeMount) : Prop where
  named : ∀ h, h ∈ m.opening ∨ h ∈ m.openFiles ∨ h ∈ m.releasing → m.Named h
  placed : ∀ remote e, m.fileCache remote = some e → m.Placed e.localPath
  placedIn : ∀ i pg l, m.purges i = some pg → pg.toRemove = some l → ∀ x ∈ l, m.Placed x.2
  unowned : ∀ p ∈ m.purged, ¬ m.Owned p
  unopened : ∀ p ∈ m.purged, ¬ m.Opening p
  /-- Between its two looks, a purge has seen every queued file, and none is on its way. -/
  queuedSeen : ∀ i pg, m.purges i = some pg → pg.openFhs = none → ∀ p, m.Queued p → p ∈ pg.staged
  noneReleasing : ∀ i pg, m.purges i = some pg → pg.openFhs = none → ∀ h ∈ m.releasing,
    h.queues = false
  /-- After its second look, it protects every file that has an owner. -/
  shielded : ∀ i pg fhs, m.purges i = some pg → pg.openFhs = some fhs → ∀ p, m.Owned p →
    m.Shielded pg fhs p
  noneOpening : ∀ i pg fhs, m.purges i = some pg → pg.openFhs = some fhs → ∀ p, ¬ m.Opening p

/-- Handing files on keeps the guard: a file that has an owner had one, was being opened, or is a
new file that every scan leaves alone. -/
theorem Guarded.of_owners (h : m.Guarded) (hdir : m'.cacheDir = m.cacheDir)
    (hpurges : m'.purges = m.purges) (hpurged : ∀ p ∈ m'.purged, p ∈ m.purged)
    (hnamed : ∀ x, x ∈ m'.opening ∨ x ∈ m'.openFiles ∨ x ∈ m'.releasing → m.Named x)
    (hplaced : ∀ remote e, m'.fileCache remote = some e → m.Placed e.localPath)
    (howned : ∀ p, m'.Owned p → m.Owned p ∨ m.Opening p ∨ (p ∉ m'.purged ∧
      ∀ i pg fhs, m.purges i = some pg → pg.openFhs = some fhs → m.Shielded pg fhs p))
    (hopening : ∀ p, m'.Opening p → m.Opening p ∨ (p ∉ m'.purged ∧
      ∀ i pg fhs, m.purges i = some pg → pg.openFhs ≠ some fhs))
    (hcollecting : ∀ i pg, m.purges i = some pg → pg.openFhs = none →
      (∀ p, m'.Queued p → m.Queued p) ∧
        ∀ x ∈ m'.releasing, x.queues = true → x ∈ m.releasing) : m'.Guarded := by
  have hcopy : ∀ p, m.Placed p → m'.Placed p := by
    intro p ⟨remote, kept, hp⟩
    refine ⟨remote, kept, ?_⟩
    simp only [copyPath, hdir]
    exact hp
  refine ⟨?_, fun r e he => hcopy _ (hplaced r e he), ?_, ?_, ?_, ?_, ?_, ?_, ?_⟩
  · intro x hx p hp
    rw [hdir]
    exact hnamed x hx p hp
  · intro i pg l hi hl x hx
    rw [hpurges] at hi
    exact hcopy _ (h.placedIn i pg l hi hl x hx)
  · intro p hp ho
    -- an owner from before, one that was being opened, or a new one
    rcases howned p ho with ho | ho | ⟨hnew, _⟩
    · exact h.unowned p (hpurged p hp) ho
    · exact h.unopened p (hpurged p hp) ho
    · exact hnew hp
  · intro p hp ho
    rcases hopening p ho with ho | ⟨hnew, _⟩
    · exact h.unopened p (hpurged p hp) ho
    · exact hnew hp
  · intro i pg hi hnone p hq
    rw [hpurges] at hi
    exact h.queuedSeen i pg hi hnone p ((hcollecting i pg hi hnone).1 p hq)
  · -- while the purge collects, nothing is queued behind its back
    intro i pg hi hnone x hx
    rw [hpurges] at hi
    by_contra hqueues
    rw [Bool.not_eq_false] at hqueues
    have hold := (hcollecting i pg hi hnone).2 x hx hqueues
    rw [h.noneReleasing i pg hi hnone x hold] at hqueues
    cases hqueues
  · intro i pg fhs hi hfhs p ho
    rw [hpurges] at hi
    -- once it scans, every owner is one that it spares
    have hshield : m.Shielded pg fhs p := by
      rcases howned p ho with ho | ho | ⟨_, hnew⟩
      · exact h.shielded i pg fhs hi hfhs p ho
      · exact absurd ho (h.noneOpening i pg fhs hi hfhs p)
      · exact hnew i pg fhs hi hfhs
    simpa only [Shielded, hdir] using hshield
  · intro i pg fhs hi hfhs p ho
    rw [hpurges] at hi
    rcases hopening p ho with ho | ⟨_, hnew⟩
    · exact h.noneOpening i pg fhs hi hfhs p ho
    · exact hnew i pg fhs hi hfhs

/-- A journal that refers to no other file keeps the guard. -/
theorem Guarded.of_journal (h : m.Guarded) {j : MutationJournal}
    (hq : EntriesWithin m.Queued j.entries) : (m.setJournal j).Guarded := by
  have hqueued : ∀ p, (m.setJournal j).Queued p → m.Queued p := by
    intro p ⟨e, he, hes⟩
    exact hq e he p hes
  refine h.of_owners rfl rfl (fun _ hp => hp) h.named h.placed ?_ (fun _ ho => .inl ho)
    fun _ _ _ _ => ⟨hqueued, fun _ hx _ => hx⟩
  intro p ho
  rcases ho with ho | ho | ho
  · exact .inl (.inl ho)
  · exact .inl (.inr (.inl (hqueued p ho)))
  · exact .inl (.inr (.inr ho))

/-- Writing to the disk gives no file an owner. -/
theorem Guarded.of_disk (h : m.Guarded) (d : CacheDir) : (m.setDisk d).Guarded :=
  h.of_journal fun e he _ hs => ⟨e, he, hs⟩

/-- The files the queue refers to now. -/
theorem refers_queued (m : PurgeMount) : Refers m.Queued (fun _ => True) m.journal :=
  ⟨fun _ _ => trivial, fun e he _ hs => ⟨e, he, hs⟩, fun _ _ _ _ => trivial⟩

/-! ## Handles -/

section Handles

variable {h : OpenHandle}

/-- Opening a handle for writing does not, as long as no purge is scanning. -/
theorem Guarded.stage (hm : m.Guarded) (path : PathBuf) (writable truncating : Bool)
    (etag : Option String) (staged : Option LocalFile)
    (hmeet : writable = true → ∀ i pg fhs, m.purges i = some pg → pg.openFhs ≠ some fhs) :
    (m.stage path writable truncating etag staged).Guarded := by
  let wp := PathBuf.writePath m.cacheDir m.nextFh
  let x : OpenHandle :=
    { fh := m.nextFh, remotePath := path, writePath := if writable then some wp else none
      dirty := truncating, originalEtag := etag }
  have hopened : PurgeMount.Guarded { m with
      nextFh := m.nextFh + 1, opening := m.opening ++ [x]
      purged := m.purged.filter fun p => p ≠ wp } := by
    refine hm.of_owners rfl rfl (fun p hp => List.mem_of_mem_filter hp) ?_ hm.placed
      (fun _ ho => .inl ho) ?_ fun _ _ _ _ => ⟨fun _ hq => hq, fun _ hx _ => hx⟩
    · -- the staging file is named after the handle
      intro y hy
      rcases hy with hy | hy
      · rcases List.mem_append.mp hy with hy | hy
        · exact hm.named y (.inl hy)
        · rw [List.mem_singleton.mp hy]
          intro p hp
          cases writable with
          | true => exact (Option.some.inj hp).symm
          | false => cases hp
      · exact hm.named y (.inr hy)
    · intro p ⟨y, hy, hyp⟩
      rcases List.mem_append.mp hy with hy | hy
      · exact .inl ⟨y, hy, hyp⟩
      · rw [List.mem_singleton.mp hy] at hyp
        cases writable with
        | false => cases hyp
        | true =>
          -- the new handle's file is not among the purged ones, and no scan is under way
          have hp : p = wp := (Option.some.inj hyp).symm
          refine .inr ⟨?_, hmeet rfl⟩
          rw [hp]
          simp
  unfold PurgeMount.stage
  dsimp only
  split
  · exact hopened.of_disk _
  · exact hopened

/-- A handle that fails to open is given up. -/
theorem Guarded.stageFails (hm : m.Guarded) (h : OpenHandle) : (m.stageFails h).Guarded := by
  have hdropped : PurgeMount.Guarded { m with
      opening := m.opening.filter fun x => x.fh ≠ h.fh } := by
    refine hm.of_owners rfl rfl (fun _ hp => hp) ?_ hm.placed (fun _ ho => .inl ho) ?_
      fun _ _ _ _ => ⟨fun _ hq => hq, fun _ hx _ => hx⟩
    · intro y hy
      rcases hy with hy | hy
      · exact hm.named y (.inl (List.mem_of_mem_filter hy))
      · exact hm.named y (.inr hy)
    · intro p ⟨y, hy, hyp⟩
      exact .inl ⟨y, List.mem_of_mem_filter hy, hyp⟩
  unfold PurgeMount.stageFails
  dsimp only
  split
  · exact hdropped.of_disk _
  · exact hdropped

/-- A handle that was opened is inserted with the file that it had. -/
theorem Guarded.insert (hm : m.Guarded) (hmem : h ∈ m.opening) : (m.insert h).Guarded := by
  refine hm.of_owners rfl rfl (fun _ hp => hp) ?_ hm.placed ?_ ?_
    fun _ _ _ _ => ⟨fun _ hq => hq, fun _ hx _ => hx⟩
  · intro y hy
    rcases hy with hy | hy | hy
    · exact hm.named y (.inl (List.mem_of_mem_filter hy))
    · rcases List.mem_append.mp hy with hy | hy
      · exact hm.named y (.inr (.inl hy))
      · rw [List.mem_singleton.mp hy]
        exact hm.named h (.inl hmem)
    · exact hm.named y (.inr (.inr hy))
  · intro p ho
    rcases ho with ⟨y, hy, hyp⟩ | ho
    · rcases List.mem_append.mp hy with hy | hy
      · exact .inl (.inl ⟨y, hy, hyp⟩)
      · rw [List.mem_singleton.mp hy] at hyp
        exact .inr (.inl ⟨h, hmem, hyp⟩)
    · exact .inl (.inr ho)
  · intro p ⟨y, hy, hyp⟩
    exact .inl ⟨y, List.mem_of_mem_filter hy, hyp⟩

/-- A write gives the handle its file, unless a scan does not know the handle. -/
theorem Guarded.write (hm : m.Guarded) (hmem : h ∈ m.openFiles) (f : LocalFile)
    (hmeet : h.writePath = none → ∀ i pg fhs, m.purges i = some pg → pg.openFhs = some fhs →
      h.fh ∈ fhs) : (m.write h f).Guarded := by
  have hwp : h.writePath.getD (PathBuf.writePath m.cacheDir h.fh) =
      PathBuf.writePath m.cacheDir h.fh := by
    cases hw : h.writePath with
    | none => rfl
    | some p => exact hm.named h (.inr (.inl hmem)) p hw
  refine Guarded.of_disk ?_ _
  rw [hwp]
  refine hm.of_owners rfl rfl ?_ ?_ hm.placed ?_ (fun _ ho => .inl ho)
    fun _ _ _ _ => ⟨fun _ hq => hq, fun _ hx _ => hx⟩
  · intro p hp
    dsimp only at hp
    split at hp
    · exact List.mem_of_mem_filter hp
    · exact hp
  · -- only the handle that is written to changes
    intro y hy
    rcases hy with hy | hy | hy
    · exact hm.named y (.inl hy)
    · obtain ⟨x, hx, rfl⟩ := List.mem_map.mp hy
      by_cases hfh : x.fh = h.fh
      · rw [if_pos hfh]
        intro p hp
        show p = PathBuf.writePath m.cacheDir x.fh
        rw [hfh]
        exact (Option.some.inj hp).symm
      · rw [if_neg hfh]
        exact hm.named x (.inr (.inl hx))
    · exact hm.named y (.inr (.inr hy))
  · intro p ho
    rcases ho with ⟨y, hy, hyp⟩ | ho
    · obtain ⟨x, hx, rfl⟩ := List.mem_map.mp hy
      by_cases hfh : x.fh = h.fh
      · rw [if_pos hfh] at hyp
        have hp : p = PathBuf.writePath m.cacheDir h.fh := (Option.some.inj hyp).symm
        cases hw : h.writePath with
        | some q =>
          -- the handle had the file already
          refine .inl (.inl ⟨h, hmem, ?_⟩)
          rw [hw, hm.named h (.inr (.inl hmem)) q hw, hp]
        | none =>
          -- a scan that is under way has the handle on its list
          refine .inr (.inr ⟨?_, ?_⟩)
          · simp [hp]
          · intro i pg fhs hi hfhs
            exact .inr ⟨h.fh, hmeet hw i pg fhs hi hfhs, hp⟩
      · rw [if_neg hfh] at hyp
        exact .inl (.inl ⟨x, hx, hyp⟩)
    · exact .inl (.inr ho)

/-- Unlinking a path leaves the handles their files. -/
theorem Guarded.markUnlinked (hm : m.Guarded) (path : PathBuf) :
    PurgeMount.Guarded { m with openFiles := m.openFiles.map fun h =>
      if h.remotePath = path then { h with unlinked := true } else h } := by
  have hsame : ∀ x : OpenHandle,
      (if x.remotePath = path then { x with unlinked := true } else x).writePath = x.writePath ∧
        (if x.remotePath = path then { x with unlinked := true } else x).fh = x.fh := by
    intro x
    split
    · exact ⟨rfl, rfl⟩
    · exact ⟨rfl, rfl⟩
  refine hm.of_owners rfl rfl (fun _ hp => hp) ?_ hm.placed ?_ (fun _ ho => .inl ho)
    fun _ _ _ _ => ⟨fun _ hq => hq, fun _ hx _ => hx⟩
  · intro y hy
    rcases hy with hy | hy | hy
    · exact hm.named y (.inl hy)
    · obtain ⟨x, hx, rfl⟩ := List.mem_map.mp hy
      intro p hp
      rw [(hsame x).1] at hp
      rw [(hsame x).2]
      exact hm.named x (.inr (.inl hx)) p hp
    · exact hm.named y (.inr (.inr hy))
  · intro p ho
    rcases ho with ⟨y, hy, hyp⟩ | ho
    · obtain ⟨x, hx, rfl⟩ := List.mem_map.mp hy
      rw [(hsame x).1] at hyp
      exact .inl (.inl ⟨x, hx, hyp⟩)
    · exact .inl (.inr ho)

/-- A handle that is released keeps its file until it has been committed, if it still has to queue
    it. -/
theorem Guarded.take (hm : m.Guarded) (hmem : h ∈ m.openFiles)
    (hmeet : h.queues = true → ∀ i pg, m.purges i = some pg → pg.openFhs ≠ none) :
    (m.take h).Guarded := by
  refine hm.of_owners rfl rfl (fun _ hp => hp) ?_ hm.placed ?_ (fun _ ho => .inl ho) ?_
  · intro y hy
    rcases hy with hy | hy | hy
    · exact hm.named y (.inl hy)
    · exact hm.named y (.inr (.inl (List.mem_of_mem_filter hy)))
    · rcases List.mem_append.mp hy with hy | hy
      · exact hm.named y (.inr (.inr hy))
      · rw [List.mem_singleton.mp hy]
        exact hm.named h (.inr (.inl hmem))
  · intro p ho
    rcases ho with ⟨y, hy, hyp⟩ | ho | ⟨y, hy, hqueues, hyp⟩
    · exact .inl (.inl ⟨y, List.mem_of_mem_filter hy, hyp⟩)
    · exact .inl (.inr (.inl ho))
    · rcases List.mem_append.mp hy with hy | hy
      · exact .inl (.inr (.inr ⟨y, hy, hqueues, hyp⟩))
      · rw [List.mem_singleton.mp hy] at hyp
        exact .inl (.inl ⟨h, hmem, hyp⟩)
  · intro i pg hi hnone
    refine ⟨fun _ hq => hq, fun x hx hqueues => ?_⟩
    rcases List.mem_append.mp hx with hx | hx
    · exact hx
    · rw [List.mem_singleton.mp hx] at hqueues
      exact absurd hnone (hmeet hqueues i pg hi)

/-- A released handle is let go. -/
theorem Guarded.released (hm : m.Guarded) (h : OpenHandle) :
    PurgeMount.Guarded { m with releasing := m.releasing.filter fun x => x.fh ≠ h.fh } := by
  refine hm.of_owners rfl rfl (fun _ hp => hp) ?_ hm.placed ?_ (fun _ ho => .inl ho)
    fun _ _ _ _ => ⟨fun _ hq => hq, fun _ hx _ => List.mem_of_mem_filter hx⟩
  · intro y hy
    rcases hy with hy | hy | hy
    · exact hm.named y (.inl hy)
    · exact hm.named y (.inr (.inl hy))
    · exact hm.named y (.inr (.inr (List.mem_of_mem_filter hy)))
  · intro p ho
    rcases ho with ho | ho | ⟨y, hy, hyp⟩
    · exact .inl (.inl ho)
    · exact .inl (.inr (.inl ho))
    · exact .inl (.inr (.inr ⟨y, List.mem_of_mem_filter hy, hyp⟩))

/-- Queueing the file of a handle that was on its way. -/
theorem Guarded.queue (hm : m.Guarded) (hmem : h ∈ m.releasing) (hqueues : h.queues = true)
    {wp : PathBuf} (hwp : h.writePath = some wp) {j : MutationJournal}
    (hj : EntriesWithin (fun p => m.Queued p ∨ p = wp) j.entries) :
    PurgeMount.Guarded
      ({ m with releasing := m.releasing.filter fun x => x.fh ≠ h.fh }.setJournal j) := by
  refine hm.of_owners rfl rfl (fun _ hp => hp) (hm.released h).named hm.placed ?_
    (fun _ ho => .inl ho) ?_
  · intro p ho
    rcases ho with ho | ⟨e, he, hes⟩ | ⟨y, hy, hyp⟩
    · exact .inl (.inl ho)
    · rcases hj e he p hes with hq | rfl
      · exact .inl (.inr (.inl hq))
      · exact .inl (.inr (.inr ⟨h, hmem, hqueues, hwp⟩))
    · exact .inl (.inr (.inr ⟨y, List.mem_of_mem_filter hy, hyp⟩))
  · intro i pg hi hnone
    -- between the two looks of a purge no handle is on its way
    rw [hm.noneReleasing i pg hi hnone h hmem] at hqueues
    cases hqueues

/-- The operation of a commit has the handle's staging file. -/
theorem stagingPath_commitOp (h : OpenHandle) (wp : PathBuf) (c : Commit) :
    (Session.commitOp h wp c).stagingPath = some wp := by
  cases c <;> rfl

/-- Committing a handle queues its file or lets it go. -/
theorem Guarded.commit (hm : m.Guarded) (hmem : h ∈ m.releasing) (c : Option Commit) :
    (m.commit h c).Guarded := by
  have hreleased := hm.released h
  unfold PurgeMount.commit
  dsimp only
  cases hwp : h.writePath with
  | none => exact hreleased
  | some wp =>
    dsimp only
    split
    · split
      · exact hreleased.of_disk _
      · exact hreleased
    · next hlive =>
      split
      · exact hreleased.of_disk _
      · next hdirty =>
        -- what is queued is dirty and still linked
        have hqueues : h.queues = true := by
          have hdirty' : h.dirty = true := by simpa using hdirty
          simp only [Bool.or_eq_true, not_or, Bool.not_eq_true] at hlive
          simp [OpenHandle.queues, hlive, hdirty', hwp]
        cases c with
        | none => exact hreleased.of_disk _
        | some c =>
          dsimp only
          split
          · exact hreleased
          · -- the entry brings the handle's own file and no other
            have href : Refers (fun p => m.Queued p ∨ p = wp) (fun _ => True) m.journal :=
              ⟨fun _ _ => trivial, fun e he p hp => .inl ⟨e, he, hp⟩, fun _ _ _ _ => trivial⟩
            refine hm.queue hmem hqueues hwp (Refers.queued (Refers.supersedeUploads
              (href.enqueue fun p hp => ?_) _ _))
            rw [stagingPath_commitOp] at hp
            exact .inr (Option.some.inj hp).symm

end Handles

/-! ## The journal -/

/-- A live operation brings no staging file of its own. -/
theorem Guarded.live (hm : m.Guarded) {op : LiveOp} (hop : Session.bringsStaging op = false) :
    (m.setJournal (op.apply m.journal)).Guarded := by
  refine hm.of_journal (m.refers_queued.live op ?_ ?_).queued
  · intro o ho s hs
    rw [ho, Session.bringsStaging, hs] at hop
    cases hop
  · intro p s ho
    rw [ho] at hop
    cases hop

/-- An upload that is done takes its entry away. -/
theorem Guarded.uploadDone (hm : m.Guarded) (seq : SeqId) : (m.uploadDone seq).Guarded := by
  unfold PurgeMount.uploadDone
  split
  · exact hm
  · next e he =>
    split
    · exact hm.of_journal (m.refers_queued.remove seq).queued
    · next wp hwp =>
      have hwaits : m.Queued wp := ⟨e, List.mem_of_find?_eq_some he, hwp⟩
      have hj := (m.refers_queued.handStagingToRename e.op.path hwaits).remove seq
      dsimp only
      split
      · exact hm.of_journal hj.queued
      · exact hm.of_journal (hj.removeFiles _).queued

/-- The replayer gives no file an owner. -/
theorem Guarded.replay (hm : m.Guarded) (s : ReplayStep) :
    PurgeMount.Guarded { m with loop := m.loop.replayStep s } := by
  have hdir : (m.loop.replayStep s).cacheDir = m.loop.cacheDir := by
    unfold ReplayLoop.replayStep
    split
    · dsimp only
      split <;> rfl
    · split <;> rfl
    · rfl
    · rfl
    · rfl
    · split <;> rfl
    · rfl
    · rfl
  have hq : EntriesWithin m.Queued (m.loop.replayStep s).journal.entries :=
    (Refers.replayStep (l := m.loop) m.refers_queued s).queued
  refine hm.of_owners hdir rfl (fun _ hp => hp) hm.named hm.placed ?_ (fun _ ho => .inl ho)
    fun _ _ _ _ => ⟨fun p ⟨e, he, hes⟩ => hq e he p hes, fun _ hx _ => hx⟩
  intro p ho
  rcases ho with ho | ⟨e, he, hes⟩ | ho
  · exact .inl (.inl ho)
  · exact .inl (.inr (.inl (hq e he p hes)))
  · exact .inl (.inr (.inr ho))

/-! ## Cached copies -/

/-- Copies of the cache may come and go. -/
theorem Guarded.copies (hm : m.Guarded) {cached : List PathBuf}
    {fileCache : PathBuf → Option FileCacheEntry}
    (h : ∀ remote e, fileCache remote = some e → m.Placed e.localPath) :
    PurgeMount.Guarded { m with cached := cached, fileCache := fileCache } :=
  hm.of_owners rfl rfl (fun _ hp => hp) hm.named h (fun _ ho => .inl ho) (fun _ ho => .inl ho)
    fun _ _ _ _ => ⟨fun _ hq => hq, fun _ hx _ => hx⟩

/-- A copy that is kept lies where copies lie. -/
theorem Guarded.keepCopy (hm : m.Guarded) (remote : PathBuf) (kept : Bool) (etag : Option String)
    (f : LocalFile) : (m.keepCopy remote kept etag f).Guarded := by
  refine Guarded.copies (hm.of_disk _) ?_
  intro r e he
  split at he
  · cases he
    exact ⟨remote, kept, rfl⟩
  · exact hm.placed r e he

/-- A copy that is dropped leaves the others. -/
theorem Guarded.dropCopy (hm : m.Guarded) (remote : PathBuf) : (m.dropCopy remote).Guarded := by
  refine hm.copies ?_
  intro r e he
  split at he
  · cases he
  · exact hm.placed r e he

/-! ## The purge -/

/-- A purge that has changed its own notes only. -/
theorem Guarded.setPurge (hm : m.Guarded) (i : Nat) (pg : Purge)
    (hplaced : ∀ l, pg.toRemove = some l → ∀ x ∈ l, m.Placed x.2)
    (hcollecting : pg.openFhs = none → (∀ p, m.Queued p → p ∈ pg.staged) ∧
      ∀ h ∈ m.releasing, h.queues = false)
    (hscanning : ∀ fhs, pg.openFhs = some fhs → (∀ p, m.Owned p → m.Shielded pg fhs p) ∧
      ∀ p, ¬ m.Opening p) : (m.setPurge i (some pg)).Guarded := by
  have hcases : ∀ k pg', (m.setPurge i (some pg)).purges k = some pg' →
      pg' = pg ∨ m.purges k = some pg' := by
    intro k pg' hk
    simp only [PurgeMount.setPurge] at hk
    split at hk
    · exact .inl (Option.some.inj hk).symm
    · exact .inr hk
  -- for each part: the purge itself, or another that goes on as it was
  refine ⟨hm.named, hm.placed, ?_, hm.unowned, hm.unopened, ?_, ?_, ?_, ?_⟩
  · intro k pg' l hk hl
    rcases hcases k pg' hk with rfl | hk
    · exact hplaced l hl
    · exact hm.placedIn k pg' l hk hl
  · intro k pg' hk hnone
    rcases hcases k pg' hk with rfl | hk
    · exact (hcollecting hnone).1
    · exact hm.queuedSeen k pg' hk hnone
  · intro k pg' hk hnone
    rcases hcases k pg' hk with rfl | hk
    · exact (hcollecting hnone).2
    · exact hm.noneReleasing k pg' hk hnone
  · intro k pg' fhs hk hfhs
    rcases hcases k pg' hk with rfl | hk
    · exact (hscanning fhs hfhs).1
    · exact hm.shielded k pg' fhs hk hfhs
  · intro k pg' fhs hk hfhs
    rcases hcases k pg' hk with rfl | hk
    · exact (hscanning fhs hfhs).2
    · exact hm.noneOpening k pg' fhs hk hfhs

/-- A purge that ends deletes nothing more. -/
theorem Guarded.purgeEnd (hm : m.Guarded) (i : Nat) : (m.setPurge i none).Guarded := by
  have hold : ∀ k pg, (m.setPurge i none).purges k = some pg → m.purges k = some pg := by
    intro k pg hk
    simp only [PurgeMount.setPurge] at hk
    split at hk
    · cases hk
    · exact hk
  exact ⟨hm.named, hm.placed, fun k pg l hk => hm.placedIn k pg l (hold k pg hk), hm.unowned,
    hm.unopened, fun k pg hk => hm.queuedSeen k pg (hold k pg hk),
    fun k pg hk => hm.noneReleasing k pg (hold k pg hk),
    fun k pg fhs hk => hm.shielded k pg fhs (hold k pg hk),
    fun k pg fhs hk => hm.noneOpening k pg fhs (hold k pg hk)⟩

/-- A purge that begins takes note of the staging files that are queued. -/
theorem Guarded.purgeStart (hm : m.Guarded) (i : Nat)
    (hmeet : ∀ h ∈ m.releasing, h.queues = false) :
    (m.setPurge i (some (Purge.collectJournal m.journal))).Guarded := by
  refine hm.setPurge i _ (fun _ hl => nomatch hl) (fun _ => ⟨?_, hmeet⟩) fun _ hfhs => nomatch hfhs
  intro p ⟨e, he, hes⟩
  refine List.mem_filterMap.mpr ⟨e, List.mem_filter.mpr ⟨he, ?_⟩, hes⟩
  rw [hes]
  rfl

/-- Then it takes note of the copies. -/
theorem Guarded.purgeCollectCopies (hm : m.Guarded) {i : Nat} {pg : Purge}
    (hi : m.purges i = some pg) :
    (m.setPurge i (some { pg with toRemove := some (m.copies pg) })).Guarded := by
  refine hm.setPurge i _ ?_ (fun hnone => ⟨hm.queuedSeen i pg hi hnone, hm.noneReleasing i pg hi hnone⟩)
    fun fhs hfhs => ⟨hm.shielded i pg fhs hi hfhs, hm.noneOpening i pg fhs hi hfhs⟩
  intro l hl x hx
  cases hl
  obtain ⟨remote, -, hcopy⟩ := List.mem_filterMap.mp hx
  obtain ⟨e, he, rfl⟩ := Option.map_eq_some_iff.mp hcopy
  exact hm.placed remote e he

/-- A cached copy is not a staging file. -/
theorem isStagingFile_copyPath (m : PurgeMount) (remote : PathBuf) (kept : Bool) :
    isStagingFile m.cacheDir (m.copyPath remote kept) = false := by
  cases remote with
  | nil =>
    -- the directories themselves: `kept` and `cache`
    have hname : (m.copyPath [] kept).fileName = some (if kept then "kept" else "cache") := by
      simp [copyPath, PathBuf.fileName]
    have hfh : stagingFh (if kept then "kept" else "cache") = none := by cases kept <;> rfl
    rw [isStagingFile, hname, Option.any_some, hfh, Option.isSome_none, Bool.and_false]
  | cons c rest =>
    have hlen : (m.copyPath (c :: rest) kept).parent.length ≠ m.cacheDir.length := by
      simp only [copyPath, PathBuf.parent, List.length_dropLast, List.length_append,
        List.length_cons]
      omega
    have hne : (m.copyPath (c :: rest) kept).parent ≠ m.cacheDir := fun h => hlen (by rw [h])
    simp [isStagingFile, hne]

/-- A copy that is removed is no staging file. -/
theorem Guarded.purgeRemoveCopy (hm : m.Guarded) {i : Nat} {pg : Purge} {remote copy : PathBuf}
    {rest : List (PathBuf × PathBuf)} (hi : m.purges i = some pg)
    (hrest : pg.toRemove = some ((remote, copy) :: rest)) (removed : Bool) :
    (m.purgeRemoveCopy i pg remote copy rest removed).Guarded := by
  have hplaced := hm.placedIn i pg _ hi hrest
  obtain ⟨r, kept, hcopy⟩ := hplaced (remote, copy) List.mem_cons_self
  have hset : (m.setPurge i (some { pg with toRemove := some rest })).Guarded := by
    refine hm.setPurge i _ ?_
      (fun hnone => ⟨hm.queuedSeen i pg hi hnone, hm.noneReleasing i pg hi hnone⟩)
      fun fhs hfhs => ⟨hm.shielded i pg fhs hi hfhs, hm.noneOpening i pg fhs hi hfhs⟩
    intro l hl x hx
    cases hl
    exact hplaced x (List.mem_cons_of_mem _ hx)
  unfold PurgeMount.purgeRemoveCopy
  dsimp only
  split
  · have hstaging : isStagingFile m.cacheDir copy = false := by
      rw [show copy = m.copyPath r kept from hcopy]
      exact m.isStagingFile_copyPath r kept
    have hdropped := (hset.of_disk (m.journal.disk.removeFile copy)).dropCopy remote
    have hpurged : m.purged ++ (if isStagingFile m.cacheDir copy then [copy] else []) = m.purged := by
      rw [hstaging]
      simp
    show PurgeMount.Guarded { PurgeMount.dropCopy _ remote with
      purged := m.purged ++ (if isStagingFile m.cacheDir copy then [copy] else []) }
    rw [hpurged]
    exact hdropped
  · exact hset

/-- Then it takes note of the open handles. -/
theorem Guarded.purgeCollectHandles (hm : m.Guarded) {i : Nat} {pg : Purge}
    (hi : m.purges i = some pg) (hnone : pg.openFhs = none)
    (hmeet : ∀ h ∈ m.opening, h.writePath = none) :
    (m.setPurge i (some { pg with openFhs := some (m.openFiles.map (·.fh)) })).Guarded := by
  refine hm.setPurge i _ ?_ (fun h => nomatch h) ?_
  · intro l hl x hx
    exact hm.placedIn i pg l hi hl x hx
  · intro fhs hfhs
    cases hfhs
    refine ⟨?_, ?_⟩
    · intro p ho
      rcases ho with ⟨h, hh, hp⟩ | hq | ⟨h, hh, hqueues, -⟩
      · exact .inr ⟨h.fh, List.mem_map_of_mem hh, hm.named h (.inr (.inl hh)) p hp⟩
      · exact .inl (hm.queuedSeen i pg hi hnone p hq)
      · rw [hm.noneReleasing i pg hi hnone h hh] at hqueues
        cases hqueues
    · intro p ⟨h, hh, hp⟩
      rw [hmeet h hh] at hp
      cases hp

/-- What the scan deletes is not shielded. -/
theorem not_shielded_of_deletes {pg : Purge} {p : PathBuf} {fhs : List Nat}
    (hfhs : pg.openFhs = some fhs) (h : pg.deletes m.cacheDir p = true) :
    ¬ m.Shielded pg fhs p := by
  intro hshield
  simp only [Purge.deletes, hfhs] at h
  split at h
  · next openFhs name hopen hname =>
    cases hopen
    split at h
    · next fh hfh =>
      simp only [Bool.and_eq_true, decide_eq_true_eq] at h
      rcases hshield with hstaged | ⟨fh', hmem, hp⟩
      · exact h.1.2 hstaged
      · -- the name gives the number of the handle that was seen
        have hname' := stagingFh_writePath m.cacheDir fh'
        rw [← hp, hname, Option.bind_some, hfh] at hname'
        cases hname'
        exact h.2 hmem
    · cases h
  · cases h

/-- What it deletes after that has no owner. -/
theorem Guarded.purgeDelete (hm : m.Guarded) {i : Nat} {pg : Purge} {p : PathBuf}
    (hi : m.purges i = some pg) (h : pg.deletes m.cacheDir p = true) :
    PurgeMount.Guarded { m.setDisk (m.journal.disk.removeFile p) with
      purged := m.purged ++ [p] } := by
  have hd := hm.of_disk (m.journal.disk.removeFile p)
  obtain ⟨fhs, hfhs⟩ : ∃ fhs, pg.openFhs = some fhs := by
    cases hopen : pg.openFhs with
    | some fhs => exact ⟨fhs, rfl⟩
    | none => simp [Purge.deletes, hopen] at h
  have howned : ¬ m.Owned p := by
    intro ho
    exact not_shielded_of_deletes hfhs h (hm.shielded i pg fhs hi hfhs p ho)
  refine ⟨hd.named, hd.placed, hd.placedIn, ?_, ?_, hd.queuedSeen, hd.noneReleasing, hd.shielded,
    hd.noneOpening⟩
  · intro q hq ho
    rcases List.mem_append.mp hq with hq | hq
    · exact hm.unowned q hq ho
    · rw [List.mem_singleton.mp hq] at ho
      exact howned ho
  · intro q hq ho
    rcases List.mem_append.mp hq with hq | hq
    · exact hm.unopened q hq ho
    · exact hm.noneOpening i pg fhs hi hfhs q ho

/-! ## Runs -/

/-- No staging file changes hands, and none is made, where a purge does not see it. -/
def Meets (m : PurgeMount) : PurgeEvent → Prop
  | .stage _ writable _ _ _ =>
    writable = true → ∀ i pg fhs, m.purges i = some pg → pg.openFhs ≠ some fhs
  | .write fh _ =>
    ∀ h, m.handle fh = some h → h.writePath = none →
      ∀ i pg fhs, m.purges i = some pg → pg.openFhs = some fhs → h.fh ∈ fhs
  | .take fh =>
    ∀ h, m.handle fh = some h → h.queues = true → ∀ i pg, m.purges i = some pg → pg.openFhs ≠ none
  | .purgeStart _ => ∀ h ∈ m.releasing, h.queues = false
  | .purgeCollectHandles _ => ∀ h ∈ m.opening, h.writePath = none
  | _ => True

/-- Every step of the run meets the condition. -/
def AllMeet (m : PurgeMount) : List PurgeEvent → Prop
  | [] => True
  | e :: es =>
    m.Meets e ∧
      match m.step e with
      | some m' => m'.AllMeet es
      | none => True

/-- Every event that meets its condition keeps the mount guarded. -/
theorem Guarded.step {e : PurgeEvent} (hm : m.Guarded) (hmeet : m.Meets e)
    (h : m.step e = some m') : m'.Guarded := by
  cases e with
  | stage path writable truncating etag staged =>
    -- the handles
    cases h
    exact hm.stage path writable truncating etag staged hmeet
  | stageFails fh =>
    obtain ⟨x, -, rfl⟩ := Option.map_eq_some_iff.mp h
    exact hm.stageFails x
  | insert fh =>
    obtain ⟨x, hx, rfl⟩ := Option.map_eq_some_iff.mp h
    exact hm.insert (List.mem_of_find?_eq_some hx)
  | write fh f =>
    obtain ⟨x, hx, rfl⟩ := Option.map_eq_some_iff.mp h
    exact hm.write (List.mem_of_find?_eq_some hx) f (hmeet x hx)
  | markUnlinked path =>
    cases h
    exact hm.markUnlinked path
  | take fh =>
    obtain ⟨x, hx, rfl⟩ := Option.map_eq_some_iff.mp h
    exact hm.take (List.mem_of_find?_eq_some hx) (hmeet x hx)
  | commit fh c =>
    obtain ⟨x, hx, rfl⟩ := Option.map_eq_some_iff.mp h
    exact hm.commit (List.mem_of_find?_eq_some hx) c
  | live op =>
    -- the journal
    simp only [PurgeMount.step] at h
    split at h
    · cases h
    · next hop =>
      cases h
      exact hm.live (Bool.eq_false_iff.mpr hop)
  | uploadDone seq =>
    cases h
    exact hm.uploadDone seq
  | replay s =>
    cases h
    exact hm.replay s
  | keepCopy remote kept etag f =>
    -- the copies
    cases h
    exact hm.keepCopy remote kept etag f
  | dropCopy remote =>
    cases h
    exact hm.dropCopy remote
  | purgeStart i =>
    -- the phases of a purge
    simp only [PurgeMount.step] at h
    split at h
    · cases h
      exact hm.purgeStart i hmeet
    · cases h
  | purgeCollectCopies i =>
    simp only [PurgeMount.step] at h
    split at h
    · next pg hi =>
      split at h
      · cases h
        exact hm.purgeCollectCopies hi
      · cases h
    · cases h
  | purgeRemoveCopy i removed =>
    simp only [PurgeMount.step] at h
    split at h
    · next pg hi =>
      split at h
      · next remote copy rest hrest =>
        cases h
        exact hm.purgeRemoveCopy hi hrest removed
      · cases h
    · cases h
  | purgeCollectHandles i =>
    simp only [PurgeMount.step] at h
    split at h
    · next pg hi =>
      split at h
      · next hready =>
        cases h
        exact hm.purgeCollectHandles hi hready.2 hmeet
      · cases h
    · cases h
  | purgeDelete i p =>
    simp only [PurgeMount.step] at h
    split at h
    · next pg hi =>
      split at h
      · next hdel =>
        cases h
        exact hm.purgeDelete hi (Bool.and_eq_true_iff.mp hdel).2
      · cases h
    · cases h
  | purgeEnd i =>
    simp only [PurgeMount.step] at h
    split at h
    · split at h
      · cases h
        exact hm.purgeEnd i
      · cases h
    · cases h

/-- And so does a whole run. -/
theorem Guarded.steps {es : List PurgeEvent} (hm : m.Guarded) (hmeet : m.AllMeet es)
    (h : m.steps es = some m') : m'.Guarded := by
  induction es generalizing m with
  | nil =>
    cases h
    exact hm
  | cons e es ih =>
    simp only [PurgeMount.steps, Option.bind_eq_some_iff] at h
    obtain ⟨m₁, h₁, h₂⟩ := h
    obtain ⟨hfirst, hrest⟩ := hmeet
    rw [h₁] at hrest
    exact ih (hm.step hfirst h₁) hrest h₂

/-- At the start nothing has been purged. -/
theorem guarded_start (j : MutationJournal) (cacheDir : PathBuf) (nextFh : Nat)
    (restored : List OpenHandle) : (start j cacheDir nextFh restored).Guarded where
  named := by
    intro h hh p hp
    rcases hh with hh | hh | hh
    · cases hh
    · obtain ⟨x, -, rfl⟩ := List.mem_map.mp hh
      obtain ⟨-, -, rfl⟩ := Option.map_eq_some_iff.mp hp
      rfl
    · cases hh
  placed _ _ he := nomatch he
  placedIn _ _ _ hi := nomatch hi
  unowned _ hp := nomatch hp
  unopened _ hp := nomatch hp
  queuedSeen _ _ hi := nomatch hi
  noneReleasing _ _ hi := nomatch hi
  shielded _ _ _ hi := nomatch hi
  noneOpening _ _ _ hi := nomatch hi

/-- In every run whose steps meet the condition, no staging file a purge has deleted is that of an
open handle, of a queued entry or of a release on its way to queueing it. -/
theorem purged_files_have_no_owner (j : MutationJournal) (cacheDir : PathBuf) (nextFh : Nat)
    (restored : List OpenHandle) (es : List PurgeEvent) (m : PurgeMount)
    (hmeet : (start j cacheDir nextFh restored).AllMeet es)
    (h : (start j cacheDir nextFh restored).steps es = some m) : ∀ p ∈ m.purged, ¬ m.Owned p :=
  ((guarded_start j cacheDir nextFh restored).steps hmeet h).unowned

/-! ## Two runs -/

/-- An empty journal over a directory with one left-over staging file. -/
def emptyJournal : MutationJournal :=
  { entries := [], nextSeq := 1
    disk := { files := fun p => if p = ["c", "write_9"] then some { data := [66] } else none } }

/-- A file is being written; the purge deletes the left-over file, and the release comes after the
purge's second look. -/
def purgeBesideOpenHandle : List PurgeEvent :=
  [.stage ["a"] true false none (some { data := [] }), .insert 1, .write 1 { data := [65] },
    .purgeStart 0, .purgeCollectCopies 0, .purgeCollectHandles 0, .purgeDelete 0 ["c", "write_9"],
    .take 1, .commit 1 (some .whole), .purgeEnd 0]

/-- A handle that is released after the purge has looked at it keeps its file. -/
theorem release_after_second_look_is_kept : ∃ m,
    (start emptyJournal ["c"] 1 []).steps purgeBesideOpenHandle = some m ∧
    m.purged = [["c", "write_9"]] ∧
    m.journal.entries.map (·.op) = [.put ["a"] ["c", "write_1"] none] ∧
    ∀ p ∈ m.purged, ¬ m.Owned p := by
  obtain ⟨m, hm, hpurged, hops⟩ : ∃ m,
      (start emptyJournal ["c"] 1 []).steps purgeBesideOpenHandle = some m ∧
      m.purged = [["c", "write_9"]] ∧
      m.journal.entries.map (·.op) = [.put ["a"] ["c", "write_1"] none] :=
    ⟨_, rfl, by decide, by decide⟩
  have hmeet : (start emptyJournal ["c"] 1 []).AllMeet purgeBesideOpenHandle := by
    refine ⟨?_, trivial, ?_, ?_, trivial, ?_, trivial, ?_, trivial, trivial, trivial⟩
    · exact fun _ _ _ _ hi => nomatch hi
    · exact fun h hh hnone => by cases hh; cases hnone
    · exact fun h hh => nomatch hh
    · exact fun h hh => nomatch hh
    · -- the purge has seen the handles
      intro h _ _ i pg hi hnone
      cases i with
      | zero =>
        cases hi
        cases hnone
      | succ k =>
        change none = some pg at hi
        cases hi
  exact ⟨m, hm, hpurged, hops, purged_files_have_no_owner _ _ _ _ _ m hmeet hm⟩

/-- `release` takes the handle out of the table between the purge's look at the journal and its
look at the handles: the upload is queued, and the purge deletes its only bytes. -/
def purgeBesideRelease : List PurgeEvent :=
  [.stage ["a"] true false none (some { data := [] }), .insert 1, .write 1 { data := [65] },
    .purgeStart 0, .purgeCollectCopies 0, .take 1, .purgeCollectHandles 0, .commit 1 (some .whole),
    .purgeDelete 0 ["c", "write_1"]]

theorem released_file_is_purged :
    ¬ ∀ (j : MutationJournal) (cacheDir : PathBuf) (nextFh : Nat) (restored : List OpenHandle)
        (es : List PurgeEvent) (m : PurgeMount),
      (start j cacheDir nextFh restored).steps es = some m → ∀ p ∈ m.purged, ¬ m.Owned p := by
  intro hall
  obtain ⟨m, hm, hpurged, hops⟩ : ∃ m,
      (start emptyJournal ["c"] 1 []).steps purgeBesideRelease = some m ∧
      m.purged = [["c", "write_1"]] ∧
      m.journal.entries.map (·.op) = [.put ["a"] ["c", "write_1"] none] :=
    ⟨_, rfl, by decide, by decide⟩
  refine hall _ _ _ _ _ m hm ["c", "write_1"] (by rw [hpurged]; exact List.mem_singleton_self _) ?_
  -- the queued upload still needs the file
  have hop : .put ["a"] ["c", "write_1"] none ∈ m.journal.entries.map (·.op) := by
    rw [hops]
    exact List.mem_singleton_self _
  obtain ⟨e, he, heop⟩ := List.mem_map.mp hop
  exact .inr (.inl ⟨e, he, by rw [heop]; rfl⟩)

end PurgeMount

end Ncrs
