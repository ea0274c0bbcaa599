import Ncrs.Native.Recovery
import Ncrs.Spec.JournalCorrect

/-!
# Recovered copies survive

`recover_staging` looks whether `unsynced/` has the remote file's name, and then takes that name
with the staging file's name appended, without looking again. As long as no copy that was reported
before has that second name, every reported copy stays where it is, whatever else happens in the
cache directory and however often it is restarted.

## Key results

- `RecoveryState.Intact`: every reported copy is in `unsynced/` with its bytes.
- `RecoveryState.Free`: what a call must find for that.
- `RecoveryState.Intact.step`, `RecoveryState.recovered_copies_survive`: one step, and every run.
- `RecoveryState.overwritten`: a call that finds the second name taken loses the copy.
-/

namespace Ncrs

namespace CacheDir

variable {d : CacheDir} {cacheDir remotePath p : PathBuf} {staging : String} {io : RecoverIo}

/-- The name of the remote file in `unsynced/`. -/
def basePath (cacheDir remotePath : PathBuf) : PathBuf :=
  unsyncedDir cacheDir ++ [remotePath.fileName.getD "recovered"]

/-- The same with the name of the staging file appended. -/
def suffixedPath (cacheDir remotePath : PathBuf) (staging : String) : PathBuf :=
  let base := remotePath.fileName.getD "recovered"
  unsyncedDir cacheDir ++ [s!"{base}.{staging}"]

theorem recoveryPath_eq (d : CacheDir) (cacheDir remotePath : PathBuf) (staging : String) :
    MutationJournal.recoveryPath d cacheDir (cacheDir ++ [staging]) remotePath =
      if (d.files (basePath cacheDir remotePath)).isSome then suffixedPath cacheDir remotePath staging
      else basePath cacheDir remotePath := by
  have hname : PathBuf.fileName (cacheDir ++ [staging]) = some staging := List.getLast?_concat
  unfold MutationJournal.recoveryPath
  rw [hname]
  rfl

theorem recoveryPath_startsWith (d : CacheDir) (cacheDir remotePath : PathBuf) (staging : String) :
    PathBuf.startsWith (MutationJournal.recoveryPath d cacheDir (cacheDir ++ [staging]) remotePath)
      (unsyncedDir cacheDir) = true := by
  rw [recoveryPath_eq, PathBuf.startsWith_iff]
  split
  · exact List.prefix_append _ _
  · exact List.prefix_append _ _

theorem not_startsWith_unsynced (cacheDir : PathBuf) {staging : String} (h : staging ≠ "unsynced") :
    PathBuf.startsWith (cacheDir ++ [staging]) (unsyncedDir cacheDir) = false := by
  rw [PathBuf.startsWith_eq_false_iff, unsyncedDir, List.prefix_append_right_inj]
  simpa [List.cons_prefix_cons] using h.symm

/-- A call writes its destination and takes away its staging file, or leaves all as it is. -/
theorem recoverStaging_files (hx : p ≠ cacheDir ++ [staging])
    (hdest : p ≠ MutationJournal.recoveryPath d cacheDir (cacheDir ++ [staging]) remotePath) :
    (d.recoverStaging cacheDir (cacheDir ++ [staging]) remotePath io).2.files p = d.files p := by
  unfold recoverStaging
  split
  · rfl
  · cases d.files (cacheDir ++ [staging]) with
    | none => rfl
    | some f =>
      cases io with
      | noFolder => rfl
      | renamed => exact moveFile_of_ne hx hdest
      | copied mtime removed =>
        cases removed with
        | true => simp [removeFile, writeFile, hx, hdest]
        | false => simp [writeFile, hdest]
      | copyFailed left =>
        cases left with
        | none => rfl
        | some left => simp [writeFile, hdest]

end CacheDir

/-- The call gets to write its destination. -/
def RecoverIo.writes : RecoverIo → Bool
  | .noFolder | .copyFailed none => false
  | .renamed | .copied _ _ | .copyFailed (some _) => true

namespace CacheDir

variable {d : CacheDir} {cacheDir remotePath : PathBuf} {staging : String} {io : RecoverIo}

theorem recoverStaging_of_not_writes
    (h : ¬((d.files (cacheDir ++ [staging])).isSome ∧ io.writes = true)) :
    d.recoverStaging cacheDir (cacheDir ++ [staging]) remotePath io = (none, d) := by
  unfold recoverStaging
  split
  · rfl
  · cases hf : d.files (cacheDir ++ [staging]) with
    | none => rfl
    | some f =>
      rw [hf] at h
      cases io with
      | noFolder => rfl
      | renamed => simp [RecoverIo.writes] at h
      | copied mtime removed => simp [RecoverIo.writes] at h
      | copyFailed left =>
        cases left with
        | none => rfl
        | some left => simp [RecoverIo.writes] at h

/-- What a call reports is there, with the staged bytes. -/
theorem recoverStaging_reported {dest : PathBuf}
    (h : (d.recoverStaging cacheDir (cacheDir ++ [staging]) remotePath io).1 = some dest) :
    ∃ f f', d.files (cacheDir ++ [staging]) = some f ∧
      (d.recoverStaging cacheDir (cacheDir ++ [staging]) remotePath io).2.files dest = some f' ∧
      f'.data = f.data ∧
      dest = MutationJournal.recoveryPath d cacheDir (cacheDir ++ [staging]) remotePath := by
  have hstart := recoveryPath_startsWith d cacheDir remotePath staging
  unfold recoverStaging at h ⊢
  split at h
  · cases h
  · rename_i hfolder
    rw [if_neg hfolder]
    cases hf : d.files (cacheDir ++ [staging]) with
    | none =>
      rw [hf] at h
      cases h
    | some f =>
      have hne : MutationJournal.recoveryPath d cacheDir (cacheDir ++ [staging]) remotePath ≠
          cacheDir ++ [staging] := by
        intro heq
        rw [heq] at hstart
        by_cases hname : staging = "unsynced"
        · subst hname
          exact hfolder (by rw [unsyncedDir, hf]; rfl)
        · rw [not_startsWith_unsynced cacheDir hname] at hstart
          cases hstart
      rw [hf] at h
      cases io with
      | noFolder => cases h
      | renamed =>
        obtain rfl := Option.some.inj h
        exact ⟨f, f, rfl, by simp [moveFile, hf, writeFile], rfl, rfl⟩
      | copied mtime removed =>
        obtain rfl := Option.some.inj h
        refine ⟨f, { data := f.data, mtime := mtime }, rfl, ?_, rfl, rfl⟩
        cases removed with
        | true => simp [removeFile, writeFile, hne]
        | false => simp [writeFile]
      | copyFailed left =>
        cases left with
        | none => cases h
        | some left => cases h

end CacheDir

/-! ## Every run -/

namespace RecoveryState

variable {cacheDir : PathBuf} {s : RecoveryState}

/-- Every copy that was reported is in `unsynced/` with its bytes. -/
def Intact (cacheDir : PathBuf) (s : RecoveryState) : Prop :=
  ∀ x ∈ s.preserved, x.path.startsWith (unsyncedDir cacheDir) = true ∧
    ∃ f, s.disk.files x.path = some f ∧ f.data = x.data

/-- The names a call may take: when the remote file's own is taken, no reported copy has the one
    with the suffix. -/
def Free (cacheDir : PathBuf) (s : RecoveryState) (staging : String) (remotePath : PathBuf) : Prop :=
  (s.disk.files (CacheDir.basePath cacheDir remotePath)).isSome →
    ∀ x ∈ s.preserved, x.path ≠ CacheDir.suffixedPath cacheDir remotePath staging

/-- What a step must find: a call that gets to write, a free name. -/
def Safe (cacheDir : PathBuf) (s : RecoveryState) : RecoveryStep → Prop
  | .recover staging remotePath io =>
    (s.disk.files (cacheDir ++ [staging])).isSome ∧ io.writes = true → s.Free cacheDir staging remotePath
  | .elsewhere _ => True

/-- Every step of the run finds it. -/
def SafeRun (cacheDir : PathBuf) : RecoveryState → List RecoveryStep → Prop
  | _, [] => True
  | s, a :: steps => s.Safe cacheDir a ∧ SafeRun cacheDir (s.step cacheDir a) steps

/-- The destination is no reported copy's. -/
theorem Intact.dest_ne (h : s.Intact cacheDir) {staging : String} {remotePath : PathBuf}
    (hfree : s.Free cacheDir staging remotePath) {x : PreservedCopy} (hx : x ∈ s.preserved) :
    x.path ≠ MutationJournal.recoveryPath s.disk cacheDir (cacheDir ++ [staging]) remotePath := by
  obtain ⟨-, f, hf, -⟩ := h x hx
  rw [CacheDir.recoveryPath_eq]
  split
  · rename_i hbase
    exact hfree hbase x hx
  · rename_i hbase
    intro heq
    rw [← heq, hf] at hbase
    exact hbase rfl

theorem Intact.recover (h : s.Intact cacheDir) {staging : String} {remotePath : PathBuf}
    {io : RecoverIo} (hsafe : s.Safe cacheDir (.recover staging remotePath io)) :
    (s.step cacheDir (.recover staging remotePath io)).Intact cacheDir := by
  by_cases hwrites : (s.disk.files (cacheDir ++ [staging])).isSome ∧ io.writes = true
  · have hfree := hsafe hwrites
    have hold : ∀ x ∈ s.preserved, x.path.startsWith (unsyncedDir cacheDir) = true ∧ ∃ f,
        (s.disk.recoverStaging cacheDir (cacheDir ++ [staging]) remotePath io).2.files x.path = some f ∧
          f.data = x.data := by
      intro x hx
      obtain ⟨hstart, f, hf, hdata⟩ := h x hx
      refine ⟨hstart, f, ?_, hdata⟩
      by_cases hname : staging = "unsynced"
      · -- a staging file in the folder's place: the call stops before it moves anything
        subst hname
        have hstop : (s.disk.files (unsyncedDir cacheDir)).isSome = true := hwrites.1
        rw [CacheDir.recoverStaging, if_pos hstop]
        exact hf
      · rw [CacheDir.recoverStaging_files ?_ (h.dest_ne hfree hx)]
        · exact hf
        · intro heq
          rw [heq, CacheDir.not_startsWith_unsynced cacheDir hname] at hstart
          cases hstart
    intro x hx
    simp only [RecoveryState.step] at hx ⊢
    split at hx
    · rename_i dest f hdest hf
      obtain rfl | hx := List.mem_cons.mp hx
      · obtain ⟨f₂, f', hf₂, hthere, hdata, hpath⟩ := CacheDir.recoverStaging_reported hdest
        obtain rfl : f = f₂ := Option.some.inj (hf.symm.trans hf₂)
        refine ⟨?_, f', hthere, hdata⟩
        rw [show (PreservedCopy.mk dest f.data).path = dest from rfl, hpath]
        exact CacheDir.recoveryPath_startsWith _ _ _ _
      · exact hold x hx
    · exact hold x hx
  · have hnone := @CacheDir.recoverStaging_of_not_writes _ _ remotePath _ _ hwrites
    simpa only [RecoveryState.step, hnone] using h

theorem Intact.step (h : s.Intact cacheDir) {a : RecoveryStep} (hsafe : s.Safe cacheDir a) :
    (s.step cacheDir a).Intact cacheDir := by
  cases a with
  | recover staging remotePath io => exact h.recover hsafe
  | elsewhere files =>
    intro x hx
    obtain ⟨hstart, f, hf, hdata⟩ := h x hx
    refine ⟨hstart, f, ?_, hdata⟩
    rw [RecoveryState.step, CacheDir.replaceOutside]
    exact (if_pos hstart).trans hf

theorem Intact.run (h : s.Intact cacheDir) {steps : List RecoveryStep}
    (hsafe : SafeRun cacheDir s steps) : (s.run cacheDir steps).Intact cacheDir := by
  induction steps generalizing s with
  | nil => exact h
  | cons a steps ih => exact ih (h.step hsafe.1) hsafe.2

/-- The copy a call finds under its second name is lost when the call writes other bytes. -/
theorem overwritten {staging : String} {remotePath : PathBuf} {f : LocalFile} {x : PreservedCopy}
    (hfolder : s.disk.files (unsyncedDir cacheDir) = none)
    (hbase : (s.disk.files (CacheDir.basePath cacheDir remotePath)).isSome)
    (hpath : x.path = CacheDir.suffixedPath cacheDir remotePath staging)
    (hf : s.disk.files (cacheDir ++ [staging]) = some f) (hdata : f.data ≠ x.data)
    (hx : x ∈ s.preserved) :
    ¬(s.step cacheDir (.recover staging remotePath .renamed)).Intact cacheDir := by
  intro hintact
  have hdest := CacheDir.recoveryPath_eq s.disk cacheDir remotePath staging
  rw [if_pos hbase, ← hpath] at hdest
  have hstep : s.disk.recoverStaging cacheDir (cacheDir ++ [staging]) remotePath .renamed =
      (some x.path, s.disk.moveFile (cacheDir ++ [staging]) x.path) := by
    simp [CacheDir.recoverStaging, hfolder, hf, hdest]
  obtain ⟨-, f', hf', hdata'⟩ := hintact x (by simp [RecoveryState.step, hstep, hf, hx])
  simp only [RecoveryState.step, hstep, CacheDir.moveFile, hf, CacheDir.writeFile, if_pos,
    Option.some.injEq] at hf'
  exact hdata (hf' ▸ hdata')

/-- The cache directory of the first session. -/
def start (disk : CacheDir) : RecoveryState := { disk := disk }

theorem recovered_copies_survive (cacheDir : PathBuf) (disk : CacheDir) (steps : List RecoveryStep)
    (hsafe : SafeRun cacheDir (start disk) steps) : ((start disk).run cacheDir steps).Intact cacheDir :=
  Intact.run (fun _ hx => absurd hx List.not_mem_nil) hsafe

/-- The first handle of a session is given up: its staging file has the same name in each. -/
def givenUp (dir : String) (data : Bytes) : List RecoveryStep :=
  [.elsewhere fun p => if p = ["write_1"] then some { data := data } else none,
    .recover "write_1" [dir, "f"] .renamed]

def noFiles : CacheDir := { files := fun _ => none }

theorem copies_of_two_sessions_survive :
    ((start noFiles).run [] (givenUp "a" [1] ++ givenUp "b" [2])).Intact [] :=
  recovered_copies_survive [] noFiles _ (by
    simp only [givenUp, List.cons_append, List.nil_append, SafeRun, Safe, Free, and_true, true_and]
    constructor
    · intro _ hbase
      revert hbase
      decide
    · intro _ _ x hx
      revert x
      decide)

/-- The third one takes the name of the second one's copy. -/
theorem third_session_overwrites :
    ¬((start noFiles).run [] (givenUp "a" [1] ++ givenUp "b" [2] ++ givenUp "c" [3])).Intact [] := by
  intro h
  obtain ⟨-, f, hf, hdata⟩ := h ⟨["unsynced", "f.write_1"], [2]⟩ (by decide)
  have hthere : ((start noFiles).run [] (givenUp "a" [1] ++ givenUp "b" [2] ++ givenUp "c" [3])).disk.files
      ["unsynced", "f.write_1"] = some { data := [3] } := by decide
  obtain rfl := Option.some.inj (hthere.symm.trans hf)
  cases hdata

end RecoveryState

end Ncrs
