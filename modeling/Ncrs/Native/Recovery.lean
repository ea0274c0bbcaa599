import Ncrs.Native.MutationJournal

/-!
# Recovered copies

`recover_staging` of `mutation_journal.rs` with everything the file system may answer:
`MutationJournal.recoverStaging` is the call whose rename goes through. The calls of any number of
sessions act on one cache directory, in which everything outside `unsynced/` may change between two
of them. `unsynced/` itself holds plain files, which only these calls put there.
-/

namespace Ncrs

/-- The folder the bytes of failed uploads are kept in. -/
def unsyncedDir (cacheDir : PathBuf) : PathBuf := cacheDir ++ ["unsynced"]

/-- How the file system takes a `recover_staging`. -/
inductive RecoverIo where
  /-- `unsynced/` cannot be created. -/
  | noFolder
  | renamed
  /-- Not renamed, but copied; `removed`: the staging file is gone then. -/
  | copied (mtime : Option Nat) (removed : Bool)
  /-- Neither; `left` is what the broken copy made of its destination, if it got to open it. -/
  | copyFailed (left : Option LocalFile)
  deriving DecidableEq, Repr

namespace CacheDir

/-- `recover_staging`: the path it reports, and the directory afterwards. -/
def recoverStaging (d : CacheDir) (cacheDir stagingPath remotePath : PathBuf) (io : RecoverIo) :
    Option PathBuf × CacheDir :=
  -- a file in the folder's place
  if (d.files (unsyncedDir cacheDir)).isSome then (none, d)
  else
    match d.files stagingPath with
    -- neither rename nor copy finds its source
    | none => (none, d)
    | some f =>
      let dest := MutationJournal.recoveryPath d cacheDir stagingPath remotePath
      match io with
      | .noFolder => (none, d)
      | .renamed => (some dest, d.moveFile stagingPath dest)
      | .copied mtime removed =>
        let copied := d.writeFile dest { data := f.data, mtime := mtime }
        (some dest, if removed then copied.removeFile stagingPath else copied)
      | .copyFailed none => (none, d)
      | .copyFailed (some left) => (none, d.writeFile dest left)

/-- Puts `files` in the place of whatever lies outside `dir`. -/
def replaceOutside (d : CacheDir) (dir : PathBuf) (files : PathBuf → Option LocalFile) : CacheDir :=
  { d with files := fun p => if p.startsWith dir then d.files p else files p }

end CacheDir

/-- A file that was reported as preserved. -/
structure PreservedCopy where
  path : PathBuf
  data : Bytes
  deriving DecidableEq, Repr

/-- The cache directory over all sessions, with what was reported so far. -/
structure RecoveryState where
  disk : CacheDir
  preserved : List PreservedCopy := []

inductive RecoveryStep where
  /-- Staging files lie in the cache directory itself (`write_<fh>`, `adopted_<pid>_<n>`). -/
  | recover (staging : String) (remotePath : PathBuf) (io : RecoverIo)
  /-- Whatever else happens: writes, uploads, restarts. -/
  | elsewhere (files : PathBuf → Option LocalFile)

namespace RecoveryState

def step (cacheDir : PathBuf) (s : RecoveryState) : RecoveryStep → RecoveryState
  | .recover staging remotePath io =>
    let r := s.disk.recoverStaging cacheDir (cacheDir ++ [staging]) remotePath io
    { disk := r.2
      preserved := match r.1, s.disk.files (cacheDir ++ [staging]) with
        | some dest, some f => ⟨dest, f.data⟩ :: s.preserved
        | _, _ => s.preserved }
  | .elsewhere files => { s with disk := s.disk.replaceOutside (unsyncedDir cacheDir) files }

def run (cacheDir : PathBuf) (s : RecoveryState) (steps : List RecoveryStep) : RecoveryState :=
  steps.foldl (step cacheDir) s

end RecoveryState

end Ncrs
