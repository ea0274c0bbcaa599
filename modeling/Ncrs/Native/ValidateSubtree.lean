import Ncrs.Native.DirRefresh

/-!
# Validating a cached subtree

Model of `validate_subtree` in `lib.rs`: one listing of a directory carries the etags of its child
directories, and the cached ones that differ are gone into while the depth allows. A directory is come
to at most once, so what it meets there (the state of the connection, whether a background fetch gets
started) is a function of its path. The listings requested in the background land later, in the cache
they find.
-/

namespace Ncrs

structure ValidateEnv where
  /-- Shutting down or offline when the validation of a directory begins. -/
  down : PathBuf → Bool
  /-- The same after a descent that came back with nothing. -/
  downAfter : PathBuf → Bool
  /-- `start_background_propfind` is held up by nothing but a cached listing. -/
  starts : PathBuf → Bool
  now : Nat

structure Revalidation where
  cache : FsCache
  /-- The listings asked for in the background. -/
  background : List PathBuf := []

/-- The etags of a child in a fresh listing and in the cache prove it unchanged. -/
def sameEtag : Option String → Option String → Bool
  | some fresh, some cached => fresh = cached
  | _, _ => false

/-- The loop over the fresh listing: the cached children that changed, and the cache with the others
    confirmed. -/
def checkChildren (now : Nat) : List RemoteEntry → FsCache → List PathBuf × FsCache
  | [], c => ([], c)
  | e :: rest, c =>
    if !e.isDir then checkChildren now rest c
    else
      match c.dir e.path with
      | none => checkChildren now rest c
      | some d =>
        if sameEtag e.changeToken d.etag then checkChildren now rest (c.confirmDirFresh e.path now).2
        else
          let r := checkChildren now rest c
          (e.path :: r.1, r.2)

/-- What changed leaves the cache, or is marked when it will be gone into. -/
def distrust (depth : Nat) (changed : List PathBuf) (c : FsCache) : FsCache :=
  if depth ≤ 1 then changed.foldl FsCache.removeDir c else changed.foldl FsCache.invalidateDir c

/-- `start_background_propfind`. -/
def startBackgroundPropfind (env : ValidateEnv) (path : PathBuf) (v : Revalidation) : Revalidation :=
  if (v.cache.dir path).isSome || !env.starts path then v
  else { v with background := v.background ++ [path] }

/-- One turn of the loop over the changed children. -/
def followUp (env : ValidateEnv) (depth : Nat) (descend : PathBuf → Revalidation → Bool × Revalidation)
    (v : Revalidation) (p : PathBuf) : Revalidation :=
  if 1 < depth then
    let r := descend p v
    if r.1 then r.2
    else if env.downAfter p then r.2
    else startBackgroundPropfind env p { r.2 with cache := r.2.cache.removeDir p }
  else startBackgroundPropfind env p v

/-- The body of `validate_subtree`, with the call it makes for a child; `answer` is
    `list_dir_propfind`. -/
def validateDir (answer : PathBuf → Option Listed) (env : ValidateEnv) (depth : Nat)
    (descend : PathBuf → Revalidation → Bool × Revalidation) (path : PathBuf) (v : Revalidation) :
    Bool × Revalidation :=
  if env.down path then (false, v)
  else if (v.cache.dir path).isNone then (false, v)
  else
    match answer path with
    | none => (false, v)
    | some l =>
      let r := checkChildren env.now l.files v.cache
      let cache := (distrust depth r.1 r.2).putDirCache path l.etag l.selfEntry l.files env.now
      (true, r.1.foldl (followUp env depth descend) { v with cache := cache })

def validateSubtree (answer : PathBuf → Option Listed) (env : ValidateEnv) :
    Nat → PathBuf → Revalidation → Bool × Revalidation
  | 0 => validateDir answer env 0 fun _ v => (false, v)
  | n + 1 => validateDir answer env (n + 1) (validateSubtree answer env n)

/-- Listings asked for in the background are stored, one after the other. -/
def landBackground (answer : PathBuf → Option Listed) (now : Nat) (landed : List PathBuf)
    (c : FsCache) : FsCache :=
  landed.foldl (fun c p =>
    match answer p with
    | some l => c.putDirCache p l.etag l.selfEntry l.files now
    | none => c) c

end Ncrs
