import Mathlib

/-!
# Paths as component lists

The daemon handles two kinds of `PathBuf`: remote paths, rooted at the user's files, and
local paths under the cache directory. Both are modelled by the list of their components, so
`/` is `[]` and `/d/f` is `["d", "f"]`. `Path::starts_with` and `Path::strip_prefix` compare
whole components, which on this representation is the list prefix order.
-/

namespace Ncrs

/-- A `PathBuf`: its components, outermost first. -/
abbrev PathBuf := List String

/-- Named, so that every definition that looks a path up in a list decides it the same way. -/
instance : LawfulBEq PathBuf := inferInstance

namespace PathBuf

/-- `Path::starts_with`: `base` is `p` itself or a folder above it. -/
def startsWith (p base : PathBuf) : Bool := base.isPrefixOf p

/-- `Path::strip_prefix`: the part of `p` below `base`. -/
def stripPrefix (p base : PathBuf) : Option PathBuf :=
  if startsWith p base then some (p.drop base.length) else none

/-- `Path::join` with a relative path. -/
def join (p suffix : PathBuf) : PathBuf := p ++ suffix

/-- `Path::parent`, with the `unwrap_or(Path::new("/"))` its callers add. -/
def parent (p : PathBuf) : PathBuf := p.dropLast

/-- `Path::file_name`. -/
def fileName (p : PathBuf) : Option String := p.getLast?

/-- `Path::with_file_name`. -/
def withFileName (p : PathBuf) (name : String) : PathBuf := p.parent ++ [name]

/-- `Path::display`, for the texts of errors and conflicts. -/
def display (p : PathBuf) : String := "/" ++ String.intercalate "/" p

/-- A handle's staging file: `cache_dir.join(format!("write_{}", fh))`. -/
def writePath (cacheDir : PathBuf) (fh : Nat) : PathBuf := cacheDir ++ [s!"write_{fh}"]

@[simp] theorem startsWith_iff (p base : PathBuf) :
    p.startsWith base = true ↔ base <+: p := by
  simp [startsWith]

theorem startsWith_eq_false_iff (p base : PathBuf) :
    p.startsWith base = false ↔ ¬ base <+: p := by
  simp [startsWith, ← Bool.not_eq_true]

theorem stripPrefix_append (base suffix : PathBuf) :
    stripPrefix (base ++ suffix) base = some suffix := by
  simp [stripPrefix]

theorem stripPrefix_eq_none_iff (p base : PathBuf) :
    p.stripPrefix base = none ↔ ¬ base <+: p := by
  simp [stripPrefix]

theorem stripPrefix_eq_some_iff (p base suffix : PathBuf) :
    p.stripPrefix base = some suffix ↔ p = base ++ suffix := by
  constructor
  · intro h
    simp only [stripPrefix, startsWith_iff, Option.ite_none_right_eq_some, Option.some.injEq] at h
    obtain ⟨⟨t, rfl⟩, ht⟩ := h
    simpa using ht
  · rintro rfl
    exact stripPrefix_append base suffix

/-- Distinct handles have distinct staging files. -/
theorem writePath_inj {cacheDir : PathBuf} {m n : Nat} :
    writePath cacheDir m = writePath cacheDir n ↔ m = n := by
  simp [writePath]

end PathBuf

end Ncrs
