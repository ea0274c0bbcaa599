import Ncrs.Native.WatcherEvent

/-!
# Listings that a file id notification reaches

A notification names the directories of the hits of a search for its ids. An id that the search does not find
is passed over, and so is a listing that shows an id which is somewhere else by now.

## Key results

- `mem_sortDedup`: sorting and removing repetitions loses nothing.
- `names_fileIdEvent`: the directories that are named are those of the hits.
- `notification_reaches_iff`: the notifications that reach every listing they concern.
-/

namespace Ncrs

namespace Watcher

/-- An entry of a cached listing. -/
structure ListedEntry where
  path : PathBuf
  fileid : Option Nat
  deriving DecidableEq, Repr

/-- A directory that a notification about an id concerns: it holds the file, or its cached listing shows it. -/
def Concerns (tree : Nat → Option PathBuf) (listings : PathBuf → Option (List ListedEntry)) (fid : Nat)
    (dir : PathBuf) : Prop :=
  (∃ name, tree fid = some (dir ++ [name])) ∨ ∃ entries ∈ listings dir, ∃ e ∈ entries, e.fileid = some fid

/-- An event is delivered that names every directory which the notification concerns. -/
def Reaches (tree : Nat → Option PathBuf) (listings : PathBuf → Option (List ListedEntry)) (ids : List Nat)
    (event : Option ChangeEvent) : Prop :=
  ∃ ev, event = some ev ∧ ∀ fid ∈ ids, ∀ dir, Concerns tree listings fid dir → ev.names dir = true

/-- The search has failed, or it has a hit, a root in the first place not counted, and one in every directory
    that the notification concerns. -/
def HitEverywhere (tree : Nat → Option PathBuf) (listings : PathBuf → Option (List ListedEntry))
    (ids : List Nat) :
    Except String (List (Option PathBuf)) → Prop
  | .error _ => True
  | .ok responses =>
    ((∃ p, some p ∈ responses ∧ p ≠ []) ∨ some [] ∈ responses.tail) ∧
      ∀ fid ∈ ids, ∀ dir, Concerns tree listings fid dir → ∃ name, some (dir ++ [name]) ∈ responses

variable {search : Search} {ids : List Nat} {responses : List (Option PathBuf)} {dir : PathBuf}

theorem mem_destutter' {α : Type} [DecidableEq α] {a b : α} {l : List α} :
    b ∈ l.destutter' (· ≠ ·) a ↔ b = a ∨ b ∈ l := by
  induction l generalizing a with
  | nil => simp [List.destutter']
  | cons c l ih =>
    rw [List.destutter'_cons]
    split
    · rw [List.mem_cons, ih, List.mem_cons]
    · rename_i hac
      have heq : a = c := by simpa using hac
      rw [ih, List.mem_cons, heq]
      tauto

theorem mem_sortDedup {dirs : List PathBuf} : dir ∈ sortDedup dirs ↔ dir ∈ dirs := by
  unfold sortDedup
  rw [← List.mem_mergeSort (l := dirs)]
  generalize dirs.mergeSort (fun a b => decide (a ≤ b)) = sorted
  cases sorted with
  | nil => simp
  | cons a l => rw [List.destutter_cons', mem_destutter', List.mem_cons]

theorem parent?_eq_some {p : PathBuf} : parent? p = some dir ↔ ∃ name, p = dir ++ [name] := by
  unfold parent?
  obtain rfl | ⟨init, name, rfl⟩ := List.eq_nil_or_concat' p
  · simp
  · simp

/-- The paths of a search are its hits but a root in the first place. -/
theorem mem_searchFileids (hids : ids ≠ []) (hsearch : search ids = .ok responses) :
    ∃ paths, searchFileids search ids = .ok paths ∧
      ∀ p, p ∈ paths ↔ some p ∈ responses ∧ p ≠ [] ∨ p = [] ∧ some [] ∈ responses.tail := by
  unfold searchFileids
  rw [if_neg (by simpa using hids), hsearch]
  cases responses with
  | nil => exact ⟨[], rfl, by simp⟩
  | cons first rest =>
    cases first with
    | none =>
      refine ⟨rest.filterMap id, rfl, fun p => ?_⟩
      by_cases hp : p = [] <;> simp [hp]
    | some q =>
      refine ⟨_, rfl, fun p => ?_⟩
      by_cases hp : p = []
      · by_cases hq : q = []
        · simp [hp, hq]
        · simp [hp, hq]
      · by_cases hq : q = []
        · simp [hp, hq]
        · simp only [hq, ne_eq, not_false_eq_true, if_true, List.mem_append, List.mem_filterMap, id_eq,
            exists_eq_right, List.mem_cons, Option.some.injEq, hp, and_true, false_and, or_false]
          tauto

/-- What is delivered for the hits of a search: their directories, if there is a path left. -/
theorem names_fileIdEvent (hids : ids ≠ []) (hsearch : search ids = .ok responses) :
    ((fileIdEvent search ids).isSome = true ↔
        (∃ p, some p ∈ responses ∧ p ≠ []) ∨ some [] ∈ responses.tail) ∧
      ∀ ev ∈ fileIdEvent search ids, ∀ dir, ev.names dir = true ↔ ∃ name, some (dir ++ [name]) ∈ responses := by
  obtain ⟨paths, hpaths, hmem⟩ := mem_searchFileids hids hsearch
  unfold fileIdEvent
  rw [hpaths]
  dsimp only
  constructor
  · have hnil : paths ≠ [] ↔ (∃ p, some p ∈ responses ∧ p ≠ []) ∨ some [] ∈ responses.tail := by
      constructor
      · intro hne
        obtain ⟨p, hp⟩ := List.exists_mem_of_ne_nil paths hne
        obtain hhit | ⟨-, hroot⟩ := (hmem p).mp hp
        · exact .inl ⟨p, hhit⟩
        · exact .inr hroot
      · intro h
        obtain ⟨p, hhit⟩ | hroot := h
        · exact List.ne_nil_of_mem ((hmem p).mpr (.inl hhit))
        · exact List.ne_nil_of_mem ((hmem []).mpr (.inr ⟨rfl, hroot⟩))
    rw [← hnil]
    cases paths with
    | nil => simp
    | cons p paths => simp
  · intro ev hev dir
    have hev' : ev = { invalidatedDirs := sortDedup (paths.filterMap parent?) } := by
      cases paths with
      | nil => simp at hev
      | cons p paths => simpa using hev.symm
    rw [hev']
    show (false || decide (dir ∈ sortDedup (paths.filterMap parent?))) = true ↔ _
    rw [Bool.false_or, decide_eq_true_iff, mem_sortDedup, List.mem_filterMap]
    constructor
    · intro ⟨p, hp, hparent⟩
      obtain ⟨name, rfl⟩ := parent?_eq_some.mp hparent
      obtain ⟨hhit, -⟩ | ⟨hroot, -⟩ := (hmem _).mp hp
      · exact ⟨name, hhit⟩
      · simp at hroot
    · intro ⟨name, hhit⟩
      exact ⟨dir ++ [name], (hmem _).mpr (.inl ⟨hhit, by simp⟩), parent?_eq_some.mpr ⟨name, rfl⟩⟩

/-- A notification about file ids reaches every listing it concerns if and only if the search for the ids fails
    or has a hit in the directory of each. -/
theorem notification_reaches_iff (parseIds : Line → Option (List Nat)) (search : Search)
    (tree : Nat → Option PathBuf) (listings : PathBuf → Option (List ListedEntry)) (event json : Line)
    (ids : List Nat) (hjson : idsJson event = some json) (hparse : parseIds json = some ids) (hids : ids ≠ []) :
    Reaches tree listings ids (handleEvent parseIds search event) ↔
      HitEverywhere tree listings ids (search ids) := by
  have hevent : handleEvent parseIds search event = fileIdEvent search ids := by
    unfold handleEvent
    rw [hjson]
    dsimp only
    rw [hparse]
  rw [hevent]
  cases hsearch : search ids with
  | error e =>
    refine ⟨fun _ => trivial, fun _ => ⟨{ invalidateAll := true }, ?_, fun _ _ _ _ => rfl⟩⟩
    unfold fileIdEvent searchFileids
    rw [if_neg (by simpa using hids), hsearch]
  | ok responses =>
    obtain ⟨hsome, hnames⟩ := names_fileIdEvent hids hsearch
    constructor
    · intro ⟨ev, hev, hall⟩
      refine ⟨hsome.mp (by rw [hev]; rfl), fun fid hfid dir hdir => ?_⟩
      exact (hnames ev hev dir).mp (hall fid hfid dir hdir)
    · intro ⟨hhit, hall⟩
      obtain ⟨ev, hev⟩ := Option.isSome_iff_exists.mp (hsome.mpr hhit)
      exact ⟨ev, hev, fun fid hfid dir hdir => (hnames ev hev dir).mpr (hall fid hfid dir hdir)⟩

/-- What `serde_json` reads of the one message below. -/
def oneId (json : Line) : Option (List Nat) := if json = "[7]".toList then some [7] else none

/-- A change of `/a/f`, which the cached listing of `/a` shows, is found by the search and reaches `/a`. -/
theorem notification_reaches_changed_file :
    HitEverywhere (fun fid => if fid = 7 then some ["a", "f"] else none)
        (fun dir => if dir = ["a"] then some [⟨["a", "f"], some 7⟩] else none) [7] (.ok [some ["a", "f"]]) ∧
      Reaches (fun fid => if fid = 7 then some ["a", "f"] else none)
        (fun dir => if dir = ["a"] then some [⟨["a", "f"], some 7⟩] else none) [7]
        (handleEvent oneId (fun _ => .ok [some ["a", "f"]]) "notify_file_id [7]".toList) := by
  have hhit : HitEverywhere (fun fid => if fid = 7 then some ["a", "f"] else none)
      (fun dir => if dir = ["a"] then some [⟨["a", "f"], some 7⟩] else none) [7] (.ok [some ["a", "f"]]) := by
    refine ⟨.inl ⟨["a", "f"], List.mem_singleton_self _, List.cons_ne_nil _ _⟩, fun fid hfid dir hdir => ?_⟩
    obtain rfl := List.mem_singleton.mp hfid
    -- the file is in `/a`, and only the listing of `/a` shows it
    obtain rfl : dir = ["a"] := by
      rcases hdir with ⟨name, hname⟩ | ⟨entries, hentries, -⟩
      · have happ : ["a"] ++ ["f"] = dir ++ [name] := Option.some.inj hname
        exact (List.append_inj_left' happ rfl).symm
      · by_contra hne
        simp [hne] at hentries
    exact ⟨"f", List.mem_singleton_self _⟩
  exact ⟨hhit, (notification_reaches_iff oneId (fun _ => .ok [some ["a", "f"]]) _ _
    "notify_file_id [7]".toList "[7]".toList [7] (by decide) (by decide) (by decide)).mpr hhit⟩

/-- A file that is deleted makes no event, and one that is moved from `/a` to `/b` one that does not
    name `/a`. -/
theorem deleted_and_moved_are_missed :
    handleEvent oneId (fun _ => .ok []) "notify_file_id [7]".toList = none ∧
      ¬Reaches (fun fid => if fid = 7 then some ["b", "f"] else none)
        (fun dir => if dir = ["a"] then some [⟨["a", "f"], some 7⟩] else none) [7]
        (handleEvent oneId (fun _ => .ok [some ["b", "f"]]) "notify_file_id [7]".toList) := by
  constructor
  · decide
  · intro ⟨ev, hev, hall⟩
    have hevent : handleEvent oneId (fun _ => .ok [some ["b", "f"]]) "notify_file_id [7]".toList =
        fileIdEvent (fun _ => .ok [some ["b", "f"]]) [7] := rfl
    rw [hevent] at hev
    have hids : [7] ≠ [] := List.cons_ne_nil 7 []
    have hnames := (names_fileIdEvent hids rfl).2 ev hev ["a"]
    obtain ⟨name, hname⟩ :=
      hnames.mp (hall 7 (by decide) ["a"] (.inr ⟨_, rfl, _, List.mem_singleton_self _, rfl⟩))
    simp at hname

end Watcher

end Ncrs
