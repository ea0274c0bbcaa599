import Ncrs.Spec.HandoffReplay

/-!
# Node ids and paths of a replay

At every point of a replay the two maps of the `Replayer` are the directions of one partial equivalence.
A node id that lost its path to another id, or was dropped for another one, has no partner in it until a
record places it again.

## Key results

- `Replayer.names_run`: the names of a replay in progress.
- `Replayer.Unseats.rename`: the record that unseats a node id leaves it without a path.
- `replay_keeps_names_inverse`: both, for every accepted sequence of records.
-/

namespace Ncrs

namespace Handoff

/-- What a record does to the names. -/
def Record.rename (f : Nat ≃. PathBuf) : Record → Nat ≃. PathBuf
  | .base .. => f
  | .entry _ e => e.rename f

/-- The record says where node id `i` is. -/
def Record.places (i : Nat) : Record → Bool
  | .entry _ (.ino j _) => j = i
  | .entry _ (.mv j _ _) => j = i
  | _ => false

/-- The record gives the path of node id `i` to another id, or names `i` as dropped by another id's move. -/
def Replayer.Unseats (r : Replayer) (i : Nat) : Record → Prop
  | .entry _ (.ino j p) => j ≠ i ∧ r.inodes.lookup i = some p
  | .entry _ (.mv j p dropped) => j ≠ i ∧ (r.inodes.lookup i = some p ∨ dropped = some i)
  | _ => False

variable {f : Nat ≃. PathBuf} {r r' : Replayer} {dev : ConnDev} {mountPoint : PathBuf} {i : Nat}

/-- A node id without a path gets none from a record that does not place it. -/
theorem Record.rename_eq_none {rec : Record} (hf : f i = none) (hp : rec.places i = false) :
    rec.rename f i = none := by
  cases rec with
  | base d m => exact hf
  | entry s e =>
    by_contra hne
    obtain ⟨p, hp'⟩ := Option.ne_none_iff_exists'.mp hne
    obtain hold | rfl | ⟨d, rfl⟩ := Entry.rename_eq_some hp'
    · rw [hf] at hold
      cases hold
    · simp [Record.places] at hp
    · simp [Record.places] at hp

theorem Record.foldl_rename_eq_none {rs : List Record} (hf : f i = none)
    (hp : ∀ rec ∈ rs, rec.places i = false) : rs.foldl (fun f rec => rec.rename f) f i = none := by
  induction rs generalizing f with
  | nil => exact hf
  | cons rec rs ih =>
    rw [List.foldl_cons]
    exact ih (rename_eq_none hf (hp rec List.mem_cons_self)) fun x hx => hp x (List.mem_cons_of_mem rec hx)

namespace Replayer

theorem names_apply (h : Names r.inodes r.paths f) {rec : Record}
    (hr : r.apply dev mountPoint rec = .ok r') : Names r'.inodes r'.paths (rec.rename f) := by
  unfold apply at hr
  split at hr
  · split at hr <;> cases hr
    exact ⟨h.inodes, h.paths⟩
  · cases hr
  · cases hr
  · cases hr
    exact names_applyEntry h _ _

/-- The names of a replay in progress are what its records make of those before. -/
theorem names_run {rs : List Record} (h : Names r.inodes r.paths f)
    (hrun : rs.foldlM (Replayer.apply dev mountPoint) r = .ok r') :
    Names r'.inodes r'.paths (rs.foldl (fun f rec => rec.rename f) f) := by
  induction rs generalizing r f with
  | nil =>
    cases hrun
    exact h
  | cons rec rs ih =>
    rw [List.foldlM_cons] at hrun
    cases hrec : r.apply dev mountPoint rec with
    | error e =>
      rw [hrec] at hrun
      cases hrun
    | ok r₁ =>
      rw [hrec] at hrun
      rw [List.foldl_cons]
      exact ih (names_apply h hrec) hrun

/-- A node id that is unseated has no path after the record. -/
theorem Unseats.rename (h : Names r.inodes r.paths f) {rec : Record} (hu : r.Unseats i rec) :
    rec.rename f i = none := by
  have hplace : ∀ {j : Nat} {p : PathBuf}, j ≠ i → r.inodes.lookup i = some p → f.place j p i = none := by
    intro j p hj hi
    rw [h.inodes] at hi
    rw [PEquiv.place_apply, if_neg hj.symm, if_pos hi]
  cases rec with
  | base d m => cases hu
  | entry s e =>
    cases e with
    | ino j p => exact hplace hu.1 hu.2
    | mv j p dropped =>
      obtain ⟨hj, hu⟩ := hu
      simp only [Record.rename, Entry.rename]
      obtain hi | rfl := hu
      · -- `i` lost its path to `j`; what is dropped besides does not matter
        split
        · rw [PEquiv.remove_apply, hplace hj hi, ite_self]
        · exact hplace hj hi
      · rw [Option.filter_some, if_pos (by simpa using hj.symm)]
        exact if_pos rfl
    | _ => cases hu

end Replayer

/-- At every point of a replay node ids and paths are inverse to each other, and a node id that was
unseated resolves only if a later record places it. -/
theorem replay_keeps_names_inverse {rs : List Record}
    (h : rs.foldlM (Replayer.apply dev mountPoint) {} = .ok r) :
    (∀ i p, r.inodes.lookup i = some p ↔ r.paths.lookup p = some i) ∧
      ∀ before rec later r₀ i, rs = before ++ rec :: later →
        before.foldlM (Replayer.apply dev mountPoint) {} = .ok r₀ → r₀.Unseats i rec →
        (∀ x ∈ later, x.places i = false) →
        r.inodes.lookup i = none ∧ ∀ p, r.paths.lookup p ≠ some i := by
  have hstart : Names ({} : Replayer).inodes ({} : Replayer).paths ⊥ := ⟨fun _ => rfl, fun _ => rfl⟩
  have hnames := Replayer.names_run hstart h
  have hinverse : ∀ i p, r.inodes.lookup i = some p ↔ r.paths.lookup p = some i := by
    intro i p
    rw [hnames.inodes, hnames.paths]
    exact (PEquiv.eq_some_iff _).symm
  refine ⟨hinverse, ?_⟩
  rintro before rec later r₀ i rfl hbefore hunseats hlater
  have hnone : r.inodes.lookup i = none := by
    have hgone := hunseats.rename (Replayer.names_run hstart hbefore)
    rw [hnames.inodes, List.foldl_append, List.foldl_cons]
    exact Record.foldl_rename_eq_none hgone hlater
  refine ⟨hnone, fun p hp => ?_⟩
  rw [← hinverse, hnone] at hp
  cases hp

/-- The second node takes the path of the first. -/
theorem replay_keeps_names_inverse_displaced :
    ∃ r, [.base demoDev ["m"], .entry 1 (.ino 2 ["a"]), .entry 2 (.mv 3 ["a"] none), .entry 3 (.fh 7)].foldlM
        (Replayer.apply demoDev ["m"]) {} = .ok r ∧
      r.inodes.lookup 3 = some ["a"] ∧ r.inodes.lookup 2 = none ∧ ∀ p, r.paths.lookup p ≠ some 2 := by
  have hbefore : [.base demoDev ["m"], .entry 1 (.ino 2 ["a"])].foldlM (Replayer.apply demoDev ["m"]) {} =
      .ok _ := rfl
  have hrun : [.base demoDev ["m"], .entry 1 (.ino 2 ["a"]), .entry 2 (.mv 3 ["a"] none),
      .entry 3 (.fh 7)].foldlM (Replayer.apply demoDev ["m"]) {} = .ok _ := rfl
  refine ⟨_, hrun, rfl, ?_⟩
  exact (replay_keeps_names_inverse hrun).2 _ (.entry 2 (.mv 3 ["a"] none)) [.entry 3 (.fh 7)] _ 2 rfl hbefore
    ⟨by decide, .inl rfl⟩ (by decide)

/-- A move that names its own node as dropped leaves it where it moved. -/
theorem dropped_by_own_move_resolves :
    ∃ r, [.base demoDev ["m"], .entry 1 (.ino 5 ["a"]), .entry 2 (.mv 5 ["b"] (some 5))].foldlM
        (Replayer.apply demoDev ["m"]) {} = .ok r ∧
      r.inodes.lookup 5 = some ["b"] ∧ r.paths.lookup ["b"] = some 5 :=
  ⟨_, rfl, rfl, rfl⟩

end Handoff

end Ncrs
