import Mathlib.Data.List.Infix

/-!
# File trees

A file tree maps a path (the list of its components, `[]` the root) to nothing, a folder or a
file with its content. This file has the four changes a WebDAV server makes to one (`put`,
`mkcol`, `delete`, `move`), each leaving the tree alone when it is refused, and sequences of
them.

## Key results

- `Closed.apply`: a tree in which every node's parent is a folder stays one
- `run_filter_put`: uploads of one path may be dropped from a sequence, if nothing after them
  moves that path, without changing the tree anywhere else
- `run_filter_mkcol`: the same for the creation of a folder, up to what lies below it
-/

namespace FileTree

variable {N C : Type} [DecidableEq N]

/-- What is at a path. -/
inductive Node (C : Type) where
  | dir
  | file (content : C)
  deriving DecidableEq, Repr

/-- The node at each path. -/
abbrev Tree (N C : Type) := List N → Option (Node C)

/-- The root is a folder, and so is the parent of every node. -/
structure Closed (t : Tree N C) : Prop where
  root : t [] = some .dir
  parent : ∀ p, p ≠ [] → t p ≠ none → t p.dropLast = some .dir

/-- Puts a node at `p`. -/
def set (t : Tree N C) (p : List N) (n : Node C) : Tree N C :=
  fun q => if q = p then some n else t q

/-- Removes `p` and everything below it. -/
def delete (t : Tree N C) (p : List N) : Tree N C :=
  fun q => if p <+: q then none else t q

/-- Moves `src` and everything below it to `dst`, replacing what was there. -/
def move (t : Tree N C) (src dst : List N) : Tree N C :=
  fun q => if dst <+: q then t (src ++ q.drop dst.length) else if src <+: q then none else t q

/-- A change a client asks for. -/
inductive Op (N C : Type) where
  | put (p : List N) (content : C)
  | mkcol (p : List N)
  | delete (p : List N)
  | move (src dst : List N)
  deriving DecidableEq, Repr

/-- When a server carries an upload out: the parent is a folder and `p` is not one. -/
def PutOk (t : Tree N C) (p : List N) : Prop :=
  p ≠ [] ∧ t p.dropLast = some .dir ∧ t p ≠ some .dir

/-- When a server creates a folder: the parent is one and nothing is there. -/
def MkcolOk (t : Tree N C) (p : List N) : Prop :=
  p ≠ [] ∧ t p.dropLast = some .dir ∧ t p = none

/-- When a server moves: the source exists, the destination's parent is a folder, and
    neither lies inside the other. -/
def MoveOk (t : Tree N C) (src dst : List N) : Prop :=
  src ≠ [] ∧ dst ≠ [] ∧ t src ≠ none ∧ t dst.dropLast = some .dir ∧ ¬ src <+: dst ∧ ¬ dst <+: src

instance (t : Tree N C) [DecidableEq C] (p : List N) : Decidable (PutOk t p) :=
  inferInstanceAs (Decidable (_ ∧ _ ∧ _))

instance (t : Tree N C) [DecidableEq C] (p : List N) : Decidable (MkcolOk t p) :=
  inferInstanceAs (Decidable (_ ∧ _ ∧ _))

instance (t : Tree N C) [DecidableEq C] (src dst : List N) : Decidable (MoveOk t src dst) :=
  inferInstanceAs (Decidable (_ ∧ _ ∧ _ ∧ _ ∧ _ ∧ _))

variable [DecidableEq C]

/-- A change as the server makes it: refused, it leaves the tree as it is. -/
def apply (t : Tree N C) : Op N C → Tree N C
  | .put p c => if PutOk t p then set t p (.file c) else t
  | .mkcol p => if MkcolOk t p then set t p .dir else t
  | .delete p => delete t p
  | .move src dst => if MoveOk t src dst then move t src dst else t

/-- A sequence of changes. -/
def run (t : Tree N C) (l : List (Op N C)) : Tree N C := l.foldl apply t

/-- No operation leaves the tree. -/
@[simp] theorem run_nil (t : Tree N C) : run t [] = t := rfl

/-- The first operation comes first. -/
@[simp] theorem run_cons (t : Tree N C) (o : Op N C) (l : List (Op N C)) :
    run t (o :: l) = run (apply t o) l := rfl

/-- Two runs, one after the other. -/
theorem run_append (t : Tree N C) (l₁ l₂ : List (Op N C)) :
    run t (l₁ ++ l₂) = run (run t l₁) l₂ := List.foldl_append ..

/-! ## Prefixes and parents -/

omit [DecidableEq N] in
/-- A path below `p` has its parent at or below `p`. -/
theorem prefix_dropLast {p q : List N} (h : p <+: q) (hne : p ≠ q) : p <+: q.dropLast := by
  obtain ⟨s, rfl⟩ := h
  have hs : s ≠ [] := by
    rintro rfl
    exact hne (by simp)
  rw [List.dropLast_append_of_ne_nil hs]
  exact List.prefix_append p s.dropLast

omit [DecidableEq N] in
/-- A path whose parent lies at or below `p` lies below `p` itself. -/
theorem prefix_of_prefix_dropLast {p q : List N} (h : p <+: q.dropLast) : p <+: q :=
  h.trans (List.dropLast_prefix q)

omit [DecidableEq N] in
/-- A path is not its own parent. -/
theorem dropLast_ne_self {p : List N} (hp : p ≠ []) : p.dropLast ≠ p := by
  intro h
  have hlen := congrArg List.length h
  rw [List.length_dropLast] at hlen
  have : 0 < p.length := List.length_pos_of_ne_nil hp
  omega

omit [DecidableEq N] in
/-- A non-root path does not lie above its own parent. -/
theorem not_prefix_dropLast_self {p : List N} (hp : p ≠ []) : ¬ p <+: p.dropLast := by
  intro h
  have hlen := h.length_le
  rw [List.length_dropLast] at hlen
  have : 0 < p.length := List.length_pos_of_ne_nil hp
  omega

namespace Closed

omit [DecidableEq N] [DecidableEq C] in
/-- In a closed tree every strict ancestor of a node is a folder. -/
theorem ancestor {t : Tree N C} (hc : Closed t) {p q : List N} (h : p <+: q) (hne : p ≠ q)
    (hq : t q ≠ none) : t p = some .dir := by
  -- Induction on how far below `p` the node lies.
  obtain ⟨s, rfl⟩ := h
  induction s using List.reverseRecOn with
  | nil => exact absurd (by simp) hne
  | append_singleton s a ih =>
    have hpar : t ((p ++ (s ++ [a])).dropLast) = some .dir := by
      apply hc.parent _ _ hq
      simp
    rw [← List.append_assoc, List.dropLast_concat] at hpar
    by_cases hs : p = p ++ s
    · rw [hs]
      exact hpar
    · exact ih hs (by rw [hpar]; simp)

omit [DecidableEq N] [DecidableEq C] in
/-- Nothing lies below a path that is not a folder. -/
theorem none_below {t : Tree N C} (hc : Closed t) {p q : List N} (h : p <+: q) (hne : p ≠ q)
    (hp : t p ≠ some .dir) : t q = none := by
  by_contra hq
  exact hp (hc.ancestor h hne hq)

omit [DecidableEq C] in
/-- Setting a place below a folder keeps the tree closed. -/
theorem set {t : Tree N C} (hc : Closed t) {p : List N} {n : Node C} (hp : p ≠ [])
    (hpar : t p.dropLast = some .dir) (hn : n = .dir ∨ t p ≠ some .dir) :
    Closed (FileTree.set t p n) := by
  constructor
  · simp only [FileTree.set, if_neg (Ne.symm hp)]
    exact hc.root
  · intro q hq hne
    simp only [FileTree.set] at hne ⊢
    by_cases hqp : q = p
    · subst hqp
      rw [if_neg (dropLast_ne_self hq)]
      exact hpar
    · rw [if_neg hqp] at hne
      have hqpar := hc.parent q hq hne
      by_cases hd : q.dropLast = p
      · rw [if_pos hd]
        rcases hn with rfl | hn
        · rfl
        · exact absurd (hd ▸ hqpar) hn
      · rw [if_neg hd]
        exact hqpar

omit [DecidableEq C] in
/-- Deleting keeps the tree closed. -/
theorem delete {t : Tree N C} (hc : Closed t) {p : List N} (hp : p ≠ []) :
    Closed (FileTree.delete t p) := by
  constructor
  · simp only [FileTree.delete, List.prefix_nil, if_neg hp]
    exact hc.root
  · intro q hq hne
    simp only [FileTree.delete] at hne ⊢
    by_cases hpq : p <+: q
    · simp [hpq] at hne
    · rw [if_neg hpq] at hne
      rw [if_neg (fun h => hpq (prefix_of_prefix_dropLast h))]
      exact hc.parent q hq hne

omit [DecidableEq C] in
/-- Moving keeps the tree closed. -/
theorem move {t : Tree N C} (hc : Closed t) {src dst : List N} (h : MoveOk t src dst) :
    Closed (FileTree.move t src dst) := by
  obtain ⟨hsrc, hdst, hex, hpar, hsd, hds⟩ := h
  constructor
  · simp only [FileTree.move, List.prefix_nil, if_neg hdst, if_neg hsrc]
    exact hc.root
  · intro q hq hne
    simp only [FileTree.move] at hne ⊢
    -- A path under the destination comes from the source, with its parent, or is the destination.
    by_cases hdq : dst <+: q
    · rw [if_pos hdq] at hne
      by_cases hqd : dst = q
      · subst hqd
        rw [if_neg (not_prefix_dropLast_self hdst),
          if_neg (fun h => hsd (prefix_of_prefix_dropLast h))]
        exact hpar
      · have hdq' := prefix_dropLast hdq hqd
        rw [if_pos hdq']
        obtain ⟨s, rfl⟩ := hdq
        have hs : s ≠ [] := by
          rintro rfl
          exact hqd (by simp)
        rw [List.dropLast_append_of_ne_nil hs]
        simp only [List.drop_left] at hne ⊢
        have := hc.parent (src ++ s) (by simp [hsrc]) hne
        rwa [List.dropLast_append_of_ne_nil hs] at this
    · rw [if_neg hdq] at hne
      -- Under the source nothing is left; anywhere else both stay.
      by_cases hsq : src <+: q
      · simp [hsq] at hne
      · rw [if_neg hsq] at hne
        rw [if_neg (fun h => hdq (prefix_of_prefix_dropLast h)),
          if_neg (fun h => hsq (prefix_of_prefix_dropLast h))]
        exact hc.parent q hq hne

end Closed

/-- The paths a change names are below the root. -/
def Op.Named : Op N C → Prop
  | .put p _ | .mkcol p | .delete p => p ≠ []
  | .move src dst => src ≠ [] ∧ dst ≠ []

/-- Every change keeps a tree closed. -/
theorem Closed.apply {t : Tree N C} (hc : Closed t) {o : Op N C} (ho : o.Named) :
    Closed (apply t o) := by
  cases o with
  | put p c =>
    simp only [FileTree.apply]
    split
    · rename_i h
      exact hc.set h.1 h.2.1 (Or.inr h.2.2)
    · exact hc
  | mkcol p =>
    simp only [FileTree.apply]
    split
    · rename_i h
      exact hc.set h.1 h.2.1 (Or.inl rfl)
    · exact hc
  | delete p => exact hc.delete ho
  | move src dst =>
    simp only [FileTree.apply]
    split
    · rename_i h
      exact hc.move h
    · exact hc

/-- A run of named operations keeps the tree closed. -/
theorem Closed.run {t : Tree N C} (hc : Closed t) {l : List (Op N C)}
    (hl : ∀ o ∈ l, o.Named) : Closed (run t l) := by
  induction l generalizing t with
  | nil => exact hc
  | cons o l ih =>
    rw [run_cons]
    exact ih (hc.apply (hl o List.mem_cons_self)) fun x hx => hl x (List.mem_cons_of_mem _ hx)

/-! ## Sequences that fit a tree -/

/-- A change that does not put a file over a folder nor a folder over anything. -/
def Op.Fits (t : Tree N C) : Op N C → Prop
  | .put p _ => p ≠ [] ∧ t p ≠ some .dir
  | .mkcol p => p ≠ [] ∧ t p = none
  | .delete p => p ≠ []
  | .move src dst => src ≠ [] ∧ dst ≠ []

/-- Every change of the sequence fits the tree it is applied to. -/
def Fitting (t : Tree N C) : List (Op N C) → Prop
  | [] => True
  | o :: l => o.Fits t ∧ Fitting (FileTree.apply t o) l

omit [DecidableEq N] [DecidableEq C] in
/-- An operation that fits has its names. -/
theorem Op.Fits.named {t : Tree N C} {o : Op N C} (h : o.Fits t) : o.Named := by
  cases o with
  | put p c => exact h.1
  | mkcol p => exact h.1
  | delete p => exact h
  | move src dst => exact h

/-- A run that fits has its names. -/
theorem Fitting.named {t : Tree N C} {l : List (Op N C)} (h : Fitting t l) :
    ∀ o ∈ l, o.Named := by
  induction l generalizing t with
  | nil => intro o ho; cases ho
  | cons o l ih =>
    intro x hx
    rcases List.mem_cons.mp hx with rfl | hx
    · exact h.1.named
    · exact ih h.2 x hx

/-- Two runs that fit, one after the other. -/
theorem fitting_append {t : Tree N C} {l₁ l₂ : List (Op N C)} :
    Fitting t (l₁ ++ l₂) ↔ Fitting t l₁ ∧ Fitting (run t l₁) l₂ := by
  induction l₁ generalizing t with
  | nil => simp [Fitting]
  | cons o l ih => simp only [List.cons_append, Fitting, ih, run_cons, and_assoc]

/-! ## Paths a sequence leaves alone -/

/-- The change can bring a node to `p`. -/
def Op.Makes (p : List N) : Op N C → Prop
  | .put q _ | .mkcol q => q = p
  | .delete _ => False
  | .move _ dst => dst <+: p

/-- What an operation does not make is not there after it. -/
theorem apply_none_of_not_makes {t : Tree N C} {o : Op N C} {p : List N} (ho : ¬ o.Makes p)
    (hp : t p = none) : apply t o p = none := by
  cases o with
  | put q c =>
    have hqp : p ≠ q := fun h => ho h.symm
    simp only [apply]
    split
    · simp only [set, if_neg hqp, hp]
    · exact hp
  | mkcol q =>
    have hqp : p ≠ q := fun h => ho h.symm
    simp only [apply]
    split
    · simp only [set, if_neg hqp, hp]
    · exact hp
  | delete q =>
    simp only [apply, FileTree.delete]
    split
    · rfl
    · exact hp
  | move src dst =>
    have hdp : ¬ dst <+: p := ho
    simp only [apply]
    split
    · simp only [FileTree.move, if_neg hdp]
      split
      · rfl
      · exact hp
    · exact hp

/-- A path nothing is brought to stays empty. -/
theorem run_none_of_not_makes {t : Tree N C} {l : List (Op N C)} {p : List N}
    (hl : ∀ o ∈ l, ¬ o.Makes p) (hp : t p = none) : run t l p = none := by
  induction l generalizing t with
  | nil => exact hp
  | cons o l ih =>
    rw [run_cons]
    exact ih (fun x hx => hl x (List.mem_cons_of_mem _ hx))
      (apply_none_of_not_makes (hl o List.mem_cons_self) hp)

/-- A file that no move brought to `p` was there before or was put there by an upload. -/
theorem run_file_origin {t : Tree N C} {l : List (Op N C)} {p : List N} {c : C}
    (hl : ∀ src dst, Op.move src dst ∈ l → ¬ dst <+: p) (h : run t l p = some (.file c)) :
    t p = some (.file c) ∨ Op.put p c ∈ l := by
  induction l generalizing t with
  | nil => exact Or.inl h
  | cons o l ih =>
    rw [run_cons] at h
    have hl' : ∀ src dst, Op.move src dst ∈ l → ¬ dst <+: p :=
      fun src dst hm => hl src dst (List.mem_cons_of_mem _ hm)
    rcases ih hl' h with h | h
    · cases o with
      | put q d =>
        simp only [apply] at h
        split at h
        · simp only [set] at h
          split at h
          · rename_i hpq
            simp only [Option.some.injEq, Node.file.injEq] at h
            rw [hpq, ← h]
            exact Or.inr List.mem_cons_self
          · exact Or.inl h
        · exact Or.inl h
      | mkcol q =>
        simp only [apply] at h
        split at h
        · simp only [set] at h
          split at h
          · simp at h
          · exact Or.inl h
        · exact Or.inl h
      | delete q =>
        simp only [apply, delete] at h
        split at h
        · cases h
        · exact Or.inl h
      | move src dst =>
        simp only [apply] at h
        split at h
        · simp only [move, if_neg (hl src dst List.mem_cons_self)] at h
          split at h
          · cases h
          · exact Or.inl h
        · exact Or.inl h
    · exact Or.inr (List.mem_cons_of_mem _ h)

/-! ## Dropping uploads of one path -/

/-- An upload of `p`. -/
def Op.isPut (p : List N) : Op N C → Bool
  | .put q _ => q = p
  | _ => false

/-- A move that takes `p` along. -/
def Op.Takes (p : List N) : Op N C → Prop
  | .move src _ => src <+: p
  | _ => False

/-- Two trees that differ at most at `p`, a file in the first and no folder in the second. -/
structure DifferAt (p : List N) (t t' : Tree N C) : Prop where
  isFile : ∃ c, t p = some (.file c)
  notDir : t' p ≠ some .dir
  off : ∀ q, q ≠ p → t q = t' q

omit [DecidableEq N] [DecidableEq C] in
/-- Whether a path is a folder is the same in both trees. -/
theorem DifferAt.dir_iff {p : List N} {t t' : Tree N C} (h : DifferAt p t t') (q : List N) :
    t q = some .dir ↔ t' q = some .dir := by
  by_cases hq : q = p
  · subst hq
    obtain ⟨c, hc⟩ := h.isFile
    simp [hc, h.notDir]
  · rw [h.off q hq]

omit [DecidableEq C] in
/-- Putting the same node elsewhere keeps the difference. -/
theorem DifferAt.set {p q : List N} {t t' : Tree N C} (h : DifferAt p t t') (hq : q ≠ p)
    (n : Node C) : DifferAt p (FileTree.set t q n) (FileTree.set t' q n) := by
  obtain ⟨c, hc⟩ := h.isFile
  refine ⟨⟨c, ?_⟩, ?_, ?_⟩
  · simp only [FileTree.set, if_neg (Ne.symm hq), hc]
  · simp only [FileTree.set, if_neg (Ne.symm hq)]
    exact h.notDir
  · intro x hx
    simp only [FileTree.set]
    split
    · rfl
    · exact h.off x hx

/-- One change, other than an upload of `p` or a move of it, on two trees that differ at `p`
    only: they still do, or have become equal. -/
theorem DifferAt.apply {p : List N} {t t' : Tree N C} (h : DifferAt p t t') {o : Op N C}
    (hf : o.Fits t) (hput : o.isPut p = false) (ht : ¬ o.Takes p) :
    o.Fits t' ∧ (FileTree.apply t o = FileTree.apply t' o ∨
      DifferAt p (FileTree.apply t o) (FileTree.apply t' o)) := by
  obtain ⟨c, hc⟩ := h.isFile
  cases o with
  | put q d =>
    have hqp : q ≠ p := by simpa [Op.isPut] using hput
    have hok : PutOk t q ↔ PutOk t' q := by
      simp only [PutOk, ne_eq, h.dir_iff]
    refine ⟨⟨hf.1, fun hd => hf.2 ((h.dir_iff q).mpr hd)⟩, Or.inr ?_⟩
    simp only [FileTree.apply, hok]
    split
    · exact h.set hqp _
    · exact h
  | mkcol q =>
    have hqp : q ≠ p := by
      rintro rfl
      have hnone : t q = none := hf.2
      rw [hc] at hnone
      cases hnone
    have hok : MkcolOk t q ↔ MkcolOk t' q := by
      simp only [MkcolOk, h.dir_iff, h.off q hqp]
    refine ⟨⟨hf.1, by rw [← h.off q hqp]; exact hf.2⟩, Or.inr ?_⟩
    simp only [FileTree.apply, hok]
    split
    · exact h.set hqp _
    · exact h
  | delete d =>
    refine ⟨hf, ?_⟩
    simp only [FileTree.apply]
    by_cases hdp : d <+: p
    · left
      funext q
      simp only [FileTree.delete]
      split
      · rfl
      · rename_i hdq
        exact h.off q (fun hq => hdq (hq ▸ hdp))
    · right
      refine ⟨⟨c, ?_⟩, ?_, ?_⟩
      · simp only [FileTree.delete, if_neg hdp, hc]
      · simp only [FileTree.delete, if_neg hdp]
        exact h.notDir
      · intro q hq
        simp only [FileTree.delete, h.off q hq]
  | move src dst =>
    have hsp : ¬ src <+: p := ht
    have hsrc : ∀ s, t (src ++ s) = t' (src ++ s) := fun s =>
      h.off _ (fun hs => hsp (hs ▸ List.prefix_append src s))
    have hok : MoveOk t src dst ↔ MoveOk t' src dst := by
      have := hsrc []
      rw [List.append_nil] at this
      simp only [MoveOk, h.dir_iff, this]
    refine ⟨hf, ?_⟩
    simp only [FileTree.apply, hok]
    split
    · by_cases hdp : dst <+: p
      · left
        funext q
        simp only [FileTree.move, hsrc]
        split
        · rfl
        · rename_i hdq
          rw [h.off q (fun hq => hdq (hq ▸ hdp))]
      · right
        refine ⟨⟨c, ?_⟩, ?_, ?_⟩
        · simp only [FileTree.move, if_neg hdp, if_neg hsp, hc]
        · simp only [FileTree.move, if_neg hdp, if_neg hsp]
          exact h.notDir
        · intro q hq
          simp only [FileTree.move, hsrc, h.off q hq]
    · exact Or.inr h

/-- Uploads of `p` may be dropped from a sequence in which no later change moves `p`: the
    tree stays the same everywhere but at `p`, where it still is no folder. -/
theorem run_filter_put {p : List N} {t t' : Tree N C} {l : List (Op N C)}
    (h : t = t' ∨ DifferAt p t t' ∧ ∀ o ∈ l, ¬ o.Takes p) (hf : Fitting t l)
    (hl : l.Pairwise fun a b => a.isPut p = true → ¬ b.Takes p) :
    Fitting t' (l.filter fun o => !o.isPut p) ∧
    (run t l = run t' (l.filter fun o => !o.isPut p) ∨
      DifferAt p (run t l) (run t' (l.filter fun o => !o.isPut p))) := by
  induction l generalizing t t' with
  | nil =>
    refine ⟨trivial, ?_⟩
    rcases h with h | h
    · exact Or.inl h
    · exact Or.inr h.1
  | cons o l ih =>
    obtain ⟨hfo, hfl⟩ := hf
    obtain ⟨hhead, htail⟩ := List.pairwise_cons.mp hl
    by_cases hp : o.isPut p = true
    · -- The upload itself: from here on the trees differ at `p`, unless it is refused.
      have hnext : apply t o = t' ∨ DifferAt p (apply t o) t' ∧ ∀ x ∈ l, ¬ x.Takes p := by
        cases o with
        | put q c =>
          obtain rfl : q = p := by simpa [Op.isPut] using hp
          simp only [apply]
          have hset : DifferAt q (set t q (.file c)) t' := by
            refine ⟨⟨c, by simp [set]⟩, ?_, ?_⟩
            · rcases h with rfl | h
              · exact hfo.2
              · exact h.1.notDir
            · intro x hx
              simp only [set, if_neg hx]
              rcases h with rfl | h
              · rfl
              · exact h.1.off x hx
          split
          · exact Or.inr ⟨hset, fun x hx => hhead x hx hp⟩
          · rcases h with h | h
            · exact Or.inl h
            · exact Or.inr ⟨h.1, fun x hx => h.2 x (List.mem_cons_of_mem _ hx)⟩
        | mkcol q => simp [Op.isPut] at hp
        | delete q => simp [Op.isPut] at hp
        | move src dst => simp [Op.isPut] at hp
      simp only [List.filter_cons, hp, Bool.not_true, Bool.false_eq_true, ↓reduceIte, run_cons]
      exact ih hnext hfl htail
    · have hp' : o.isPut p = false := by simpa using hp
      simp only [List.filter_cons, hp', Bool.not_false, ↓reduceIte, run_cons, Fitting]
      rcases h with rfl | ⟨h, hno⟩
      · obtain ⟨hfit, hrun⟩ := ih (Or.inl rfl) hfl htail
        exact ⟨⟨hfo, hfit⟩, hrun⟩
      · obtain ⟨hfit, hnext⟩ := h.apply hfo hp' (hno o List.mem_cons_self)
        have hno' : ∀ x ∈ l, ¬ x.Takes p := fun x hx => hno x (List.mem_cons_of_mem _ hx)
        have hnext' := hnext.imp_right fun hd => And.intro hd hno'
        obtain ⟨hfit', hrun⟩ := ih hnext' hfl htail
        exact ⟨⟨hfit, hfit'⟩, hrun⟩

/-! ## Dropping the creation of one folder -/

/-- The creation of folder `p`. -/
def Op.isMkcol (p : List N) : Op N C → Bool
  | .mkcol q => q = p
  | _ => false

/-- A move from or to somewhere below `p`, or of `p` or a folder above it. -/
def Op.Crosses (p : List N) : Op N C → Prop
  | .move src dst => src <+: p ∨ p <+: src ∨ p <+: dst ∧ p ≠ dst
  | _ => False

/-- Two trees that differ at most below `p`, a folder in the first and missing in the second. -/
structure DifferBelow (p : List N) (t t' : Tree N C) : Prop where
  isDir : t p = some .dir
  gone : ∀ q, p <+: q → t' q = none
  off : ∀ q, ¬ p <+: q → t q = t' q

omit [DecidableEq C] in
/-- A node put outside `p` keeps the difference. -/
theorem DifferBelow.set {p q : List N} {t t' : Tree N C} (h : DifferBelow p t t')
    (hq : ¬ p <+: q) (n : Node C) :
    DifferBelow p (FileTree.set t q n) (FileTree.set t' q n) := by
  have hne : ∀ x, p <+: x → x ≠ q := fun x hx hxq => hq (hxq ▸ hx)
  refine ⟨?_, ?_, ?_⟩
  · simp only [FileTree.set, if_neg (hne p List.prefix_rfl), h.isDir]
  · intro x hx
    simp only [FileTree.set, if_neg (hne x hx), h.gone x hx]
  · intro x hx
    simp only [FileTree.set]
    split
    · rfl
    · exact h.off x hx

omit [DecidableEq C] in
/-- A node put strictly below `p` in the first tree only keeps the difference. -/
theorem DifferBelow.set_left {p q : List N} {t t' : Tree N C} (h : DifferBelow p t t')
    (hq : p <+: q) (hne : q ≠ p) (n : Node C) : DifferBelow p (FileTree.set t q n) t' := by
  refine ⟨?_, h.gone, ?_⟩
  · simp only [FileTree.set, if_neg (Ne.symm hne), h.isDir]
  · intro x hx
    have hxq : x ≠ q := fun hxq => hx (hxq ▸ hq)
    simp only [FileTree.set, if_neg hxq, h.off x hx]

/-- One change that does not cross `p`, on two trees that differ below `p` only: they still
    do, or have become equal. -/
theorem DifferBelow.apply {p : List N} {t t' : Tree N C} (h : DifferBelow p t t') {o : Op N C}
    (hf : o.Fits t) (ht : ¬ o.Crosses p) :
    o.Fits t' ∧ (FileTree.apply t o = FileTree.apply t' o ∨
      DifferBelow p (FileTree.apply t o) (FileTree.apply t' o)) := by
  -- Below `p` the second tree has no parent for a new node.
  have hpar : ∀ q, p <+: q → q ≠ p → t' q.dropLast = none := fun q hq hne =>
    h.gone _ (prefix_dropLast hq (Ne.symm hne))
  cases o with
  | put q d =>
    have hqp : q ≠ p := by
      rintro rfl
      exact hf.2 h.isDir
    by_cases hq : p <+: q
    · have hno : ¬ PutOk t' q := by
        rintro ⟨-, hd, -⟩
        rw [hpar q hq hqp] at hd
        cases hd
      refine ⟨⟨hf.1, by rw [h.gone q hq]; simp⟩, Or.inr ?_⟩
      simp only [FileTree.apply, if_neg hno]
      split
      · exact h.set_left hq hqp _
      · exact h
    · have hok : PutOk t q ↔ PutOk t' q := by
        have hd := h.off q.dropLast (fun hd => hq (prefix_of_prefix_dropLast hd))
        simp only [PutOk, hd, h.off q hq]
      refine ⟨⟨hf.1, by rw [← h.off q hq]; exact hf.2⟩, Or.inr ?_⟩
      simp only [FileTree.apply, hok]
      split
      · exact h.set hq _
      · exact h
  | mkcol q =>
    have hqp : q ≠ p := by
      rintro rfl
      have hnone : t q = none := hf.2
      rw [h.isDir] at hnone
      cases hnone
    by_cases hq : p <+: q
    · have hno : ¬ MkcolOk t' q := by
        rintro ⟨-, hd, -⟩
        rw [hpar q hq hqp] at hd
        cases hd
      refine ⟨⟨hf.1, h.gone q hq⟩, Or.inr ?_⟩
      simp only [FileTree.apply, if_neg hno]
      split
      · exact h.set_left hq hqp _
      · exact h
    · have hok : MkcolOk t q ↔ MkcolOk t' q := by
        have hd := h.off q.dropLast (fun hd => hq (prefix_of_prefix_dropLast hd))
        simp only [MkcolOk, hd, h.off q hq]
      refine ⟨⟨hf.1, by rw [← h.off q hq]; exact hf.2⟩, Or.inr ?_⟩
      simp only [FileTree.apply, hok]
      split
      · exact h.set hq _
      · exact h
  | delete d =>
    refine ⟨hf, ?_⟩
    simp only [FileTree.apply]
    by_cases hdp : d <+: p
    · left
      funext q
      simp only [FileTree.delete]
      split
      · rfl
      · rename_i hdq
        exact h.off q (fun hq => hdq (hdp.trans hq))
    · right
      refine ⟨?_, ?_, ?_⟩
      · simp only [FileTree.delete, if_neg hdp, h.isDir]
      · intro q hq
        simp only [FileTree.delete, h.gone q hq, ite_self]
      · intro q hq
        simp only [FileTree.delete, h.off q hq]
  | move src dst =>
    simp only [Op.Crosses, not_or, not_and, not_not] at ht
    obtain ⟨hsp, hps, hpd⟩ := ht
    have hsrc : ∀ s, t (src ++ s) = t' (src ++ s) := fun s => by
      refine h.off _ (fun hs => ?_)
      rcases List.prefix_or_prefix_of_prefix hs (List.prefix_append src s) with h1 | h1
      · exact hps h1
      · exact hsp h1
    have hok : MoveOk t src dst ↔ MoveOk t' src dst := by
      have hs := hsrc []
      rw [List.append_nil] at hs
      have hd : t dst.dropLast = t' dst.dropLast := by
        refine h.off _ (fun hd => ?_)
        have hpdst := hpd (prefix_of_prefix_dropLast hd)
        subst hpdst
        exact not_prefix_dropLast_self hf.2 hd
      simp only [MoveOk, hs, hd]
    refine ⟨hf, ?_⟩
    simp only [FileTree.apply, hok]
    split
    · by_cases hdp : dst <+: p
      · left
        funext q
        simp only [FileTree.move, hsrc]
        split
        · rfl
        · rename_i hdq
          rw [h.off q (fun hq => hdq (hdp.trans hq))]
      · right
        have hout : ∀ q, p <+: q → ¬ dst <+: q := fun q hq hdq => by
          rcases List.prefix_or_prefix_of_prefix hq hdq with h1 | h1
          · have := hpd h1
            subst this
            exact hdp List.prefix_rfl
          · exact hdp h1
        refine ⟨?_, ?_, ?_⟩
        · simp only [FileTree.move, if_neg hdp, if_neg hsp, h.isDir]
        · intro q hq
          simp only [FileTree.move, if_neg (hout q hq), h.gone q hq, ite_self]
        · intro q hq
          simp only [FileTree.move, hsrc, h.off q hq]
    · exact Or.inr h

/-- The creation of `p` may be dropped from a sequence in which no later change crosses `p`:
    the tree stays the same outside `p`, and `p` is missing where it would have been. -/
theorem run_filter_mkcol {p : List N} {t t' : Tree N C} {l : List (Op N C)}
    (h : t = t' ∨ DifferBelow p t t' ∧ ∀ o ∈ l, ¬ o.Crosses p) (hc : Closed t)
    (hf : Fitting t l)
    (hl : l.Pairwise fun a b => a.isMkcol p = true → ¬ b.Crosses p) :
    Fitting t' (l.filter fun o => !o.isMkcol p) ∧
    (run t l = run t' (l.filter fun o => !o.isMkcol p) ∨
      DifferBelow p (run t l) (run t' (l.filter fun o => !o.isMkcol p))) := by
  induction l generalizing t t' with
  | nil =>
    refine ⟨trivial, ?_⟩
    rcases h with h | h
    · exact Or.inl h
    · exact Or.inr h.1
  | cons o l ih =>
    obtain ⟨hfo, hfl⟩ := hf
    obtain ⟨hhead, htail⟩ := List.pairwise_cons.mp hl
    have hc' := hc.apply hfo.named
    by_cases hp : o.isMkcol p = true
    · have hnext : apply t o = t' ∨ DifferBelow p (apply t o) t' ∧ ∀ x ∈ l, ¬ x.Crosses p := by
        cases o with
        | mkcol q =>
          obtain rfl : q = p := by simpa [Op.isMkcol] using hp
          have hnone : t q = none := hfo.2
          simp only [apply]
          rcases h with rfl | h
          · split
            · refine Or.inr ⟨⟨by simp [set], ?_, ?_⟩, fun x hx => hhead x hx hp⟩
              · intro x hx
                by_cases hxq : q = x
                · exact hxq ▸ hnone
                · exact hc.none_below hx hxq (by rw [hnone]; simp)
              · intro x hx
                have hxq : x ≠ q := fun hxq => hx (hxq ▸ List.prefix_rfl)
                simp only [set, if_neg hxq]
            · exact Or.inl rfl
          · rw [h.1.isDir] at hnone
            cases hnone
        | put q c => simp [Op.isMkcol] at hp
        | delete q => simp [Op.isMkcol] at hp
        | move src dst => simp [Op.isMkcol] at hp
      simp only [List.filter_cons, hp, Bool.not_true, Bool.false_eq_true, ↓reduceIte, run_cons]
      exact ih hnext hc' hfl htail
    · have hp' : o.isMkcol p = false := by simpa using hp
      simp only [List.filter_cons, hp', Bool.not_false, ↓reduceIte, run_cons, Fitting]
      rcases h with rfl | ⟨h, hno⟩
      · obtain ⟨hfit, hrun⟩ := ih (Or.inl rfl) hc' hfl htail
        exact ⟨⟨hfo, hfit⟩, hrun⟩
      · obtain ⟨hfit, hnext⟩ := h.apply hfo (hno o List.mem_cons_self)
        have hno' : ∀ x ∈ l, ¬ x.Crosses p := fun x hx => hno x (List.mem_cons_of_mem _ hx)
        have hnext' := hnext.imp_right fun hd => And.intro hd hno'
        obtain ⟨hfit', hrun⟩ := ih hnext' hc' hfl htail
        exact ⟨⟨hfit, hfit'⟩, hrun⟩

end FileTree
