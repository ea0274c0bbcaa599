import Mathlib.Data.List.Pairwise
import Mathlib.Data.List.Infix
import Mathlib.Data.List.Nodup

/-!
# Ordered forests

A forest is a list of leaves and branches in an order, as a directory listing has them. Its nodes are
met in preorder, each with the names that lead to it. A walk may stop at some branches: it meets them and
does not go into them.

## Key results

- `pairwise_visited`: what a walk meets below a node comes after it, and nothing below a stop.
- `visited_or_below_stop`: what a walk does not meet lies below a branch where it stopped.
- `exists_parent`: what a walk meets is at the top, or below a branch it went into.
-/

/-- An ordered forest with names at its nodes and labels at its leaves. -/
inductive Forest (N A : Type) where
  | nil
  | leaf (name : N) (label : A) (rest : Forest N A)
  | branch (name : N) (sub rest : Forest N A)
  deriving DecidableEq, Repr

namespace Forest

variable {N A : Type}

/-- The names at the top. -/
def names : Forest N A → List N
  | nil => []
  | leaf n _ rest => n :: rest.names
  | branch n _ rest => n :: rest.names

/-- No two nodes in one place have the same name. -/
def Distinct : Forest N A → Prop
  | nil => True
  | leaf n _ rest => n ∉ rest.names ∧ rest.Distinct
  | branch n sub rest => n ∉ rest.names ∧ sub.Distinct ∧ rest.Distinct

/-- The nodes in preorder, with their paths below `p`; a branch has no label. -/
def nodes (p : List N) : Forest N A → List (List N × Option A)
  | nil => []
  | leaf n a rest => (p ++ [n], some a) :: rest.nodes p
  | branch n sub rest => (p ++ [n], none) :: (sub.nodes (p ++ [n]) ++ rest.nodes p)

/-- The nodes that a walk meets which does not go into branches with a name in `stop`. -/
def visited (stop : N → Bool) (p : List N) : Forest N A → List (List N × Option A)
  | nil => []
  | leaf n a rest => (p ++ [n], some a) :: rest.visited stop p
  | branch n sub rest =>
    (p ++ [n], none) :: ((if stop n then [] else sub.visited stop (p ++ [n])) ++ rest.visited stop p)

/-- The last name of a path is one to stop at. -/
def stops (stop : N → Bool) (path : List N) : Bool := path.getLast?.any stop

/-- Whether to stop at a path is decided by its last name. -/
@[simp] theorem stops_append_singleton (stop : N → Bool) (p : List N) (n : N) :
    stops stop (p ++ [n]) = stop n := by
  simp [stops]

/-! ## Paths -/

/-- Paths that part at a name have none below the other. -/
theorem not_prefix_of_ne {p a b : List N} {n m : N} (hne : n ≠ m) (ha : p ++ [n] <+: a) (hb : p ++ [m] <+: b) :
    ¬ a <+: b := by
  intro hab
  have hboth := List.prefix_of_prefix_length_le (ha.trans hab) hb (by simp)
  have heq := hboth.eq_of_length (by simp)
  exact hne (by simpa using heq)

/-- A path is not below one that is below it. -/
theorem ne_of_prefix_append {q : List N} {p : List N} {n : N} (h : q ++ [n] <+: p) : ¬ p <+: q := by
  intro hpq
  have hlen := (h.trans hpq).length_le
  rw [List.length_append, List.length_singleton] at hlen
  omega

variable {stop : N → Bool} {f : Forest N A} {p : List N} {x : List N × Option A}

/-- A node lies below one of the roots. -/
theorem exists_name_of_mem_nodes (h : x ∈ f.nodes p) : ∃ n ∈ f.names, p ++ [n] <+: x.1 := by
  induction f generalizing p with
  | nil => cases h
  | leaf n a rest ih =>
    obtain rfl | h := List.mem_cons.mp h
    · exact ⟨n, List.mem_cons_self .., List.prefix_refl _⟩
    · obtain ⟨m, hm, hx⟩ := ih h
      exact ⟨m, List.mem_cons_of_mem _ hm, hx⟩
  | branch n sub rest ihsub ih =>
    obtain rfl | h := List.mem_cons.mp h
    · exact ⟨n, List.mem_cons_self .., List.prefix_refl _⟩
    · obtain h | h := List.mem_append.mp h
      · obtain ⟨m, -, hx⟩ := ihsub h
        exact ⟨n, List.mem_cons_self .., (List.prefix_append _ _).trans hx⟩
      · obtain ⟨m, hm, hx⟩ := ih h
        exact ⟨m, List.mem_cons_of_mem _ hm, hx⟩

/-- A leaf is visited. -/
theorem visited_leaf (n : N) (a : A) (rest : Forest N A) :
    (leaf n a rest).visited stop p = (p ++ [n], some a) :: rest.visited stop p := rfl

/-- A branch is visited, and what is in it unless the walk stops there. -/
theorem visited_branch (n : N) (sub rest : Forest N A) : (branch n sub rest).visited stop p =
    (p ++ [n], none) :: ((if stop n then [] else sub.visited stop (p ++ [n])) ++ rest.visited stop p) := rfl

/-- The walk meets nodes of the forest, in its order. -/
theorem visited_sublist : (f.visited stop p).Sublist (f.nodes p) := by
  induction f generalizing p with
  | nil => exact List.Sublist.refl _
  | leaf n a rest ih => exact ih.cons_cons _
  | branch n sub rest ihsub ih =>
    refine List.Sublist.cons_cons _ (List.Sublist.append ?_ ih)
    split
    · exact List.nil_sublist _
    · exact ihsub

/-- What the walk meets is a node. -/
theorem mem_nodes_of_mem_visited (h : x ∈ f.visited stop p) : x ∈ f.nodes p := visited_sublist.subset h

/-! ## Order -/

/-- How two nodes of a walk stand, the first met before the second. -/
structure Before (stop : N → Bool) (x y : List N × Option A) : Prop where
  /-- Only a branch that was gone into has something below. -/
  below : x.1 <+: y.1 → x.2 = none ∧ stops stop x.1 = false
  notAbove : ¬ y.1 <+: x.1

/-- Nodes below different roots come in either order. -/
theorem Before.of_ne {n m : N} {x y : List N × Option A} (hne : n ≠ m) (hx : p ++ [n] <+: x.1)
    (hy : p ++ [m] <+: y.1) : Before stop x y where
  below h := absurd h (not_prefix_of_ne hne hx hy)
  notAbove := not_prefix_of_ne hne.symm hy hx

/-- What the walk meets later is neither the same nor above. -/
theorem pairwise_visited (h : f.Distinct) : (f.visited stop p).Pairwise (Before stop) := by
  induction f generalizing p with
  | nil => exact List.Pairwise.nil
  | leaf n a rest ih =>
    refine List.Pairwise.cons (fun y hy => ?_) (ih h.2)
    obtain ⟨m, hm, hpath⟩ := exists_name_of_mem_nodes (mem_nodes_of_mem_visited hy)
    have hne : n ≠ m := fun hnm => h.1 (hnm ▸ hm)
    exact .of_ne hne (List.prefix_refl _) hpath
  | branch n sub rest ihsub ih =>
    obtain ⟨hname, hsub, hrest⟩ := h
    -- whatever comes after the branch has another name at the top
    have hafter : ∀ x : List N × Option A, p ++ [n] <+: x.1 → ∀ y ∈ rest.visited stop p, Before stop x y := by
      intro x hx y hy
      obtain ⟨m, hm, hpath⟩ := exists_name_of_mem_nodes (mem_nodes_of_mem_visited hy)
      have hne : n ≠ m := fun hnm => hname (hnm ▸ hm)
      exact .of_ne hne hx hpath
    have hbelow : ∀ y ∈ sub.visited stop (p ++ [n]), p ++ [n] <+: y.1 ∧ ¬ y.1 <+: p ++ [n] := by
      intro y hy
      obtain ⟨m, -, hpath⟩ := exists_name_of_mem_nodes (mem_nodes_of_mem_visited hy)
      exact ⟨(List.prefix_append _ _).trans hpath, ne_of_prefix_append hpath⟩
    refine List.Pairwise.cons (fun y hy => ?_) (List.pairwise_append.mpr ⟨?_, ih hrest, fun x hx y hy => ?_⟩)
    · obtain hy | hy := List.mem_append.mp hy
      · split at hy
        · cases hy
        · rename_i hstop
          refine ⟨fun _ => ⟨rfl, ?_⟩, (hbelow y hy).2⟩
          rw [stops_append_singleton]
          simpa using hstop
      · exact hafter _ (List.prefix_refl _) y hy
    · split
      · exact List.Pairwise.nil
      · exact ihsub hsub
    · split at hx
      · cases hx
      · exact hafter x (hbelow x hx).1 y hy

/-- A walk that never stops meets every node. -/
theorem nodes_eq_visited : f.nodes p = f.visited (fun _ => false) p := by
  induction f generalizing p with
  | nil => rfl
  | leaf n a rest ih => rw [nodes, visited_leaf, ih]
  | branch n sub rest ihsub ih => rw [nodes, visited_branch, ihsub, ih, if_neg Bool.false_ne_true]

/-- In a forest with distinct names every node has its own path. -/
theorem nodup_paths (h : f.Distinct) : ((f.nodes p).map Prod.fst).Nodup := by
  rw [List.Nodup, List.pairwise_map, nodes_eq_visited]
  refine (pairwise_visited h).imp fun {x y} hxy heq => hxy.notAbove ?_
  rw [heq]

/-- A path leads to one node. -/
theorem eq_of_mem_nodes (h : f.Distinct) {y : List N × Option A} (hx : x ∈ f.nodes p) (hy : y ∈ f.nodes p)
    (hxy : x.1 = y.1) : x = y := List.inj_on_of_nodup_map (nodup_paths h) hx hy hxy

/-! ## What a walk meets -/

/-- A node is met, or the walk stopped above it. -/
theorem visited_or_below_stop (h : x ∈ f.nodes p) :
    x ∈ f.visited stop p ∨
      ∃ y ∈ f.visited stop p, y.2 = none ∧ stops stop y.1 = true ∧ y.1 <+: x.1 := by
  induction f generalizing p with
  | nil => cases h
  | leaf n a rest ih =>
    obtain rfl | h := List.mem_cons.mp h
    · exact .inl (List.mem_cons_self ..)
    · obtain h | ⟨y, hy, hrest⟩ := ih h
      · exact .inl (List.mem_cons_of_mem _ h)
      · exact .inr ⟨y, List.mem_cons_of_mem _ hy, hrest⟩
  | branch n sub rest ihsub ih =>
    obtain rfl | h := List.mem_cons.mp h
    · exact .inl (List.mem_cons_self ..)
    · obtain h | h := List.mem_append.mp h
      · by_cases hstop : stop n = true
        · obtain ⟨m, -, hpath⟩ := exists_name_of_mem_nodes h
          refine .inr ⟨_, List.mem_cons_self .., rfl, by simpa using hstop, ?_⟩
          exact (List.prefix_append _ _).trans hpath
        · have hmem : ∀ y ∈ sub.visited stop (p ++ [n]), y ∈ (branch n sub rest).visited stop p := by
            intro y hy
            rw [visited_branch, if_neg hstop]
            exact List.mem_cons_of_mem _ (List.mem_append_left _ hy)
          obtain h | ⟨y, hy, hrest⟩ := ihsub h
          · exact .inl (hmem x h)
          · exact .inr ⟨y, hmem y hy, hrest⟩
      · obtain h | ⟨y, hy, hrest⟩ := ih h
        · exact .inl (List.mem_cons_of_mem _ (List.mem_append_right _ h))
        · exact .inr ⟨y, List.mem_cons_of_mem _ (List.mem_append_right _ hy), hrest⟩

/-- What is met is a root, or below a branch that was entered. -/
theorem exists_parent (h : x ∈ f.visited stop p) :
    (∃ n, x.1 = p ++ [n]) ∨
      ∃ y ∈ f.visited stop p, y.2 = none ∧ stops stop y.1 = false ∧ y.1 <+: x.1 := by
  induction f generalizing p with
  | nil => cases h
  | leaf n a rest ih =>
    obtain rfl | h := List.mem_cons.mp h
    · exact .inl ⟨n, rfl⟩
    · obtain h | ⟨y, hy, hrest⟩ := ih h
      · exact .inl h
      · exact .inr ⟨y, List.mem_cons_of_mem _ hy, hrest⟩
  | branch n sub rest ihsub ih =>
    obtain rfl | h := List.mem_cons.mp h
    · exact .inl ⟨n, rfl⟩
    · obtain h | h := List.mem_append.mp h
      · split at h
        · cases h
        · rename_i hstop
          obtain ⟨m, -, hpath⟩ := exists_name_of_mem_nodes (mem_nodes_of_mem_visited h)
          refine .inr ⟨_, List.mem_cons_self .., rfl, by simpa using hstop, ?_⟩
          exact (List.prefix_append _ _).trans hpath
      · obtain h | ⟨y, hy, hrest⟩ := ih h
        · exact .inl h
        · exact .inr ⟨y, List.mem_cons_of_mem _ (List.mem_append_right _ hy), hrest⟩

end Forest
