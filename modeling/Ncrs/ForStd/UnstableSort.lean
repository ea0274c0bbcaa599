import Mathlib.Data.List.Perm.Basic

/-!
# Unstable sorting

An unstable sort leaves the order of equal elements open, as a hash map leaves open the order in
which it hands out its entries. Here such a sort is a stable one after a shuffle, so that a
statement about every shuffle covers every order the sort may come up with.
-/

/-- An order of lists that the program does not fix. -/
structure Shuffle (α : Type) where
  apply : List α → List α
  perm : ∀ l, (apply l).Perm l

namespace Shuffle

variable {α : Type}

/-- Moves `x` to the front of the lists that have it. -/
def first [DecidableEq α] (x : α) : Shuffle α where
  apply l := if x ∈ l then x :: l.erase x else l
  perm l := by
    split
    · rename_i hx
      exact (List.perm_cons_erase hx).symm
    · exact .refl l

/-- Every list as it is. -/
def none : Shuffle α where
  apply l := l
  perm := .refl

/-- `sort_unstable_by`. -/
def sortUnstableBy (s : Shuffle α) (le : α → α → Bool) (l : List α) : List α :=
  (s.apply l).mergeSort le

variable {le : α → α → Bool} {l : List α}

theorem sortUnstableBy_perm (s : Shuffle α) (le : α → α → Bool) (l : List α) :
    (s.sortUnstableBy le l).Perm l :=
  (List.mergeSort_perm _ _).trans (s.perm l)

/-- What a cut of the sorted list keeps comes before what it drops. -/
theorem le_of_mem_take (s : Shuffle α) (htrans : ∀ a b c, le a b → le b c → le a c)
    (htotal : ∀ a b, le a b || le b a) {n : Nat} {x y : α}
    (hx : x ∈ (s.sortUnstableBy le l).take n) (hy : y ∈ l)
    (hny : y ∉ (s.sortUnstableBy le l).take n) : le x y := by
  have hsorted : (s.sortUnstableBy le l).Pairwise (fun a b => le a b) :=
    List.pairwise_mergeSort htrans htotal _
  have hmem := (s.sortUnstableBy_perm le l).mem_iff.mpr hy
  rw [← List.take_append_drop n (s.sortUnstableBy le l), List.mem_append] at hmem
  rw [← List.take_append_drop n (s.sortUnstableBy le l), List.pairwise_append] at hsorted
  exact hsorted.2.2 x hx y (hmem.resolve_left hny)

/-- With fewer than `n` elements strictly before it, an element can be among the first `n`. -/
theorem mem_take_first [DecidableEq α] (htrans : ∀ a b c, le a b → le b c → le a c)
    (htotal : ∀ a b, le a b || le b a) {n : Nat} {x : α} (hx : x ∈ l)
    (hn : (l.filter fun y => !le x y).length < n) :
    x ∈ ((first x).sortUnstableBy le l).take n := by
  have happly : (first x).apply l = x :: l.erase x := if_pos hx
  -- stability: only strictly smaller elements can get in front of the first one
  obtain ⟨l₁, l₂, hsort, -, hbefore⟩ := List.mergeSort_cons htrans htotal x (l.erase x)
  have hperm := (first x).sortUnstableBy_perm le l
  rw [sortUnstableBy, happly, hsort] at hperm ⊢
  have hlen : l₁.length ≤ (l.filter fun y => !le x y).length := by
    rw [← (hperm.filter fun y => !le x y).length_eq, List.filter_append, List.length_append,
      List.filter_eq_self.mpr hbefore]
    exact Nat.le_add_right _ _
  rw [List.take_append, List.mem_append]
  right
  obtain ⟨k, hk⟩ : ∃ k, n - l₁.length = k + 1 := ⟨n - l₁.length - 1, by omega⟩
  rw [hk, List.take_succ_cons]
  exact List.mem_cons_self

end Shuffle
