import Mathlib.Data.List.DropRight

/-!
# Lines of separated fields

A line is made by joining its fields with a separator (`[sep].intercalate`) and read by stripping
its ends and splitting it again. What a strip does to such a line happens in its first and its last
field, unless one of them is all blank.
-/

namespace List

variable {α : Type} {p : α → Bool}

/-- `str.strip`: nothing blank at either end. -/
def strip (p : α → Bool) (l : List α) : List α := (l.dropWhile p).rdropWhile p

/-- `str.split(sep, 1)`: what comes before the first separator, and what comes after it. -/
def splitFirst [DecidableEq α] (sep : α) : List α → List α × Option (List α)
  | [] => ([], none)
  | x :: l => if x = sep then ([], some l) else (x :: (l.splitFirst sep).1, (l.splitFirst sep).2)

/-- The split at the first separator, one item further. -/
theorem splitFirst_cons [DecidableEq α] (sep x : α) (l : List α) :
    (x :: l).splitFirst sep =
      if x = sep then ([], some l) else (x :: (l.splitFirst sep).1, (l.splitFirst sep).2) := rfl

/-- The split of a list that is written with a separator. -/
theorem splitFirst_append [DecidableEq α] {sep : α} {l : List α} (h : sep ∉ l) (r : List α) :
    (l ++ sep :: r).splitFirst sep = (l, some r) := by
  induction l with
  | nil => exact if_pos rfl
  | cons x l ih =>
    rw [mem_cons, not_or] at h
    simp [splitFirst_cons, Ne.symm h.1, ih h.2]

/-- Without a separator there is nothing behind. -/
theorem splitFirst_of_not_mem [DecidableEq α] {sep : α} {l : List α} (h : sep ∉ l) :
    l.splitFirst sep = (l, none) := by
  induction l with
  | nil => rfl
  | cons x l ih =>
    rw [mem_cons, not_or] at h
    simp [splitFirst_cons, Ne.symm h.1, ih h.2]

/-- A split takes nothing but the separator away. -/
theorem eq_of_splitFirst [DecidableEq α] {sep : α} {l a b : List α}
    (h : l.splitFirst sep = (a, some b)) : l = a ++ sep :: b := by
  induction l generalizing a with
  | nil => cases h
  | cons x l ih =>
    simp only [splitFirst_cons] at h
    split at h
    · rename_i hx
      cases h
      rw [hx, nil_append]
    · obtain ⟨rfl, hb⟩ := Prod.mk.inj h
      rw [cons_append, ← ih (Prod.ext rfl hb)]

/-- A split that found no separator has the whole list. -/
theorem eq_of_splitFirst_none [DecidableEq α] {sep : α} {l a : List α}
    (h : l.splitFirst sep = (a, none)) : l = a := by
  induction l generalizing a with
  | nil => cases h; rfl
  | cons x l ih =>
    simp only [splitFirst_cons] at h
    split at h
    · cases h
    · obtain ⟨rfl, hb⟩ := Prod.mk.inj h
      exact congrArg (x :: ·) (ih (Prod.ext rfl hb))

/-- There is no separator in the first part. -/
theorem notMem_of_splitFirst [DecidableEq α] {sep : α} {l a : List α} {b : Option (List α)}
    (h : l.splitFirst sep = (a, b)) : sep ∉ a := by
  induction l generalizing a with
  | nil =>
    cases h
    exact not_mem_nil
  | cons x l ih =>
    simp only [splitFirst_cons] at h
    split at h
    · cases h
      exact not_mem_nil
    · rename_i hx
      obtain ⟨rfl, hb⟩ := Prod.mk.inj h
      rw [mem_cons, not_or]
      exact ⟨Ne.symm hx, ih (Prod.ext rfl hb)⟩

/-- Trimming stops in the second part, if it can. -/
theorem rdropWhile_append_of_exists (l : List α) {e : List α} (h : ∃ x ∈ e, p x = false) :
    (l ++ e).rdropWhile p = l ++ e.rdropWhile p := by
  obtain ⟨x, hx, hpx⟩ := h
  simp only [rdropWhile, reverse_append]
  rw [dropWhile_append, if_neg, reverse_append, reverse_reverse]
  rw [isEmpty_iff, dropWhile_eq_nil_iff]
  intro hall
  simp [hall x (by simpa using hx)] at hpx

/-- The last field of a line. -/
theorem intercalate_concat (sep : α) (init : List (List α)) (e : List α) :
    [sep].intercalate (init ++ [e]) = (init.flatMap fun f => f ++ [sep]) ++ e := by
  induction init with
  | nil => simp
  | cons f init ih =>
    rw [cons_append, intercalate_cons_of_ne_nil (by simp), ih]
    simp

/-- Trimming a joined text trims its last field. -/
theorem rdropWhile_intercalate (sep : α) (init : List (List α)) {e : List α}
    (h : ∃ x ∈ e, p x = false) :
    ([sep].intercalate (init ++ [e])).rdropWhile p = [sep].intercalate (init ++ [e.rdropWhile p]) := by
  rw [intercalate_concat, intercalate_concat, rdropWhile_append_of_exists _ h]

/-- Trimming in front stops in the first part, if it can. -/
theorem dropWhile_append_of_exists {e : List α} (l : List α) (h : ∃ x ∈ e, p x = false) :
    (e ++ l).dropWhile p = e.dropWhile p ++ l := by
  obtain ⟨x, hx, hpx⟩ := h
  rw [dropWhile_append, if_neg]
  rw [isEmpty_iff, dropWhile_eq_nil_iff]
  intro hall
  simp [hall x hx] at hpx

/-- A list that ends in nothing to trim is trimmed already. -/
theorem rdropWhile_eq_self_iff_getLast? {l : List α} :
    l.rdropWhile p = l ↔ l.getLast?.any p = false := by
  induction l using List.reverseRecOn with
  | nil => simp
  | append_singleton l x =>
    rw [rdropWhile_concat, getLast?_concat, Option.any_some]
    cases hx : p x with
    | false => simp
    | true =>
      have hpre : l.rdropWhile p <+: l := rdropWhile_prefix p l
      have := hpre.length_le
      simp only [if_true, Bool.true_eq_false, iff_false]
      intro heq
      rw [heq, length_append, length_singleton] at this
      omega

/-- A list that begins with nothing to trim is trimmed already. -/
theorem dropWhile_eq_self_iff_head? {l : List α} : l.dropWhile p = l ↔ l.head?.any p = false := by
  cases l with
  | nil => simp
  | cons x l =>
    rw [dropWhile_cons, head?_cons, Option.any_some]
    split
    · rename_i hx
      simp only [hx, Bool.true_eq_false, iff_false]
      intro h
      have := (dropWhile_suffix (l := l) p).length_le
      simp only [h, length_cons] at this
      omega
    · rename_i hx
      simpa using hx

/-- A list with nothing to trim at either end is stripped already. -/
theorem strip_eq_self_iff {l : List α} :
    l.strip p = l ↔ l.head?.any p = false ∧ l.getLast?.any p = false := by
  rw [← dropWhile_eq_self_iff_head?, ← rdropWhile_eq_self_iff_getLast?, strip]
  constructor
  · intro h
    have hlen := congrArg length h
    have hpre : (l.dropWhile p).rdropWhile p <+: l.dropWhile p := rdropWhile_prefix p _
    have hle := hpre.length_le
    have hle' := (dropWhile_suffix (l := l) p).length_le
    have hdrop : l.dropWhile p = l := (dropWhile_suffix p).eq_of_length (by omega)
    exact ⟨hdrop, by rwa [hdrop] at h⟩
  · intro ⟨hdrop, hrdrop⟩
    rw [hdrop, hrdrop]

/-- Stripping twice is stripping once. -/
theorem strip_strip (l : List α) : (l.strip p).strip p = l.strip p := by
  rw [strip_eq_self_iff]
  constructor
  · cases hs : l.strip p with
    | nil => rfl
    | cons x s =>
      obtain ⟨r, hr⟩ : l.strip p <+: l.dropWhile p := rdropWhile_prefix p _
      rw [hs] at hr
      have hhead := head_dropWhile_not p (l := l) (by rw [← hr]; simp)
      simpa [← hr] using hhead
  · rw [← rdropWhile_eq_self_iff_getLast?]
    exact rdropWhile_idempotent p _

/-- The first field of a line is at its front. -/
theorem intercalate_cons_eq (sep : α) (e : List α) (es : List (List α)) :
    ∃ l, [sep].intercalate (e :: es) = e ++ l := by
  cases es with
  | nil => exact ⟨[], by simp⟩
  | cons e' es => exact ⟨sep :: [sep].intercalate (e' :: es), by simp [intercalate_cons_cons]⟩

/-- A partial map that loses nothing. -/
theorem map_of_filterMap_eq {β : Type} {f : α → Option β} {l : List α} {r : List β}
    (h : l.filterMap f = r) (hlen : r.length = l.length) : l.map f = r.map some := by
  induction l generalizing r with
  | nil =>
    simp only [filterMap_nil] at h
    simp [← h]
  | cons x l ih =>
    rw [filterMap_cons] at h
    split at h
    · have := length_filterMap_le f l
      rw [h, hlen, length_cons] at this
      omega
    · rename_i y hy
      subst h
      rw [map_cons, map_cons, hy, ih rfl (by simpa using hlen)]

end List
