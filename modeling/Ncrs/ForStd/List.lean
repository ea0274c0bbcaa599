import Mathlib.Algebra.GroupWithZero.Nat
import Mathlib.Data.List.Nodup

/-!
# Lists

Facts about the list operations a queue is made of.
-/

namespace List

variable {α β : Type}

/-- A change at one place that a projection does not see is not seen in the whole list. -/
theorem map_modify_of_eq {f : α → α} {g : α → β} (h : ∀ a, g (f a) = g a) (l : List α)
    (i : Nat) : (l.modify i f).map g = l.map g := by
  induction l generalizing i with
  | nil => simp
  | cons a l ih =>
    cases i with
    | zero => simp [h]
    | succ i => simp [ih]

theorem findSome?_congr {f g : α → Option β} {l : List α} (h : ∀ a ∈ l, f a = g a) :
    l.findSome? f = l.findSome? g := by
  induction l with
  | nil => rfl
  | cons a l ih =>
    rw [findSome?_cons, findSome?_cons, h a mem_cons_self, ih fun b hb => h b (mem_cons_of_mem a hb)]

/-- What a partial map keeps, seen from where it came. -/
theorem map_filterMap_sublist {f : α → Option β} {g : β → α}
    (h : ∀ x y, f x = some y → g y = x) (l : List α) : (l.filterMap f).map g <+ l := by
  induction l with
  | nil => simp
  | cons x l ih =>
    rw [filterMap_cons]
    split
    · exact ih.cons x
    · rename_i y hy
      rw [map_cons, h x y hy]
      exact ih.cons_cons x

/-- At most one element satisfies `p`. -/
def AtMostOne (p : α → Bool) (l : List α) : Prop := l.Pairwise fun a b => p a = true → p b = false

theorem atMostOne_of_nodup [DecidableEq β] {g : α → β} {b : β} {l : List α}
    (h : (l.map g).Nodup) : l.AtMostOne fun a => g a = b := by
  rw [Nodup, pairwise_map] at h
  refine h.imp fun {x y} hne hx => ?_
  have hx := of_decide_eq_true hx
  exact decide_eq_false fun hy => hne (hx.trans hy.symm)

/-- With at most one such element, changing the first is changing all of them. -/
theorem modify_findIdx? {p : α → Bool} {l : List α} (h : l.AtMostOne p) (f : α → α) :
    (match l.findIdx? p with
      | some i => l.modify i f
      | none => l) = l.map fun a => if p a then f a else a := by
  induction l with
  | nil => rfl
  | cons a l ih =>
    obtain ⟨ha, hl⟩ := pairwise_cons.mp h
    rw [findIdx?_cons, map_cons]
    cases hp : p a with
    | true =>
      have hrest : (l.map fun a => if p a then f a else a) = l := by
        conv_rhs => rw [← map_id l]
        refine map_congr_left fun x hx => ?_
        simp [ha x hx hp]
      simp [hrest]
    | false =>
      rw [← ih hl]
      cases l.findIdx? p with
      | none => simp
      | some i => simp

/-- With at most one such element, erasing the first erases all of them. -/
theorem eraseIdx_findIdx? {p : α → Bool} {l : List α} (h : l.AtMostOne p) {i : Nat}
    (hi : l.findIdx? p = some i) : l.eraseIdx i = l.filter fun a => !p a := by
  induction l generalizing i with
  | nil => cases hi
  | cons a l ih =>
    obtain ⟨ha, hl⟩ := pairwise_cons.mp h
    rw [findIdx?_cons] at hi
    cases hp : p a with
    | true =>
      obtain rfl : 0 = i := by simpa [hp] using hi
      rw [filter_cons_of_neg (by simp [hp]), eraseIdx_cons_zero]
      refine (filter_eq_self.mpr fun x hx => ?_).symm
      simp [ha x hx hp]
    | false =>
      simp only [hp, Bool.false_eq_true, if_false, Option.map_eq_some_iff] at hi
      obtain ⟨k, hk, rfl⟩ := hi
      rw [filter_cons_of_pos (by simp [hp]), eraseIdx_cons_succ, ih hl hk]

/-- A list around its element at `i`. -/
theorem exists_split_of_getElem? {l : List α} {i : Nat} {a : α} (h : l[i]? = some a) :
    ∃ pre post, l = pre ++ a :: post ∧ pre.length = i ∧ (∀ b, l.set i b = pre ++ b :: post) ∧
      l.eraseIdx i = pre ++ post ∧ ∀ f : α → α, l.modify i f = pre ++ f a :: post := by
  induction l generalizing i with
  | nil => cases h
  | cons x l ih =>
    cases i with
    | zero =>
      obtain rfl : x = a := by simpa using h
      exact ⟨[], l, rfl, rfl, fun _ => rfl, rfl, fun _ => rfl⟩
    | succ i =>
      obtain ⟨pre, post, hl, hlen, hset, herase, hmodify⟩ := ih (by simpa using h)
      refine ⟨x :: pre, post, by rw [hl]; rfl, by rw [← hlen]; rfl, fun b => ?_, ?_, fun f => ?_⟩
      · rw [set_cons_succ, hset, cons_append]
      · rw [eraseIdx_cons_succ, herase, cons_append]
      · rw [modify_succ_cons, hmodify, cons_append]

/-- A search by a key that no two elements share. -/
theorem find?_key_eq_some [DecidableEq β] {g : α → β} {l : List α} (h : (l.map g).Nodup) {b : β}
    {a : α} : l.find? (fun x => decide (g x = b)) = some a ↔ a ∈ l ∧ g a = b := by
  constructor
  · intro hfind
    exact ⟨mem_of_find?_eq_some hfind, by simpa using find?_some hfind⟩
  · rintro ⟨ha, rfl⟩
    obtain ⟨x, hx⟩ := Option.isSome_iff_exists.mp
      (find?_isSome.mpr ⟨a, ha, decide_eq_true rfl⟩ : (l.find? fun x => decide (g x = g a)).isSome)
    have hkey : g x = g a := by simpa using find?_some hx
    rw [hx, inj_on_of_nodup_map h (mem_of_find?_eq_some hx) ha hkey]

/-- The same from the other end. -/
theorem reverse_find?_key [DecidableEq β] {g : α → β} {l : List α} (h : (l.map g).Nodup) (b : β) :
    l.reverse.find? (fun x => decide (g x = b)) = l.find? fun x => decide (g x = b) := by
  apply Option.ext
  intro a
  rw [find?_key_eq_some h, find?_key_eq_some (by rwa [map_reverse, nodup_reverse]), mem_reverse]

/-- Lists that are equal up to the first of an element have the same parts around it. -/
theorem append_cons_inj_of_not_mem {a : α} {xs xs' ys ys' : List α} (h : a ∉ xs) (h' : a ∉ xs')
    (heq : xs ++ a :: ys = xs' ++ a :: ys') : xs = xs' ∧ ys = ys' := by
  induction xs generalizing xs' with
  | nil =>
    cases xs' with
    | nil => exact ⟨rfl, (List.cons.inj heq).2⟩
    | cons x' xs' =>
      have hhead := (List.cons.inj heq).1
      exact absurd (hhead ▸ List.mem_cons_self) h'
  | cons x xs ih =>
    cases xs' with
    | nil =>
      have hhead := (List.cons.inj heq).1
      exact absurd (hhead ▸ List.mem_cons_self) h
    | cons x' xs' =>
      obtain ⟨hhead, htail⟩ := List.cons.inj heq
      rw [List.mem_cons, not_or] at h h'
      obtain ⟨hxs, hys⟩ := ih h.2 h'.2 htail
      exact ⟨by rw [hhead, hxs], hys⟩

/-- Lists that are equal up to the last of an element have the same parts around it. -/
theorem append_cons_inj_of_not_mem_right {a : α} {xs xs' ys ys' : List α} (h : a ∉ ys)
    (h' : a ∉ ys') (heq : xs ++ a :: ys = xs' ++ a :: ys') : xs = xs' ∧ ys = ys' := by
  have hrev := congrArg List.reverse heq
  simp only [List.reverse_append, List.reverse_cons, List.append_assoc, List.singleton_append]
    at hrev
  have hinj := append_cons_inj_of_not_mem (by simpa using h) (by simpa using h') hrev
  exact ⟨List.reverse_injective hinj.2, List.reverse_injective hinj.1⟩

/-- A prefix, and a prefix of what comes after it. -/
theorem IsPrefix.append_of_drop {a b l : List α} (ha : a <+: l) (hb : b <+: l.drop a.length) :
    a ++ b <+: l := by
  obtain ⟨t, rfl⟩ := ha
  rw [drop_left] at hb
  exact (prefix_append_right_inj a).2 hb

/-! ## Sums -/

/-- The sum after one element is replaced. -/
theorem sum_map_set {f : α → Nat} {l : List α} {i : Nat} {a : α} (h : l[i]? = some a) (b : α) :
    ((l.set i b).map f).sum + f a = (l.map f).sum + f b := by
  induction l generalizing i with
  | nil => simp at h
  | cons x l ih =>
    cases i with
    | zero =>
      simp only [getElem?_cons_zero, Option.some.injEq] at h
      simp only [set_cons_zero, map_cons, sum_cons, h]
      omega
    | succ i =>
      have htail := ih (by simpa using h)
      simp only [set_cons_succ, map_cons, sum_cons]
      omega

theorem le_sum_map {f : α → Nat} {l : List α} {a : α} (h : a ∈ l) : f a ≤ (l.map f).sum := by
  induction l with
  | nil => cases h
  | cons x l ih =>
    simp only [map_cons, sum_cons]
    obtain rfl | htail := mem_cons.mp h
    · omega
    · have := ih htail
      omega

theorem sum_map_le {f g : α → Nat} (h : ∀ a, f a ≤ g a) (l : List α) : (l.map f).sum ≤ (l.map g).sum := by
  induction l with
  | nil => simp
  | cons x l ih =>
    have := h x
    simp only [map_cons, sum_cons]
    omega

end List
