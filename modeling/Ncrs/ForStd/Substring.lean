import Mathlib.Data.List.Infix

/-!
# The text before a substring

`before? pat l` is what precedes the first occurrence of `pat` in `l`: a find and the slice up to it.
-/

namespace List

variable {α : Type} [DecidableEq α] {pat a b : List α}

/-- What comes before the first occurrence of `pat`. -/
def before? (pat : List α) : List α → Option (List α)
  | [] => if pat = [] then some [] else none
  | x :: l => if pat <+: x :: l then some [] else (before? pat l).map (x :: ·)

/-- An occurrence in `a ++ b` that begins inside `a`. -/
def OccursBefore (pat a b : List α) : Prop := ∃ c s, c ++ pat ++ s = a ++ b ∧ c.length < a.length

omit [DecidableEq α] in
@[simp] theorem not_occursBefore_nil : ¬OccursBefore pat [] b := by
  intro ⟨c, s, _, h⟩
  simp at h

omit [DecidableEq α] in
theorem occursBefore_cons {x : α} :
    OccursBefore pat (x :: a) b ↔ pat <+: x :: (a ++ b) ∨ OccursBefore pat a b := by
  constructor
  · intro ⟨c, s, heq, hlen⟩
    cases c with
    | nil => exact .inl ⟨s, heq⟩
    | cons y c =>
      simp only [cons_append, cons.injEq] at heq
      exact .inr ⟨c, s, heq.2, by simpa using hlen⟩
  · intro h
    obtain ⟨s, heq⟩ | ⟨c, s, heq, hlen⟩ := h
    · exact ⟨[], s, heq, by simp⟩
    · exact ⟨x :: c, s, by simp [heq], by simpa using hlen⟩

/-- The first occurrence is where `b` begins. -/
theorem before?_append_eq_some_iff :
    before? pat (a ++ b) = some a ↔ pat <+: b ∧ ¬OccursBefore pat a b := by
  induction a with
  | nil =>
    cases b with
    | nil => simp [before?]
    | cons y b =>
      simp only [nil_append, before?]
      split <;> simp_all
  | cons x a ih =>
    rw [cons_append, before?, occursBefore_cons]
    split
    · rename_i h
      simp [h]
    · rename_i h
      simp [h, ih]

theorem eq_of_before? {l : List α} (h : before? pat l = some a) :
    ∃ b, l = a ++ b ∧ pat <+: b ∧ ¬OccursBefore pat a b := by
  obtain ⟨b, rfl⟩ : a <+: l := by
    induction l generalizing a with
    | nil =>
      simp only [before?] at h
      split at h
      · cases h
        exact nil_prefix
      · cases h
    | cons x l ih =>
      rw [before?] at h
      split at h
      · cases h
        exact nil_prefix
      · obtain ⟨a', ha', rfl⟩ := Option.map_eq_some_iff.mp h
        exact (prefix_cons_inj x).mpr (ih ha')
  exact ⟨b, rfl, before?_append_eq_some_iff.mp h⟩

theorem before?_eq_none_iff {l : List α} : before? pat l = none ↔ ¬pat <:+: l := by
  induction l with
  | nil => simp [before?]
  | cons x l ih =>
    rw [before?, infix_cons_iff]
    split <;> simp_all

omit [DecidableEq α] in
/-- A substring that has its separator in front only overlaps nothing that begins with one. -/
theorem occursBefore_sep_iff {x : α} {p : List α} (hp : x ∉ p) :
    OccursBefore (x :: p) a (x :: b) ↔ x :: p <:+: a := by
  constructor
  · intro ⟨c, s, heq, hlen⟩
    obtain ⟨d, rfl⟩ : c <+: a :=
      prefix_of_prefix_length_le ⟨x :: p ++ s, by simpa using heq⟩ (prefix_append _ _) hlen.le
    have hd : x :: p ++ s = d ++ x :: b := by simpa using heq
    obtain hprefix | hprefix := prefix_or_prefix_of_prefix (prefix_append (x :: p) s) ⟨x :: b, hd.symm⟩
    · obtain ⟨e, rfl⟩ := hprefix
      exact ⟨c, e, by simp⟩
    · -- otherwise the separator after `a` would stand in `p`
      obtain ⟨e, he⟩ := hprefix
      obtain ⟨y, d, rfl⟩ : ∃ y d', d = y :: d' := by
        cases d with
        | nil => simp at hlen
        | cons y d => exact ⟨y, d, rfl⟩
      obtain ⟨rfl, rfl⟩ := cons.inj he
      cases e with
      | nil => exact ⟨c, [], by simp⟩
      | cons z e =>
        have hz : z = y := by simpa using congrArg (fun l => (l.drop (d.length + 1)).head?) hd
        exact absurd (by simp [hz]) hp
  · intro ⟨c, s, heq⟩
    refine ⟨c, s ++ x :: b, ?_, ?_⟩
    · rw [← append_assoc, heq]
    · have := congrArg length heq
      simp at this
      omega

end List
