import Ncrs.ForStd.Fields

/-!
# Lines of a text

A text is read as its lines, where a line feed ends a line and so does a carriage return before it, and is
written again with a line feed after each line.
-/

namespace List

theorem notMem_of_mem_splitOn {α : Type} [DecidableEq α] {sep : α} {t l : List α} (h : l ∈ t.splitOn sep) :
    sep ∉ l := by
  induction t generalizing l with
  | nil =>
    rw [splitOn_nil, mem_singleton] at h
    simp [h]
  | cons x t ih =>
    rw [splitOn_cons_eq_if_modifyHead] at h
    split at h
    · obtain rfl | h := mem_cons.mp h
      · exact not_mem_nil
      · exact ih h
    · rename_i hx
      cases hs : t.splitOn sep with
      | nil => exact absurd hs (splitOn_ne_nil sep t)
      | cons f fs =>
        rw [hs] at h ih
        obtain rfl | h := mem_cons.mp h
        · have hx' : x ≠ sep := by simpa using hx
          simpa [hx'.symm] using ih mem_cons_self
        · exact ih (mem_cons_of_mem _ h)

end List

namespace TextLines

/-- A line without the carriage return at its end. -/
def stripCr (l : List Char) : List Char := if l.getLast? = some '\r' then l.dropLast else l

/-- `str::lines`: what comes after the last line feed is a line unless it is empty, and keeps its carriage
    return. -/
def lines (t : List Char) : List (List Char) :=
  let parts := t.splitOn '\n'
  parts.dropLast.map stripCr ++ parts.getLast?.toList.filter fun l => !l.isEmpty

/-- The lines of a text, each with a line feed. Of no lines it makes an empty one. -/
def unlines (ls : List (List Char)) : List Char := ['\n'].intercalate ls ++ ['\n']

variable {ls : List (List Char)} {l : List Char}

theorem stripCr_of_getLast? (h : l.getLast? ≠ some '\r') : stripCr l = l := if_neg h

theorem stripCr_sublist (l : List Char) : (stripCr l).Sublist l := by
  unfold stripCr
  split
  · exact List.dropLast_sublist l
  · exact List.Sublist.refl l

theorem notMem_of_mem_lines {t : List Char} (h : l ∈ lines t) : '\n' ∉ l := by
  obtain h | h := List.mem_append.mp h
  · obtain ⟨l', hl', rfl⟩ := List.mem_map.mp h
    intro hmem
    exact List.notMem_of_mem_splitOn ((List.dropLast_sublist _).subset hl') ((stripCr_sublist l').subset hmem)
  · have hlast := (List.mem_filter.mp h).1
    rw [Option.mem_toList] at hlast
    exact List.notMem_of_mem_splitOn (List.mem_of_getLast? hlast)

/-- Written lines are read again, without the carriage returns at their ends. -/
theorem lines_unlines (h : ∀ l ∈ ls, '\n' ∉ l) (hne : ls ≠ []) : lines (unlines ls) = ls.map stripCr := by
  have hjoin : unlines ls = ['\n'].intercalate (ls ++ [[]]) := by
    obtain ⟨init, l, rfl⟩ := List.eq_nil_or_concat ls |>.resolve_left hne
    rw [List.concat_eq_append, unlines, List.intercalate_concat, List.intercalate_concat]
    simp
  have hsplit : (unlines ls).splitOn '\n' = ls ++ [[]] := by
    rw [hjoin, List.splitOn_intercalate]
    · intro l hl
      obtain hl | hl := List.mem_append.mp hl
      · exact h l hl
      · simp [List.mem_singleton.mp hl]
    · simp
  unfold lines
  rw [hsplit]
  simp

theorem lines_unlines_nil : lines (unlines []) = [[]] := by decide

end TextLines
