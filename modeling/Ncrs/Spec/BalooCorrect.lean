import Ncrs.Native.Baloo

/-!
# Edits of Baloo's configuration

The reader and the editor walk the lines in the same way, so that they meet the same `exclude folders` line.
An entry counts as the folder when both name one folder, with `$HOME` expanded and slashes at the end left
out. A list whose last entry is empty or ends in white space is not read back as it was written, as the value
of a line ends where its text does.

## Key results

- `splitList_joinList`: a list is read back as it was written.
- `edit_of_key` / `edit_of_noKey`: the lines after an edit.
- `edited_edit`: an edit leaves every other line as it is.
- `excludes_withExclude`: the entries after an edit.
- `with_exclude_edits_one_entry`: what an edit does, and that doing it twice or undoing it is as it should be.
-/

namespace Ncrs

namespace Baloo

open TextLines (unlines)

variable {home : Option Line} {folder : Line} {add : Bool}

/-! ## White space -/

/-- White space at the end is trimmed. -/
theorem trim_concat_of_isWhitespace {c : Char} (hc : isWhitespace c = true) (l : Line) :
    trim (l ++ [c]) = trim l := by
  unfold trim List.strip
  by_cases h : ∃ x ∈ l, isWhitespace x = false
  · rw [List.dropWhile_append_of_exists _ h, List.rdropWhile_concat_pos _ _ _ hc]
  · have hall : ∀ x ∈ l, isWhitespace x = true := by
      intro x hx
      by_contra hx'
      exact h ⟨x, hx, by simpa using hx'⟩
    have hnil : l.dropWhile isWhitespace = [] := List.dropWhile_eq_nil_iff.mpr hall
    have hnil' : (l ++ [c]).dropWhile isWhitespace = [] := by
      rw [List.dropWhile_eq_nil_iff]
      intro x hx
      obtain hx | hx := List.mem_append.mp hx
      · exact hall x hx
      · rw [List.mem_singleton.mp hx, hc]
    rw [hnil, hnil']

/-- A carriage return at the end is trimmed. -/
theorem trim_stripCr (l : Line) : trim (TextLines.stripCr l) = trim l := by
  unfold TextLines.stripCr
  split
  · rename_i h
    obtain ⟨init, hinit⟩ := List.getLast?_eq_some_iff.mp h
    rw [hinit, List.dropLast_concat, trim_concat_of_isWhitespace (by decide)]
  · rfl

theorem trim_sublist (l : Line) : (trim l).Sublist l := by
  have hpre : trim l <+: l.dropWhile _ := List.rdropWhile_prefix _ _
  exact hpre.sublist.trans (List.dropWhile_suffix _).sublist

/-! ## Lists -/

/-- The entries of a list that is read back as it was written: its last one is not empty and does not end in
    white space. -/
def EndsPlain (items : List Line) : Prop := ∀ e ∈ items.getLast?, e ≠ [] ∧ e.getLast?.any isWhitespace = false

instance (items : List Line) : Decidable (EndsPlain items) :=
  inferInstanceAs (Decidable (∀ e ∈ items.getLast?, _ ∧ _))

theorem escapeEntry_nil : escapeEntry [] = [] := rfl

theorem escapeEntry_cons (c : Char) (i : Line) :
    escapeEntry (c :: i) =
      (if c = '\\' then ['\\', '\\'] else if c = ',' then ['\\', ','] else [c]) ++ escapeEntry i := by
  unfold escapeEntry
  dsimp only
  rw [List.flatMap_cons, List.flatMap_append]
  congr 1
  split
  · rfl
  · simp

/-- Behind a backslash every character stands for itself. -/
theorem splitListFrom_escape (cur rest : Line) (n : Char) :
    splitListFrom cur ('\\' :: n :: rest) = splitListFrom (cur ++ [n]) rest := by
  rw [splitListFrom.eq_def]
  rfl

/-- A comma ends an item. -/
theorem splitListFrom_comma (cur rest : Line) :
    splitListFrom cur (',' :: rest) = cur :: splitListFrom [] rest := by
  rw [splitListFrom.eq_def]
  rfl

/-- Any other character belongs to the item. -/
theorem splitListFrom_other {c : Char} (hc : c ≠ '\\') (hc' : c ≠ ',') (cur rest : Line) :
    splitListFrom cur (c :: rest) = splitListFrom (cur ++ [c]) rest := by
  rw [splitListFrom.eq_def]
  dsimp only
  rw [if_neg hc, if_neg hc']

/-- An escaped item is read back, behind what was read of it before. -/
theorem splitListFrom_escapeEntry (cur i rest : Line) :
    splitListFrom cur (escapeEntry i ++ rest) = splitListFrom (cur ++ i) rest := by
  induction i generalizing cur with
  | nil => rw [escapeEntry_nil, List.nil_append, List.append_nil]
  | cons c i ih =>
    have hstep : splitListFrom cur (escapeEntry (c :: i) ++ rest) =
        splitListFrom (cur ++ [c]) (escapeEntry i ++ rest) := by
      rw [escapeEntry_cons]
      split
      · rename_i hc
        rw [hc]
        exact splitListFrom_escape cur _ '\\'
      · split
        · rename_i hc
          rw [hc]
          exact splitListFrom_escape cur _ ','
        · rename_i hc hc'
          exact splitListFrom_other hc hc' cur _
    rw [hstep, ih, List.append_assoc, List.singleton_append]

/-- Joining items and splitting the result gives the items back, unless the last is empty. -/
theorem splitList_joinList {items : List Line} (h : items.getLast? ≠ some []) :
    splitList (joinList items) = items := by
  obtain rfl | ⟨init, e, rfl⟩ := List.eq_nil_or_concat' items
  · rfl
  · have he : e ≠ [] := by simpa using h
    have hlast : splitListFrom [] (escapeEntry e) = [e] := by
      rw [← List.append_nil (escapeEntry e), splitListFrom_escapeEntry]
      simp [splitListFrom, he]
    unfold splitList joinList
    rw [List.map_append, List.map_singleton, List.intercalate_concat, List.flatMap_map]
    clear h
    induction init with
    | nil => simpa using hlast
    | cons f init ih =>
      rw [List.flatMap_cons, List.append_assoc, List.append_assoc, splitListFrom_escapeEntry,
        List.singleton_append, splitListFrom_comma, ih, List.nil_append, List.cons_append]

/-- Escaping adds backslashes and commas only. -/
theorem mem_escapeEntry {c : Char} {i : Line} (h : c ∈ escapeEntry i) : c ∈ i ∨ c = '\\' ∨ c = ',' := by
  induction i with
  | nil => cases h
  | cons d i ih =>
    rw [escapeEntry_cons, List.mem_append] at h
    obtain h | h := h
    · split at h
      · simp at h
        exact .inr (.inl h)
      · split at h
        · simp at h
          exact .inr h
        · simp at h
          simp [h]
    · obtain h | h := ih h
      · exact .inl (List.mem_cons_of_mem _ h)
      · exact .inr h

/-- The last character of an item is not changed by escaping. -/
theorem getLast?_escapeEntry (i : Line) : (escapeEntry i).getLast? = i.getLast? := by
  induction i with
  | nil => rfl
  | cons c i ih =>
    rw [escapeEntry_cons, List.getLast?_append, ih, List.getLast?_cons]
    cases i.getLast? with
    | none =>
      split
      · rename_i hc
        simp [hc]
      · split
        · rename_i hc
          simp [hc]
        · rfl
    | some d => rfl

/-- So does joining: only backslashes and commas are added. -/
theorem mem_joinList {c : Char} {items : List Line} (h : c ∈ joinList items) :
    (∃ i ∈ items, c ∈ i) ∨ c = '\\' ∨ c = ',' := by
  obtain rfl | ⟨init, e, rfl⟩ := List.eq_nil_or_concat' items
  · cases h
  · unfold joinList at h
    rw [List.map_append, List.map_singleton, List.intercalate_concat, List.mem_append, List.mem_flatMap] at h
    have hentry : ∀ i ∈ init ++ [e], c ∈ escapeEntry i →
        (∃ i ∈ init ++ [e], c ∈ i) ∨ c = '\\' ∨ c = ',' := by
      intro i hi hc
      obtain hc | hc := mem_escapeEntry hc
      · exact .inl ⟨i, hi, hc⟩
      · exact .inr hc
    obtain ⟨f, hf, hc⟩ | hc := h
    · obtain ⟨i, hi, rfl⟩ := List.mem_map.mp hf
      obtain hc | hc := List.mem_append.mp hc
      · exact hentry i (List.mem_append_left _ hi) hc
      · exact .inr (.inr (List.mem_singleton.mp hc))
    · exact hentry e (by simp) hc

/-- A written list does not end in white space. -/
theorem getLast?_joinList {items : List Line} (h : EndsPlain items) :
    (joinList items).getLast?.any isWhitespace = false := by
  obtain rfl | ⟨init, e, rfl⟩ := List.eq_nil_or_concat' items
  · rfl
  · obtain ⟨hne, hlast⟩ := h e (by simp)
    unfold joinList
    rw [List.map_append, List.map_singleton, List.intercalate_concat, List.getLast?_append,
      getLast?_escapeEntry]
    cases he : e.getLast? with
    | none => exact absurd (List.getLast?_eq_none_iff.mp he) hne
    | some c =>
      rw [he] at hlast
      exact hlast

theorem EndsPlain.splitList (h : EndsPlain items) : splitList (joinList items) = items :=
  splitList_joinList fun hlast => (h [] hlast).1 rfl

/-- The items hold characters of the text only. -/
theorem mem_of_mem_splitListFrom {c : Char} {cur v e : Line} (he : e ∈ splitListFrom cur v) (hc : c ∈ e) :
    c ∈ cur ∨ c ∈ v := by
  fun_induction splitListFrom cur v with
  | case1 => cases he
  | case2 cur hcur =>
    rw [List.mem_singleton.mp he] at hc
    exact .inl hc
  | case3 => cases he
  | case4 cur hcur =>
    rw [List.mem_singleton.mp he] at hc
    exact .inl hc
  | case5 cur n rest ih =>
    -- an escaped character
    obtain h | h := ih he
    · obtain h | h := List.mem_append.mp h
      · exact .inl h
      · exact .inr (by simp [List.mem_singleton.mp h])
    · exact .inr (by simp [h])
  | case6 cur rest _ ih =>
    -- a comma: what was read so far is an item
    obtain rfl | he := List.mem_cons.mp he
    · exact .inl hc
    · obtain h | h := ih he
      · cases h
      · exact .inr (List.mem_cons_of_mem _ h)
  | case7 cur c' rest _ _ ih =>
    -- any other character
    obtain h | h := ih he
    · obtain h | h := List.mem_append.mp h
      · exact .inl h
      · exact .inr (by simp [List.mem_singleton.mp h])
    · exact .inr (List.mem_cons_of_mem _ h)

/-! ## The `exclude folders` line -/

/-- Whether the lines after a line are in a `[General]` group. -/
def groupAfter (inGeneral : Bool) (line : Line) : Bool :=
  if isGroup (trim line) then trim line = general else inGeneral

/-- The key and the value of an `exclude folders` line of a `[General]` group. -/
def keyEntry (inGeneral : Bool) (line : Line) : Option (Line × Line) :=
  if isGroup (trim line) || !inGeneral then none
  else
    match (trim line).splitFirst '=' with
    | (k, some v) => if isExcludeKey k then some (k, v) else none
    | (_, none) => none

/-- None of the lines is an `exclude folders` line of a `[General]` group. -/
def NoKey : Bool → List Line → Prop
  | _, [] => True
  | g, line :: rest => keyEntry g line = none ∧ NoKey (groupAfter g line) rest

/-- Either no line has the key, or there is a first one. -/
theorem noKey_or_exists (g : Bool) (all : List Line) :
    NoKey g all ∨ ∃ pre line post k v, all = pre ++ line :: post ∧ NoKey g pre ∧
      keyEntry (pre.foldl groupAfter g) line = some (k, v) := by
  induction all generalizing g with
  | nil => exact .inl trivial
  | cons line rest ih =>
    cases hkey : keyEntry g line with
    | some kv => exact .inr ⟨[], line, rest, kv.1, kv.2, rfl, trivial, hkey⟩
    | none =>
      obtain hrest | ⟨pre, line', post, k, v, rfl, hpre, hentry⟩ := ih (groupAfter g line)
      · exact .inl ⟨hkey, hrest⟩
      · exact .inr ⟨line :: pre, line', post, k, v, rfl, ⟨hkey, hpre⟩, hentry⟩

/-- Lines without the key, one part after the other. -/
theorem noKey_append {g : Bool} {pre post : List Line} :
    NoKey g (pre ++ post) ↔ NoKey g pre ∧ NoKey (pre.foldl groupAfter g) post := by
  induction pre generalizing g with
  | nil => simp [NoKey]
  | cons line pre ih => simp only [List.cons_append, NoKey, ih, List.foldl_cons, and_assoc]

/-- What an `exclude folders` line is made of. -/
theorem keyEntry_eq_some {g : Bool} {line k v : Line} (h : keyEntry g line = some (k, v)) :
    g = true ∧ isGroup (trim line) = false ∧ (trim line).splitFirst '=' = (k, some v) ∧
      isExcludeKey k = true := by
  unfold keyEntry at h
  split at h
  · cases h
  · rename_i hgroup
    split at h
    · rename_i heq
      split at h
      · rename_i hk
        cases h
        cases g with
        | false => simp at hgroup
        | true => exact ⟨rfl, by simpa using hgroup, heq, hk⟩
      · cases h
    · cases h

/-- The first line with the key decides. -/
theorem excludesFrom_cons (g : Bool) (line : Line) (rest : List Line) :
    excludesFrom g (line :: rest) =
      match keyEntry g line with
      | some (_, v) => splitList v
      | none => excludesFrom (groupAfter g line) rest := by
  rw [excludesFrom]
  unfold keyEntry groupAfter
  cases hgroup : isGroup (trim line) with
  | true => simp
  | false =>
    cases g with
    | false => simp
    | true =>
      simp only [Bool.or_false, Bool.false_eq_true, if_false, if_true, Bool.not_true]
      obtain ⟨k, v⟩ := (trim line).splitFirst '='
      cases v with
      | none => rfl
      | some v => cases hk : isExcludeKey k <;> simp [hk]

/-- Without the key nothing is excluded. -/
theorem excludesFrom_of_noKey {g : Bool} {all : List Line} (h : NoKey g all) : excludesFrom g all = [] := by
  induction all generalizing g with
  | nil => rfl
  | cons line rest ih =>
    rw [excludesFrom_cons, h.1]
    exact ih h.2

/-- With it, what its first line lists. -/
theorem excludesFrom_of_key {g : Bool} {pre post : List Line} {line k v : Line} (hpre : NoKey g pre)
    (hentry : keyEntry (pre.foldl groupAfter g) line = some (k, v)) :
    excludesFrom g (pre ++ line :: post) = splitList v := by
  induction pre generalizing g with
  | nil =>
    rw [List.nil_append, excludesFrom_cons]
    rw [List.foldl_nil] at hentry
    rw [hentry]
  | cons line' pre ih =>
    rw [List.cons_append, excludesFrom_cons, hpre.1]
    exact ih hpre.2 hentry

/-- A carriage return at the end of a line plays no part. -/
theorem keyEntry_stripCr (g : Bool) (line : Line) : keyEntry g (TextLines.stripCr line) = keyEntry g line := by
  unfold keyEntry
  rw [trim_stripCr]

/-- The reader does not see the carriage return at the end of a line. -/
theorem excludesFrom_map_stripCr (g : Bool) (all : List Line) :
    excludesFrom g (all.map TextLines.stripCr) = excludesFrom g all := by
  induction all generalizing g with
  | nil => rfl
  | cons line rest ih =>
    rw [List.map_cons, excludesFrom_cons, excludesFrom_cons, keyEntry_stripCr, ih]
    unfold groupAfter
    rw [trim_stripCr]

/-- What is excluded is read from the lines that were written. -/
theorem excludes_unlines {all : List Line} (h : ∀ l ∈ all, '\n' ∉ l) :
    excludes (unlines all) = excludesFrom false all := by
  unfold excludes
  by_cases hne : all = []
  · rw [hne, TextLines.lines_unlines_nil]
    decide
  · rw [TextLines.lines_unlines h hne, excludesFrom_map_stripCr]

/-! ## The edit -/

/-- The lines after an edit. -/
def edit (home : Option Line) (folder : Line) (add : Bool) (all : List Line) : List Line :=
  editFrom home folder add all 0 false none all

/-- The entries after an edit. -/
def editEntries (home : Option Line) (folder : Line) (add : Bool) (items : List Line) : List Line :=
  if add then
    if items.any fun e => sameFolder home e folder then items else items ++ [folder]
  else items.filter fun e => !sameFolder home e folder

/-- The last `[General]` line, or the one that was found before. -/
def lastGroup : Nat → Option Nat → List Line → Option Nat
  | _, group, [] => group
  | i, group, line :: rest =>
    lastGroup (i + 1) (if isGroup (trim line) && trim line = general then some i else group) rest

/-- What the loop writes is the edited list: nothing is taken out of one that the folder is added to. -/
theorem items_eq_editEntries {items : List Line}
    (h : add = true → (items.any fun e => sameFolder home e folder) = false) :
    (if add = true then (items.filter fun e => !sameFolder home e folder) ++ [folder]
      else items.filter fun e => !sameFolder home e folder) = editEntries home folder add items := by
  unfold editEntries
  cases add with
  | false => rfl
  | true =>
    have hnone := h rfl
    have hfilter : (items.filter fun e => !sameFolder home e folder) = items := by
      rw [List.filter_eq_self]
      intro e he
      simpa using List.any_eq_false.mp hnone e he
    rw [if_pos rfl, if_pos rfl, hnone, hfilter]
    rfl

/-- One line of the loop: it is edited if it has the key, and otherwise only moves the group. -/
theorem editFrom_cons (all : List Line) (i : Nat) (g : Bool) (group : Option Nat) (line : Line)
    (rest : List Line) :
    editFrom home folder add all i g group (line :: rest) =
      match keyEntry g line with
      | some (k, v) =>
        if add && (splitList v).any fun e => sameFolder home e folder then all
        else all.set i (trim k ++ '=' :: joinList (editEntries home folder add (splitList v)))
      | none =>
        editFrom home folder add all (i + 1) (groupAfter g line)
          (if isGroup (trim line) && trim line = general then some i else group) rest := by
  rw [editFrom]
  unfold keyEntry groupAfter
  dsimp only
  -- a group line, a line outside the group, and a line of the group
  cases hgroup : isGroup (trim line) with
  | true => simp
  | false =>
    cases g with
    | false => simp
    | true =>
      simp only [Bool.or_false, Bool.false_eq_true, if_false, Bool.not_true, Bool.false_and]
      obtain ⟨k, v⟩ := (trim line).splitFirst '='
      cases v with
      | none => rfl
      | some v =>
        -- a line with an equals sign is an entry of the key or of another one
        cases hk : isExcludeKey k with
        | false => simp [hk]
        | true =>
          simp only [hk, if_true]
          split
          · rfl
          · rename_i hany
            rw [items_eq_editEntries (by simpa using hany)]

/-- Without the key the loop comes to its end. -/
theorem editFrom_of_noKey {all rest : List Line} {i : Nat} {g : Bool} {group : Option Nat} (h : NoKey g rest) :
    editFrom home folder add all i g group rest = withoutKey folder add all (lastGroup i group rest) := by
  induction rest generalizing i g group with
  | nil => rfl
  | cons line rest ih =>
    rw [editFrom_cons, h.1]
    exact ih h.2

/-- With it, its first line is rewritten. -/
theorem editFrom_of_key {all pre post : List Line} {i : Nat} {g : Bool} {group : Option Nat} {line k v : Line}
    (hpre : NoKey g pre) (hentry : keyEntry (pre.foldl groupAfter g) line = some (k, v)) :
    editFrom home folder add all i g group (pre ++ line :: post) =
      if add && (splitList v).any fun e => sameFolder home e folder then all
      else all.set (i + pre.length)
        (trim k ++ '=' :: joinList (editEntries home folder add (splitList v))) := by
  induction pre generalizing i g group with
  | nil =>
    rw [List.nil_append, editFrom_cons]
    rw [List.foldl_nil] at hentry
    rw [hentry]
    rfl
  | cons line' pre ih =>
    have hlen : i + (line' :: pre).length = i + 1 + pre.length := by
      rw [List.length_cons]
      omega
    rw [List.cons_append, editFrom_cons, hpre.1, hlen]
    exact ih hpre.2 hentry

/-! ## Written lines -/

theorem trim_trim (l : Line) : trim (trim l) = trim l := List.strip_strip l

theorem isExcludeKey_trim (k : Line) : isExcludeKey (trim k) = isExcludeKey k := by
  unfold isExcludeKey
  rw [trim_trim]

/-- A line that is written for a key is read as that key, with the value it was written with. -/
theorem keyEntry_written {k v : Line} (htrim : trim k = k) (hkey : isExcludeKey k = true) (heq : '=' ∉ k)
    (hv : v.getLast?.any isWhitespace = false) : keyEntry true (k ++ '=' :: v) = some (k, v) := by
  have hne : k ≠ [] := by
    intro hk
    rw [hk] at hkey
    exact absurd hkey (by decide)
  -- neither end of the line is white space
  have hline : trim (k ++ '=' :: v) = k ++ '=' :: v := by
    unfold trim
    rw [List.strip_eq_self_iff]
    constructor
    · have hhead := (List.strip_eq_self_iff.mp htrim).1
      rwa [List.head?_append_of_ne_nil _ hne]
    · rw [List.getLast?_append, List.getLast?_cons]
      cases hlast : v.getLast? with
      | none => rfl
      | some c =>
        rw [hlast] at hv
        exact hv
  -- it does not begin with a bracket, having an equals sign
  have hgroup : isGroup (k ++ '=' :: v) = false := by
    unfold isGroup
    simp
  unfold keyEntry
  rw [hline, hgroup, List.splitFirst_append heq]
  simp [hkey]

/-- The new entry is read back. -/
theorem keyEntry_newEntry (h : EndsPlain [folder]) :
    keyEntry true (newEntry folder) = some (excludeKey ++ "[$e]".toList, joinList [folder]) := by
  have hsplit : newEntry folder = (excludeKey ++ "[$e]".toList) ++ '=' :: joinList [folder] := by
    unfold newEntry
    rw [List.append_assoc, List.append_assoc]
    rfl
  rw [hsplit]
  exact keyEntry_written (by decide) (by decide) (by decide) (getLast?_joinList h)

/-- So is the one that replaces an entry. -/
theorem keyEntry_rewritten {g : Bool} {line k v : Line} {items : List Line} (h : keyEntry g line = some (k, v))
    (hitems : EndsPlain items) :
    keyEntry g (trim k ++ '=' :: joinList items) = some (trim k, joinList items) := by
  obtain ⟨rfl, -, hsplit, hkey⟩ := keyEntry_eq_some h
  refine keyEntry_written (trim_trim k) (by rw [isExcludeKey_trim, hkey]) ?_ (getLast?_joinList hitems)
  exact fun hmem => List.notMem_of_splitFirst hsplit ((trim_sublist k).subset hmem)

theorem sameFolder_self (a : Line) : sameFolder home a a = true := by
  unfold sameFolder
  exact decide_eq_true rfl

/-- The group that the loop remembers is the last `[General]` before the end, if there is one. -/
theorem lastGroup_spec (i : Nat) (group : Option Nat) (all : List Line) :
    lastGroup i group all = group ∧ (∀ line ∈ all, trim line ≠ general) ∨
      ∃ pre header post, all = pre ++ header :: post ∧ trim header = general ∧
        lastGroup i group all = some (i + pre.length) := by
  -- the induction is over the lines, with the group found so far
  induction all generalizing i group with
  | nil => exact .inl ⟨rfl, nofun⟩
  | cons line rest ih =>
    have hgeneral : (isGroup (trim line) && trim line = general) = decide (trim line = general) := by
      by_cases h : trim line = general
      · rw [h]
        decide
      · simp [h]
    rw [lastGroup, hgeneral]
    obtain ⟨heq, hrest⟩ | ⟨pre, header, post, rfl, hheader, heq⟩ :=
      ih (i + 1) (if decide (trim line = general) = true then some i else group)
    · -- no such group behind this line: it is the last one itself, or there is none
      by_cases h : trim line = general
      · refine .inr ⟨[], line, rest, rfl, h, ?_⟩
        rw [heq]
        simp [h]
      · refine .inl ⟨?_, ?_⟩
        · rw [heq]
          simp [h]
        · simpa [h] using hrest
    · refine .inr ⟨line :: pre, header, post, rfl, hheader, ?_⟩
      rw [heq, List.length_cons]
      congr 1
      omega

/-- What an edit makes of the lines: it changes the first `exclude folders` line of a `[General]` group, or
    adds one where there is none, with a group if there is none. Of no lines it makes an empty one. -/
inductive EditedLines (folder : Line) (add : Bool) (all : List Line) : List Line → Prop where
  | changed (pre post : List Line) (line line' : Line) : all = pre ++ line :: post → NoKey false pre →
      (keyEntry (pre.foldl groupAfter false) line).isSome = true →
        EditedLines folder add all (pre ++ line' :: post)
  | added (pre post : List Line) (header : Line) : NoKey false all → add = true → all = pre ++ header :: post →
      trim header = general → EditedLines folder add all (pre ++ header :: newEntry folder :: post)
  | grouped (blank : List Line) : NoKey false all → add = true → (∀ line ∈ all, trim line ≠ general) →
      blank = [] ∨ blank = [[]] → EditedLines folder add all (all ++ blank ++ [general, newEntry folder])
  | kept : NoKey false all → add = false → EditedLines folder add all all
  | emptied : all = [] → add = false → EditedLines folder add all [[]]

/-- An edit where there is an `exclude folders` line. -/
theorem edit_of_key {all pre post : List Line} {line k v : Line} (hall : all = pre ++ line :: post)
    (hpre : NoKey false pre) (hentry : keyEntry (pre.foldl groupAfter false) line = some (k, v)) :
    edit home folder add all =
      if add && (splitList v).any fun e => sameFolder home e folder then all
      else pre ++ (trim k ++ '=' :: joinList (editEntries home folder add (splitList v))) :: post := by
  unfold edit
  nth_rewrite 2 [hall]
  rw [editFrom_of_key hpre hentry]
  split
  · rfl
  · rw [hall, Nat.zero_add]
    simp

theorem trim_general : trim general = general := by decide

/-- A group line is no entry. -/
theorem keyEntry_general (g : Bool) : keyEntry g general = none := by
  cases g <;> decide

theorem keyEntry_blank (g : Bool) : keyEntry g [] = none := by
  cases g <;> decide

/-- Nor is one with white space around it. -/
theorem keyEntry_of_trim {g : Bool} {header : Line} (h : trim header = general) : keyEntry g header = none := by
  have hgroup : isGroup general = true := by decide
  unfold keyEntry
  rw [h, hgroup]
  simp

/-- Behind a `[General]` line the group is the general one. -/
theorem groupAfter_of_trim {g : Bool} {header : Line} (h : trim header = general) :
    groupAfter g header = true := by
  have hgroup : isGroup general = true := by decide
  unfold groupAfter
  rw [h, hgroup]
  simp

/-- A line that is inserted behind the header. -/
theorem insertIdx_after (pre post : List Line) (header line : Line) :
    (pre ++ header :: post).insertIdx (pre.length + 1) line = pre ++ header :: line :: post := by
  induction pre with
  | nil => rfl
  | cons l pre ih => rw [List.cons_append, List.length_cons, List.insertIdx_succ_cons, ih, List.cons_append]

/-- Where there is no `exclude folders` line, the new one is added in a `[General]` group. -/
theorem edit_of_noKey {all : List Line} (h : NoKey false all) :
    ∃ pre post, edit home folder true all = pre ++ newEntry folder :: post ∧ NoKey false pre ∧
      pre.foldl groupAfter false = true ∧ EditedLines folder true all (edit home folder true all) := by
  have hedit : edit home folder true all = withoutKey folder true all (lastGroup 0 none all) := by
    unfold edit
    exact editFrom_of_noKey h
  rw [hedit]
  -- no group to put it in, so that the group is written too
  obtain ⟨hnone, hall⟩ | ⟨pre, header, post, hsplit, hheader, hsome⟩ := lastGroup_spec 0 none all
  · rw [hnone]
    obtain ⟨blank, hblank, hwith⟩ : ∃ blank : List Line, (blank = [] ∨ blank = [[]]) ∧
        withoutKey folder true all none = all ++ blank ++ [general, newEntry folder] := by
      unfold withoutKey
      rw [if_pos rfl]
      dsimp only
      split
      · exact ⟨[[]], .inr rfl, rfl⟩
      · exact ⟨[], .inl rfl, by rw [List.append_nil]⟩
    rw [hwith]
    refine ⟨all ++ blank ++ [general], [], by simp, ?_, ?_, .grouped blank h rfl hall hblank⟩
    · rw [noKey_append, noKey_append]
      refine ⟨⟨h, ?_⟩, keyEntry_general _, trivial⟩
      obtain rfl | rfl := hblank
      · trivial
      · exact ⟨keyEntry_blank _, trivial⟩
    · rw [List.foldl_append, List.foldl_cons, List.foldl_nil]
      exact groupAfter_of_trim trim_general
  · -- the entry goes right behind the header
    have hpre : NoKey false pre := by
      rw [hsplit, noKey_append] at h
      exact h.1
    have hwith : withoutKey folder true all (lastGroup 0 none all) =
      pre ++ header :: newEntry folder :: post := by
      rw [hsome, hsplit]
      unfold withoutKey
      rw [if_pos rfl, Nat.zero_add]
      exact insertIdx_after pre post header _
    rw [hwith]
    refine ⟨pre ++ [header], post, by simp, ?_, ?_, .added pre post header h rfl hsplit hheader⟩
    · rw [noKey_append]
      exact ⟨hpre, keyEntry_of_trim hheader, trivial⟩
    · rw [List.foldl_append]
      exact groupAfter_of_trim hheader

/-- Where there is no `exclude folders` line, a removal changes nothing. -/
theorem edit_of_noKey_false {all : List Line} (h : NoKey false all) : edit home folder false all = all := by
  unfold edit
  rw [editFrom_of_noKey h]
  rfl

/-- An edit leaves every other line as it is. -/
theorem edited_edit (all : List Line) : EditedLines folder add all (edit home folder add all) := by
  obtain h | ⟨pre, line, post, k, v, hall, hpre, hentry⟩ := noKey_or_exists false all
  · cases add with
    | false =>
      rw [edit_of_noKey_false h]
      exact .kept h rfl
    | true =>
      obtain ⟨-, -, -, -, -, hedited⟩ := edit_of_noKey h
      exact hedited
  · have hsome : (keyEntry (pre.foldl groupAfter false) line).isSome = true := by rw [hentry]; rfl
    rw [edit_of_key hall hpre hentry]
    split
    · rw [hall]
      exact .changed pre post line line rfl hpre hsome
    · exact .changed pre post line _ hall hpre hsome

/-- The file is emptied only where it was empty. -/
theorem edit_eq_nil {all : List Line} (h : edit home folder add all = []) : all = [] ∧ add = false := by
  have hedited : EditedLines folder add all (edit home folder add all) := edited_edit all
  generalize edit home folder add all = new at h hedited
  cases hedited with
  | changed | added | grouped => simp at h
  | kept _ hadd => exact ⟨h, hadd⟩
  | emptied => cases h

/-- The edit writes a list, which ends so that it is read back. -/
def WritesPlain (home : Option Line) (folder : Line) (add : Bool) (items : List Line) : Prop :=
  (add && items.any fun e => sameFolder home e folder) = false → EndsPlain (editEntries home folder add items)

instance (home : Option Line) (folder : Line) (add : Bool) (items : List Line) :
    Decidable (WritesPlain home folder add items) := inferInstanceAs (Decidable (_ → _))

/-- A folder that is already excluded is not added again. -/
theorem editEntries_of_any {items : List Line}
    (h : (add && items.any fun e => sameFolder home e folder) = true) :
    editEntries home folder add items = items := by
  rw [Bool.and_eq_true] at h
  unfold editEntries
  rw [if_pos h.1, if_pos h.2]

theorem WritesPlain.new (h : WritesPlain home folder true []) : EndsPlain [folder] := h rfl

/-- The entries after an edit of the lines. -/
theorem excludesFrom_edit {all : List Line} (h : WritesPlain home folder add (excludesFrom false all)) :
    excludesFrom false (edit home folder add all) = editEntries home folder add (excludesFrom false all) := by
  -- without the key only adding writes a line; with it the first line is rewritten
  obtain hno | ⟨pre, line, post, k, v, hall, hpre, hentry⟩ := noKey_or_exists false all
  · rw [excludesFrom_of_noKey hno] at h ⊢
    cases add with
    | false =>
      rw [edit_of_noKey_false hno, excludesFrom_of_noKey hno]
      rfl
    | true =>
      obtain ⟨pre, post, hedit, hpre, hgroup, -⟩ := edit_of_noKey hno
      have hentry : keyEntry (pre.foldl groupAfter false) (newEntry folder) =
          some (excludeKey ++ "[$e]".toList, joinList [folder]) := by
        rw [hgroup]
        exact keyEntry_newEntry h.new
      rw [hedit, excludesFrom_of_key hpre hentry, h.new.splitList]
      rfl
  · have hitems : excludesFrom false all = splitList v := by
      rw [hall]
      exact excludesFrom_of_key hpre hentry
    rw [edit_of_key hall hpre hentry]
    rw [hitems] at h ⊢
    split
    · rename_i hany
      rw [editEntries_of_any hany, hitems]
    · rename_i hany
      have hplain := h (by simpa using hany)
      rw [excludesFrom_of_key hpre (keyEntry_rewritten hentry hplain), hplain.splitList]

/-- The folder that was added is found again. -/
theorem any_concat_self (items : List Line) :
    ((items ++ [folder]).any fun e => sameFolder home e folder) = true := by
  rw [List.any_append]
  simp [sameFolder_self]

/-- An edited list is not edited again. -/
theorem editEntries_idem (items : List Line) :
    editEntries home folder add (editEntries home folder add items) = editEntries home folder add items := by
  cases add with
  | false =>
    unfold editEntries
    simp
  | true =>
    cases hany : items.any fun e => sameFolder home e folder with
    | true =>
      have hsame : editEntries home folder true items = items := editEntries_of_any (by rw [hany]; rfl)
      rw [hsame, hsame]
    | false =>
      have hadded : editEntries home folder true items = items ++ [folder] := by
        unfold editEntries
        rw [if_pos rfl, hany]
        rfl
      rw [hadded]
      exact editEntries_of_any (by rw [any_concat_self]; rfl)

/-- Edited lines are not edited again. -/
theorem edit_edit {all : List Line} (h : WritesPlain home folder add (excludesFrom false all)) :
    edit home folder add (edit home folder add all) = edit home folder add all := by
  obtain hno | ⟨pre, line, post, k, v, hall, hpre, hentry⟩ := noKey_or_exists false all
  · rw [excludesFrom_of_noKey hno] at h
    cases add with
    | false =>
      rw [edit_of_noKey_false hno, edit_of_noKey_false hno]
    | true =>
      obtain ⟨pre, post, hedit, hpre, hgroup, -⟩ := edit_of_noKey hno
      have hentry : keyEntry (pre.foldl groupAfter false) (newEntry folder) =
          some (excludeKey ++ "[$e]".toList, joinList [folder]) := by
        rw [hgroup]
        exact keyEntry_newEntry h.new
      -- the entry that the first edit wrote has the folder
      have hany : (splitList (joinList [folder])).any (fun e => sameFolder home e folder) = true := by
        rw [h.new.splitList]
        exact any_concat_self []
      rw [edit_of_key hedit hpre hentry, hany]
      rfl
  · have hitems : excludesFrom false all = splitList v := by
      rw [hall]
      exact excludesFrom_of_key hpre hentry
    rw [hitems] at h
    -- either the first edit changed nothing, or it wrote a line that the second writes again
    by_cases hany : (add && (splitList v).any fun e => sameFolder home e folder) = true
    · have hedit : edit home folder add all = all := by
        rw [edit_of_key hall hpre hentry, if_pos hany]
      rw [hedit, hedit]
    · have hedit : edit home folder add all =
          pre ++ (trim k ++ '=' :: joinList (editEntries home folder add (splitList v))) :: post := by
        rw [edit_of_key hall hpre hentry, if_neg hany]
      have hplain := h (by simpa using hany)
      rw [edit_of_key hedit hpre (keyEntry_rewritten hentry hplain), hplain.splitList,
        editEntries_idem, trim_trim]
      split
      · rfl
      · exact hedit.symm

/-! ## Texts -/

/-- What holds of every line after an edit. -/
theorem forall_mem_edit {P : Line → Prop} {all : List Line} (hall : ∀ l ∈ all, P l) (hblank : P [])
    (hgeneral : P general) (hnew : add = true → excludesFrom false all = [] → P (newEntry folder))
    (hkey : ∀ g k v, ∀ l ∈ all, keyEntry g l = some (k, v) → excludesFrom false all = splitList v →
      (add && (splitList v).any fun e => sameFolder home e folder) = false →
      P (trim k ++ '=' :: joinList (editEntries home folder add (splitList v)))) :
    ∀ l ∈ edit home folder add all, P l := by
  intro l hl
  obtain hno | ⟨pre, line, post, k, v, hsplit, hpre, hentry⟩ := noKey_or_exists false all
  · -- without the key: by what the edit is known to have done
    have hedited : EditedLines folder add all (edit home folder add all) := edited_edit all
    have hnone := excludesFrom_of_noKey hno
    generalize edit home folder add all = new at hedited hl
    cases hedited with
    | changed pre post line line' hsplit hpre hsome =>
      rw [hsplit, noKey_append] at hno
      rw [hno.2.1] at hsome
      cases hsome
    | added pre post header _ hadd hsplit _ =>
      have hmem : l ∈ pre ++ header :: post ∨ l = newEntry folder := by
        simp only [List.mem_append, List.mem_cons] at hl ⊢
        tauto
      obtain hmem | rfl := hmem
      · exact hall l (hsplit ▸ hmem)
      · exact hnew hadd hnone
    | grouped blank _ hadd _ hb =>
      simp only [List.mem_append, List.mem_cons, List.not_mem_nil, or_false] at hl
      obtain (hl | hl) | rfl | rfl := hl
      · exact hall l hl
      · obtain rfl | rfl := hb
        · cases hl
        · rw [List.mem_singleton.mp hl]
          exact hblank
      · exact hgeneral
      · exact hnew hadd hnone
    | kept => exact hall l hl
    | emptied =>
      rw [List.mem_singleton.mp hl]
      exact hblank
  · -- with the key: the lines before it and behind it are kept
    have hitems : excludesFrom false all = splitList v := by
      rw [hsplit]
      exact excludesFrom_of_key hpre hentry
    rw [edit_of_key hsplit hpre hentry] at hl
    split at hl
    · exact hall l hl
    · rename_i hany
      obtain hl | hl := List.mem_append.mp hl
      · exact hall l (by rw [hsplit]; exact List.mem_append_left _ hl)
      · obtain rfl | hl := List.mem_cons.mp hl
        · exact hkey _ k v line (by simp [hsplit]) hentry hitems (by simpa using hany)
        · exact hall l (by rw [hsplit]; exact List.mem_append_right _ (List.mem_cons_of_mem _ hl))

/-- Joined items have no line break that the items do not have. -/
theorem notMem_joinList {items : List Line} (h : ∀ i ∈ items, '\n' ∉ i) : '\n' ∉ joinList items := by
  intro hmem
  obtain ⟨i, hi, hc⟩ | hc | hc := mem_joinList hmem
  · exact h i hi hc
  · exact absurd hc (by decide)
  · exact absurd hc (by decide)

/-- An edited list holds its old items and the folder. -/
theorem mem_editEntries {items : List Line} {i : Line} (h : i ∈ editEntries home folder add items) :
    i ∈ items ∨ i = folder := by
  unfold editEntries at h
  split at h
  · split at h
    · exact .inl h
    · simpa using h
  · exact .inl (List.mem_of_mem_filter h)

/-- The lines that are written are still lines. -/
theorem notMem_edit {all : List Line} (hall : ∀ l ∈ all, '\n' ∉ l) (hfolder : '\n' ∉ folder) :
    ∀ l ∈ edit home folder add all, '\n' ∉ l := by
  refine forall_mem_edit hall (by decide) (by decide) (fun _ _ => ?_) (fun g k v l hl hentry _ _ => ?_)
  · have hjoin : '\n' ∉ joinList [folder] := notMem_joinList (by simpa using hfolder)
    have hkey : '\n' ∉ excludeKey ++ "[$e]=".toList := by decide
    unfold newEntry
    rw [List.mem_append, not_or]
    exact ⟨hkey, hjoin⟩
  · obtain ⟨-, -, hsplit, -⟩ := keyEntry_eq_some hentry
    have hline : '\n' ∉ trim l := fun hmem => hall l hl ((trim_sublist l).subset hmem)
    rw [List.eq_of_splitFirst hsplit, List.mem_append, List.mem_cons, not_or, not_or] at hline
    have hjoin : '\n' ∉ joinList (editEntries home folder add (splitList v)) := by
      refine notMem_joinList fun i hi hc => ?_
      obtain hi | rfl := mem_editEntries hi
      · obtain h | h := mem_of_mem_splitListFrom hi hc
        · cases h
        · exact hline.2.2 h
      · exact hfolder hc
    rw [List.mem_append, List.mem_cons, not_or, not_or]
    exact ⟨fun hmem => hline.1 ((trim_sublist k).subset hmem), by decide, hjoin⟩

/-- A written line does not end in a carriage return. -/
theorem getLast?_written {k v : Line} (h : v.getLast?.any isWhitespace = false) :
    (k ++ '=' :: v).getLast? ≠ some '\r' := by
  rw [List.getLast?_append, List.getLast?_cons]
  intro hlast
  cases hv : v.getLast? with
  | none =>
    rw [hv] at hlast
    cases hlast
  | some c =>
    rw [hv] at h hlast
    cases hlast
    exact absurd h (by decide)

/-- Nor does any line of the edited file, where none did. -/
theorem getLast?_edit {all : List Line} (hall : ∀ l ∈ all, l.getLast? ≠ some '\r')
    (h : WritesPlain home folder add (excludesFrom false all)) :
    ∀ l ∈ edit home folder add all, l.getLast? ≠ some '\r' := by
  refine forall_mem_edit hall (by decide) (by decide) (fun hadd hnone => ?_)
    (fun g k v l hl hentry hitems hany => ?_)
  · rw [hnone] at h
    subst hadd
    have hsplit : newEntry folder = (excludeKey ++ "[$e]".toList) ++ '=' :: joinList [folder] := by
      unfold newEntry
      rw [List.append_assoc, List.append_assoc]
      rfl
    rw [hsplit]
    exact getLast?_written (getLast?_joinList h.new)
  · rw [hitems] at h
    exact getLast?_written (getLast?_joinList (h hany))

/-- The edited file is read back line by line. -/
theorem lines_unlines_edit {all : List Line} (hall : ∀ l ∈ all, '\n' ∉ l) (hfolder : '\n' ∉ folder)
    (hcr : ∀ l ∈ all, l.getLast? ≠ some '\r') (h : WritesPlain home folder add (excludesFrom false all))
    (hne : edit home folder add all ≠ []) :
    TextLines.lines (unlines (edit home folder add all)) = edit home folder add all := by
  rw [TextLines.lines_unlines (notMem_edit hall hfolder) hne, List.map_congr_left, List.map_id]
  intro l hl
  exact TextLines.stripCr_of_getLast? (getLast?_edit hcr h l hl)

/-- The entries after an edit of the text. -/
theorem excludes_withExclude {rc : Line} (hfolder : '\n' ∉ folder)
    (h : WritesPlain home folder add (excludes rc)) :
    excludes (withExclude home folder add rc) = editEntries home folder add (excludes rc) := by
  have hlines : ∀ l ∈ edit home folder add (TextLines.lines rc), '\n' ∉ l :=
    notMem_edit (fun _ hl => TextLines.notMem_of_mem_lines hl) hfolder
  exact (excludes_unlines hlines).trans (excludesFrom_edit h)

/-- What an edit does. A line that ends in a carriage return of its own is not looked at, as it loses it. -/
structure EditsOneEntry (home : Option Line) (folder : Line) (add : Bool) (rc : Line) : Prop where
  lines : (∀ l ∈ TextLines.lines rc, l.getLast? ≠ some '\r') →
    EditedLines folder add (TextLines.lines rc) (TextLines.lines (withExclude home folder add rc))
  entries : excludes (withExclude home folder add rc) = editEntries home folder add (excludes rc)
  twice : (∀ l ∈ TextLines.lines rc, l.getLast? ≠ some '\r') →
    withExclude home folder add (withExclude home folder add rc) = withExclude home folder add rc
  undone : add = true → (∀ e ∈ excludes rc, sameFolder home e folder = false) → EndsPlain (excludes rc) →
    excludes (withExclude home folder false (withExclude home folder true rc)) = excludes rc

/-- An edit changes the entries of one folder and no other line, if the list that it writes is read back as it
    is written. -/
theorem with_exclude_edits_one_entry (home : Option Line) (folder : Line) (add : Bool) (rc : Line)
    (hfolder : '\n' ∉ folder) (h : WritesPlain home folder add (excludes rc)) :
    EditsOneEntry home folder add rc := by
  have hlines : ∀ l ∈ TextLines.lines rc, '\n' ∉ l := fun _ hl => TextLines.notMem_of_mem_lines hl
  constructor
  · -- only one entry differs
    intro hcr
    show EditedLines folder add _ (TextLines.lines (unlines (edit home folder add (TextLines.lines rc))))
    by_cases hne : edit home folder add (TextLines.lines rc) = []
    · obtain ⟨hnil, hadd⟩ := edit_eq_nil hne
      rw [hne, TextLines.lines_unlines_nil]
      exact .emptied hnil hadd
    · rw [lines_unlines_edit hlines hfolder hcr h hne]
      exact edited_edit _
  · exact excludes_withExclude hfolder h
  · -- editing again changes nothing
    intro hcr
    show unlines (edit home folder add
      (TextLines.lines (unlines (edit home folder add (TextLines.lines rc))))) =
      unlines (edit home folder add (TextLines.lines rc))
    by_cases hne : edit home folder add (TextLines.lines rc) = []
    · obtain ⟨-, rfl⟩ := edit_eq_nil hne
      have hblank : edit home folder false [[]] = [[]] := edit_of_noKey_false ⟨keyEntry_blank _, trivial⟩
      rw [hne, TextLines.lines_unlines_nil, hblank]
      rfl
    · rw [lines_unlines_edit hlines hfolder hcr h hne, edit_edit h]
  · -- adding and removing gives the old list
    intro hadd hnone hplain
    subst hadd
    have hany : ((excludes rc).any fun e => sameFolder home e folder) = false := by
      rw [List.any_eq_false]
      intro e he
      rw [hnone e he]
      decide
    have hadded : excludes (withExclude home folder true rc) = excludes rc ++ [folder] := by
      rw [excludes_withExclude hfolder h]
      unfold editEntries
      rw [if_pos rfl, hany]
      rfl
    have hremoved : editEntries home folder false (excludes rc ++ [folder]) = excludes rc := by
      unfold editEntries
      rw [if_neg (by decide), List.filter_append]
      have hkeep : (excludes rc).filter (fun e => !sameFolder home e folder) = excludes rc := by
        rw [List.filter_eq_self]
        intro e he
        rw [hnone e he]
        rfl
      rw [hkeep]
      simp [sameFolder_self]
    have hwrites : WritesPlain home folder false (excludes (withExclude home folder true rc)) := by
      intro _
      rw [hadded, hremoved]
      exact hplain
    rw [excludes_withExclude hfolder hwrites, hadded, hremoved]

/-- The configuration of a user with exclusions of their own. -/
def userConfig : Line :=
  "[General]\nexclude folders[$e]=$HOME/.cache/,/data/tmp/\n".toList

/-- The hypotheses hold of a user's configuration. -/
theorem with_exclude_edits_one_entry_add :
    '\n' ∉ "/home/u/Nextcloud/".toList ∧
      WritesPlain none "/home/u/Nextcloud/".toList true (excludes userConfig) ∧
      EditsOneEntry none "/home/u/Nextcloud/".toList true userConfig := by
  have hfolder : '\n' ∉ "/home/u/Nextcloud/".toList := by decide
  have hplain : WritesPlain none "/home/u/Nextcloud/".toList true (excludes userConfig) := by decide +kernel
  exact ⟨hfolder, hplain, with_exclude_edits_one_entry _ _ _ _ hfolder hplain⟩

/-- A folder that is there with a slash at its end is not added without it. -/
theorem edits_touch_more_than_one_entry :
    excludes (withExclude none "/m".toList true "[General]\nexclude folders=/m/\n".toList) = ["/m/".toList] ∧
      "/m".toList ∉ excludes "[General]\nexclude folders=/m/\n".toList := by
  decide +kernel

/-- An entry that ends in a space loses it when it becomes the last one, and a line that ends in a
    carriage return of its own loses that. -/
example :
    excludes (withExclude none "/b".toList false "[General]\nexclude folders=/a ,/b\n".toList) =
        ["/a".toList] ∧
      TextLines.lines (withExclude none "/b".toList false "a\r\r\n".toList) = ["a".toList] := by
  decide +kernel

end Baloo

end Ncrs
