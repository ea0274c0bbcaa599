import Ncrs.Native.ConflictCopy
import Ncrs.ForStd.List

/-!
# Conflicted copies do not replace anything

A conflicted-copy name tells the path and the second it was made for, so the names of different
paths or seconds differ. Nothing makes two conflicts of one path in one second differ, and the
requests under the name have no condition: there the second version replaces the first.

## Key results

- `chronoTimestamp_injective`: the text of a clock tells the second
- `conflictNameAt_inj`: the name tells the path and the second
- `CopyWorld.Safe.step`: what a request under a name keeps while all names are new
- `conflicted_copies_replace_nothing`: the same for every run
- `second_copy_replaces_first`: two conflicts of one path in one second
-/

namespace Ncrs

/-! ## The clock -/

/-- The days before the year `y`, counted from the year `y₀`. -/
def daysBetween (y₀ : Nat) : Nat → Nat
  | 0 => 0
  | n + 1 => daysBetween y₀ n + daysInYear (y₀ + n)

/-- The days of one more year. -/
theorem daysBetween_succ_left (y₀ n : Nat) :
    daysBetween y₀ (n + 1) = daysInYear y₀ + daysBetween (y₀ + 1) n := by
  induction n with
  | zero => simp [daysBetween]
  | succ n ih =>
    rw [daysBetween, ih, daysBetween, Nat.add_assoc y₀ 1 n, Nat.add_comm 1 n]
    omega

/-- The loop over the years only moves whole years out of the days. -/
theorem countYears_spec (fuel y remaining : Nat) :
    ∃ n, (countYears fuel y remaining).1 = y + n ∧
      daysBetween y n + (countYears fuel y remaining).2 = remaining := by
  induction fuel generalizing y remaining with
  | zero => exact ⟨0, rfl, by simp [daysBetween, countYears]⟩
  | succ fuel ih =>
    unfold countYears
    split
    · exact ⟨0, rfl, by simp [daysBetween]⟩
    · obtain ⟨n, hyear, hdays⟩ := ih (y + 1) (remaining - daysInYear y)
      refine ⟨n + 1, by omega, ?_⟩
      rw [daysBetween_succ_left]
      omega

/-- The loop over the months only moves whole months out of the days. -/
theorem countMonths_spec (months : List Nat) (m remaining : Nat) :
    ∃ n, (countMonths months m remaining).1 = m + n ∧
      (months.take n).sum + (countMonths months m remaining).2 = remaining := by
  induction months generalizing m remaining with
  | nil => exact ⟨0, rfl, by simp [countMonths]⟩
  | cons md rest ih =>
    unfold countMonths
    split
    · exact ⟨0, rfl, by simp⟩
    · obtain ⟨n, hmonth, hdays⟩ := ih (m + 1) (remaining - md)
      refine ⟨n + 1, by omega, ?_⟩
      rw [List.take_succ_cons, List.sum_cons]
      omega

/-- A padded number is zeros and digits. -/
theorem toList_zeroPad (w n : Nat) : (zeroPad w n).toList =
    List.replicate (w - (Nat.toDigits 10 n).length) '0' ++ Nat.toDigits 10 n := by
  simp [zeroPad]

/-- A padded number reads as the number. -/
theorem zeroPad_inj {w m n : Nat} (h : (zeroPad w m).toList = (zeroPad w n).toList) : m = n := by
  have hread : ∀ n, Nat.ofDigitChars 10 (zeroPad w n).toList 0 = n := by
    intro n
    rw [toList_zeroPad, Nat.ofDigitChars_append, Nat.ofDigitChars_replicate_zero, Nat.mul_zero,
      Nat.ofDigitChars_ten_toDigits]
  rw [← hread m, h, hread n]

/-- A padded number has only digits. -/
theorem isDigit_of_mem_zeroPad {w n : Nat} {c : Char} (h : c ∈ (zeroPad w n).toList) :
    c.isDigit = true := by
  rw [toList_zeroPad, List.mem_append] at h
  obtain h | h := h
  · rw [List.eq_of_mem_replicate h]
    decide
  · exact Nat.isDigit_of_mem_toDigits (by decide) (by decide) h

/-- What is no digit stands in no padded number. -/
theorem not_mem_zeroPad {w n : Nat} {c : Char} (hc : c.isDigit = false) :
    c ∉ (zeroPad w n).toList := by
  intro h
  rw [isDigit_of_mem_zeroPad h] at hc
  cases hc

/-- The fields of a clock's text. -/
theorem toList_chronoTimestamp (secs : Nat) :
    let year := countYears (secs / 86400) 1970 (secs / 86400)
    let month := countMonths (monthDays year.1) 0 year.2
    (chronoTimestamp secs).toList =
      (zeroPad 4 year.1).toList ++ '-' :: ((zeroPad 2 (month.1 + 1)).toList ++ '-' ::
        ((zeroPad 2 (month.2 + 1)).toList ++ ' ' :: ((zeroPad 2 (secs % 86400 / 3600)).toList ++ '-' ::
          ((zeroPad 2 (secs % 86400 % 3600 / 60)).toList ++ '-' ::
            (zeroPad 2 (secs % 86400 % 60)).toList)))) := by
  simp [chronoTimestamp, ToString.toString]

/-- A year, the month in it and the day in that give the days. -/
theorem days_of_date {days days' : Nat}
    (hyear : (countYears days 1970 days).1 = (countYears days' 1970 days').1)
    (hmonth : (countMonths (monthDays (countYears days 1970 days).1) 0
        (countYears days 1970 days).2).1 =
      (countMonths (monthDays (countYears days' 1970 days').1) 0 (countYears days' 1970 days').2).1)
    (hday : (countMonths (monthDays (countYears days 1970 days).1) 0
        (countYears days 1970 days).2).2 =
      (countMonths (monthDays (countYears days' 1970 days').1) 0
        (countYears days' 1970 days').2).2) : days = days' := by
  obtain ⟨n, hn, hdays⟩ := countYears_spec days 1970 days
  obtain ⟨n', hn', hdays'⟩ := countYears_spec days' 1970 days'
  generalize countYears days 1970 days = year at *
  generalize countYears days' 1970 days' = year' at *
  obtain ⟨k, hk, hrest⟩ := countMonths_spec (monthDays year.1) 0 year.2
  obtain ⟨k', hk', hrest'⟩ := countMonths_spec (monthDays year'.1) 0 year'.2
  have hnn : n = n' := by omega
  have hkk : k = k' := by omega
  subst hnn hkk
  rw [hday, hyear] at hrest
  omega

/-- The text of a clock tells the second. -/
theorem chronoTimestamp_injective {secs secs' : Nat}
    (h : chronoTimestamp secs = chronoTimestamp secs') : secs = secs' := by
  have hchars := congrArg String.toList h
  rw [toList_chronoTimestamp, toList_chronoTimestamp] at hchars
  have hdash : ∀ w n, '-' ∉ (zeroPad w n).toList := fun w n => not_mem_zeroPad (by decide)
  have hblank : ∀ w n, ' ' ∉ (zeroPad w n).toList := fun w n => not_mem_zeroPad (by decide)
  obtain ⟨hyear, hchars⟩ := List.append_cons_inj_of_not_mem (hdash _ _) (hdash _ _) hchars
  obtain ⟨hmonth, hchars⟩ := List.append_cons_inj_of_not_mem (hdash _ _) (hdash _ _) hchars
  obtain ⟨hday, hchars⟩ := List.append_cons_inj_of_not_mem (hblank _ _) (hblank _ _) hchars
  obtain ⟨hhour, hchars⟩ := List.append_cons_inj_of_not_mem (hdash _ _) (hdash _ _) hchars
  obtain ⟨hminute, hsecond⟩ := List.append_cons_inj_of_not_mem (hdash _ _) (hdash _ _) hchars
  have hdays := days_of_date (zeroPad_inj hyear) (Nat.succ.inj (zeroPad_inj hmonth))
    (Nat.succ.inj (zeroPad_inj hday))
  have hh := zeroPad_inj hhour
  have hm := zeroPad_inj hminute
  have hs := zeroPad_inj hsecond
  omega

/-- Neither the brackets nor the dot of a conflicted-copy name. -/
theorem not_mem_chronoTimestamp {c : Char} (hc : c.isDigit = false) (hdash : c ≠ '-')
    (hblank : c ≠ ' ') (secs : Nat) : c ∉ (chronoTimestamp secs).toList := by
  rw [toList_chronoTimestamp]
  simp [not_mem_zeroPad hc, hdash, hblank]

/-! ## The names -/

/-- What is before and after the last dot of a file name. -/
theorem splitName_spec (name : String) :
    match splitName name with
    | (stem, some ext) => name.toList = stem.toList ++ '.' :: ext.toList ∧ '.' ∉ ext.toList ∧
        stem.toList ≠ []
    | (stem, none) => stem = name ∧
        ('.' ∉ name.toList ∨ ∃ rest, name.toList = '.' :: rest ∧ '.' ∉ rest) := by
  have hsplit := List.takeWhile_append_dropWhile (p := (· != '.')) (l := name.toList.reverse)
  -- the reversed extension is read up to the first dot
  have hext : '.' ∉ name.toList.reverse.takeWhile (· != '.') := by
    intro hmem
    have hne := List.mem_takeWhile_imp hmem
    simp at hne
  unfold splitName
  dsimp only
  generalize name.toList.reverse.takeWhile (· != '.') = ext at *
  cases hrest : name.toList.reverse.dropWhile (· != '.') with
  | nil =>
    -- no dot: the name is all stem
    rw [hrest, List.append_nil] at hsplit
    rw [hsplit, List.mem_reverse] at hext
    exact ⟨rfl, .inl hext⟩
  | cons dot stem =>
    have hdot : dot = '.' := by
      have hhead := List.head_dropWhile_not (l := name.toList.reverse) (· != '.') (by simp [hrest])
      simpa [hrest] using hhead
    have hname : name.toList = stem.reverse ++ '.' :: ext.reverse := by
      have hrev := congrArg List.reverse hsplit
      rw [List.reverse_reverse, hrest, hdot] at hrev
      rw [← hrev]
      simp
    dsimp only
    -- the dot is the first character: no extension
    by_cases hstem : stem = []
    · rw [if_pos hstem]
      rw [hstem] at hname
      exact ⟨rfl, .inr ⟨ext.reverse, by simpa using hname, by simpa using hext⟩⟩
    · -- the name is its stem, the dot and its extension
      rw [if_neg hstem]
      exact ⟨by simpa using hname, by simpa using hext, by simpa using hstem⟩

/-- `{stem} (conflicted copy {stamp})`. -/
def copyStem (stem stamp : List Char) : List Char :=
  (stem ++ [' ']) ++ '(' :: ("conflicted copy ".toList ++ stamp ++ [')'])

/-- A copy's stem gives the original's and the time. -/
theorem copyStem_inj {stem stem' stamp stamp' : List Char} (hs : '(' ∉ stamp) (hs' : '(' ∉ stamp')
    (h : copyStem stem stamp = copyStem stem' stamp') : stem = stem' ∧ stamp = stamp' := by
  have htail : ∀ stamp : List Char, '(' ∉ stamp → '(' ∉ "conflicted copy ".toList ++ stamp ++ [')'] := by
    intro stamp hstamp
    simp [hstamp]
  obtain ⟨hstem, hstamp⟩ := List.append_cons_inj_of_not_mem_right (htail _ hs) (htail _ hs') h
  exact ⟨List.append_cancel_right hstem,
    List.append_cancel_left (List.append_cancel_right hstamp)⟩

/-- The characters of a conflicted copy's file name. -/
def copyChars (stamp : List Char) (name : String) : List Char :=
  match splitName name with
  | (stem, some ext) => copyStem stem.toList stamp ++ '.' :: ext.toList
  | (stem, none) => copyStem stem.toList stamp

/-- The copy stands next to the original, under its own name. -/
theorem makeConflictName_eq (stamp : String) (dir : PathBuf) (name : String) :
    ∃ copy, makeConflictName stamp (dir ++ [name]) = dir ++ [copy] ∧
      copy.toList = copyChars stamp.toList name := by
  have hname : PathBuf.fileName (dir ++ [name]) = some name := by simp [PathBuf.fileName]
  have hparent : PathBuf.parent (dir ++ [name]) = dir := by simp [PathBuf.parent]
  unfold makeConflictName copyChars PathBuf.withFileName
  rw [hname, hparent]
  dsimp only
  cases splitName name with
  | mk stem ext =>
    cases ext with
    | some e => exact ⟨_, rfl, by simp [copyStem, ToString.toString]⟩
    | none => exact ⟨_, rfl, by simp [copyStem, ToString.toString]⟩

/-- A name without an extension keeps its dots away from its end. -/
theorem copyStem_ne_of_dot {stem stem' stamp stamp' ext : List Char} (hext : '.' ∉ ext)
    (hstamp : '.' ∉ stamp') (hstem : '.' ∉ stem' ∨ ∃ rest, stem' = '.' :: rest ∧ '.' ∉ rest) :
    copyStem stem stamp ++ '.' :: ext ≠ copyStem stem' stamp' := by
  intro h
  obtain hno | ⟨rest, rfl, hrest⟩ := hstem
  · have hmem : '.' ∈ copyStem stem' stamp' := by
      rw [← h]
      simp
    simp [copyStem, hno, hstamp] at hmem
  · -- The only dot of the name starts it.
    have hsplit : copyStem ('.' :: rest) stamp' =
        [] ++ '.' :: copyStem rest stamp' := by simp [copyStem]
    rw [hsplit] at h
    have hafter : '.' ∉ copyStem rest stamp' := by simp [copyStem, hrest, hstamp]
    have hnil := (List.append_cons_inj_of_not_mem_right hext hafter h).1
    simp [copyStem] at hnil

/-- The file name of a conflicted copy tells the name and the stamp it was made of. -/
theorem copyChars_inj {stamp stamp' : List Char} {name name' : String} (hs : '(' ∉ stamp)
    (hs' : '(' ∉ stamp') (hd : '.' ∉ stamp) (hd' : '.' ∉ stamp')
    (h : copyChars stamp name = copyChars stamp' name') : name = name' ∧ stamp = stamp' := by
  have hname := splitName_spec name
  have hname' := splitName_spec name'
  unfold copyChars at h
  cases hsplit : splitName name with
  | mk stem ext =>
    cases hsplit' : splitName name' with
    | mk stem' ext' =>
      rw [hsplit] at h hname
      rw [hsplit'] at h hname'
      cases ext with
      | some e =>
        cases ext' with
        | some e' =>
          -- both have an extension: the last dot separates it in both
          obtain ⟨hcopy, hext⟩ := List.append_cons_inj_of_not_mem_right hname.2.1 hname'.2.1 h
          obtain ⟨hstem, hstamp⟩ := copyStem_inj hs hs' hcopy
          refine ⟨String.toList_injective ?_, hstamp⟩
          rw [hname.1, hname'.1, hstem, hext]
        | none =>
          obtain ⟨rfl, hdots⟩ := hname'
          -- one has none: its copy has a dot only in front, or nowhere
          exact absurd h (copyStem_ne_of_dot hname.2.1 hd' hdots)
      | none =>
        obtain ⟨rfl, hdots⟩ := hname
        cases ext' with
        | some e' => exact absurd h.symm (copyStem_ne_of_dot hname'.2.1 hd hdots)
        | none =>
          -- neither has one
          obtain ⟨rfl, -⟩ := hname'
          obtain ⟨hstem, hstamp⟩ := copyStem_inj hs hs' h
          exact ⟨String.toList_injective hstem, hstamp⟩

/-- A conflicted-copy name tells the path and the second it was made for. -/
theorem conflictNameAt_inj {now now' : Nat} {dest dest' : PathBuf} (hne : dest ≠ [])
    (hne' : dest' ≠ []) (h : conflictNameAt now dest = conflictNameAt now' dest') :
    dest = dest' ∧ now = now' := by
  obtain ⟨dir, name, rfl⟩ := (List.eq_nil_or_concat' dest).resolve_left hne
  obtain ⟨dir', name', rfl⟩ := (List.eq_nil_or_concat' dest').resolve_left hne'
  obtain ⟨copy, hcopy, hchars⟩ := makeConflictName_eq (chronoTimestamp now) dir name
  obtain ⟨copy', hcopy', hchars'⟩ := makeConflictName_eq (chronoTimestamp now') dir' name'
  unfold conflictNameAt at h
  rw [hcopy, hcopy'] at h
  obtain ⟨rfl, hcopies⟩ := List.append_inj' h rfl
  rw [List.cons.inj hcopies |>.1, hchars'] at hchars
  have hbracket : ∀ secs, '(' ∉ (chronoTimestamp secs).toList :=
    not_mem_chronoTimestamp (by decide) (by decide) (by decide)
  have hdot : ∀ secs, '.' ∉ (chronoTimestamp secs).toList :=
    not_mem_chronoTimestamp (by decide) (by decide) (by decide)
  obtain ⟨rfl, hstamp⟩ := copyChars_inj (hbracket now') (hbracket now) (hdot now') (hdot now) hchars
  exact ⟨rfl, (chronoTimestamp_injective (String.toList_injective hstamp)).symm⟩

/-- The file name of a conflicted copy has a bracket in it. -/
theorem conflictNameAt_bracket {now : Nat} {dest : PathBuf} (hne : dest ≠ []) :
    ∃ dir copy, conflictNameAt now dest = dir ++ [copy] ∧ '(' ∈ copy.toList := by
  obtain ⟨dir, name, rfl⟩ := (List.eq_nil_or_concat' dest).resolve_left hne
  obtain ⟨copy, hcopy, hchars⟩ := makeConflictName_eq (chronoTimestamp now) dir name
  refine ⟨dir, copy, hcopy, ?_⟩
  rw [hchars]
  unfold copyChars
  split <;> simp [copyStem]

namespace CopyWorld

variable {w w' : CopyWorld} {i : Nat} {j : ConflictJob} {name : PathBuf} {content : Bytes}

/-! ## Runs in which every name is new -/

/-- The names of an event are new: no conflict of the path was named for that second before, and
    no other change of the server is one of a conflicted copy. -/
def Apart (w : CopyWorld) : CopyEvent → Prop
  | .conflict c now => (c.dest, now) ∉ w.named
  | .other path _ => ∀ now dest, dest ≠ [] → path ≠ conflictNameAt now dest
  | _ => True

/-- Every event of a run is like that. -/
def AllApart (w : CopyWorld) : List CopyEvent → Prop
  | [] => True
  | e :: es => w.Apart e ∧ ∀ w', w.step e = some w' → w'.AllApart es

/-- A name of the form of a conflicted copy, and the path and second it was made for. -/
def IsCopy (w : CopyWorld) (name : PathBuf) : Prop :=
  ∃ now dest, dest ≠ [] ∧ name = conflictNameAt now dest ∧ (dest, now) ∈ w.named

/-- The conflicted copies on the server are those named so far, each caller has a name of its own
    that is still free, and every saved version is where it was stored. -/
structure Safe (w : CopyWorld) : Prop where
  copies : ∀ now dest, dest ≠ [] → w.server (conflictNameAt now dest) ≠ none →
    (dest, now) ∈ w.named
  jobs : ∀ j ∈ w.jobs, w.IsCopy j.name
  distinct : (w.jobs.map ConflictJob.name).Nodup
  free : ∀ j ∈ w.jobs, w.server j.name = none
  saved : ∀ v ∈ w.saved, w.IsCopy v.1 ∧ w.server v.1 = some v.2

/-- A job that ends changes nothing on the server. -/
@[simp] theorem server_endJob (w : CopyWorld) (i : Nat) : (w.endJob i).server = w.server := rfl

/-- A job that ends changes nothing that is saved. -/
@[simp] theorem saved_endJob (w : CopyWorld) (i : Nat) : (w.endJob i).saved = w.saved := rfl

/-- A copy is stored under its name. -/
@[simp] theorem server_store (w : CopyWorld) (name : PathBuf) (content : Bytes) :
    (w.store name content).server = Function.update w.server name (some content) := rfl

/-- A copy is moved to its name. -/
@[simp] theorem server_moveTo (w : CopyWorld) (src name : PathBuf) (content : Bytes) :
    (w.moveTo src name content).server =
      Function.update (Function.update w.server src none) name (some content) := rfl

/-- A version that moves is saved under its new name. -/
@[simp] theorem saved_moveTo (w : CopyWorld) (src name : PathBuf) (content : Bytes) :
    (w.moveTo src name content).saved =
      w.saved.map fun v => if v.1 = src then (name, v.2) else v := rfl

/-- A change of anything but the names, the server, the callers and the saved versions. -/
theorem Safe.congr (h : w.Safe) (hserver : w'.server = w.server) (hjobs : w'.jobs = w.jobs)
    (hnamed : w'.named = w.named) (hsaved : w'.saved = w.saved) : w'.Safe where
  copies := by rw [hserver, hnamed]; exact h.copies
  jobs := by rw [hjobs]; unfold IsCopy; rw [hnamed]; exact h.jobs
  distinct := by rw [hjobs]; exact h.distinct
  free := by rw [hjobs, hserver]; exact h.free
  saved := by rw [hsaved, hserver]; unfold IsCopy; rw [hnamed]; exact h.saved

/-- A job that ends keeps the copies safe. -/
theorem Safe.endJob (h : w.Safe) (i : Nat) : (w.endJob i).Safe where
  copies := h.copies
  jobs j hj := h.jobs j (List.mem_of_mem_eraseIdx hj)
  distinct := h.distinct.sublist ((List.eraseIdx_sublist w.jobs i).map _)
  free j hj := h.free j (List.mem_of_mem_eraseIdx hj)
  saved := h.saved

/-- A job's next request has the same name. -/
theorem map_name_setRequest (w : CopyWorld) (i : Nat) (r : CopyRequest) :
    (w.setRequest i r).jobs.map ConflictJob.name = w.jobs.map ConflictJob.name :=
  List.map_modify_of_eq (f := fun j => { j with request := r }) (fun _ => rfl) w.jobs i

/-- A caller goes on under its name. -/
theorem Safe.setRequest (h : w.Safe) (i : Nat) (r : CopyRequest) : (w.setRequest i r).Safe := by
  have hnames : ∀ j ∈ (w.setRequest i r).jobs, ∃ j' ∈ w.jobs, j'.name = j.name := by
    intro j hj
    have hmem := List.mem_map_of_mem (f := ConflictJob.name) hj
    rw [map_name_setRequest] at hmem
    exact List.mem_map.mp hmem
  refine ⟨h.copies, fun j hj => ?_, ?_, fun j hj => ?_, h.saved⟩
  · obtain ⟨j', hj', hname⟩ := hnames j hj
    rw [← hname]
    exact h.jobs j' hj'
  · rw [map_name_setRequest]
    exact h.distinct
  · obtain ⟨j', hj', hname⟩ := hnames j hj
    rw [← hname]
    exact h.free j' hj'

/-- A caller's name is not that of another one. -/
theorem Safe.name_ne (h : w.Safe) (hj : w.jobs[i]? = some j) :
    ∀ k ∈ (w.endJob i).jobs, k.name ≠ j.name := by
  obtain ⟨pre, post, hsplit, -, -, hrest, -⟩ := List.exists_split_of_getElem? hj
  have hnodup := h.distinct
  rw [hsplit, List.map_append, List.map_cons, List.nodup_middle, List.nodup_cons,
    ← List.map_append] at hnodup
  intro k hk heq
  rw [CopyWorld.endJob, hrest] at hk
  exact hnodup.1 (heq ▸ List.mem_map_of_mem hk)

/-- Where the copy of a name goes, no other copy is. -/
theorem Safe.copies_update (h : w.Safe) (hname : w.IsCopy name) {server : PathBuf → Option Bytes}
    (hserver : ∀ p, server p ≠ none → p = name ∨ w.server p ≠ none) :
    ∀ now dest, dest ≠ [] → server (conflictNameAt now dest) ≠ none → (dest, now) ∈ w.named := by
  intro now dest hne hsome
  obtain heq | hold := hserver _ hsome
  · obtain ⟨now', dest', hne', hname', hmem⟩ := hname
    obtain ⟨rfl, rfl⟩ := conflictNameAt_inj hne hne' (heq.trans hname')
    exact hmem
  · exact h.copies now dest hne hold

/-- A version is stored under a caller's name, and the caller is done. -/
theorem Safe.store (h : w.Safe) (hj : w.jobs[i]? = some j) (content : Bytes) :
    ((w.store j.name content).endJob i).Safe where
  copies := by
    refine h.copies_update (h.jobs j (List.mem_of_getElem? hj)) fun p hp => ?_
    by_cases heq : p = j.name
    · exact .inl heq
    · exact .inr (by simpa [Function.update_of_ne heq] using hp)
  jobs := (h.endJob i).jobs
  distinct := (h.endJob i).distinct
  free k hk := by
    have hne := h.name_ne hj k hk
    have hold := (h.endJob i).free k hk
    rw [server_endJob, server_store, Function.update_of_ne hne]
    exact hold
  saved v hv := by
    obtain ⟨hcopy, hold⟩ := h.saved v hv
    have hfree := h.free j (List.mem_of_getElem? hj)
    have hne : v.1 ≠ j.name := by
      intro heq
      rw [heq, hfree] at hold
      cases hold
    refine ⟨hcopy, ?_⟩
    rw [server_endJob, server_store, Function.update_of_ne hne]
    exact hold

/-- A file is moved to a caller's name, and the caller is done. -/
theorem Safe.moveTo {src : PathBuf} (h : w.Safe) (hj : w.jobs[i]? = some j)
    (hsrc : w.server src = some content) : ((w.moveTo src j.name content).endJob i).Safe where
  copies := by
    -- the only new content is at the job's own name
    refine h.copies_update (h.jobs j (List.mem_of_getElem? hj)) fun p hp => ?_
    by_cases heq : p = j.name
    · exact .inl heq
    · refine .inr fun hnone => hp ?_
      simp [Function.update_apply, heq, hnone]
  jobs := (h.endJob i).jobs
  distinct := (h.endJob i).distinct
  free k hk := by
    -- the other names stay free: no two jobs share one
    have hne := h.name_ne hj k hk
    have hold := (h.endJob i).free k hk
    rw [server_endJob, server_moveTo, Function.update_of_ne hne]
    by_cases heq : k.name = src
    · rw [heq, Function.update_self]
    · rw [Function.update_of_ne heq]
      exact hold
  saved v hv := by
    rw [saved_endJob, saved_moveTo, List.mem_map] at hv
    obtain ⟨v₀, hv₀, rfl⟩ := hv
    obtain ⟨hcopy, hold⟩ := h.saved v₀ hv₀
    split
    · -- The version that moves.
      rename_i heq
      rw [heq, hsrc] at hold
      refine ⟨h.jobs j (List.mem_of_getElem? hj), ?_⟩
      rw [server_endJob, server_moveTo, Function.update_self, hold]
    · -- the other versions are elsewhere: the job's name was free
      rename_i hmoved
      have hfree := h.free j (List.mem_of_getElem? hj)
      have hne : v₀.1 ≠ j.name := by
        intro heq
        rw [heq, hfree] at hold
        cases hold
      refine ⟨hcopy, ?_⟩
      rw [server_endJob, server_moveTo, Function.update_of_ne hne, Function.update_of_ne hmoved]
      exact hold

/-- The local bytes of a copy that is on the server are deleted. -/
theorem Safe.settle (h : w.Safe) (hcopy : w.IsCopy name) (hserver : w.server name = some content)
    (staging : Option PathBuf) : (w.settle name content staging).Safe := by
  cases staging with
  | none => exact h
  | some s =>
    refine ⟨h.copies, h.jobs, h.distinct, h.free, fun v hv => ?_⟩
    obtain rfl | hv := List.mem_cons.mp hv
    · exact ⟨hcopy, hserver⟩
    · exact h.saved v hv

/-- Ending a job and settling another are independent. -/
theorem endJob_settle (w : CopyWorld) (name : PathBuf) (content : Bytes) (staging : Option PathBuf)
    (i : Nat) : (w.settle name content staging).endJob i = (w.endJob i).settle name content staging := by
  cases staging <;> rfl

/-- The content is stored and settled. -/
theorem Safe.storeAndSettle (h : w.Safe) (hj : w.jobs[i]? = some j) (content : Bytes)
    (staging : Option PathBuf) :
    (((w.store j.name content).settle j.name content staging).endJob i).Safe := by
  rw [endJob_settle]
  exact (h.store hj content).settle (h.jobs j (List.mem_of_getElem? hj)) (Function.update_self ..) _

/-- The content is moved and settled. -/
theorem Safe.moveAndSettle {src : PathBuf} (h : w.Safe) (hj : w.jobs[i]? = some j)
    (hsrc : w.server src = some content) (staging : Option PathBuf) :
    (((w.moveTo src j.name content).settle j.name content staging).endJob i).Safe := by
  rw [endJob_settle]
  exact (h.moveTo hj hsrc).settle (h.jobs j (List.mem_of_getElem? hj)) (Function.update_self ..) _

/-- A job uploads its copy. -/
theorem Safe.upload (h : w.Safe) (hj : w.jobs[i]? = some j) (staging : PathBuf)
    (answer : CopyAnswer) : (w.upload i j.name staging answer).Safe := by
  unfold CopyWorld.upload
  split
  · exact h.storeAndSettle hj _ _
  · exact h.store hj _
  · exact h.endJob i

/-- A job assembles its copy from chunks. -/
theorem Safe.assemble {u : String} {tail : PathBuf} {whole : Bool} {answer : CopyAnswer}
    (h : w.Safe) (hj : w.jobs[i]? = some j)
    (hstep : w.assemble i j.name u tail whole answer = some w') : w'.Safe := by
  -- The session is gone once it is assembled.
  have hgone : ({ w with sessions := Function.update w.sessions u none } : CopyWorld).Safe :=
    h.congr rfl rfl rfl rfl
  unfold CopyWorld.assemble at hstep
  split at hstep
  · cases hstep
    exact hgone.storeAndSettle hj _ _
  · cases hstep
    exact hgone.store hj _
  · split at hstep <;> cases hstep
    · exact h.setRequest i _
    · exact h.endJob i
  · cases hstep

/-- A job renames what it left. -/
theorem Safe.rename {src : PathBuf} {staging : Option PathBuf} {answer : CopyAnswer}
    (h : w.Safe) (hj : w.jobs[i]? = some j)
    (hstep : w.rename i j.name src staging answer = some w') : w'.Safe := by
  unfold CopyWorld.rename at hstep
  split at hstep
  · cases hstep
    exact h.moveAndSettle hj ‹_› _
  · cases hstep
    exact h.moveTo hj ‹_›
  · split at hstep <;> cases hstep
    · exact h.setRequest i _
    · exact h.endJob i
  · cases hstep

/-- A new name is free: what has a conflicted copy's name on the server was named before. -/
theorem Safe.conflict (h : w.Safe) {c : Conflicted} {now : Nat} (hne : c.dest ≠ [])
    (hnew : (c.dest, now) ∉ w.named) :
    ({ w with
      jobs := w.jobs ++ [{ name := conflictNameAt now c.dest, request := c.firstRequest }]
      named := (c.dest, now) :: w.named } : CopyWorld).Safe := by
  -- the name is free on the server: a conflict of this path and second would be named already
  have hfree : w.server (conflictNameAt now c.dest) = none := by
    by_contra hsome
    exact hnew (h.copies now c.dest hne hsome)
  -- and no conflict has it: the names give path and second back
  have hother : ∀ name, w.IsCopy name → name ≠ conflictNameAt now c.dest := by
    rintro name ⟨now', dest', hne', rfl, hmem⟩ heq
    obtain ⟨rfl, rfl⟩ := conflictNameAt_inj hne' hne heq
    exact hnew hmem
  have hmono : ∀ name, w.IsCopy name →
      ∃ now' dest', dest' ≠ [] ∧ name = conflictNameAt now' dest' ∧
        (dest', now') ∈ (c.dest, now) :: w.named := by
    rintro name ⟨now', dest', hne', hname, hmem⟩
    exact ⟨now', dest', hne', hname, List.mem_cons_of_mem _ hmem⟩
  -- the copies on the server are named still
  refine ⟨fun now' dest' hne' hsome => ?_, ?_, ?_, ?_, fun v hv => ?_⟩
  · exact List.mem_cons_of_mem _ (h.copies now' dest' hne' hsome)
  · -- the new job has a copy's name
    intro j hj
    obtain hj | hj := List.mem_append.mp hj
    · exact hmono j.name (h.jobs j hj)
    · rw [List.mem_singleton] at hj
      exact ⟨now, c.dest, hne, by rw [hj], List.mem_cons_self⟩
  · -- that differs from all others
    rw [List.map_append, List.map_singleton, List.nodup_append]
    refine ⟨h.distinct, List.nodup_singleton _, ?_⟩
    intro name hname name' hname'
    obtain ⟨j, hj, rfl⟩ := List.mem_map.mp hname
    rw [List.mem_singleton.mp hname']
    exact hother j.name (h.jobs j hj)
  · -- and is free
    intro j hj
    obtain hj | hj := List.mem_append.mp hj
    · exact h.free j hj
    · rw [List.mem_singleton] at hj
      rw [hj]
      exact hfree
  · -- what is saved stays so
    obtain ⟨hcopy, hserver⟩ := h.saved v hv
    exact ⟨hmono v.1 hcopy, hserver⟩

/-- What others do, apart from the copies' names. -/
theorem Safe.other (h : w.Safe) {path : PathBuf} {content : Option Bytes}
    (hapart : ∀ now dest, dest ≠ [] → path ≠ conflictNameAt now dest) :
    ({ w with server := Function.update w.server path content } : CopyWorld).Safe := by
  have hsame : ∀ now dest, dest ≠ [] →
      ({ w with server := Function.update w.server path content } : CopyWorld).server
        (conflictNameAt now dest) = w.server (conflictNameAt now dest) :=
    fun now dest hne => Function.update_of_ne (hapart now dest hne).symm ..
  refine ⟨fun now dest hne => ?_, h.jobs, h.distinct, fun j hj => ?_, fun v hv => ?_⟩
  · rw [hsame now dest hne]
    exact h.copies now dest hne
  · obtain ⟨now, dest, hne, hname, -⟩ := h.jobs j hj
    rw [hname, hsame now dest hne, ← hname]
    exact h.free j hj
  · obtain ⟨⟨now, dest, hne, hname, hmem⟩, hserver⟩ := h.saved v hv
    refine ⟨⟨now, dest, hne, hname, hmem⟩, ?_⟩
    rw [hname, hsame now dest hne, ← hname]
    exact hserver

/-- One step: a new name is free, and what goes to it replaces nothing. -/
theorem Safe.step {e : CopyEvent} (h : w.Safe) (hapart : w.Apart e) (hstep : w.step e = some w') :
    w'.Safe := by
  cases e with
  | conflict c now =>
    simp only [CopyWorld.step] at hstep
    split at hstep <;> cases hstep
    exact h.conflict ‹_› hapart
  | request i answer =>
    simp only [CopyWorld.step] at hstep
    split at hstep
    · cases hstep
    · rename_i j hj
      split at hstep
      · cases hstep
        exact h.upload hj _ _
      · exact h.assemble hj hstep
      · exact h.rename hj hstep
  | other path content =>
    cases hstep
    exact h.other hapart
  | stage staging content =>
    cases hstep
    exact h.congr rfl rfl rfl rfl
  | chunks u content =>
    cases hstep
    exact h.congr rfl rfl rfl rfl

/-- Every run apart from the copies' names keeps the copies safe. -/
theorem Safe.steps (h : w.Safe) : ∀ es, w.AllApart es → w.steps es = some w' → w'.Safe := by
  intro es
  induction es generalizing w with
  | nil =>
    rintro - ⟨⟩
    exact h
  | cons e es ih =>
    intro hapart hrun
    rw [CopyWorld.steps, Option.bind_eq_some_iff] at hrun
    obtain ⟨w₁, hstep, hrest⟩ := hrun
    exact ih (h.step hapart.1 hstep) (hapart.2 w₁ hstep) hrest

/-- Any number of conflicting saves and moves, their steps and the server's answers interleaved
    in any way: if no path has two conflicts that read the clock in one second, and everything
    else on the server has other names, then a conflicted-copy name is free when its request is
    sent, and each version whose local bytes were deleted for its copy is on the server. -/
theorem conflicted_copies_replace_nothing {es : List CopyEvent} (hjobs : w.jobs = [])
    (hsaved : w.saved = [])
    (hcopies : ∀ now dest, dest ≠ [] → w.server (conflictNameAt now dest) ≠ none →
      (dest, now) ∈ w.named)
    (hapart : w.AllApart es) (hrun : w.steps es = some w') :
    (∀ j ∈ w'.jobs, w'.server j.name = none) ∧
      ∀ v ∈ w'.saved, w'.server v.1 = some v.2 := by
  have hstart : w.Safe :=
    ⟨hcopies, by simp [hjobs], by simp [hjobs], by simp [hjobs], by simp [hsaved]⟩
  have hend := hstart.steps es hapart hrun
  exact ⟨hend.free, fun v hv => (hend.saved v hv).2⟩

/-- `/f` was changed on the server; nothing else is there. -/
def changedFile : CopyWorld where
  server := Function.update (fun _ => none) ["f"] (some [9])
  sessions := fun _ => none
  files := Function.update (Function.update (fun _ => none) ["cache", "write_1"] (some [1]))
    ["cache", "write_2"] (some [2])

/-- Two handles of `/f`, opened before the change, are closed one second apart: both saves are on
    the server. -/
theorem copies_one_second_apart : ∃ w',
    changedFile.steps
      [.conflict (.put ["f"] ["cache", "write_1"]) 0, .request 0 .done,
       .conflict (.put ["f"] ["cache", "write_2"]) 1, .request 0 .done] = some w' ∧
      w'.files ["cache", "write_1"] = none ∧
      w'.server (conflictNameAt 0 ["f"]) = some [1] ∧
      w'.server (conflictNameAt 1 ["f"]) = some [2] := by
  -- the file on the server is no conflict's copy: those have a bracket
  have hcopies : ∀ now dest, dest ≠ [] →
      changedFile.server (conflictNameAt now dest) ≠ none → (dest, now) ∈ changedFile.named := by
    intro now dest hne hsome
    obtain ⟨dir, copy, hname, hbracket⟩ := @conflictNameAt_bracket now dest hne
    have hf : conflictNameAt now dest = ["f"] := by
      by_contra hother
      exact hsome (by simp [changedFile, Function.update_of_ne hother])
    rw [hname] at hf
    have hf : dir ++ [copy] = [] ++ ["f"] := hf
    obtain ⟨rfl, hcopy⟩ := List.append_inj' hf rfl
    rw [(List.cons.inj hcopy).1] at hbracket
    exact absurd hbracket (by decide)
  -- the two conflicts are a second apart, and the requests are the copies' own
  have hapart : changedFile.AllApart
      [.conflict (.put ["f"] ["cache", "write_1"]) 0, .request 0 .done,
       .conflict (.put ["f"] ["cache", "write_2"]) 1, .request 0 .done] := by
    refine ⟨List.not_mem_nil, ?_⟩
    rintro _ ⟨⟩
    refine ⟨trivial, ?_⟩
    rintro _ ⟨⟩
    refine ⟨?_, ?_⟩
    · show (["f"], 1) ∉ [(["f"], 0)]
      decide
    · rintro _ ⟨⟩
      refine ⟨trivial, ?_⟩
      rintro _ ⟨⟩
      trivial
  have hsafe : ∀ w', changedFile.steps _ = some w' → ∀ v ∈ w'.saved, w'.server v.1 = some v.2 :=
    fun _ hrun => (conflicted_copies_replace_nothing rfl rfl hcopies hapart hrun).2
  refine ⟨_, rfl, rfl, ?_, ?_⟩
  · -- both versions are under the name of their own second
    exact hsafe _ rfl (conflictNameAt 0 ["f"], [1]) (.tail _ (.head _))
  · exact hsafe _ rfl (conflictNameAt 1 ["f"], [2]) (.head _)

/-- Closed within one second, both saves get the same name. The second PUT finds the first save
    there and replaces it: nothing has the first one's bytes any more. -/
theorem second_copy_replaces_first : ∃ w₁ w₂,
    changedFile.steps
      [.conflict (.put ["f"] ["cache", "write_1"]) 0, .request 0 .done,
       .conflict (.put ["f"] ["cache", "write_2"]) 0] = some w₁ ∧
      (∃ j ∈ w₁.jobs, w₁.server j.name = some [1]) ∧
      w₁.step (.request 0 .done) = some w₂ ∧
      (conflictNameAt 0 ["f"], [1]) ∈ w₂.saved ∧
      w₂.files ["cache", "write_1"] = none ∧
      ∀ p, w₂.server p ≠ some [1] := by
  refine ⟨_, _, rfl, ⟨_, .head _, ?_⟩, rfl, .tail _ (.head _), rfl, fun p => ?_⟩
  · exact Function.update_self (conflictNameAt 0 ["f"]) (some [1]) changedFile.server
  · show Function.update (Function.update changedFile.server (conflictNameAt 0 ["f"]) (some [1]))
      (conflictNameAt 0 ["f"]) (some [2]) p ≠ some [1]
    rw [Function.update_idem]
    simp only [changedFile, Function.update_apply]
    split
    · decide
    · split <;> decide

end CopyWorld

end Ncrs
