import Ncrs.Native.HandoffLog

/-!
# The handoff log as a file

`load` reads back the records that were written one a line, and takes a last line that does not
parse for a record that was being written when the daemon died. A successor appends to the file as
it is, so that its first record goes on the torn line.

## Key results

- `load_lines`: the file of whole records is loaded as the records are replayed.
- `torn_log_is_resumed_iff`: what a later `load` restores after a cut inside the last record and a
  successor's appends.
-/

namespace Ncrs

namespace Handoff

/-- What is used of serde_json on the records `rs`. A text is read back and holds no newline. A text
that is cut is no record, whether or not another text follows the cut. -/
structure Codec.Reads (c : Codec) (rs : List Record) : Prop where
  decode_encode : ∀ r ∈ rs, c.decode (c.encode r) = .ok r
  no_newline : ∀ r ∈ rs, newline ∉ c.encode r
  nonempty : ∀ r ∈ rs, c.encode r ≠ []
  cut : ∀ r ∈ rs, ∀ t, t <+: c.encode r → t ≠ [] → t ≠ c.encode r → ∃ e, c.decode t = .error e
  glued : ∀ r ∈ rs, ∀ t, t <+: c.encode r → t ≠ [] →
    ∀ r' ∈ rs, ∃ e, c.decode (t ++ c.encode r') = .error e

/-- What a codec does for more records it does for fewer. -/
theorem Codec.Reads.mono {c : Codec} {rs rs' : List Record} (h : c.Reads rs') (hsub : rs ⊆ rs') :
    c.Reads rs where
  decode_encode r hr := h.decode_encode r (hsub hr)
  no_newline r hr := h.no_newline r (hsub hr)
  nonempty r hr := h.nonempty r (hsub hr)
  cut r hr := h.cut r (hsub hr)
  glued r hr t ht hne r' hr' := h.glued r (hsub hr) t ht hne r' (hsub hr')

/-! ## Sequence numbers -/

namespace Replayer

/-- Setting a path leaves the highest number alone. -/
@[simp] theorem set_maxSeq (r : Replayer) (ino : Nat) (path : PathBuf) :
    (r.set ino path).maxSeq = r.maxSeq := rfl

/-- Setting a path leaves the mark of a snapshot alone. -/
@[simp] theorem set_based (r : Replayer) (ino : Nat) (path : PathBuf) :
    (r.set ino path).based = r.based := rfl

/-- Dropping an inode leaves the highest number alone. -/
@[simp] theorem dropIno_maxSeq (r : Replayer) (d : Nat) : (r.dropIno d).maxSeq = r.maxSeq := by
  unfold dropIno
  split <;> rfl

/-- Dropping an inode leaves the mark of a snapshot alone. -/
@[simp] theorem dropIno_based (r : Replayer) (d : Nat) : (r.dropIno d).based = r.based := by
  unfold dropIno
  split <;> rfl

/-- Changing a handle leaves the highest number alone. -/
@[simp] theorem modifyHandle_maxSeq (r : Replayer) (fh : Nat) (f : OpenRecord → OpenRecord) :
    (r.modifyHandle fh f).maxSeq = r.maxSeq := by
  unfold modifyHandle
  split <;> rfl

/-- Changing a handle leaves the mark of a snapshot alone. -/
@[simp] theorem modifyHandle_based (r : Replayer) (fh : Nat) (f : OpenRecord → OpenRecord) :
    (r.modifyHandle fh f).based = r.based := by
  unfold modifyHandle
  split <;> rfl

/-- An entry raises the highest number to its own. -/
@[simp] theorem applyEntry_maxSeq (r : Replayer) (s : Nat) (e : Entry) :
    (r.applyEntry s e).maxSeq = max r.maxSeq s := by
  cases e with
  | mv ino path dropped =>
    simp only [applyEntry]
    split <;> simp
  | _ => simp [applyEntry]

/-- An entry leaves the mark of a snapshot alone. -/
@[simp] theorem applyEntry_based (r : Replayer) (s : Nat) (e : Entry) :
    (r.applyEntry s e).based = r.based := by
  cases e with
  | mv ino path dropped =>
    simp only [applyEntry]
    split <;> simp
  | _ => simp [applyEntry]

/-- Behind a snapshot every entry is replayed. -/
theorem apply_entry {r : Replayer} (hr : r.based = true) (dev : ConnDev) (mountPoint : PathBuf)
    (s : Nat) (e : Entry) : r.apply dev mountPoint (.entry s e) = .ok (r.applyEntry s e) := by
  simp [apply, hr]

/-- A record that is accepted leaves the replay started, and its number is not forgotten. -/
theorem apply_ok {dev : ConnDev} {mountPoint : PathBuf} {r r' : Replayer} {rec : Record}
    (h : r.apply dev mountPoint rec = .ok r') : r'.based = true ∧ r.maxSeq ≤ r'.maxSeq := by
  unfold apply at h
  split at h
  · split at h
    · cases h
      exact ⟨rfl, le_rfl⟩
    · cases h
  · cases h
  · cases h
  · rename_i hb
    cases h
    exact ⟨by simpa using hb, by simp⟩

end Replayer

/-- Numbers a log's entries as the writer does, on from `n`. -/
def stamp : Nat → List Entry → List Record
  | _, [] => []
  | n, e :: es => .entry (n + 1) e :: stamp (n + 1) es

/-- Entries after the first record are all accepted. -/
theorem foldlM_apply_stamp (dev : ConnDev) (mountPoint : PathBuf) (es : List Entry) (n : Nat)
    {r : Replayer} (hr : r.based = true) :
    ∃ r', (stamp n es).foldlM (Replayer.apply dev mountPoint) r = .ok r' ∧ r'.based = true ∧
      r.maxSeq ≤ r'.maxSeq ∧ (es ≠ [] → n < r'.maxSeq) := by
  induction es generalizing r n with
  | nil => exact ⟨r, rfl, hr, le_rfl, fun h => absurd rfl h⟩
  | cons e es ih =>
    obtain ⟨r', hr', hb, hle, -⟩ := ih (n + 1) ((Replayer.applyEntry_based r (n + 1) e).trans hr)
    rw [Replayer.applyEntry_maxSeq] at hle
    refine ⟨r', ?_, hb, by omega, fun _ => by omega⟩
    rw [stamp, List.foldlM_cons, Replayer.apply_entry hr]
    exact hr'

/-! ## Lines -/

/-- The lines of two runs of records, one behind the other. -/
theorem lines_append (c : Codec) (rs rs' : List Record) :
    lines c (rs ++ rs') = lines c rs ++ lines c rs' := by
  simp [lines]

/-- A piece without a newline, up to the first newline. -/
theorem splitOn_newline_append {xs : List UInt8} (hxs : newline ∉ xs) (rest : List UInt8) :
    (xs ++ newline :: rest).splitOn newline = xs :: rest.splitOn newline := by
  refine List.splitOnP_append_cons_of_forall_mem ?_ _ (by simp) rest
  intro x hx
  rw [beq_eq_false_iff_ne]
  rintro rfl
  exact hxs hx

/-- Bytes without a line end are one line. -/
theorem splitOn_newline_of_not_mem {xs : List UInt8} (hxs : newline ∉ xs) :
    xs.splitOn newline = [xs] := by
  refine List.splitOnP_eq_singleton ?_
  intro x hx
  rw [beq_eq_false_iff_ne]
  rintro rfl
  exact hxs hx

/-- Whole records are split back into their texts. -/
theorem splitOn_lines {c : Codec} {rs : List Record} (hc : c.Reads rs) (rest : List UInt8) :
    (lines c rs ++ rest).splitOn newline = rs.map c.encode ++ rest.splitOn newline := by
  induction rs with
  | nil => rfl
  | cons r rs ih =>
    have hr : newline ∉ c.encode r := hc.no_newline r List.mem_cons_self
    have hsplit := splitOn_newline_append hr (lines c rs ++ rest)
    rw [ih (hc.mono (List.subset_cons_self r rs))] at hsplit
    simpa [lines] using hsplit

variable {dev : ConnDev} {mountPoint : PathBuf}

/-- A line that was written whole is replayed as its record. -/
theorem loadLine_encode {c : Codec} {rs : List Record} (hc : c.Reads rs) {r : Record} (hr : r ∈ rs)
    (rp : Replayer) : loadLine c dev mountPoint (rp, none) (c.encode r) =
      (fun rp => (rp, none)) <$> rp.apply dev mountPoint r := by
  simp only [loadLine, if_neg (hc.nonempty r hr), hc.decode_encode r hr]
  cases rp.apply dev mountPoint r <;> rfl

/-- The loop over the texts of whole records replays them. -/
theorem foldlM_loadLine_encode {c : Codec} {rs : List Record} (hc : c.Reads rs) (rp : Replayer) :
    (rs.map c.encode).foldlM (loadLine c dev mountPoint) (rp, none) =
      (fun rp => (rp, none)) <$> rs.foldlM (Replayer.apply dev mountPoint) rp := by
  induction rs generalizing rp with
  | nil => rfl
  | cons r rs ih =>
    rw [List.map_cons, List.foldlM_cons, List.foldlM_cons, loadLine_encode hc List.mem_cons_self]
    cases rp.apply dev mountPoint r with
    | error e => rfl
    | ok rp' => exact ih (hc.mono (List.subset_cons_self r rs)) rp'

/-- What `load` does after the whole records `rs`. -/
theorem load_lines_append {c : Codec} {rs : List Record} (hc : c.Reads rs) (rest : List UInt8) :
    load c dev mountPoint (.ok (lines c rs ++ rest)) =
      rs.foldlM (Replayer.apply dev mountPoint) {} >>= fun rp =>
        (rest.splitOn newline).foldlM (loadLine c dev mountPoint) (rp, none) >>= fun st =>
          st.1.done := by
  show ((lines c rs ++ rest).splitOn newline).foldlM (loadLine c dev mountPoint) ({}, none) >>=
    (fun st => st.1.done) = _
  rw [splitOn_lines hc, List.foldlM_append, foldlM_loadLine_encode hc]
  cases rs.foldlM (Replayer.apply dev mountPoint) {} <;> rfl

/-- The file of whole records is loaded as the records are replayed. -/
theorem load_lines {c : Codec} {rs : List Record} (hc : c.Reads rs) :
    load c dev mountPoint (.ok (lines c rs)) = loadRecords dev mountPoint rs := by
  rw [← List.append_nil (lines c rs)]
  exact load_lines_append hc []

/-! ## The torn line -/

/-- The records whose text is whole before the cut: the last one's may be, without its newline. -/
def complete (c : Codec) (rs : List Record) (last : Record) (t : List UInt8) : List Record :=
  if t = c.encode last then rs ++ [last] else rs

/-- No part of a record has a line end. -/
theorem Codec.Reads.newline_not_mem {c : Codec} {rs : List Record} (hc : c.Reads rs) {r : Record}
    (hr : r ∈ rs) {t : List UInt8} (ht : t <+: c.encode r) : newline ∉ t :=
  fun h => hc.no_newline r hr (ht.subset h)

/-- `load` replays the whole records of a file that was cut inside its last one. -/
theorem load_cut {c : Codec} {rs : List Record} {last : Record} (hc : c.Reads (rs ++ [last]))
    {t : List UInt8} (ht : t <+: c.encode last) :
    load c dev mountPoint (.ok (lines c rs ++ t)) =
      loadRecords dev mountPoint (complete c rs last t) := by
  have hlast : last ∈ rs ++ [last] := by simp
  rw [load_lines_append (hc.mono (List.subset_append_left rs [last])),
    splitOn_newline_of_not_mem (hc.newline_not_mem hlast ht), loadRecords, complete]
  by_cases hfull : t = c.encode last
  · rw [if_pos hfull, hfull, List.foldlM_append, bind_assoc]
    refine bind_congr fun rp => ?_
    rw [List.foldlM_cons, loadLine_encode hc hlast, List.foldlM_cons]
    cases rp.apply dev mountPoint last <;> rfl
  · rw [if_neg hfull]
    refine bind_congr fun rp => ?_
    have hline : ∃ torn, loadLine c dev mountPoint (rp, none) t = .ok (rp, torn) := by
      by_cases hnil : t = []
      · exact ⟨none, by simp [loadLine, hnil]⟩
      · obtain ⟨e, he⟩ := hc.cut last hlast t ht hnil hfull
        exact ⟨some e, by simp [loadLine, hnil, he]⟩
    obtain ⟨torn, htorn⟩ := hline
    rw [List.foldlM_cons, htorn]
    rfl

/-- After a torn line no further record is accepted. -/
theorem foldlM_loadLine_torn {c : Codec} {r : Record} {rs : List Record} (hc : c.Reads (r :: rs))
    (rest : List (List UInt8)) (rp : Replayer) (torn : String) :
    ((r :: rs).map c.encode ++ rest).foldlM (loadLine c dev mountPoint) (rp, some torn) =
      .error s!"corrupt record in the middle of the log: {torn}" := by
  have hline : loadLine c dev mountPoint (rp, some torn) (c.encode r) =
      .error s!"corrupt record in the middle of the log: {torn}" := by
    rw [loadLine, if_neg (hc.nonempty r List.mem_cons_self),
      hc.decode_encode r List.mem_cons_self]
  rw [List.map_cons, List.cons_append, List.foldlM_cons, hline]
  rfl

/-- What a torn line makes of the records that follow it: the first is lost with it, and any other
makes the log unreadable. -/
theorem load_glued {c : Codec} {rs as : List Record} {last a : Record}
    (hc : c.Reads (rs ++ last :: a :: as)) {t : List UInt8} (ht : t <+: c.encode last)
    (hne : t ≠ []) {r : Restored}
    (h : load c dev mountPoint (.ok (lines c rs ++ t ++ lines c (a :: as))) = .ok r) :
    loadRecords dev mountPoint rs = .ok r := by
  have hlast : last ∈ rs ++ last :: a :: as := by simp
  have ha : a ∈ rs ++ last :: a :: as := by simp
  have has : c.Reads as := hc.mono fun r hr => by simp [hr]
  obtain ⟨e, he⟩ := hc.glued last hlast t ht hne a ha
  -- the torn record and the next one make one line, since neither has a line end
  have hnl : newline ∉ t ++ c.encode a := by
    rw [List.mem_append, not_or]
    exact ⟨hc.newline_not_mem hlast ht, hc.no_newline a ha⟩
  have hsplit : (t ++ lines c (a :: as)).splitOn newline =
      (t ++ c.encode a) :: (as.map c.encode ++ [[]]) := by
    have hrest := splitOn_lines has []
    rw [List.append_nil] at hrest
    have hs := splitOn_newline_append hnl (lines c as)
    rw [hrest] at hs
    simpa [lines] using hs
  rw [List.append_assoc, load_lines_append (hc.mono (List.subset_append_left _ _)), hsplit] at h
  -- that line is no record: the load goes on with its error pending
  have hrun : ∀ rp, ((t ++ c.encode a) :: (as.map c.encode ++ [[]])).foldlM
      (loadLine c dev mountPoint) (rp, none) =
        (as.map c.encode ++ [[]]).foldlM (loadLine c dev mountPoint) (rp, some e) := by
    intro rp
    have hline : loadLine c dev mountPoint (rp, none) (t ++ c.encode a) = .ok (rp, some e) := by
      simp [loadLine, hne, he]
    rw [List.foldlM_cons, hline]
    rfl
  -- as the last line it is taken for torn, and what came before it is loaded
  cases as with
  | nil =>
    rw [loadRecords, ← h]
    refine bind_congr fun rp => ?_
    rw [hrun]
    rfl
  | cons b as =>
    -- with a record behind it the load fails
    have hbad := fun rp => (hrun rp).trans (foldlM_loadLine_torn has [[]] rp e)
    simp only [hbad] at h
    cases hrp : rs.foldlM (Replayer.apply dev mountPoint) {} with
    | error e => rw [hrp] at h; cases h
    | ok rp => rw [hrp] at h; cases h

/-! ## A successor's appends -/

namespace LogFile

/-- An appended record is in the file or in the buffer. -/
theorem append_written (c : Codec) (w : LogFile) (rec : Record) (sync : Bool) :
    (w.append c rec sync).file ++ (w.append c rec sync).buf =
      w.file ++ w.buf ++ lines c [rec] ∧ (w.append c rec sync).seq = w.seq := by
  simp only [append]
  split
  · simp [flush, lines]
  · simp [lines]

/-- Queued or not, the records stand in the file in the order they were logged. -/
theorem file_foldl_log (c : Codec) (xs : List (Entry × Bool)) (w : LogFile) :
    (xs.foldl (log c) w).flush.file =
      w.file ++ w.buf ++ lines c (stamp w.seq (xs.map Prod.fst)) := by
  induction xs generalizing w with
  | nil => simp [flush, stamp, lines]
  | cons x xs ih =>
    obtain ⟨hfile, hseq⟩ :=
      append_written c { w with seq := w.seq + 1 } (.entry (w.seq + 1) x.1) x.2
    rw [List.foldl_cons, ih, log, hfile, hseq, List.map_cons, stamp, List.append_assoc,
      ← lines_append]
    rfl

end LogFile

/-- A load that succeeds began with a snapshot. -/
theorem loadRecords_ok {rs : List Record} {r : Restored}
    (h : loadRecords dev mountPoint rs = .ok r) :
    ∃ rp, rs.foldlM (Replayer.apply dev mountPoint) {} = .ok rp ∧ rp.based = true ∧
      r = rp.finish := by
  unfold loadRecords at h
  cases hrp : rs.foldlM (Replayer.apply dev mountPoint) {} with
  | error e => rw [hrp] at h; cases h
  | ok rp =>
    rw [hrp] at h
    replace h : rp.done = .ok r := h
    unfold Replayer.done at h
    split at h
    · rename_i hb
      exact ⟨rp, rfl, hb, (Except.ok.inj h).symm⟩
    · cases h

/-- More entries after a log that loads. -/
theorem loadRecords_append_stamp {rs : List Record} {r : Restored}
    (h : loadRecords dev mountPoint rs = .ok r) (n : Nat) (es : List Entry) :
    ∃ r', loadRecords dev mountPoint (rs ++ stamp n es) = .ok r' ∧ r.maxSeq ≤ r'.maxSeq ∧
      (es ≠ [] → n < r'.maxSeq) := by
  obtain ⟨rp, hrp, hb, rfl⟩ := loadRecords_ok h
  obtain ⟨rp', hrp', hb', hle, hlt⟩ := foldlM_apply_stamp dev mountPoint es n hb
  refine ⟨rp'.finish, ?_, hle, hlt⟩
  rw [loadRecords, List.foldlM_append, hrp]
  show (stamp n es).foldlM (Replayer.apply dev mountPoint) rp >>= Replayer.done = _
  rw [hrp']
  exact if_pos hb'

/-- A record more never lowers the last number seen. -/
theorem maxSeq_le_of_append {rs : List Record} {last : Record} {r r' : Restored}
    (h : loadRecords dev mountPoint rs = .ok r)
    (h' : loadRecords dev mountPoint (rs ++ [last]) = .ok r') : r.maxSeq ≤ r'.maxSeq := by
  obtain ⟨rp, hrp, hb, rfl⟩ := loadRecords_ok h
  obtain ⟨rp', hrp', hb', rfl⟩ := loadRecords_ok h'
  rw [List.foldlM_append, hrp] at hrp'
  replace hrp' : rp.apply dev mountPoint last >>= pure = .ok rp' := hrp'
  rw [bind_pure] at hrp'
  exact (Replayer.apply_ok hrp').2

/-- The log of a daemon that wrote `rs` and `last`, cut inside `last`, is loaded and appended to by
a successor. A later `load` gives the whole records before the cut and all of the successor's
exactly when the cut left nothing of `last` or the successor wrote nothing. -/
theorem torn_log_is_resumed_iff (c : Codec) (dev : ConnDev) (mountPoint : PathBuf)
    (rs : List Record) (last : Record) (t : List UInt8) (xs : List (Entry × Bool)) (r : Restored)
    (hc : c.Reads (rs ++ last :: stamp r.maxSeq (xs.map Prod.fst))) (ht : t <+: c.encode last)
    (hr : load c dev mountPoint (.ok (lines c rs ++ t)) = .ok r) :
    (∃ r', load c dev mountPoint
        (.ok (xs.foldl (LogFile.log c) (.startResumed (lines c rs ++ t) r)).flush.file) = .ok r' ∧
      loadRecords dev mountPoint
        (complete c rs last t ++ stamp r.maxSeq (xs.map Prod.fst)) = .ok r') ↔
      t = [] ∨ xs = [] := by
  -- what the successor read is the log up to the cut
  have hcut : c.Reads (rs ++ [last]) := hc.mono (by simp)
  rw [load_cut hcut ht] at hr
  rw [LogFile.file_foldl_log]
  simp only [LogFile.startResumed, List.append_nil]
  obtain ⟨r', hr', -, hlt⟩ := loadRecords_append_stamp hr r.maxSeq (xs.map Prod.fst)
  -- it holds, so the cut was at a line's end or nothing was appended
  constructor
  · rintro ⟨r₂, hload, hr₂⟩
    by_contra hno
    rw [not_or] at hno
    obtain ⟨hne, hxs⟩ := hno
    rw [hr', Except.ok.injEq] at hr₂
    subst hr₂
    obtain ⟨x, xs, rfl⟩ := List.exists_cons_of_ne_nil hxs
    -- the later load saw none of the successor's records, so that no number above `r.maxSeq`
    have hrs := load_glued hc ht hne hload
    have hle : r'.maxSeq ≤ r.maxSeq := by
      unfold complete at hr
      split at hr
      · exact maxSeq_le_of_append hrs hr
      · rw [hrs, Except.ok.injEq] at hr
        rw [hr]
    have := hlt (by simp)
    omega
  · -- at a line's end the lines continue where the records do
    intro h
    refine ⟨r', ?_, hr'⟩
    obtain rfl | rfl := h
    · have hne : [] ≠ c.encode last := (hcut.nonempty last (by simp)).symm
      rw [complete, if_neg hne] at hr'
      rw [List.append_nil, ← lines_append, load_lines (hc.mono ?_), hr']
      intro x hx
      simp only [List.mem_append, List.mem_cons] at hx ⊢
      tauto
    · -- without appended records the log is the one that was read
      simp only [List.map_nil, stamp, lines, List.flatMap_nil, List.append_nil] at hr' ⊢
      rw [← hr']
      exact load_cut hcut ht

/-! ## A small log -/

/-- A codec given by the texts of the records it is used on. -/
def Codec.ofTexts (texts : List (Record × List UInt8)) (error : List UInt8 → String) : Codec where
  encode r := (texts.lookup r).getD []
  decode bs := match texts.find? (fun x => x.2 = bs) with
    | some x => .ok x.1
    | none => .error (error bs)

/-- No text may start or end with another one: then a cut text, or one that goes on after a cut
with another text, is none of them. -/
theorem Codec.reads_ofTexts {texts : List (Record × List UInt8)} {error : List UInt8 → String}
    {rs : List Record}
    (hfind : ∀ r ∈ rs, texts.find? (fun x => x.2 = (ofTexts texts error).encode r) =
      some (r, (ofTexts texts error).encode r))
    (hclean : ∀ x ∈ texts, newline ∉ x.2 ∧ x.2 ≠ [])
    (hpre : ∀ x ∈ texts, ∀ y ∈ texts, x.2 <+: y.2 → x = y)
    (hsuf : ∀ x ∈ texts, ∀ y ∈ texts, x.2 <:+ y.2 → x = y) :
    (ofTexts texts error).Reads rs := by
  -- only the texts given are encoded, and only they are decoded
  have hmem : ∀ r ∈ rs, (r, (ofTexts texts error).encode r) ∈ texts := fun r hr =>
    List.mem_of_find?_eq_some (hfind r hr)
  have hnone : ∀ bs, (∀ x ∈ texts, x.2 ≠ bs) →
      ∃ e, (ofTexts texts error).decode bs = .error e := by
    intro bs hbs
    have hno : texts.find? (fun x => x.2 = bs) = none := by
      rw [List.find?_eq_none]
      simpa using hbs
    exact ⟨error bs, by simp [ofTexts, hno]⟩
  constructor
  case decode_encode =>
    intro r hr
    show (match texts.find? (fun x => x.2 = (ofTexts texts error).encode r) with
      | some x => Except.ok x.1
      | none => .error (error ((ofTexts texts error).encode r))) = _
    rw [hfind r hr]
  case no_newline => exact fun r hr => (hclean _ (hmem r hr)).1
  case nonempty => exact fun r hr => (hclean _ (hmem r hr)).2
  -- a cut text is a prefix of its own, and no other text is one
  case cut =>
    intro r hr t ht _ hfull
    refine hnone t fun y hy hyt => ?_
    have hy := hpre y hy _ (hmem r hr) (hyt ▸ ht)
    exact hfull (hyt.symm.trans (congrArg Prod.snd hy))
  -- two texts glued together end in the second, and no other text does
  case glued =>
    intro r hr t ht hne r' hr'
    refine hnone _ fun y hy hyt => ?_
    have hy := hsuf _ (hmem r' hr') y hy ⟨t, hyt.symm⟩
    have hlen := congrArg List.length (hyt.symm.trans (congrArg Prod.snd hy).symm)
    simp only [List.length_append] at hlen
    exact hne (List.length_eq_zero_iff.mp (by omega))

/-- The bytes of a text. -/
def utf8 (s : String) : List UInt8 := s.toUTF8.data.toList

/-- The device of the example. -/
def demoDev : ConnDev := { major := 0, minor := 52 }

/-- A fresh mount hands out its first node id. -/
def demoLog : List Record :=
  [.base demoDev ["m"], .entry 1 (.fh 0), .entry 1 (.reserve 2), .entry 2 (.reserve 4096)]

/-- The record that is cut in the example. -/
def demoLast : Record := .entry 3 (.ino 2 ["a"])

/-- The successor hands out its first one. -/
def demoAppends : List (Entry × Bool) := [(.reserve 8192, true), (.ino 4096 ["b"], false)]

/-- The texts of these records. -/
def demoTexts : List (Record × List UInt8) :=
    [(.base demoDev ["m"],
        utf8 "\x7b\"t\":\"base\",\"dev\":\x7b\"major\":0,\"minor\":52\x7d,\"mount_point\":\"/m\"\x7d"),
     (.entry 1 (.fh 0),
        utf8 "\x7b\"t\":\"fh\",\"s\":1,\"next\":0\x7d"),
     (.entry 1 (.reserve 2),
        utf8 "\x7b\"t\":\"reserve\",\"s\":1,\"upto\":2\x7d"),
     (.entry 2 (.reserve 4096),
        utf8 "\x7b\"t\":\"reserve\",\"s\":2,\"upto\":4096\x7d"),
     (.entry 3 (.ino 2 ["a"]),
        utf8 "\x7b\"t\":\"ino\",\"s\":3,\"ino\":2,\"path\":\"/a\"\x7d"),
     (.entry 3 (.reserve 8192),
        utf8 "\x7b\"t\":\"reserve\",\"s\":3,\"upto\":8192\x7d"),
     (.entry 4 (.ino 4096 ["b"]),
        utf8 "\x7b\"t\":\"ino\",\"s\":4,\"ino\":4096,\"path\":\"/b\"\x7d")]

/-- The errors are those for the torn line, which ends after the number, before and after the
successor's first record is on it. -/
def demoCodec : Codec :=
  .ofTexts demoTexts fun bs =>
    if bs.length = 17 then "EOF while parsing a value at line 1 column 17"
    else "key must be a string at line 1 column 18"

/-- The texts of the example are told apart when they are cut or glued. -/
theorem demoCodec_reads :
    demoCodec.Reads (demoLog ++ demoLast :: stamp 2 (demoAppends.map Prod.fst)) :=
  Codec.reads_ofTexts (by decide) (by decide) (by decide) (by decide)

/-- The daemon died before it wrote any of its last record. -/
theorem cut_before_last_record_is_resumed :
    ∃ r, load demoCodec demoDev ["m"] (.ok (lines demoCodec demoLog ++ [])) = .ok r ∧
      ∃ r', load demoCodec demoDev ["m"]
          (.ok (demoAppends.foldl (LogFile.log demoCodec)
            (.startResumed (lines demoCodec demoLog ++ []) r)).flush.file) = .ok r' ∧
        loadRecords demoDev ["m"]
          (complete demoCodec demoLog demoLast [] ++ stamp r.maxSeq (demoAppends.map Prod.fst)) =
            .ok r' := by
  obtain ⟨r, hr, hseq⟩ : ∃ r, load demoCodec demoDev ["m"] (.ok (lines demoCodec demoLog ++ [])) =
      .ok r ∧ r.maxSeq = 2 := ⟨_, rfl, rfl⟩
  refine ⟨r, hr, ?_⟩
  exact (torn_log_is_resumed_iff demoCodec demoDev ["m"] demoLog demoLast [] demoAppends r
    (hseq ▸ demoCodec_reads) List.nil_prefix hr).mpr (.inl rfl)

/-- The daemon died inside its last record, and its successor's log is rejected. -/
theorem torn_log_is_rejected :
    ∃ t, t <+: demoCodec.encode demoLast ∧ t.length = 17 ∧
      ∃ r, load demoCodec demoDev ["m"] (.ok (lines demoCodec demoLog ++ t)) = .ok r ∧
        load demoCodec demoDev ["m"]
          (.ok (demoAppends.foldl (LogFile.log demoCodec)
            (.startResumed (lines demoCodec demoLog ++ t) r)).flush.file) =
          .error "corrupt record in the middle of the log: key must be a string at line 1 column 18" :=
  ⟨(demoCodec.encode demoLast).take 17, List.take_prefix 17 _, rfl, _, rfl, rfl⟩

end Handoff

end Ncrs
