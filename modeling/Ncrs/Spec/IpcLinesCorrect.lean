import Mathlib.Data.List.Induction
import Ncrs.Native.IpcLines
import Ncrs.Spec.DirStatusCorrect

/-!
# What a file manager reads

Paths hold no tab and no record separator, so every field of a line comes back as it was written,
with two exceptions: the extension strips the line's ends, and takes an answer that begins with
`error` for a failure. The first costs the last path of a change line its trailing white space, the
other the whole listing of a directory.

## Key results

- `readChange_encodeRecord_iff`, `text_of_readChange`: one record, read and written back.
- `splitOn_sendReply`: the fields of a line after the strip.
- `readFileChanges_iff`, `readEvents_iff`, `readChanges_iff`, `fetchDetaildir_iff`: the four lines.
- `lines_read_back_iff`: when all of them are read as they were meant.
-/

namespace Ncrs

/-! ## Plain paths -/

/-- A name the daemon lets in. -/
@[mk_iff]
structure PlainName (name : String) : Prop where
  ne_empty : name.toList ≠ []
  no_slash : '/' ∉ name.toList
  ne_dot : name.toList ≠ ".".toList
  ne_dots : name.toList ≠ "..".toList
  no_control : ∀ c ∈ name.toList, isControl c = false

/-- A path whose names are plain. -/
def PlainPath (p : PathBuf) : Prop := ∀ name ∈ p, PlainName name

/-- A line without control characters. -/
def NoControl (l : Line) : Prop := ∀ c ∈ l, isControl c = false

/-- Text without control characters lacks each of them. -/
theorem NoControl.not_mem {l : Line} (h : NoControl l) {c : Char} (hc : isControl c = true) : c ∉ l := by
  intro hmem
  rw [h c hmem] at hc
  cases hc

/-- Two such texts, one after the other. -/
theorem NoControl.append {l l' : Line} (h : NoControl l) (h' : NoControl l') : NoControl (l ++ l') := by
  intro c hc
  obtain hc | hc := List.mem_append.mp hc
  · exact h c hc
  · exact h' c hc

/-- What the label reader returns has no control characters. -/
theorem readLabel_noControl (s : String) : NoControl (readLabel s).toList := by
  intro c hc
  rw [readLabel, String.toList_ofList, List.mem_filter] at hc
  simpa using hc.2

/-- Trailing white space of a path would not survive the strip. -/
def EndsBlank (p : PathBuf) : Prop :=
  ∃ name, p.getLast? = some name ∧ ∃ c, name.toList.getLast? = some c ∧ isSpace c = true

variable {mount p : PathBuf}

/-- The text of a plain path has none. -/
theorem pathText_noControl (hp : PlainPath p) : NoControl (pathText p) := by
  intro c hc
  obtain ⟨name, hname, hc⟩ := List.mem_flatMap.mp hc
  obtain rfl | hc := List.mem_cons.mp hc
  · decide
  · exact (hp name hname).no_control c hc

/-- Two plain paths, one after the other. -/
theorem PlainPath.append {q : PathBuf} (hp : PlainPath p) (hq : PlainPath q) : PlainPath (p ++ q) := by
  intro name hname
  obtain hname | hname := List.mem_append.mp hname
  · exact hp name hname
  · exact hq name hname

/-- Nor has the absolute path under a plain mount point. -/
theorem absPath_noControl (hmount : PlainPath mount) (hp : PlainPath p) :
    NoControl (absPath mount p) := by
  unfold absPath
  split
  · exact (pathText_noControl hmount).append (by simp [NoControl, isControl])
  · exact pathText_noControl (hmount.append hp)

/-- An absolute path begins with a slash. -/
theorem absPath_head (mount p : PathBuf) : ∃ l, absPath mount p = '/' :: l := by
  unfold absPath
  cases mount with
  | nil =>
    cases p with
    | nil => exact ⟨[], rfl⟩
    | cons name p => exact ⟨_, rfl⟩
  | cons name mount =>
    split
    · exact ⟨_, rfl⟩
    · exact ⟨_, rfl⟩

/-- It ends in white space exactly when the last name does. -/
theorem absPath_getLast? (hp : PlainPath p) :
    (absPath mount p).getLast?.any isSpace = true ↔ EndsBlank p := by
  obtain rfl | ⟨init, name, rfl⟩ := p.eq_nil_or_concat'
  · simp [absPath, EndsBlank, isSpace]
  · have hne := (hp name (by simp)).ne_empty
    have htext : absPath mount (init ++ [name]) = pathText (mount ++ init) ++ '/' :: name.toList := by
      simp [absPath, pathText]
    obtain ⟨cs, c, hname⟩ := (List.eq_nil_or_concat' name.toList).resolve_left hne
    rw [htext, hname]
    simp [EndsBlank, hname, List.getLast?_append, List.getLast?_cons]

/-- The text of a path is its names with slashes between them, and one in front. -/
theorem pathText_eq (hp : p ≠ []) : pathText p = '/' :: ['/'].intercalate (p.map String.toList) := by
  induction p with
  | nil => exact absurd rfl hp
  | cons name p ih =>
    cases p with
    | nil => simp [pathText]
    | cons name' p =>
      have hrest := ih (by simp)
      simp only [pathText, List.flatMap_cons] at hrest ⊢
      rw [hrest]
      simp [List.intercalate_cons_cons]

/-- The text of a path under another. -/
theorem pathText_append (p q : PathBuf) : pathText (p ++ q) = pathText p ++ pathText q :=
  List.flatMap_append

/-- A path lies below the mount point if it is neither the mount point itself nor the mount point
    the root of the file system. -/
theorem insideMount_absPath (hmount : PlainPath mount) (hp : PlainPath p) :
    insideMount (mountPrefix mount) (absPath mount p) = true ↔ mount ≠ [] ∧ p ≠ [] := by
  by_cases hroot : mount = []
  · -- the prefix has two slashes, a path only one
    subst hroot
    simp only [ne_eq, not_true, false_and, iff_false]
    cases p with
    | nil => simp [insideMount, mountPrefix, absPath, pathText]
    | cons name p =>
      have hname := hp name List.mem_cons_self
      obtain ⟨c, cs, hc⟩ := List.exists_cons_of_ne_nil hname.ne_empty
      have hne : c ≠ '/' := by
        intro heq
        exact hname.no_slash (by rw [hc, heq]; exact List.mem_cons_self)
      simp [insideMount, mountPrefix, absPath, pathText, hc, hne.symm]
  by_cases hempty : p = []
  · subst hempty
    have hdrop : (absPath mount []).drop (mountPrefix mount).length = [] := by
      simp [absPath, mountPrefix, hroot]
    simp [insideMount, hdrop]
  · have htext : absPath mount p =
        mountPrefix mount ++ ['/'].intercalate (p.map String.toList) := by
      rw [absPath, if_neg hempty, pathText_append, pathText_eq hempty, mountPrefix, if_neg hroot]
      simp
    -- the names are the parts of the path below the mount point
    have hparts : (['/'].intercalate (p.map String.toList)).splitOn '/' = p.map String.toList := by
      apply List.splitOn_intercalate
      · intro part hpart
        obtain ⟨name, hname, rfl⟩ := List.mem_map.mp hpart
        exact (hp name hname).no_slash
      · simpa using hempty
    rw [insideMount, htext, List.drop_left, hparts]
    simp only [ne_eq, hroot, not_false_eq_true, hempty, and_self, iff_true, Bool.and_eq_true,
      List.isPrefixOf_iff_prefix, List.prefix_append, true_and, List.all_map, List.all_eq_true]
    intro name hname
    have h := hp name hname
    simpa [h.ne_empty] using ⟨h.ne_dot, h.ne_dots⟩

/-! ## One record -/

namespace ReadChange

/-- The entry a change was read from. -/
def text (x : ReadChange) : Line := x.kind ++ ':' :: ['\x1e'].intercalate x.targets

end ReadChange

/-- The paths of a change are joined as they were split. -/
theorem intercalate_changeTargets (kind path : Line) :
    ['\x1e'].intercalate (changeTargets kind path) = path := by
  unfold changeTargets
  split
  · split
    · rename_i hsplit
      simp [List.eq_of_splitFirst hsplit, List.intercalate_cons_cons]
    · rename_i hsplit
      simp [List.eq_of_splitFirst_none hsplit]
  · simp

/-- A change that is read has the text it was read from. -/
theorem text_of_readChange {pre entry : Line} {x : ReadChange} (h : readChange pre entry = some x) :
    entry = x.text := by
  unfold readChange at h
  split at h
  · cases h
  · rename_i kind path hsplit
    dsimp only at h
    split at h
    · cases h
    · split at h
      · cases h
      · obtain rfl := Option.some.inj h
        rw [List.eq_of_splitFirst hsplit, ReadChange.text, intercalate_changeTargets]

namespace FeedRecord

/-- The letters of a record's kind. -/
def kind : FeedRecord → Line
  | .status _ => "S".toList
  | .file c =>
    match c.kind with
    | .added => "A".toList
    | .removed => "D".toList
    | .modified => "M".toList
    | .dirAdded => "DA".toList
    | .dirRemoved => "DD".toList
    | .renamed _ => "R".toList

/-- The change a record stands for, as the extension acts on it. -/
def sent (mount : PathBuf) (r : FeedRecord) : ReadChange := ⟨r.kind, r.paths.map (absPath mount)⟩

/-- All its paths are plain. -/
def Plain (r : FeedRecord) : Prop := ∀ p ∈ r.paths, PlainPath p

/-- A record is the text of the change that it tells. -/
theorem encodeRecord_eq (mount : PathBuf) (r : FeedRecord) : encodeRecord mount r = (r.sent mount).text := by
  cases r with
  | status p => simp [encodeRecord, sent, kind, paths, ReadChange.text]
  | file c =>
    obtain ⟨k, path⟩ := c
    cases k <;> simp [encodeRecord, encodeFileChange, sent, kind, paths, ReadChange.text,
      List.intercalate_cons_cons]

/-- Which letters occur, and how many paths follow them. -/
theorem kind_paths (r : FeedRecord) :
    (r.kind = "R".toList ∧ ∃ p q, r.paths = [p, q]) ∨
      (r.kind ∈ ["S".toList, "A".toList, "D".toList, "M".toList, "DA".toList, "DD".toList] ∧
        ∃ p, r.paths = [p]) := by
  cases r with
  | status p => exact .inr ⟨by simp [kind], p, rfl⟩
  | file c =>
    obtain ⟨k, path⟩ := c
    cases k with
    | renamed src => exact .inl ⟨rfl, src, path, rfl⟩
    | _ => exact .inr ⟨by simp [kind], path, rfl⟩

/-- The letter of a record is neither a colon nor the beginning of an error. -/
theorem kind_plain (r : FeedRecord) : ':' ∉ r.kind ∧ NoControl r.kind ∧
    ∃ c l, r.kind = c :: l ∧ isSpace c = false ∧ c ≠ 'e' := by
  obtain ⟨hkind, -⟩ | ⟨hkind, -⟩ := r.kind_paths
  · rw [hkind]
    exact ⟨by decide, by simp [NoControl, isControl], 'R', [], rfl, by decide, by decide⟩
  · simp only [List.mem_cons, List.not_mem_nil, or_false] at hkind
    obtain h | h | h | h | h | h := hkind <;> rw [h] <;>
      exact ⟨by decide, by simp [NoControl, isControl], _, _, rfl, by decide, by decide⟩

end FeedRecord

/-- A record is read as it was meant exactly when its paths lie below the mount point. -/
theorem readChange_encodeRecord_iff {r : FeedRecord} (hmount : PlainPath mount) (hr : r.Plain) :
    readChange (mountPrefix mount) (encodeRecord mount r) = some (r.sent mount) ↔
      mount ≠ [] ∧ ∀ p ∈ r.paths, p ≠ [] := by
  have hsplit : (encodeRecord mount r).splitFirst ':' =
      (r.kind, some (['\x1e'].intercalate (r.paths.map (absPath mount)))) := by
    rw [r.encodeRecord_eq, ReadChange.text]
    exact List.splitFirst_append r.kind_plain.1 _
  -- a rename has two paths, every other record one
  have htargets : changeTargets r.kind (['\x1e'].intercalate (r.paths.map (absPath mount))) =
      r.paths.map (absPath mount) := by
    obtain ⟨hkind, p, q, hpaths⟩ | ⟨hkind, p, hpaths⟩ := r.kind_paths
    · have hp : '\x1e' ∉ absPath mount p :=
        (absPath_noControl hmount (hr p (by simp [hpaths]))).not_mem (by decide)
      simp [changeTargets, hkind, hpaths, List.intercalate_cons_cons, List.splitFirst_append hp]
    · have hne : r.kind ≠ "R".toList := by
        intro heq
        rw [heq] at hkind
        revert hkind
        decide
      rw [changeTargets, if_neg hne, hpaths]
      simp
  -- the paths of the record lie inside the mount point
  have hinside : (r.paths.map (absPath mount)).all (insideMount (mountPrefix mount)) = true ↔
      mount ≠ [] ∧ ∀ p ∈ r.paths, p ≠ [] := by
    rw [List.all_map, List.all_eq_true]
    have hsome : r.paths ≠ [] := by
      obtain ⟨-, p, q, hpaths⟩ | ⟨-, p, hpaths⟩ := r.kind_paths <;> simp [hpaths]
    obtain ⟨p₀, hp₀⟩ := List.exists_mem_of_ne_nil _ hsome
    constructor
    · intro h
      exact ⟨((insideMount_absPath hmount (hr p₀ hp₀)).mp (h p₀ hp₀)).1,
        fun p hp => ((insideMount_absPath hmount (hr p hp)).mp (h p hp)).2⟩
    · intro h p hp
      exact (insideMount_absPath hmount (hr p hp)).mpr ⟨h.1, h.2 p hp⟩
  -- a rename is told with both paths
  have hwhole : ¬(r.kind = "R".toList ∧ (r.paths.map (absPath mount)).length = 1) := by
    obtain ⟨-, p, q, hpaths⟩ | ⟨hkind, -⟩ := r.kind_paths
    · simp [hpaths]
    · intro h
      rw [h.1] at hkind
      revert hkind
      decide
  unfold readChange
  rw [hsplit]
  dsimp only
  rw [htargets, ← hinside]
  by_cases hall : (r.paths.map (absPath mount)).all (insideMount (mountPrefix mount)) = true
  · simp only [hall, Bool.not_true, Bool.false_eq_true, if_false, iff_true]
    rw [if_neg (by simpa using hwhole)]
    rfl
  · simp [hall]

/-! ## The fields of a line -/

/-- A field that begins with neither white space nor an `e`. -/
def Opens (f : Line) : Prop := ∃ c l, f = c :: l ∧ isSpace c = false ∧ c ≠ 'e'

/-- A field that opens with a letter has one that is not white space. -/
theorem Opens.exists_not_isSpace {f : Line} (h : Opens f) : ∃ x ∈ f, isSpace x = false := by
  obtain ⟨c, l, rfl, hc, -⟩ := h
  exact ⟨c, List.mem_cons_self, hc⟩

/-- Joined fields open as the first of them does. -/
theorem Opens.intercalate {f : Line} {fs : List Line} (h : Opens f) (hf : fs.head? = some f) :
    Opens (['\t'].intercalate fs) := by
  obtain ⟨c, l, rfl, hc, hce⟩ := h
  cases fs with
  | nil => cases hf
  | cons f' fs =>
    obtain rfl := Option.some.inj hf
    obtain ⟨l', hl'⟩ := List.intercalate_cons_eq '\t' (c :: l) fs
    exact ⟨c, l ++ l', hl', hc, hce⟩

/-- A line of such fields is taken for an answer, and loses white space at the end of its last. -/
theorem splitOn_sendReply {init : List Line} {e : Line} (htab : ∀ f ∈ init ++ [e], '\t' ∉ f)
    (hopens : ∀ f ∈ init ++ [e], Opens f) :
    isAnswer (sendReply (['\t'].intercalate (init ++ [e]))) = true ∧
      (sendReply (['\t'].intercalate (init ++ [e]))).splitOn '\t' = init ++ [e.rdropWhile isSpace] := by
  -- the reply is stripped at its end only, where the last field ends
  have hlast : ∃ x ∈ e, isSpace x = false := (hopens e (by simp)).exists_not_isSpace
  obtain ⟨c, l, hline, hc, hce⟩ : Opens (['\t'].intercalate (init ++ [e])) := by
    obtain ⟨f, hf⟩ : ∃ f, (init ++ [e]).head? = some f := Option.isSome_iff_exists.mp (by simp)
    exact (hopens f (List.mem_of_head? hf)).intercalate hf
  have hstrip : sendReply (['\t'].intercalate (init ++ [e])) =
      ['\t'].intercalate (init ++ [e.rdropWhile isSpace]) := by
    rw [← List.rdropWhile_intercalate _ _ hlast, hline]
    unfold sendReply List.strip
    rw [List.cons_append, List.dropWhile_cons_of_neg (by simp [hc]), ← List.cons_append,
      List.rdropWhile_concat_pos _ _ _ (by decide)]
  constructor
  · -- what remains begins as the line did, so that it is no error
    have hprefix : sendReply (['\t'].intercalate (init ++ [e])) <+: c :: l := by
      rw [hstrip, ← List.rdropWhile_intercalate _ _ hlast, hline]
      exact List.rdropWhile_prefix _ _
    obtain ⟨x, hx, hxs⟩ := hlast
    have hne : sendReply (['\t'].intercalate (init ++ [e])) ≠ [] := by
      rw [hstrip, List.intercalate_concat]
      intro hnil
      have := List.rdropWhile_eq_nil_iff.mp (List.append_eq_nil_iff.mp hnil).2 x hx
      simp [hxs] at this
    obtain ⟨c', l', hresp⟩ := List.exists_cons_of_ne_nil hne
    rw [hresp, List.cons_prefix_cons] at hprefix
    obtain rfl := hprefix.1
    have hbeq : ('e' == c') = false := beq_eq_false_iff_ne.mpr hce.symm
    simp [isAnswer, hresp, List.isPrefixOf, hbeq]
  · -- and it splits at the same tabs
    rw [hstrip]
    apply List.splitOn_intercalate
    · intro f hf
      obtain hf | hf := List.mem_append.mp hf
      · exact htab f (List.mem_append_left _ hf)
      · obtain rfl := List.mem_singleton.mp hf
        intro htabs
        have hpre : e.rdropWhile isSpace <+: e := List.rdropWhile_prefix _ e
        exact htab e (by simp) (hpre.mem htabs)
    · simp

namespace FeedRecord

variable {r : FeedRecord}

/-- A record has no tab. -/
theorem encodeRecord_noControl (hmount : PlainPath mount) (hr : r.Plain) :
    '\t' ∉ encodeRecord mount r := by
  have hpath : ∀ p ∈ r.paths, '\t' ∉ absPath mount p := fun p hp =>
    (absPath_noControl hmount (hr p hp)).not_mem (by decide)
  have hkind : '\t' ∉ r.kind := r.kind_plain.2.1.not_mem (by decide)
  rw [r.encodeRecord_eq, ReadChange.text, sent]
  obtain ⟨-, p, q, hpaths⟩ | ⟨-, p, hpaths⟩ := r.kind_paths
  · simp [hpaths, hkind, List.intercalate_cons_cons, hpath p (by simp [hpaths]),
      hpath q (by simp [hpaths])]
  · simp [hpaths, hkind, hpath p (by simp [hpaths])]

/-- A record opens with its letter. -/
theorem encodeRecord_opens (mount : PathBuf) (r : FeedRecord) : Opens (encodeRecord mount r) := by
  obtain ⟨-, -, c, l, hkind, hc, hce⟩ := r.kind_plain
  exact ⟨c, _, by rw [r.encodeRecord_eq, ReadChange.text, sent, hkind]; rfl, hc, hce⟩

/-- The strip spares a record that does not end with white space. -/
theorem rdropWhile_encodeRecord_iff (hr : r.Plain) :
    (encodeRecord mount r).rdropWhile isSpace = encodeRecord mount r ↔
      ∀ p, r.paths.getLast? = some p → ¬EndsBlank p := by
  have hlast : ∃ l p, r.paths.getLast? = some p ∧ encodeRecord mount r = l ++ absPath mount p := by
    rw [r.encodeRecord_eq, ReadChange.text, sent]
    obtain ⟨-, p, q, hpaths⟩ | ⟨-, p, hpaths⟩ := r.kind_paths
    · refine ⟨r.kind ++ ':' :: absPath mount p ++ ['\x1e'], q, by simp [hpaths], ?_⟩
      simp [hpaths, List.intercalate_cons_cons]
    · exact ⟨r.kind ++ [':'], p, by simp [hpaths], by simp [hpaths]⟩
  obtain ⟨l, p, hp, htext⟩ := hlast
  obtain ⟨rest, hrest⟩ := absPath_head mount p
  have hend : (encodeRecord mount r).getLast? = (absPath mount p).getLast? := by
    rw [htext, hrest, List.getLast?_append_of_ne_nil]
    simp
  rw [List.rdropWhile_eq_self_iff_getLast?, hend, hp, ← Bool.not_eq_true,
    absPath_getLast? (hr p (List.mem_of_getLast? hp))]
  simp

end FeedRecord

/-- What the records of a line must be like: no path is the mount point itself, and the last path
    does not end with white space. -/
structure Readable (mount : PathBuf) (rs : List FeedRecord) : Prop where
  below : ∀ r ∈ rs, mount ≠ [] ∧ ∀ p ∈ r.paths, p ≠ []
  last : ∀ r p, rs.getLast? = some r → r.paths.getLast? = some p → ¬EndsBlank p

/-- The records of a stripped line. -/
theorem filterMap_readChange_iff {init : List FeedRecord} {r : FeedRecord} (hmount : PlainPath mount)
    (hplain : ∀ x ∈ init ++ [r], x.Plain) :
    (init.map (encodeRecord mount) ++ [(encodeRecord mount r).rdropWhile isSpace]).filterMap
        (readChange (mountPrefix mount)) = (init ++ [r]).map (FeedRecord.sent mount) ↔
      Readable mount (init ++ [r]) := by
  have hread : ∀ x ∈ init ++ [r], readChange (mountPrefix mount) (encodeRecord mount x) =
      some (x.sent mount) ↔ mount ≠ [] ∧ ∀ p ∈ x.paths, p ≠ [] := fun x hx =>
    readChange_encodeRecord_iff hmount (hplain x hx)
  constructor
  · -- all records were read, so that each of them was read as itself
    intro h
    have hmap := List.map_of_filterMap_eq h (by simp)
    rw [List.map_append, List.map_append, List.map_append, List.map_map, List.map_map,
      List.map_singleton, List.map_singleton, List.map_singleton] at hmap
    obtain ⟨hinit, hr⟩ := List.append_inj hmap (by simp)
    have hr := List.singleton_inj.mp hr
    -- nothing was stripped, or another record would have been read
    have hwhole : (encodeRecord mount r).rdropWhile isSpace = encodeRecord mount r := by
      rw [r.encodeRecord_eq mount]
      exact (r.encodeRecord_eq mount ▸ text_of_readChange hr)
    rw [hwhole] at hr
    constructor
    · intro x hx
      apply (hread x hx).mp
      obtain hx | hx := List.mem_append.mp hx
      · exact List.map_inj_left.mp hinit x hx
      · obtain rfl := List.mem_singleton.mp hx
        exact hr
    · intro x p hx
      rw [List.getLast?_concat] at hx
      obtain rfl := Option.some.inj hx
      exact (FeedRecord.rdropWhile_encodeRecord_iff (hplain _ (by simp))).mp hwhole p
  · -- nothing is stripped from the last record, and each is read as itself
    intro h
    have hwhole := (@FeedRecord.rdropWhile_encodeRecord_iff mount r (hplain r (by simp))).mpr
      fun p => h.last r p List.getLast?_concat
    rw [hwhole, ← List.map_singleton (f := encodeRecord mount), ← List.map_append, List.filterMap_map,
      ← List.filterMap_eq_map]
    apply List.filterMap_congr
    intro x hx
    exact (hread x hx).mpr (h.below x hx)

/-- A field that is not an entry, and does not put the line in doubt. -/
structure Skipped (mount : PathBuf) (f : Line) : Prop where
  no_tab : '\t' ∉ f
  unread : readChange (mountPrefix mount) f = none
  opens : Opens f

/-- The fields of a line of records. -/
theorem splitOn_encoded {first : List Line} {init : List FeedRecord} {r : FeedRecord}
    (hmount : PlainPath mount) (hfirst : ∀ f ∈ first, Skipped mount f)
    (hplain : ∀ x ∈ init ++ [r], x.Plain) :
    let fields := first ++ init.map (encodeRecord mount)
    let reply := ['\t'].intercalate (fields ++ [encodeRecord mount r])
    isAnswer (sendReply reply) = true ∧
      (sendReply reply).splitOn '\t' = fields ++ [(encodeRecord mount r).rdropWhile isSpace] := by
  have hfield : ∀ f ∈ first ++ init.map (encodeRecord mount) ++ [encodeRecord mount r],
      '\t' ∉ f ∧ Opens f := by
    intro f hf
    rw [List.append_assoc, ← List.map_singleton (f := encodeRecord mount), ← List.map_append] at hf
    obtain hf | hf := List.mem_append.mp hf
    · exact ⟨(hfirst f hf).no_tab, (hfirst f hf).opens⟩
    · obtain ⟨x, hx, rfl⟩ := List.mem_map.mp hf
      exact ⟨FeedRecord.encodeRecord_noControl hmount (hplain x hx), x.encodeRecord_opens mount⟩
  exact splitOn_sendReply (fun f hf => (hfield f hf).1) fun f hf => (hfield f hf).2

/-! ## The change lines -/

/-- The records behind fields that the client skips are read back exactly when they are readable. -/
theorem readRecords_iff {first : List Line} {rs : List FeedRecord} (hmount : PlainPath mount)
    (hfirst : ∀ f ∈ first, Skipped mount f) (hplain : ∀ r ∈ rs, r.Plain) (hne : rs ≠ []) :
    readFileChanges (mountPrefix mount)
        (sendReply (['\t'].intercalate (first ++ rs.map (encodeRecord mount)))) =
      rs.map (FeedRecord.sent mount) ↔ Readable mount rs := by
  obtain ⟨init, r, rfl⟩ := (List.eq_nil_or_concat' rs).resolve_left hne
  obtain ⟨hanswer, hfields⟩ := splitOn_encoded hmount hfirst hplain
  have hskip : first.filterMap (readChange (mountPrefix mount)) = [] := by
    rw [List.filterMap_eq_nil_iff]
    exact fun f hf => (hfirst f hf).unread
  rw [List.map_append, List.map_singleton, ← List.append_assoc, readFileChanges, hanswer, if_pos rfl,
    hfields, List.append_assoc, List.filterMap_append, hskip, List.nil_append]
  exact filterMap_readChange_iff hmount hplain

theorem Readable.nil (mount : PathBuf) : Readable mount [] := ⟨by simp, by simp⟩

/-- So are the file changes of a reply. -/
theorem readFileChanges_iff {changes : List FileChange} (hmount : PlainPath mount)
    (hplain : ∀ c ∈ changes, (FeedRecord.file c).Plain) :
    readFileChanges (mountPrefix mount) (sendReply (fileChangesReply mount changes)) =
        (changes.map FeedRecord.file).map (FeedRecord.sent mount) ↔
      Readable mount (changes.map .file) := by
  by_cases hne : changes = []
  · subst hne
    exact ⟨fun _ => .nil mount, fun _ => rfl⟩
  · have hreply : fileChangesReply mount changes =
        ['\t'].intercalate ([] ++ (changes.map FeedRecord.file).map (encodeRecord mount)) := by
      simp [fileChangesReply, encodeRecord, Function.comp_def]
    rw [hreply]
    apply readRecords_iff hmount (by simp)
    · intro r hr
      obtain ⟨c, hc, rfl⟩ := List.mem_map.mp hr
      exact hplain c hc
    · simpa using hne

/-- A digit is no white space. -/
theorem isSpace_of_isDigit {c : Char} (h : c.isDigit = true) : isSpace c = false := by
  have hrange : 48 ≤ c.toNat ∧ c.toNat ≤ 57 := by
    simpa [Char.isDigit, UInt32.le_iff_toNat_le] using h
  simp only [isSpace, Bool.or_eq_false_iff, Bool.and_eq_false_iff, decide_eq_false_iff_not]
  omega

/-- A number is written in digits. -/
theorem isDigit_of_mem_repr {n : Nat} {c : Char} (h : c ∈ n.repr.toList) : c.isDigit = true := by
  rw [Nat.toList_repr] at h
  exact Nat.isDigit_of_mem_toDigits (by decide) (by decide) h

/-- It does not end in white space. -/
theorem repr_getLast? (n : Nat) : n.repr.toList.getLast?.any isSpace = false := by
  rw [← Bool.not_eq_true, Option.any_eq_true]
  intro ⟨c, hc, hspace⟩
  rw [isSpace_of_isDigit (isDigit_of_mem_repr (List.mem_of_getLast? hc))] at hspace
  cases hspace

/-- The sequence number is a field by itself. -/
theorem skipped_next (mount : PathBuf) (n : Nat) : Skipped mount n.repr.toList := by
  have hnot : ∀ c : Char, c.isDigit = false → c ∉ n.repr.toList := by
    intro c hc hmem
    rw [isDigit_of_mem_repr hmem] at hc
    cases hc
  have hne : n.repr.toList ≠ [] := by simp
  obtain ⟨c, l, hc⟩ := List.exists_cons_of_ne_nil hne
  have hdigit := isDigit_of_mem_repr (n := n) (c := c) (by rw [hc]; exact List.mem_cons_self)
  constructor
  · exact hnot _ (by decide)
  · rw [readChange, List.splitFirst_of_not_mem (hnot ':' (by decide))]
  · refine ⟨c, l, hc, isSpace_of_isDigit hdigit, ?_⟩
    intro heq
    rw [heq] at hdigit
    revert hdigit
    decide

/-- The mark for a lost history is skipped by the client. -/
theorem skipped_resync (mount : PathBuf) : Skipped mount "RESYNC".toList where
  no_tab := by decide
  unread := by
    rw [readChange, List.splitFirst_of_not_mem (by decide)]
  opens := ⟨'R', "ESYNC".toList, rfl, by decide, by decide⟩

/-- A reply of fields that are skipped holds no change. -/
theorem readFileChanges_skipped {init : List Line} {e : Line}
    (h : ∀ f ∈ init ++ [e], Skipped mount f) (hend : e.getLast?.any isSpace = false) :
    readFileChanges (mountPrefix mount) (sendReply (['\t'].intercalate (init ++ [e]))) = [] := by
  have hfields := splitOn_sendReply (fun f hf => (h f hf).no_tab) fun f hf => (h f hf).opens
  rw [readFileChanges, hfields.1, if_pos rfl, hfields.2,
    List.rdropWhile_eq_self_iff_getLast?.mpr hend, List.filterMap_eq_nil_iff]
  exact fun f hf => (h f hf).unread

/-- What an `EVENTS` reply holds. -/
def ReadResult.sent (res : ReadResult) : List FeedRecord := if res.resync then [] else res.records

/-- The records are appended to the reply one by one. -/
theorem foldl_encodeRecord (mount : PathBuf) (rs : List FeedRecord) (first : Line) :
    rs.foldl (fun out r => out ++ '\t' :: encodeRecord mount r) first =
      ['\t'].intercalate ([first] ++ rs.map (encodeRecord mount)) := by
  induction rs generalizing first with
  | nil => simp
  | cons r rs ih =>
    rw [List.foldl_cons, ih, List.map_cons, List.singleton_append, List.singleton_append,
      List.intercalate_cons_cons]
    cases rs with
    | nil => simp
    | cons r' rs => simp [List.intercalate_cons_cons]

/-- The events of a connection are read back exactly when their records are readable. -/
theorem readEvents_iff {res : ReadResult} (hmount : PlainPath mount)
    (hplain : ∀ r ∈ res.sent, r.Plain) :
    readFileChanges (mountPrefix mount) (sendReply (encodeEvents mount res)) =
        res.sent.map (FeedRecord.sent mount) ↔
      Readable mount res.sent := by
  have hnext := skipped_next mount res.next
  by_cases hne : res.sent = []
  · -- the number alone, or the number and the mark
    have hnone : readFileChanges (mountPrefix mount) (sendReply (encodeEvents mount res)) = [] := by
      unfold encodeEvents
      cases hresync : res.resync with
      | true =>
        rw [if_pos rfl]
        have hline : res.next.repr.toList ++ "\tRESYNC".toList =
            ['\t'].intercalate ([res.next.repr.toList] ++ ["RESYNC".toList]) := by
          simp [List.intercalate_cons_cons]
        rw [hline]
        apply readFileChanges_skipped _ (by decide)
        intro f hf
        obtain rfl | rfl : f = res.next.repr.toList ∨ f = "RESYNC".toList := by simpa using hf
        · exact hnext
        · exact skipped_resync mount
      | false =>
        have hrecords : res.records = [] := by simpa [ReadResult.sent, hresync] using hne
        rw [if_neg (by decide), hrecords, List.foldl_nil]
        have := @readFileChanges_skipped mount [] res.next.repr.toList
          (by simpa using hnext) (repr_getLast? _)
        simpa using this
    rw [hne, hnone]
    exact ⟨fun _ => .nil mount, fun _ => rfl⟩
  · -- there are records, so that the history is whole
    have hresync : res.resync = false := by
      rw [← Bool.not_eq_true]
      intro h
      exact hne (if_pos h)
    have hsent : res.sent = res.records := by
      rw [ReadResult.sent, hresync]
      rfl
    rw [encodeEvents, hresync, ← hsent]
    simp only [Bool.false_eq_true, if_false]
    rw [foldl_encodeRecord]
    apply readRecords_iff hmount _ hplain hne
    intro f hf
    obtain rfl := List.mem_singleton.mp hf
    exact hnext

/-- The paths of the changed directories are read back exactly when the last does not end in white
    space. -/
theorem readChanges_iff {paths : List PathBuf} (hmount : PlainPath mount)
    (hplain : ∀ p ∈ paths, PlainPath p) :
    readChanges (sendReply (changesReply mount paths)) = paths.map (absPath mount) ↔
      ∀ p, paths.getLast? = some p → ¬EndsBlank p := by
  obtain rfl | ⟨init, p, rfl⟩ := paths.eq_nil_or_concat'
  · constructor
    · intro _ p hp
      cases hp
    · intro _
      rfl
  have hopens : ∀ q, Opens (absPath mount q) := by
    intro q
    obtain ⟨l, hq⟩ := absPath_head mount q
    exact ⟨'/', l, hq, by decide, by decide⟩
  have hfield : ∀ f ∈ init.map (absPath mount) ++ [absPath mount p], '\t' ∉ f ∧ Opens f := by
    intro f hf
    rw [← List.map_singleton (f := absPath mount), ← List.map_append] at hf
    obtain ⟨q, hq, rfl⟩ := List.mem_map.mp hf
    exact ⟨(absPath_noControl hmount (hplain q hq)).not_mem (by decide), hopens q⟩
  obtain ⟨hanswer, hfields⟩ := splitOn_sendReply (fun f hf => (hfield f hf).1) fun f hf => (hfield f hf).2
  have hreply : changesReply mount (init ++ [p]) =
      ['\t'].intercalate (init.map (absPath mount) ++ [absPath mount p]) := by
    simp [changesReply]
  have hnonempty : ∀ f ∈ init.map (absPath mount) ++ [(absPath mount p).rdropWhile isSpace],
      (!f.isEmpty) = true := by
    intro f hf
    rw [Bool.not_eq_true', List.isEmpty_eq_false_iff]
    obtain hf | hf := List.mem_append.mp hf
    · obtain ⟨q, -, rfl⟩ := List.mem_map.mp hf
      obtain ⟨l, hq⟩ := absPath_head mount q
      simp [hq]
    · obtain rfl := List.mem_singleton.mp hf
      intro hnil
      obtain ⟨x, hx, hxs⟩ := (hopens p).exists_not_isSpace
      simp [List.rdropWhile_eq_nil_iff.mp hnil x hx] at hxs
  rw [readChanges, hreply, hanswer, if_pos rfl, hfields, List.filter_eq_self.mpr hnonempty,
    List.map_append, List.map_singleton, List.append_cancel_left_eq, List.singleton_inj,
    List.rdropWhile_eq_self_iff_getLast?, ← Bool.not_eq_true, absPath_getLast? (hplain p (by simp)),
    List.getLast?_concat]
  simp

/-! ## The listing of a directory -/

/-- A record as the extension caches it. -/
def ChildRecord.row (r : ChildRecord) : DetailRow :=
  (r.name.toList, [r.detail.status.toList, r.detail.sharing.toList, r.detail.perms.toList,
    r.detail.owner.toList, r.detail.size.repr.toList])

/-- What `detaildir_records` makes of plain names and labels. -/
structure ChildRecord.Plain (r : ChildRecord) : Prop where
  name : PlainName r.name
  status : NoControl r.detail.status.toList ∧ ∃ c l, r.detail.status.toList = c :: l ∧ isSpace c = false
  sharing : NoControl r.detail.sharing.toList
  perms : NoControl r.detail.perms.toList
  owner : NoControl r.detail.owner.toList

theorem noControl_repr (n : Nat) : NoControl n.repr.toList := by
  intro c hc
  have hrange := Char.isDigit_iff_toNat.mp (isDigit_of_mem_repr hc)
  have hlow : 48 ≤ c.toNat := hrange.1
  have hhigh : c.toNat ≤ 57 := hrange.2
  simp only [isControl, UInt32.lt_iff_toNat_lt, UInt32.le_iff_toNat_le, Bool.or_eq_false_iff,
    Bool.and_eq_false_iff, decide_eq_false_iff_not]
  change ¬c.toNat < 32 ∧ (¬127 ≤ c.toNat ∨ ¬c.toNat ≤ 159)
  omega

/-- The names a dict holds after a turn of the loop. -/
theorem names_setRow (name : Line) (row : List Line) (rows : List DetailRow) :
    (setRow name row rows).map (·.1) =
      if name ∈ rows.map (·.1) then rows.map (·.1) else rows.map (·.1) ++ [name] := by
  induction rows with
  | nil => simp [setRow]
  | cons r rows ih =>
    by_cases hr : r.1 = name
    · simp [setRow, hr]
    · rw [setRow, if_neg hr, List.map_cons, ih, List.map_cons]
      split <;> rename_i h <;> simp [h, Ne.symm hr]

theorem setRow_of_not_mem {name : Line} {row : List Line} {rows : List DetailRow}
    (h : name ∉ rows.map (·.1)) : setRow name row rows = rows ++ [(name, row)] := by
  induction rows with
  | nil => rfl
  | cons r rows ih =>
    rw [List.map_cons, List.mem_cons, not_or] at h
    rw [setRow, if_neg (Ne.symm h.1), ih h.2, List.cons_append]

namespace ChildRecord

variable {r : ChildRecord}

/-- The fields after the name. -/
def rest (r : ChildRecord) : List Line := r.row.2

theorem encodeChild_eq (r : ChildRecord) : encodeChild r = ['\t'].intercalate (r.name.toList :: r.rest) := rfl

/-- The fields of a child's record have no control characters. -/
theorem Plain.noControl (h : r.Plain) : ∀ f ∈ r.name.toList :: r.rest, NoControl f := by
  simp only [rest, row, List.mem_cons, List.not_mem_nil, or_false, forall_eq_or_imp, forall_eq]
  exact ⟨h.name.no_control, h.status.1, h.sharing, h.perms, h.owner, noControl_repr _⟩

/-- Nor the separator of the records. -/
theorem Plain.encodeChild_no_separator (h : r.Plain) : '\x1e' ∉ encodeChild r := by
  have hno := fun f hf => (h.noControl f hf).not_mem (c := '\x1e') (by decide)
  simp only [rest, row, List.mem_cons, List.not_mem_nil, or_false, forall_eq_or_imp, forall_eq] at hno
  simp [encodeChild, List.intercalate_cons_cons, -Nat.toList_repr, hno]

/-- The record of a plain child is read as its row. -/
theorem Plain.readRow (h : r.Plain) (rows : List DetailRow) :
    Ncrs.readRow rows (encodeChild r) = setRow r.name.toList r.rest rows := by
  have hsplit : (encodeChild r).splitOn '\t' = r.name.toList :: r.rest := by
    rw [encodeChild_eq]
    exact List.splitOn_intercalate _ (fun f hf => (h.noControl f hf).not_mem (by decide)) (by simp)
  rw [Ncrs.readRow, hsplit]
  rfl

/-- A name that begins with white space is not read back from its stripped record. -/
theorem Plain.readRow_stripped (h : r.Plain)
    (hblank : ∃ c, r.name.toList.head? = some c ∧ isSpace c = true) :
    r.name.toList ∉ (Ncrs.readRow [] ((encodeChild r).dropWhile isSpace)).map (·.1) := by
  have hno := fun f hf => (h.noControl f (List.mem_cons_of_mem _ hf)).not_mem (c := '\t') (by decide)
  have hrest : encodeChild r = r.name.toList ++ '\t' :: ['\t'].intercalate r.rest := by
    simp [encodeChild_eq, rest, row, List.intercalate_cons_cons]
  by_cases hall : ∀ x ∈ r.name.toList, isSpace x = true
  · -- a blank name is stripped together with its tab, and the record has a field too few
    obtain ⟨-, c, l, hstatus, hc⟩ := h.status
    have hdrop : (encodeChild r).dropWhile isSpace = ['\t'].intercalate r.rest := by
      rw [hrest, List.dropWhile_append_of_pos hall, List.dropWhile_cons_of_pos (by decide), rest, row,
        List.intercalate_cons_cons, hstatus]
      exact List.dropWhile_cons_of_neg (by simp [hc])
    have hsplit := List.splitOn_intercalate '\t' hno (by simp [rest, row])
    rw [Ncrs.readRow, hdrop, hsplit]
    simp [rest, row]
  · -- otherwise the name is cut short, and no longer the same
    simp only [not_forall, Bool.not_eq_true] at hall
    obtain ⟨x, hx, hxs⟩ := hall
    have hdrop : (encodeChild r).dropWhile isSpace =
        ['\t'].intercalate (r.name.toList.dropWhile isSpace :: r.rest) := by
      rw [hrest, List.dropWhile_append_of_exists _ ⟨x, hx, hxs⟩]
      simp [rest, row, List.intercalate_cons_cons]
    have hclean : ∀ f ∈ r.name.toList.dropWhile isSpace :: r.rest, '\t' ∉ f := by
      intro f hf
      obtain rfl | hf := List.mem_cons.mp hf
      · intro htab
        exact ((h.noControl _ List.mem_cons_self).not_mem (c := '\t') (by decide))
          ((List.dropWhile_suffix _).mem htab)
      · exact hno f hf
    have hsplit := List.splitOn_intercalate '\t' hclean (by simp)
    rw [Ncrs.readRow, hdrop, hsplit]
    obtain ⟨c, hhead, hc⟩ := hblank
    obtain ⟨cs, hname⟩ := List.head?_eq_some_iff.mp hhead
    simp only [rest, row, setRow, List.map_cons, List.map_nil, List.mem_singleton, hname,
      List.dropWhile_cons_of_pos hc]
    intro heq
    have := (List.dropWhile_suffix (p := isSpace) (l := cs)).length_le
    rw [← heq, List.length_cons] at this
    omega

end ChildRecord

/-- The names read from a listing are names it has. -/
theorem names_foldl_readRow {records : List ChildRecord} (hplain : ∀ r ∈ records, r.Plain)
    (rows : List DetailRow) {n : Line}
    (h : n ∈ ((records.map encodeChild).foldl readRow rows).map (·.1)) :
    n ∈ rows.map (·.1) ∨ n ∈ records.map (·.name.toList) := by
  induction records generalizing rows with
  | nil => exact .inl h
  | cons r records ih =>
    rw [List.map_cons, List.foldl_cons, (hplain r List.mem_cons_self).readRow] at h
    obtain h | h := ih (fun x hx => hplain x (List.mem_cons_of_mem _ hx)) _ h
    · rw [names_setRow] at h
      split at h
      · exact .inl h
      · obtain h | h := List.mem_append.mp h
        · exact .inl h
        · exact .inr (by simp [List.mem_singleton.mp h])
    · exact .inr (List.mem_cons_of_mem _ h)

/-- The records are read one by one into the rows. -/
theorem foldl_readRow {records : List ChildRecord} (hplain : ∀ r ∈ records, r.Plain)
    (rows : List DetailRow) (hnodup : (rows.map (·.1) ++ records.map (·.name.toList)).Nodup) :
    (records.map encodeChild).foldl readRow rows = rows ++ records.map ChildRecord.row := by
  induction records generalizing rows with
  | nil => simp
  | cons r records ih =>
    have hfresh : r.name.toList ∉ rows.map (·.1) := by
      intro hmem
      exact (List.nodup_append.mp hnodup).2.2 _ hmem _ (by simp) rfl
    rw [List.map_cons, List.foldl_cons, (hplain r List.mem_cons_self).readRow, setRow_of_not_mem hfresh,
      ih (fun x hx => hplain x (List.mem_cons_of_mem _ hx))]
    · simp [ChildRecord.row, ChildRecord.rest]
    · simpa using hnodup

/-- A record ends with the digits of a size, and has something in front of them that stays. -/
theorem ChildRecord.Plain.encodeChild_ends {r : ChildRecord} (h : r.Plain) :
    ∃ l, (∃ x ∈ l, isSpace x = false) ∧ encodeChild r = l ++ r.detail.size.repr.toList := by
  obtain ⟨-, c, l, hstatus, hc⟩ := h.status
  refine ⟨['\t'].intercalate [r.name.toList, r.detail.status.toList, r.detail.sharing.toList,
    r.detail.perms.toList, r.detail.owner.toList] ++ ['\t'], ⟨c, ?_, hc⟩, ?_⟩
  · simp [List.intercalate_cons_cons, hstatus]
  · simp [encodeChild, List.intercalate_cons_cons]

/-- The strip takes from a listing the white space its first name begins with. -/
theorem sendReply_detaildirReply {r : ChildRecord} {records : List ChildRecord}
    (hplain : ∀ x ∈ r :: records, x.Plain) :
    sendReply (detaildirReply (r :: records)) =
      ['\x1e'].intercalate ((encodeChild r).dropWhile isSpace :: records.map encodeChild) := by
  have hr := hplain r List.mem_cons_self
  obtain ⟨l, ⟨x, hx, hxs⟩, hl⟩ := hr.encodeChild_ends
  have hstays : ∃ y ∈ encodeChild r, isSpace y = false := ⟨x, by rw [hl]; simp [hx], hxs⟩
  -- the first record stands in front of the others
  obtain ⟨rest, hrest⟩ : ∃ rest, ∀ e : Line,
      ['\x1e'].intercalate (e :: records.map encodeChild) = e ++ rest := by
    cases records with
    | nil => exact ⟨[], by simp⟩
    | cons y ys =>
      exact ⟨'\x1e' :: ['\x1e'].intercalate ((y :: ys).map encodeChild), fun e => by
        simp [List.intercalate_cons_cons]⟩
  -- the last record ends in the size, which is a number
  have hend : (((encodeChild r).dropWhile isSpace) ++ rest).getLast?.any isSpace = false := by
    rw [← hrest]
    obtain rfl | ⟨init, y, rfl⟩ := records.eq_nil_or_concat'
    · rw [hl, List.dropWhile_append_of_exists _ ⟨x, hx, hxs⟩]
      have hne : r.detail.size.repr.toList ≠ [] := by simp
      rw [List.map_nil, List.intercalate_singleton, List.getLast?_append_of_ne_nil _ hne]
      exact repr_getLast? _
    · obtain ⟨l', -, hl'⟩ := (hplain y (by simp)).encodeChild_ends
      have hne : y.detail.size.repr.toList ≠ [] := by simp
      rw [List.map_append, List.map_singleton, ← List.cons_append, List.intercalate_concat, hl',
        ← List.append_assoc, List.getLast?_append_of_ne_nil _ hne]
      exact repr_getLast? _
  rw [sendReply, detaildirReply, List.map_cons, List.strip, hrest, List.append_assoc,
    List.dropWhile_append_of_exists _ hstays, ← List.append_assoc,
    List.rdropWhile_concat_pos _ _ _ (by decide), List.rdropWhile_eq_self_iff_getLast?.mpr hend, hrest]

/-- A listing is taken for a failure when its first name begins with `error`. -/
theorem isAnswer_detaildirReply (r : ChildRecord) (records : List ChildRecord) :
    isAnswer (detaildirReply (r :: records)) = true ↔ ¬"error".toList <+: r.name.toList := by
  obtain ⟨l, hl⟩ := List.intercalate_cons_eq '\x1e' (encodeChild r) (records.map encodeChild)
  obtain ⟨l', hl'⟩ : ∃ l', encodeChild r = r.name.toList ++ '\t' :: l' :=
    ⟨_, by rw [encodeChild, List.intercalate_cons_cons, List.append_assoc, List.singleton_append]⟩
  have hline : detaildirReply (r :: records) = r.name.toList ++ '\t' :: (l' ++ l) := by
    rw [detaildirReply, List.map_cons, hl, hl', List.append_assoc, List.cons_append]
  -- the line begins with the first name
  have hprefix : "error".toList <+: detaildirReply (r :: records) ↔ "error".toList <+: r.name.toList := by
    rw [hline]
    constructor
    · intro h
      obtain h' | h' := List.prefix_or_prefix_of_prefix h (List.prefix_append _ _)
      · exact h'
      · -- otherwise the tab after the name would belong to the word
        obtain ⟨s, hs⟩ := h'
        rw [← hs, List.prefix_append_right_inj] at h
        cases s with
        | nil =>
          rw [List.append_nil] at hs
          rw [hs]
        | cons c s =>
          obtain rfl := (List.cons_prefix_cons.mp h).1
          have : '\t' ∈ "error".toList := by
            rw [← hs]
            simp
          exact absurd this (by decide)
    · intro h
      exact h.trans (List.prefix_append _ _)
  have hne : (detaildirReply (r :: records)).isEmpty = false := by
    rw [hline]
    simp
  rw [isAnswer, hne, ← hprefix, ← List.isPrefixOf_iff_prefix, Bool.not_false, Bool.true_and,
    Bool.not_eq_true', Bool.not_eq_true]

/-- The records of a listing are read back exactly when the first name neither begins with white
    space nor with the word for an error. -/
theorem fetchDetaildir_iff {records : List ChildRecord} (hnames : (records.map (·.name)).Nodup)
    (hplain : ∀ r ∈ records, r.Plain) :
    (fetchDetaildir (sendReply (detaildirReply records))).getD [] = records.map ChildRecord.row ↔
      ∀ r, records.head? = some r → ¬"error".toList <+: r.name.toList ∧
        ∀ c, r.name.toList.head? = some c → isSpace c = false := by
  cases records with
  | nil =>
    constructor
    · intro _ r hr
      cases hr
    · intro _
      rfl
  | cons r records =>
    have hr := hplain r List.mem_cons_self
    have htexts : ((r :: records).map (·.name.toList)).Nodup := by
      have := hnames.map (f := String.toList) fun a b h => String.toList_inj.mp h
      rwa [List.map_map] at this
    have hsend := sendReply_detaildirReply hplain
    -- the records are split where they were joined
    have hfields : (['\x1e'].intercalate
        ((encodeChild r).dropWhile isSpace :: records.map encodeChild)).splitOn '\x1e' =
          (encodeChild r).dropWhile isSpace :: records.map encodeChild := by
      apply List.splitOn_intercalate _ _ (by simp)
      intro f hf
      obtain rfl | hf := List.mem_cons.mp hf
      · intro hsep
        exact hr.encodeChild_no_separator ((List.dropWhile_suffix _).mem hsep)
      · obtain ⟨x, hx, rfl⟩ := List.mem_map.mp hf
        exact (hplain x (by simp [hx])).encodeChild_no_separator
    rw [List.head?_cons]
    simp only [Option.some.injEq, forall_eq']
    by_cases hblank : ∃ c, r.name.toList.head? = some c ∧ isSpace c = true
    · -- the first name is gone
      constructor
      · intro h
        exfalso
        have hgone : r.name.toList ∉
            ((fetchDetaildir (sendReply (detaildirReply (r :: records)))).getD []).map (·.1) := by
          intro hmem
          rw [fetchDetaildir] at hmem
          split at hmem
          · rw [Option.getD_some, parseDetaildir] at hmem
            split at hmem
            · cases hmem
            · rw [hsend, hfields, List.foldl_cons] at hmem
              obtain hmem | hmem := names_foldl_readRow (fun x hx => hplain x (by simp [hx])) _ hmem
              · exact hr.readRow_stripped hblank hmem
              · exact (List.nodup_cons.mp htexts).1 hmem
          · cases hmem
        rw [h] at hgone
        exact hgone (by simp [ChildRecord.row])
      · intro h
        obtain ⟨c, hc, hspace⟩ := hblank
        rw [h.2 c hc] at hspace
        cases hspace
    · -- the first record is kept whole
      have hhead : ∀ c, r.name.toList.head? = some c → isSpace c = false := by
        intro c hc
        rw [← Bool.not_eq_true]
        exact fun hspace => hblank ⟨c, hc, hspace⟩
      have hkeep : (encodeChild r).dropWhile isSpace = encodeChild r := by
        obtain ⟨c, cs, hname⟩ := List.exists_cons_of_ne_nil hr.name.ne_empty
        rw [encodeChild, List.intercalate_cons_cons, hname]
        exact List.dropWhile_cons_of_neg (by simp [hhead c (by rw [hname]; rfl)])
      rw [hkeep] at hsend hfields
      have hsame : sendReply (detaildirReply (r :: records)) = detaildirReply (r :: records) := hsend
      rw [hsame, fetchDetaildir]
      have hanswer := isAnswer_detaildirReply r records
      -- a first name that makes the line an error is the only other way to lose it
      by_cases herror : "error".toList <+: r.name.toList
      · rw [if_neg (fun h => hanswer.mp h herror)]
        constructor
        · intro h
          cases h
        · intro h
          exact absurd herror h.1
      · have hparse : parseDetaildir (detaildirReply (r :: records)) =
            (r :: records).map ChildRecord.row := by
          have hne : (detaildirReply (r :: records)).isEmpty = false := by
            have := hanswer.mpr herror
            rw [isAnswer, Bool.and_eq_true, Bool.not_eq_true'] at this
            exact this.1
          rw [parseDetaildir, hne, if_neg (by decide), detaildirReply, List.map_cons, hfields,
            ← List.map_cons, foldl_readRow hplain [] (by simpa using htexts), List.nil_append]
        rw [if_pos (hanswer.mpr herror), Option.getD_some, hparse]
        exact ⟨fun _ => ⟨herror, hhead⟩, fun _ => rfl⟩

/-! ## Every line -/

namespace StatusMaps

variable {m : StatusMaps} {dir : PathBuf}

/-- A directory as the daemon knows it from the server: the index lists its children, whose names
    passed the check, and what the server said of permissions and owners went through `read_label`. -/
structure PlainListing (m : StatusMaps) (dir : PathBuf) : Prop where
  children : ∀ child ∈ m.dirChildren dir, child ≠ [] → child.parent = dir
  names : ∀ child ∈ m.dirChildren dir, PlainPath child
  labels : ∀ p detail, m.details.lookup p = some detail →
    (∃ s : Option String, detail.permissions = s.map readLabel) ∧
      ∃ s : Option String, detail.ownerDisplayName = s.map readLabel

/-- A label that was read has no control characters, nor has a missing one. -/
theorem noControl_label {s : Option String} (h : ∃ t : Option String, s = t.map readLabel) :
    NoControl (s.getD "").toList := by
  obtain ⟨t, rfl⟩ := h
  cases t with
  | none => simp [NoControl]
  | some t => exact readLabel_noControl t

/-- The words a status is written with. -/
def statusWords : List String :=
  ["kept", "cached", "synced", "remote", "downloading", "uploading", "pending", "unknown", "partial"]

/-- The words for a file's status. -/
theorem asStr_mem (st : FileStatus) : st.asStr ∈ statusWords := by
  cases st <;> decide

/-- And for a directory's. -/
theorem rollUp_mem (own : Option FileStatus) (a : DirAgg) : DirAgg.rollUp own a ∈ statusWords := by
  unfold DirAgg.rollUp
  repeat' split
  all_goals first
    | decide
    | exact asStr_mem _

/-- They are plain and open with a letter. -/
theorem statusWords_plain : ∀ w ∈ statusWords, (∀ c ∈ w.toList, isControl c = false) ∧
    w.toList.head?.any (fun c => !isSpace c) = true := by
  simp [statusWords, isControl, isSpace]

/-- The records of a plain listing are plain. -/
theorem PlainListing.plain (h : m.PlainListing dir) : ∀ r ∈ m.detaildirRecords dir, r.Plain := by
  intro r hr
  obtain ⟨child, hchild, name, hname, detail, hdetail, rfl⟩ := mem_detaildirRecords.mp hr
  obtain ⟨hperms, howner⟩ := h.labels child detail hdetail
  have hstatus : (m.record child name detail).detail.status ∈ statusWords := by
    dsimp only [record]
    split
    · exact rollUp_mem _ _
    · exact asStr_mem _
  have hsharing : m.sharing child detail ∈ ["", "Shared by you", "Shared with you", "Shared"] := by
    unfold sharing
    repeat' split
    all_goals simp
  obtain ⟨hno, hhead⟩ := statusWords_plain _ hstatus
  obtain ⟨c, hc, hspace⟩ := (Option.any_eq_true _ _).mp hhead
  obtain ⟨l, hl⟩ := List.head?_eq_some_iff.mp hc
  constructor
  · exact h.names child hchild name (List.mem_of_getLast? hname)
  · exact ⟨hno, c, l, hl, by simpa using hspace⟩
  · have hall : ∀ w ∈ ["", "Shared by you", "Shared with you", "Shared"], NoControl w.toList := by
      simp [NoControl, isControl]
    exact hall _ hsharing
  · exact noControl_label hperms
  · exact noControl_label howner

/-- The records of a listing have different names. -/
theorem PlainListing.names_nodup (h : m.PlainListing dir) :
    ((m.detaildirRecords dir).map (·.name)).Nodup := by
  -- each record has its own child, and the children differ in their names
  have hnodup : ((m.detaildirRecords dir).map (·.child)).Nodup :=
    (m.map_child_detaildirRecords dir).nodup (m.dirChildren_nodup dir)
  have hpath : (m.detaildirRecords dir).map (·.child) =
      ((m.detaildirRecords dir).map (·.name)).map fun name => dir ++ [name] := by
    rw [List.map_map, List.map_inj_left]
    intro r hr
    obtain ⟨child, hmem, name, hname, detail, -, rfl⟩ := mem_detaildirRecords.mp hr
    have hne : child ≠ [] := by
      rintro rfl
      cases hname
    have hparent := h.children child hmem hne
    calc child = child.dropLast ++ [child.getLast hne] := (List.dropLast_append_getLast hne).symm
      _ = dir ++ [name] := by
        rw [show child.dropLast = dir from hparent]
        rw [PathBuf.fileName, List.getLast?_eq_some_getLast hne] at hname
        rw [Option.some.inj hname]
  rw [hpath] at hnodup
  exact hnodup.of_map _

end StatusMaps

/-- For every mount point, list of changes, of changed paths and of records, and every directory:
    each line is read as it was meant exactly when no path in it is the mount point itself, the last
    path of a change line does not end with white space, and the first name of a listing neither
    begins with white space nor with `error`. -/
theorem lines_read_back_iff (mount : PathBuf) (changes : List FileChange) (paths : List PathBuf)
    (res : ReadResult) (m : StatusMaps) (dir : PathBuf) (hmount : PlainPath mount)
    (hchanges : ∀ c ∈ changes, (FeedRecord.file c).Plain) (hpaths : ∀ p ∈ paths, PlainPath p)
    (hrecords : ∀ r ∈ res.sent, r.Plain) (hlisting : m.PlainListing dir) :
    (readFileChanges (mountPrefix mount) (sendReply (fileChangesReply mount changes)) =
        (changes.map FeedRecord.file).map (FeedRecord.sent mount) ↔
      Readable mount (changes.map .file)) ∧
    (readChanges (sendReply (changesReply mount paths)) = paths.map (absPath mount) ↔
      ∀ p, paths.getLast? = some p → ¬EndsBlank p) ∧
    (readFileChanges (mountPrefix mount) (sendReply (encodeEvents mount res)) =
        res.sent.map (FeedRecord.sent mount) ↔
      Readable mount res.sent) ∧
    ((fetchDetaildir (sendReply (detaildirReply (m.detaildirRecords dir)))).getD [] =
        (m.detaildirRecords dir).map ChildRecord.row ↔
      ∀ r, (m.detaildirRecords dir).head? = some r → ¬"error".toList <+: r.name.toList ∧
        ∀ c, r.name.toList.head? = some c → isSpace c = false) :=
  ⟨readFileChanges_iff hmount hchanges, readChanges_iff hmount hpaths, readEvents_iff hmount hrecords,
    fetchDetaildir_iff hlisting.names_nodup hlisting.plain⟩

/-- One synced file of an owner the server named with a line break. -/
def blankNamed : StatusMaps where
  details := AList.singleton ["d", "f"]
    { permissions := some (readLabel "RW"), ownerDisplayName := some (readLabel "A\nB"), size := 5 }
  status := AList.singleton ["d", "f"] .synced
  shared := ∅
  children := fun _ => none
  username := "u"

/-- Lines that are read back: a rename, directories, a status record and a listing. -/
theorem plain_lines_are_read :
    readFileChanges (mountPrefix ["NC"]) (sendReply (fileChangesReply ["NC"]
        [⟨.renamed ["d", " a: b "], ["d", "c"]⟩])) =
      [(FeedRecord.file ⟨.renamed ["d", " a: b "], ["d", "c"]⟩).sent ["NC"]] ∧
    readChanges (sendReply (changesReply ["NC"] [["d"], []])) = [absPath ["NC"] ["d"], absPath ["NC"] []] ∧
    readFileChanges (mountPrefix ["NC"]) (sendReply (encodeEvents ["NC"] ⟨7, [.status ["d"]], false⟩)) =
      [(FeedRecord.status ["d"]).sent ["NC"]] ∧
    (fetchDetaildir (sendReply (detaildirReply (blankNamed.detaildirRecords ["d"])))).getD [] =
      (blankNamed.detaildirRecords ["d"]).map ChildRecord.row := by
  have hnames : ∀ name ∈ ["NC", "d", " a: b ", "c", "f"], PlainName name := by
    simp [plainName_iff, isControl]
  have hplain : ∀ p : PathBuf, p ⊆ ["NC", "d", " a: b ", "c", "f"] → PlainPath p :=
    fun p hp name hname => hnames name (hp hname)
  have hlisting : blankNamed.PlainListing ["d"] := by
    constructor
    · decide
    · intro child hchild
      obtain rfl : child = ["d", "f"] := List.mem_singleton.mp hchild
      exact hplain _ (by decide)
    · intro p detail h
      obtain h := List.mem_singleton.mp (AList.mem_lookup_iff.mp h)
      cases h
      exact ⟨⟨some "RW", rfl⟩, some "A\nB", rfl⟩
  obtain ⟨hfile, hchanges, hevents, hdetails⟩ := lines_read_back_iff ["NC"]
    [⟨.renamed ["d", " a: b "], ["d", "c"]⟩] [["d"], []] ⟨7, [.status ["d"]], false⟩ blankNamed ["d"]
    (hplain _ (by decide)) (by simp [FeedRecord.Plain, FeedRecord.paths, hplain])
    (by simp [hplain]) (by simp [ReadResult.sent, FeedRecord.Plain, FeedRecord.paths, hplain]) hlisting
  refine ⟨hfile.mpr ?_, hchanges.mpr ?_, hevents.mpr ?_, hdetails.mpr ?_⟩
  · refine ⟨by simp [FeedRecord.paths], fun r p hr hp => ?_⟩
    obtain rfl := Option.some.inj hr
    obtain rfl := Option.some.inj hp
    simp [EndsBlank, isSpace]
  · simp [EndsBlank]
  · refine ⟨by simp [ReadResult.sent, FeedRecord.paths], fun r p hr hp => ?_⟩
    obtain rfl := Option.some.inj hr
    obtain rfl := Option.some.inj hp
    simp [EndsBlank, isSpace]
  · intro r hr
    obtain rfl := Option.some.inj hr
    simp [isSpace]

/-- Of two files whose names differ in a blank at the end, the wrong one is removed. -/
theorem trailing_blank_removes_another_file :
    readFileChanges (mountPrefix ["NC"]) (sendReply (fileChangesReply ["NC"] [⟨.removed, ["a "]⟩])) =
        [(FeedRecord.file ⟨.removed, ["a"]⟩).sent ["NC"]] ∧
      (FeedRecord.file ⟨.removed, ["a"]⟩).sent ["NC"] ≠ (FeedRecord.file ⟨.removed, ["a "]⟩).sent ["NC"] := by
  decide

end Ncrs
