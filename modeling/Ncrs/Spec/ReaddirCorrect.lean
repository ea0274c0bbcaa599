import Ncrs.Native.Readdir

/-!
# A directory read in pages is the directory

The offset of a row is its entry's place in the pinned listing, so the rows past an offset are what a
continuation page at that offset is cut from, however the pages before it were split. The one offset that
does not work is that of `.`.

## Key results

- `DirView.rows_drop`: the rows of a listing past an offset
- `DirView.readFrom_pinned`: a reader that got past `..` gets the rest of the pinned listing
- `paged_reading_is_the_directory`: for which buffers the reader gets the directory
-/

namespace Ncrs

namespace DirReply

/-- A reply takes a prefix of the rows, and at least the first when that one fits. -/
theorem addAll_rows (entSize : String → Nat) (r : DirReply) (rows : List DirRow) :
    ∃ n, (r.addAll entSize rows).rows = r.rows ++ rows.take n ∧
      ∀ row rest, rows = row :: rest → r.used + entSize row.name ≤ r.size → 0 < n := by
  induction rows generalizing r with
  | nil => exact ⟨0, (List.append_nil _).symm, fun _ _ h => (by cases h)⟩
  | cons row rest ih =>
    by_cases hfull : r.size < r.used + entSize row.name
    · refine ⟨0, ?_, fun row' rest' h hfits => ?_⟩
      · simp [addAll, add, hfull]
      · cases h
        omega
    · obtain ⟨n, hrows, -⟩ := ih { r with used := r.used + entSize row.name, rows := r.rows ++ [row] }
      refine ⟨n + 1, ?_, fun _ _ _ _ => Nat.succ_pos n⟩
      rw [addAll, add, if_neg hfull]
      show (addAll entSize _ rest).rows = _
      rw [hrows, List.take_succ_cons, List.append_assoc]
      rfl

end DirReply

namespace DirView

variable {v : DirView} {path : PathBuf}

/-! ## Rows and offsets -/

/-- The offsets of a listing's rows count its entries from 3. -/
theorem rows_offset {entries : List RemoteEntry} {n : Nat} {r : DirRow}
    (h : r ∈ v.rows path (entries.zipIdx n)) : n + 3 ≤ r.offset := by
  obtain ⟨⟨e, i⟩, hmem, hrow⟩ := List.mem_filterMap.mp h
  have hi : n ≤ i := List.le_snd_of_mem_zipIdx hmem
  simp only [row] at hrow
  split at hrow
  · cases hrow
  · split at hrow
    · cases hrow
    · cases hrow
      exact Nat.add_le_add_right hi 3

theorem rows_cons (e : RemoteEntry) (entries : List RemoteEntry) (n : Nat) :
    v.rows path ((e :: entries).zipIdx n) =
      (v.row path e n).toList ++ v.rows path (entries.zipIdx (n + 1)) := by
  rw [List.zipIdx_cons, rows, List.filterMap_cons]
  cases v.row path e n <;> rfl

theorem row_offset {e : RemoteEntry} {n : Nat} {r : DirRow} (h : r ∈ (v.row path e n).toList) :
    r.offset = n + 3 := by
  rw [Option.mem_toList, row] at h
  split at h
  · cases h
  · split at h
    · cases h
    · cases h
      rfl

theorem rows_pairwise (entries : List RemoteEntry) (n : Nat) :
    (v.rows path (entries.zipIdx n)).Pairwise fun a b => a.offset < b.offset := by
  induction entries generalizing n with
  | nil => exact List.Pairwise.nil
  | cons e entries ih =>
    rw [rows_cons, List.pairwise_append]
    refine ⟨?_, ih (n + 1), fun a ha b hb => ?_⟩
    · cases v.row path e n with
      | none => exact List.Pairwise.nil
      | some r => exact List.pairwise_singleton _ r
    · have := row_offset ha
      have := rows_offset hb
      omega

/-- The rows past an offset: those of the entries past its entry. -/
theorem rows_drop (entries : List RemoteEntry) (n m : Nat) :
    v.rows path ((entries.zipIdx n).drop m) =
      (v.rows path (entries.zipIdx n)).filter fun r => decide (n + m + 2 < r.offset) := by
  induction entries generalizing n m with
  | nil => simp [rows]
  | cons e entries ih =>
    cases m with
    | zero =>
      symm
      refine List.filter_eq_self.mpr fun r hr => ?_
      have := rows_offset hr
      exact decide_eq_true (by omega)
    | succ m =>
      have hhead : (v.row path e n).toList.filter (fun r => decide (n + (m + 1) + 2 < r.offset)) = [] := by
        refine List.filter_eq_nil_iff.mpr fun r hr => ?_
        have := row_offset hr
        simp only [decide_eq_true_eq]
        omega
      rw [rows_cons, List.filter_append, hhead, List.nil_append, List.zipIdx_cons, List.drop_succ_cons,
        ih (n + 1) m, show n + 1 + m + 2 = n + (m + 1) + 2 by omega]

/-- Temporary files that were left out once are left out again. -/
theorem withoutTemps_idem (entries : List RemoteEntry) :
    v.withoutTemps (v.withoutTemps entries) = v.withoutTemps entries := by
  rw [withoutTemps, withoutTemps, List.filter_filter]
  simp

/-! ## Continuation pages -/

/-- The rows still to come at an offset past `..`. -/
def rest (v : DirView) (path : PathBuf) (entries : List RemoteEntry) (offset : Nat) : List DirRow :=
  (v.rows path (v.withoutTemps entries).zipIdx).filter fun r => decide (offset < r.offset)

/-- A page of a pinned listing is a prefix of what is still to come. -/
theorem nextPage_pinned {d : OpenDir} {entries : List RemoteEntry} (hpath : d.path = path)
    (hpin : d.snapshot = some (v.withoutTemps entries)) (c : FsCache)
    (listed : Except String (List RemoteEntry)) {offset : Nat} (hoff : 2 ≤ offset) (size : Nat) :
    ∃ n, v.nextPage d path c listed offset size = (v.rest path entries offset).take n ∧
      ∀ r rest, v.rest path entries offset = r :: rest → v.entSize r.name ≤ size → 0 < n := by
  have hskip : skip offset = offset - 2 := if_neg (by omega)
  have hrows : v.rows path ((v.withoutTemps (v.withoutTemps entries)).zipIdx.drop (skip offset)) =
      v.rest path entries offset := by
    rw [withoutTemps_idem, hskip, rows_drop, show 0 + (offset - 2) + 2 = offset by omega]
    rfl
  obtain ⟨n, htake, hfits⟩ := DirReply.addAll_rows v.entSize { size := size } (v.rest path entries offset)
  refine ⟨n, ?_, fun r rest h hsize => hfits r rest h (by simpa using hsize)⟩
  simp only [nextPage, hpath, if_true, hpin, hrows]
  exact htake

/-- Past the last row of a page there is what the page left. -/
theorem rest_after {rows : List DirRow} (hsorted : rows.Pairwise fun a b => a.offset < b.offset)
    {n : Nat} {last : DirRow} (hlast : (rows.take n).getLast? = some last) :
    rows.filter (fun r => decide (last.offset < r.offset)) = rows.drop n := by
  have hsplit : rows.take n ++ rows.drop n = rows := List.take_append_drop n rows
  have hmem : last ∈ rows.take n := List.mem_of_getLast? hlast
  rw [← hsplit, List.pairwise_append] at hsorted
  obtain ⟨hpage, -, hbetween⟩ := hsorted
  have hdone : (rows.take n).filter (fun r => decide (last.offset < r.offset)) = [] := by
    obtain ⟨front, hfront⟩ := List.getLast?_eq_some_iff.mp hlast
    rw [hfront, List.pairwise_append] at hpage
    refine List.filter_eq_nil_iff.mpr fun r hr => ?_
    rw [hfront] at hr
    simp only [decide_eq_true_eq]
    obtain hr | hr := List.mem_append.mp hr
    · have := hpage.2.2 r hr last (List.mem_singleton_self last)
      omega
    · rw [List.mem_singleton.mp hr]
      omega
  have hleft : (rows.drop n).filter (fun r => decide (last.offset < r.offset)) = rows.drop n :=
    List.filter_eq_self.mpr fun r hr => decide_eq_true (hbetween last hmem r hr)
  conv_lhs => rw [← hsplit, List.filter_append, hdone, hleft, List.nil_append]

/-- From an offset past `..` the reader gets the rest of the pinned listing, whatever the buffers, as
long as an entry fits, and whatever becomes of the cache meanwhile. -/
theorem readFrom_pinned {d : OpenDir} {entries : List RemoteEntry} {pages : Nat → PageRead}
    (hpath : d.path = path) (hpin : d.snapshot = some (v.withoutTemps entries))
    (hfits : ∀ k, ∀ r ∈ v.rows path (v.withoutTemps entries).zipIdx, v.entSize r.name ≤ (pages k).size)
    (k : Nat) {offset : Nat} (hoff : 2 ≤ offset) {fuel : Nat}
    (hfuel : (v.rest path entries offset).length < fuel) :
    v.readFrom path pages fuel d k offset = some (v.rest path entries offset) := by
  induction fuel generalizing k offset with
  | zero => omega
  | succ fuel ih =>
    obtain ⟨n, hpage, hpos⟩ := nextPage_pinned hpath hpin (pages k).cache (pages k).listed hoff (pages k).size
    rw [readFrom, readdirCommon, if_pos (by omega), hpage]
    dsimp only
    cases hlast : ((v.rest path entries offset).take n).getLast? with
    | none =>
      -- an empty page: nothing was left, since the first row would have fit
      rw [List.getLast?_eq_none_iff] at hlast
      cases hrest : v.rest path entries offset with
      | nil => rfl
      | cons r rest =>
        have hr : r ∈ v.rest path entries offset := by
          rw [hrest]
          exact List.mem_cons_self
        have := hpos r rest hrest (hfits k r (List.mem_of_mem_filter hr))
        rw [hrest, List.take_eq_nil_iff] at hlast
        obtain hn | hnil := hlast
        · omega
        · cases hnil
    | some last =>
      have hmem : last ∈ v.rest path entries offset :=
        List.mem_of_mem_take (List.mem_of_getLast? hlast)
      have hlater : offset < last.offset := of_decide_eq_true (List.mem_filter.mp hmem).2
      have hsorted : (v.rest path entries offset).Pairwise fun a b => a.offset < b.offset :=
        (rows_pairwise _ 0).sublist List.filter_sublist
      have hafter : v.rest path entries last.offset = (v.rest path entries offset).drop n := by
        rw [← rest_after hsorted hlast, rest, rest, List.filter_filter]
        refine List.filter_congr fun r _ => ?_
        rw [Bool.eq_iff_iff, Bool.and_eq_true, decide_eq_true_eq, decide_eq_true_eq]
        omega
      have hn : 0 < n := by
        by_contra hzero
        rw [show n = 0 by omega, List.take_zero] at hlast
        cases hlast
      have hlen : (v.rest path entries last.offset).length < fuel := by
        have hne := List.length_pos_of_mem hmem
        rw [hafter, List.length_drop]
        omega
      have hih := ih (k + 1) (show 2 ≤ last.offset by omega) hlen
      dsimp only
      rw [hih, hafter, Option.map_some, List.take_append_drop]

/-! ## The whole directory -/

/-- A listed entry the reader is to see: neither a hidden temporary file nor an excluded folder. -/
def visibleEntry (v : DirView) (path : PathBuf) (e : RemoteEntry) : Option (String × Bool) :=
  match e.path.fileName with
  | none => none
  | some name =>
    if v.isGioTempFile name || e.isDir && decide (path.join [name] ∈ v.excludeFolders) then none
    else some (name, e.isDir)

/-- `.`, `..` and every visible entry once, in the order of the listing. -/
def IsDirectory (v : DirView) (path : PathBuf) (entries : List RemoteEntry) (rows : List DirRow) : Prop :=
  ∃ rest, rows = dot :: dotdot :: rest ∧
    rest.map (fun r => (r.name, r.isDir)) = entries.filterMap (v.visibleEntry path)

theorem rows_visible (entries : List RemoteEntry) (n : Nat) :
    (v.rows path ((v.withoutTemps entries).zipIdx n)).map (fun r => (r.name, r.isDir)) =
      entries.filterMap (v.visibleEntry path) := by
  induction entries generalizing n with
  | nil => rfl
  | cons e entries ih =>
    rw [withoutTemps, List.filter_cons, List.filterMap_cons]
    cases hname : e.path.fileName with
    | none =>
      have hnone : ∀ n, v.row path e n = none := fun n => by simp [row, hname]
      have hhidden : v.visibleEntry path e = none := by simp [visibleEntry, hname]
      rw [hhidden]
      split
      · rw [rows_cons, hnone]
        exact ih (n + 1)
      · exact ih n
    | some name =>
      cases htemp : v.isGioTempFile name with
      | true =>
        have hhidden : v.visibleEntry path e = none := by simp [visibleEntry, hname, htemp]
        simp only [hhidden, Option.getD_some, htemp, Bool.not_true, Bool.false_eq_true, if_false]
        exact ih n
      | false =>
        simp only [Option.getD_some, htemp, Bool.not_false, if_true]
        rw [rows_cons, List.map_append]
        simp only [row, visibleEntry, hname, htemp, Bool.false_or]
        split
        · exact ih (n + 1)
        · exact congrArg (_ :: ·) (ih (n + 1))

theorem add_dot {size : Nat} (h : v.entSize "." ≤ size) :
    ({ size := size : DirReply }).add v.entSize dot =
      (false, { size := size, used := v.entSize ".", rows := [dot] }) := by
  have hfits : ¬ size < v.entSize "." := by omega
  simp [DirReply.add, dot, hfits]

/-- A first page with room for `..` pins its listing and is a prefix of the directory. -/
theorem firstPage_pins {d : OpenDir} {entries : List RemoteEntry} (hpath : d.path = path) {size : Nat}
    (hroom : v.entSize "." + v.entSize ".." ≤ size) :
    ∃ n, v.firstPage d path (.ok entries) size =
      (.ok (dot :: dotdot :: (v.rows path (v.withoutTemps entries).zipIdx).take n),
        { d with snapshot := some (v.withoutTemps entries) }) := by
  have hdot := add_dot (v := v) (show v.entSize "." ≤ size by omega)
  have hdotdot : ({ size := size, used := v.entSize ".", rows := [dot] } : DirReply).add v.entSize dotdot =
      (false, { size := size, used := v.entSize "." + v.entSize "..", rows := [dot, dotdot] }) := by
    have hfits : ¬ size < v.entSize "." + v.entSize dotdot.name := by
      show ¬ size < v.entSize "." + v.entSize ".."
      omega
    simp only [DirReply.add, if_neg hfits]
    rfl
  obtain ⟨n, hrows, -⟩ := DirReply.addAll_rows v.entSize
    { size := size, used := v.entSize "." + v.entSize "..", rows := [dot, dotdot] }
    (v.rows path (v.withoutTemps entries).zipIdx)
  refine ⟨n, ?_⟩
  simp only [firstPage, hdot, hdotdot, hpath, if_true, hrows]
  rfl

/-- A first page without that room has `.` alone. -/
theorem firstPage_dot {d : OpenDir} {listed : Except String (List RemoteEntry)} {size : Nat}
    (hfits : v.entSize "." ≤ size) (hroom : size < v.entSize "." + v.entSize "..") :
    v.firstPage d path listed size = (.ok [dot], d) := by
  have hdot := add_dot (v := v) (show v.entSize "." ≤ size by omega)
  have hdotdot : ({ size := size, used := v.entSize ".", rows := [dot] } : DirReply).add v.entSize dotdot =
      (true, { size := size, used := v.entSize ".", rows := [dot] }) := if_pos hroom
  simp only [firstPage, hdot, hdotdot]

/-- No continuation page has `..`. -/
theorem nextPage_offset {d : OpenDir} {c : FsCache} {listed : Except String (List RemoteEntry)}
    {offset size : Nat} {r : DirRow} (h : r ∈ v.nextPage d path c listed offset size) : 3 ≤ r.offset := by
  have hrows : ∀ entries, r ∈ (({ size := size : DirReply }).addAll v.entSize
      (v.rows path ((v.withoutTemps entries).zipIdx.drop (skip offset)))).rows → 3 ≤ r.offset := by
    intro entries hr
    obtain ⟨n, htake, -⟩ := DirReply.addAll_rows v.entSize { size := size }
      (v.rows path ((v.withoutTemps entries).zipIdx.drop (skip offset)))
    rw [htake, List.nil_append] at hr
    have hmem := List.mem_of_mem_take hr
    rw [rows_drop] at hmem
    exact rows_offset (List.mem_of_mem_filter hmem)
  unfold nextPage at h
  dsimp only at h
  split at h
  · exact hrows _ h
  · cases h

end DirView

open DirView

/-- Where the directory can be listed and every entry fits a page, reading it page by page gives the
directory, whatever becomes of its cached listing meanwhile, exactly when the first page has room for
`..` beside `.`. -/
theorem paged_reading_is_the_directory {v : DirView} {path : PathBuf} {pages : Nat → PageRead} {d : OpenDir}
    {entries : List RemoteEntry} (hpath : d.path = path) (hlisted : (pages 0).listed = .ok entries)
    (hfits : ∀ k, ∀ name ∈ "." :: ".." :: (entries.filterMap (v.visibleEntry path)).map (·.1),
      v.entSize name ≤ (pages k).size) :
    (∃ fuel rows, v.readFrom path pages fuel d 0 0 = some rows ∧ v.IsDirectory path entries rows) ↔
      v.entSize "." + v.entSize ".." ≤ (pages 0).size := by
  constructor
  · rintro ⟨fuel, rows, hread, rest, rfl, -⟩
    by_contra hroom
    have hdot : v.entSize "." ≤ (pages 0).size := hfits 0 "." List.mem_cons_self
    -- the second page is asked for at the offset of `.`
    cases fuel with
    | zero => cases hread
    | succ fuel =>
      rw [readFrom, readdirCommon, if_neg (Nat.lt_irrefl 0), firstPage_dot hdot (by omega)] at hread
      simp only [List.getLast?_singleton, Option.map_eq_some_iff] at hread
      obtain ⟨later, hread, hrows⟩ := hread
      cases fuel with
      | zero => cases hread
      | succ fuel =>
        rw [readFrom, readdirCommon, if_pos (show 0 < dot.offset by decide)] at hread
        have hlater : later = dotdot :: rest := (List.cons.inj hrows).2
        dsimp only at hread
        cases hlast : (v.nextPage d path (pages (0 + 1)).cache (pages (0 + 1)).listed dot.offset
            (pages (0 + 1)).size).getLast? with
        | none =>
          rw [hlast, hlater] at hread
          cases hread
        | some last =>
          rw [hlast] at hread
          obtain ⟨more, -, hmore⟩ := Option.map_eq_some_iff.mp hread
          cases hpage : v.nextPage d path (pages (0 + 1)).cache (pages (0 + 1)).listed dot.offset
              (pages (0 + 1)).size with
          | nil =>
            rw [hpage] at hlast
            cases hlast
          | cons r page =>
            have hr : 3 ≤ r.offset := nextPage_offset (hpage ▸ List.mem_cons_self)
            rw [hpage, hlater] at hmore
            rw [(List.cons.inj hmore).1] at hr
            exact absurd hr (by decide)
  · intro hroom
    obtain ⟨n, hfirst⟩ := firstPage_pins (v := v) (d := d) hpath hroom
    let rows := v.rows path (v.withoutTemps entries).zipIdx
    have hsorted : (dot :: dotdot :: rows).Pairwise fun a b => a.offset < b.offset := by
      have hrows : rows.Pairwise fun a b => a.offset < b.offset := rows_pairwise _ 0
      refine List.pairwise_cons.mpr ⟨fun r hr => ?_, List.pairwise_cons.mpr ⟨fun r hr => ?_, hrows⟩⟩
      · obtain rfl | hr := List.mem_cons.mp hr
        · decide
        · exact Nat.lt_of_lt_of_le (by decide) (rows_offset hr)
      · exact Nat.lt_of_lt_of_le (by decide) (rows_offset hr)
    obtain ⟨last, hlast⟩ : ∃ last, ((dot :: dotdot :: rows).take (n + 2)).getLast? = some last :=
      ⟨_, List.getLast?_cons ..⟩
    have hafter := rest_after hsorted hlast
    have hoff : 2 ≤ last.offset := by
      rw [List.take_succ_cons, List.take_succ_cons, List.getLast?_cons_cons] at hlast
      obtain rfl | hmem := List.mem_cons.mp (List.mem_of_getLast? hlast)
      · decide
      · exact Nat.le_trans (by decide) (rows_offset (List.mem_of_mem_take hmem))
    have hrest : v.rest path entries last.offset = rows.drop n := by
      have hdot : ¬ last.offset < dot.offset := Nat.not_lt.mpr (Nat.le_trans (by decide) hoff)
      have hdotdot : ¬ last.offset < dotdot.offset := Nat.not_lt.mpr hoff
      simp only [List.filter_cons, decide_eq_true_eq, if_neg hdot, if_neg hdotdot,
        List.drop_succ_cons] at hafter
      exact hafter
    have hpages : ∀ k, ∀ r ∈ rows, v.entSize r.name ≤ (pages k).size := by
      intro k r hr
      refine hfits k r.name (List.mem_cons_of_mem _ (List.mem_cons_of_mem _ ?_))
      rw [← rows_visible entries 0, List.map_map]
      exact List.mem_map_of_mem hr
    have hfuel : (v.rest path entries last.offset).length < rows.length + 1 := by
      rw [hrest, List.length_drop]
      omega
    let pinned : OpenDir := { d with snapshot := some (v.withoutTemps entries) }
    have hpinned : pinned.path = path := hpath
    have hlater : v.readFrom path pages (rows.length + 1) pinned 1 last.offset = some (rows.drop n) :=
      (readFrom_pinned hpinned rfl hpages 1 hoff hfuel).trans (congrArg some hrest)
    refine ⟨rows.length + 2, dot :: dotdot :: rows, ?_, rows, rfl, rows_visible entries 0⟩
    have hpage : (dot :: dotdot :: (v.rows path (v.withoutTemps entries).zipIdx).take n).getLast? = some last :=
      hlast
    rw [readFrom, readdirCommon, if_neg (Nat.lt_irrefl 0), hlisted, hfirst]
    simp only [hpage]
    show (v.readFrom path pages (rows.length + 1) pinned 1 last.offset).map _ = _
    rw [hlater, Option.map_some]
    exact congrArg (fun l => some (dot :: dotdot :: l)) (List.take_append_drop n rows)

/-- A folder with a hidden temporary file, read two entries at a time. -/
def photos : List RemoteEntry :=
  [{ path := ["Photos", ".goutputstream-1"], isDir := false, size := 3 },
   { path := ["Photos", "a.jpg"], isDir := false, size := 5 },
     { path := ["Photos", "2024"], isDir := true, size := 0 }]

def photosView : DirView where
  isGioTempFile name := decide (name = ".goutputstream-1")
  excludeFolders := []
  entSize _ := 32

/-- The listing is dropped from the cache after the first page, and a refresh brings an empty one. -/
def photosPages (size : Nat) (k : Nat) : PageRead where
  size := size
  cache := if k = 0 then {} else ({} : FsCache).setDir ["Photos"] { files := [] }
  listed := .ok photos

theorem photos_in_pages_of_two :
    ∃ fuel rows, photosView.readFrom ["Photos"] (photosPages 64) fuel { path := ["Photos"] } 0 0 = some rows ∧
      photosView.IsDirectory ["Photos"] photos rows := by
  have hlisted : (photosPages 64 0).listed = .ok photos := rfl
  have hfits : ∀ k, ∀ name ∈ "." :: ".." :: (photos.filterMap (photosView.visibleEntry ["Photos"])).map (·.1),
      photosView.entSize name ≤ (photosPages 64 k).size := fun _ _ _ => (by decide : 32 ≤ 64)
  have hroom : photosView.entSize "." + photosView.entSize ".." ≤ (photosPages 64 0).size :=
    (by decide : 32 + 32 ≤ 64)
  have hpath : ({ path := ["Photos"] } : OpenDir).path = ["Photos"] := rfl
  exact (paged_reading_is_the_directory hpath hlisted hfits).mpr hroom

/-- With room for one entry a page, the reader gets `.` and an empty page. -/
theorem photos_in_pages_of_one :
    photosView.readFrom ["Photos"] (photosPages 32) 3 { path := ["Photos"] } 0 0 = some [dot] ∧
      ¬ photosView.IsDirectory ["Photos"] photos [dot] := by
  refine ⟨by decide, ?_⟩
  rintro ⟨rest, h, -⟩
  cases h

end Ncrs
