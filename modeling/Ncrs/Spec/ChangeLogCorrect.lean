import Ncrs.Native.ChangeLogClients
import Ncrs.Spec.ChangeFeedCorrect

/-!
# The change log broadcasts

Every client process follows the log at its own place. What lies between the start of its cursor and
its place was given to it, in order and once, or went out of the ring before it was read; while a
process is attached the ring gives records up only for its capacity. A client that holds its own
cursor is told when records before the ring's oldest are asked for.

## Key results

- `Ring.readLoop_all`, `Ring.statusLoop_spec`: what the two loops read
- `Clients.Inv.step`: each client's place and what it was given, over one step
- `Clients.changes_reach_every_client`: over every history of calls
-/

namespace Ncrs

namespace Ring

variable {r : Ring}

/-! ## The loops -/

/-- Without a filter the loop takes the first `max` records. -/
theorem readLoop_true (max : Nat) (l records : List FeedRecord) (next : Nat) :
    readLoop (fun _ => true) max l records next =
      (records ++ l.take (max - records.length), next + (l.take (max - records.length)).length) := by
  induction l generalizing records next with
  | nil => simp [readLoop]
  | cons rec rest ih =>
    unfold readLoop
    split
    · rename_i hfull
      simp [Nat.sub_eq_zero_of_le hfull]
    · rename_i hroom
      obtain ⟨n, hn⟩ : ∃ n, max - records.length = n + 1 := ⟨max - records.length - 1, by omega⟩
      have hrest : max - (records ++ [rec]).length = n := by
        rw [List.length_append, List.length_singleton]
        omega
      rw [if_pos rfl, ih, hrest, hn, List.take_succ_cons]
      simp [Nat.add_assoc, Nat.add_comm 1]

/-- The filtered loop reads everything when there is room for it. -/
theorem readLoop_all (keep : FeedRecord → Bool) {max : Nat} (l records : List FeedRecord)
    (next : Nat) (hroom : records.length + l.length ≤ max) :
    readLoop keep max l records next = (records ++ l.filter keep, next + l.length) := by
  induction l generalizing records next with
  | nil => simp [readLoop]
  | cons rec rest ih =>
    rw [List.length_cons] at hroom
    unfold readLoop
    rw [if_neg (by omega)]
    by_cases hkeep : keep rec = true
    · rw [if_pos hkeep, ih _ _ (by rw [List.length_append, List.length_singleton]; omega),
        List.filter_cons_of_pos hkeep, List.length_cons, List.append_assoc]
      simp [Nat.add_assoc, Nat.add_comm 1]
    · rw [if_neg hkeep, ih _ _ (by omega), List.filter_cons_of_neg hkeep, List.length_cons]
      simp [Nat.add_assoc, Nat.add_comm 1]

/-- Reading is that of the abstract log. -/
theorem readSince_eq (r : Ring) (since max : Nat) :
    r.readSince since max = r.toChangeLog.readSince since max := by
  simp only [readSince, readLocked, readLoop_true, List.length_nil, Nat.sub_zero, List.nil_append]
  rfl

/-- What the loop of `take_status` consumes: the paths of every record it passes are given. -/
theorem statusLoop_spec (max : Nat) (l : List FeedRecord) (out : List PathBuf) (next : Nat) :
    ∃ k ≤ l.length, (statusLoop max l out next).2 = next + k ∧
      (∀ p ∈ out, p ∈ (statusLoop max l out next).1) ∧
      (∀ p, .status p ∈ l.take k → p ∈ (statusLoop max l out next).1) ∧
      (k < l.length → max ≤ (statusLoop max l out next).1.length) := by
  -- the induction is over the records still to be read, with the paths given out so far
  induction l generalizing out next with
  | nil => exact ⟨0, Nat.le_refl 0, rfl, fun _ hp => hp, fun _ hp => by simp at hp, fun h => absurd h (Nat.not_lt_zero 0)⟩
  | cons rec rest ih =>
    cases rec with
    | file c =>
      obtain ⟨k, hk, hnext, hout, hgiven, hfull⟩ := ih out (next + 1)
      refine ⟨k + 1, by simpa using hk, ?_, hout, fun p hp => ?_, fun hlt => hfull (by simpa using hlt)⟩
      · rw [statusLoop, hnext]
        omega
      · rw [List.take_succ_cons] at hp
        obtain hp | hp := List.mem_cons.mp hp
        · cases hp
        · exact hgiven p hp
    | status q =>
      unfold statusLoop
      -- a path that was given out already, one too many, or a new one
      split
      · rename_i hseen
        obtain ⟨k, hk, hnext, hout, hgiven, hfull⟩ := ih out (next + 1)
        refine ⟨k + 1, by simpa using hk, by rw [hnext]; omega, hout, fun p hp => ?_,
          fun hlt => hfull (by simpa using hlt)⟩
        rw [List.take_succ_cons] at hp
        obtain hp | hp := List.mem_cons.mp hp
        · obtain rfl := FeedRecord.status.inj hp
          exact hout p hseen
        · exact hgiven p hp
      · split
        · rename_i hmax
          exact ⟨0, Nat.zero_le _, rfl, fun _ hp => hp, fun _ hp => by simp at hp, fun _ => hmax⟩
        · obtain ⟨k, hk, hnext, hout, hgiven, hfull⟩ := ih (out ++ [q]) (next + 1)
          refine ⟨k + 1, by simpa using hk, by rw [hnext]; omega,
            fun p hp => hout p (List.mem_append_left _ hp), fun p hp => ?_,
            fun hlt => hfull (by simpa using hlt)⟩
          rw [List.take_succ_cons] at hp
          obtain hp | hp := List.mem_cons.mp hp
          · obtain rfl := FeedRecord.status.inj hp
            exact hout p (by simp)
          · exact hgiven p hp

/-- A call that asks for a path gets past at least one record. -/
theorem statusLoop_progress {max : Nat} (hmax : 0 < max) {l : List FeedRecord} (hl : l ≠ []) (next : Nat) :
    next < (statusLoop max l [] next).2 := by
  cases l with
  | nil => exact absurd rfl hl
  | cons rec rest =>
    cases rec with
    | file c =>
      obtain ⟨k, -, hnext, -⟩ := statusLoop_spec max rest [] (next + 1)
      rw [statusLoop, hnext]
      omega
    | status p =>
      obtain ⟨k, -, hnext, -⟩ := statusLoop_spec max rest ([] ++ [p]) (next + 1)
      have hroom : ¬max ≤ ([] : List PathBuf).length := Nat.not_le.mpr hmax
      rw [statusLoop, if_neg (by simp), if_neg hroom, hnext]
      omega

/-! ## Appending -/

/-- The pump appends the files first, then the paths. -/
theorem pump_eq (r : Ring) (files : List FileChange) (paths : List PathBuf) :
    r.pump files paths = r.append (files.map .file ++ paths.map .status) := by
  unfold pump
  split
  · rename_i hnone
    obtain ⟨hfiles, hpaths⟩ := (Bool.and_eq_true_iff).mp hnone
    rw [List.isEmpty_iff.mp hfiles, List.isEmpty_iff.mp hpaths]
    rfl
  · rfl

/-- Appending keeps the capacity. -/
@[simp] theorem append_cap (r : Ring) (records : List FeedRecord) : (r.append records).cap = r.cap := by
  unfold append ChangeLog.append
  split
  · rfl
  · split <;> rfl

@[simp] theorem append_cursors (r : Ring) (records : List FeedRecord) :
    (r.append records).cursors = r.cursors := rfl

/-- And the length within it. -/
theorem append_fits (hfits : r.entries.length ≤ r.cap) (records : List FeedRecord) :
    (r.append records).entries.length ≤ r.cap := by
  unfold append ChangeLog.append
  split
  · exact hfits
  · split
    · show ((r.entries ++ records).drop _).length ≤ r.cap
      rw [List.length_drop]
      omega
    · exact Nat.zero_le _

/-- With a cursor there is a reader. -/
theorem hasReader_of_lookup {key : CursorKey} {c : LegacyCursor} (hc : r.cursors.lookup key = some c) :
    r.hasReader = true := by
  have hne : r.cursors.entries ≠ [] := by
    intro hnil
    have hkey : key ∈ r.cursors := AList.lookup_isSome.mp (by rw [hc]; rfl)
    have hmem : key ∈ r.cursors.keys := AList.mem_keys.mp hkey
    rw [AList.keys, hnil] at hmem
    cases hmem
  simp [hasReader, hne]

/-- While a process is attached the ring gives up no more than its capacity asks for. -/
theorem append_base {key : CursorKey} {c : LegacyCursor} (hc : r.cursors.lookup key = some c)
    (hfits : r.entries.length ≤ r.cap) (records : List FeedRecord) :
    (r.append records).base = r.base + ((r.entries ++ records).length - r.cap) := by
  unfold append ChangeLog.append
  rw [hasReader_of_lookup hc]
  split
  · rename_i hnone
    rw [List.isEmpty_iff.mp hnone, List.append_nil]
    show r.base = _
    omega
  · rfl

end Ring

/-! ## A client's place -/

/-- The structural change at a place of the history. -/
def fileAt (history : List FeedRecord) (i : Nat) : Option FileChange :=
  history[i]?.bind FeedRecord.toFile

/-- What was appended before keeps its place. -/
theorem fileAt_append {history : List FeedRecord} (records : List FeedRecord) {i : Nat}
    (hi : i < history.length) : fileAt (history ++ records) i = fileAt history i := by
  unfold fileAt
  rw [List.getElem?_append_left hi]

/-- The file changes from a place on. -/
theorem filterMap_drop (history : List FeedRecord) (n : Nat) :
    (history.drop n).filterMap FeedRecord.toFile =
      (List.range' n (history.length - n)).filterMap (fileAt history) := by
  obtain ⟨k, hk⟩ : ∃ k, history.length - n = k := ⟨_, rfl⟩
  rw [hk]
  induction k generalizing n with
  | zero => rw [List.drop_of_length_le (by omega)]; rfl
  | succ k ih =>
    have hn : n < history.length := by omega
    rw [List.drop_eq_getElem_cons hn, List.range'_succ, List.filterMap_cons, List.filterMap_cons,
      ih (n + 1) (by omega)]
    simp [fileAt, hn]

/-- A place between the start of a cursor and its end of the log: what was pushed out of the ring
before the client came to it is in `missed`, and nothing else. -/
structure Tracks (r : Ring) (len start cursor : Nat) (missed : List Nat) : Prop where
  start_le : start ≤ cursor
  le : cursor ≤ len
  unread : ∀ i, cursor ≤ i → i < r.base → i ∈ missed
  missed : ∀ i ∈ missed, start ≤ i ∧ i < r.base ∧ i + r.cap < len

namespace Tracks

variable {r r' : Ring} {len start cursor : Nat} {missed : List Nat}

/-- A cursor moves on. -/
theorem advance (h : Tracks r len start cursor missed) {next : Nat} (hge : cursor ≤ next)
    (hle : next ≤ len) : Tracks r len start next missed :=
  { start_le := Nat.le_trans h.start_le hge
    le := hle
    unread := fun i hi hbase => h.unread i (Nat.le_trans hge hi) hbase
    missed := h.missed }

/-- What a cursor is owed depends on the base and the capacity only. -/
theorem of_ring (h : Tracks r len start cursor missed) (hbase : r'.base = r.base) (hcap : r'.cap = r.cap) :
    Tracks r' len start cursor missed :=
  { start_le := h.start_le
    le := h.le
    unread := by rw [hbase]; exact h.unread
    missed := by rw [hbase, hcap]; exact h.missed }

/-- Appending records pushes out those that the cursor has not read in time. -/
theorem append (h : Tracks r len start cursor missed) {key : CursorKey} {c : LegacyCursor}
    (hc : r.cursors.lookup key = some c) (hfits : r.entries.length ≤ r.cap) (hhead : r.head = len)
    (_hstarted : r.base ≤ max start (len - r.cap)) (records : List FeedRecord) :
    Tracks (r.append records) (len + records.length) start cursor
      (missed ++ Clients.pushedOut r.cap len records.length cursor) := by
  have hbase := Ring.append_base hc hfits records
  have hlen : (r.entries ++ records).length = r.entries.length + records.length := List.length_append
  have hstart := h.start_le
  constructor
  · exact hstart
  · exact Nat.le_add_right_of_le h.le
  · intro i hi hlt
    rw [hbase] at hlt
    by_cases hold : i < r.base
    · exact List.mem_append_left _ (h.unread i hi hold)
    · -- it has just gone
      apply List.mem_append_right
      rw [Clients.pushedOut, List.mem_range'_1]
      have hh : r.base + r.entries.length = len := hhead
      have hmax : Nat.max cursor (len - r.cap) ≤ i := Nat.max_le.mpr ⟨hi, by omega⟩
      omega
  · intro i hi
    rw [hbase, Ring.append_cap]
    have hh : r.base + r.entries.length = len := hhead
    obtain hi | hi := List.mem_append.mp hi
    · -- what was missed before, and what is pushed out now
      obtain ⟨h1, h2, h3⟩ := h.missed i hi
      omega
    · rw [Clients.pushedOut, List.mem_range'_1] at hi
      have hcur : cursor ≤ Nat.max cursor (len - r.cap) := Nat.le_max_left _ _
      have hbas : len - r.cap ≤ Nat.max cursor (len - r.cap) := Nat.le_max_right _ _
      omega

/-- What lies between the cursor and the end of the log, less what was missed, is what the ring
still holds. -/
theorem unread_filter (h : Tracks r len start cursor missed) (hbase : r.base ≤ len) :
    (List.range' cursor (len - cursor)).filter (fun i => decide (i ∉ missed)) =
      List.range' (max cursor r.base) (len - max cursor r.base) := by
  have hge : cursor ≤ max cursor r.base := Nat.le_max_left _ _
  have hle : max cursor r.base ≤ len := Nat.max_le.mpr ⟨h.le, hbase⟩
  -- before the base everything is missed, behind it nothing
  have hsplit : List.range' cursor (len - cursor) =
      List.range' cursor (max cursor r.base - cursor) ++
        List.range' (max cursor r.base) (len - max cursor r.base) := by
    have hsum : len - cursor = (max cursor r.base - cursor) + (len - max cursor r.base) := by
      omega
    have hmid : cursor + (max cursor r.base - cursor) = max cursor r.base := by omega
    rw [hsum, ← List.range'_append_1, hmid]
  rw [hsplit, List.filter_append]
  have hgone : (List.range' cursor (max cursor r.base - cursor)).filter
      (fun i => decide (i ∉ missed)) = [] := by
    rw [List.filter_eq_nil_iff]
    intro i hi
    rw [List.mem_range'_1] at hi
    have hlt : i < r.base := by omega
    simp [h.unread i hi.1 hlt]
  have hkept : (List.range' (max cursor r.base) (len - max cursor r.base)).filter
      (fun i => decide (i ∉ missed)) = List.range' (max cursor r.base) (len - max cursor r.base) := by
    rw [List.filter_eq_self]
    intro i hi
    rw [List.mem_range'_1] at hi
    have hmax : r.base ≤ max cursor r.base := Nat.le_max_right _ _
    refine decide_eq_true fun hmiss => ?_
    have hlt := (h.missed i hmiss).2.1
    omega
  rw [hgone, hkept, List.nil_append]

end Tracks

/-! ## What a client was given -/

/-- The cursor of an attached process stands where the process last asked, and the ring gives records
up for its capacity only. The structural changes up to there, less those it missed, are what the
process was given; each status path the cursor passed was given after it was recorded. -/
structure Served (r : Ring) (history : List FeedRecord) (a : Attached) (c : LegacyCursor) : Prop where
  refs : c.refs = a.conns
  asked : c.file = a.asked
  base_le : r.base ≤ max a.start (history.length - r.cap)
  file : Tracks r history.length a.start c.file a.missedFiles
  files : a.files = ((List.range' a.start (c.file - a.start)).filter
    fun i => decide (i ∉ a.missedFiles)).filterMap (fileAt history)
  status_le : c.status ≤ history.length
  paths : ∀ i p, a.start ≤ i → i < c.status → history[i]? = some (.status p) →
    i + r.cap < history.length ∨ ∃ n, i < n ∧ (p, n) ∈ a.status

namespace Served

variable {r r' : Ring} {history : List FeedRecord} {a : Attached} {c : LegacyCursor}

/-- A new cursor starts at the end of the log. -/
theorem attached (hlog : ChangeFeed.Retains r.toChangeLog history) :
    Served r history { conns := 1, start := history.length, asked := history.length }
      { status := r.head, file := r.head, refs := 1 } := by
  have hhead : r.head = history.length := hlog.head_eq
  have htracks : Tracks r history.length history.length history.length [] := by
    constructor
    · exact Nat.le_refl _
    · exact Nat.le_refl _
    · intro i hi hbase
      have hbase' := hlog.base_le
      omega
    · intro i hi
      cases hi
  rw [hhead]
  constructor
  · rfl
  · rfl
  · exact Nat.le_trans hlog.base_le (Nat.le_max_left _ _)
  · exact htracks
  · rw [Nat.sub_self]
    rfl
  · exact Nat.le_refl _
  · intro i p hge hlt
    exact absurd hlt (Nat.not_lt.mpr hge)

/-- The same of what a client was given. -/
theorem of_ring (h : Served r history a c) (hbase : r'.base = r.base) (hcap : r'.cap = r.cap) :
    Served r' history a c :=
  { refs := h.refs
    asked := h.asked
    base_le := by rw [hbase, hcap]; exact h.base_le
    file := h.file.of_ring hbase hcap
    files := h.files
    status_le := h.status_le
    paths := by rw [hcap]; exact h.paths }

/-- The number of its connections plays no part. -/
theorem withRefs (h : Served r history a c) (refs : Nat) :
    Served r history { a with conns := refs } { c with refs := refs } :=
  ⟨rfl, h.asked, h.base_le, h.file, h.files, h.status_le, h.paths⟩

/-- Appending records leaves what was given as it is. -/
theorem append (h : Served r history a c) {key : CursorKey} (hc : r.cursors.lookup key = some c)
    (hfits : r.entries.length ≤ r.cap) (hlog : ChangeFeed.Retains r.toChangeLog history)
    (records : List FeedRecord) :
    Served (r.append records) (history ++ records)
      { a with missedFiles := a.missedFiles ++
          Clients.pushedOut r.cap history.length records.length a.asked } c := by
  have hlen : (history ++ records).length = history.length + records.length := List.length_append
  have hhead : r.base + r.entries.length = history.length := hlog.head_eq
  rw [← h.asked]
  constructor
  · exact h.refs
  · rfl
  · have hbase := Ring.append_base hc hfits records
    have hold := h.base_le
    rw [List.length_append] at hbase
    show (r.append records).base ≤ max a.start ((history ++ records).length - (r.append records).cap)
    rw [hbase, Ring.append_cap, hlen]
    omega
  · rw [hlen]
    exact h.file.append hc hfits hlog.head_eq h.base_le records
  · show a.files = _
    rw [h.files]
    -- the places before the cursor are neither pushed out now nor past the old history
    have hold : (List.range' a.start (c.file - a.start)).filter
          (fun i => decide (i ∉ a.missedFiles ++ Clients.pushedOut r.cap history.length
            records.length c.file)) =
        (List.range' a.start (c.file - a.start)).filter fun i => decide (i ∉ a.missedFiles) := by
      apply List.filter_congr
      intro i hi
      rw [List.mem_range'_1] at hi
      have hstart := h.file.start_le
      have hmax : c.file ≤ Nat.max c.file (history.length - r.cap) := Nat.le_max_left _ _
      have hout : i ∉ Clients.pushedOut r.cap history.length records.length c.file := by
        rw [Clients.pushedOut, List.mem_range'_1]
        omega
      simp [hout]
    show _ = ((List.range' a.start (c.file - a.start)).filter (fun i => decide
      (i ∉ a.missedFiles ++ Clients.pushedOut r.cap history.length records.length c.file))).filterMap _
    rw [hold]
    apply List.filterMap_congr
    intro i hi
    have hi := (List.mem_filter.mp hi).1
    rw [List.mem_range'_1] at hi
    have hle := h.file.le
    have hstart := h.file.start_le
    exact (fileAt_append records (by omega)).symm
  · rw [hlen]
    exact Nat.le_add_right_of_le h.status_le
  · intro i p hge hlt hat
    rw [List.getElem?_append_left (Nat.lt_of_lt_of_le hlt h.status_le)] at hat
    rw [Ring.append_cap, hlen]
    exact (h.paths i p hge hlt hat).imp_left (Nat.lt_add_right _)

/-- `take_file_changes` gives what the ring still holds and leaves the cursor at the end. -/
theorem takeFiles (h : Served r history a c) (hlog : ChangeFeed.Retains r.toChangeLog history)
    (hroom : r.entries.length ≤ usizeMax) :
    (r.readLocked c.file usizeMax FeedRecord.isFile).next = history.length ∧
      Served r history
        { a with
          files := a.files ++
            (r.readLocked c.file usizeMax FeedRecord.isFile).records.filterMap FeedRecord.toFile
          asked := history.length }
        { c with file := history.length } := by
  have hhead : r.head = history.length := hlog.head_eq
  have hbase := hlog.base_le
  have hle := h.file.le
  have hstart := h.file.start_le
  have hclamp : Nat.min (Nat.max c.file r.base) r.head = max c.file r.base := by
    rw [hhead]
    exact Nat.min_eq_left (Nat.max_le.mpr ⟨hle, hbase⟩)
  -- what the ring holds from the cursor on is the rest of the history
  have hrest : r.entries.drop (max c.file r.base - r.base) = history.drop (max c.file r.base) := by
    rw [hlog.entries, List.drop_drop]
    congr 1
    omega
  have hread : r.readLocked c.file usizeMax FeedRecord.isFile =
      { next := max c.file r.base + (history.drop (max c.file r.base)).length
        records := (history.drop (max c.file r.base)).filter FeedRecord.isFile
        resync := decide (c.file < r.base) } := by
    have hlen : (history.drop (max c.file r.base)).length ≤ r.entries.length := by
      rw [← hrest, List.length_drop]
      omega
    unfold Ring.readLocked
    simp only [hclamp, hrest]
    -- the list is long enough for all of them
    rw [Ring.readLoop_all _ _ _ _ (by rw [List.length_nil]; omega)]
    rfl
  have htoFile : ((history.drop (max c.file r.base)).filter FeedRecord.isFile).filterMap
        FeedRecord.toFile = (history.drop (max c.file r.base)).filterMap FeedRecord.toFile := by
    rw [List.filterMap_filter]
    apply List.filterMap_congr
    intro rec _
    cases rec <;> rfl
  refine ⟨?_, h.refs, rfl, h.base_le, h.file.advance hle (Nat.le_refl _), ?_, h.status_le, h.paths⟩
  · rw [hread]
    show max c.file r.base + (history.drop (max c.file r.base)).length = history.length
    rw [List.length_drop]
    omega
  · show a.files ++ (r.readLocked c.file usizeMax FeedRecord.isFile).records.filterMap _ = _
    rw [hread]
    -- what was owed before, and what is given now
    show a.files ++ ((history.drop (max c.file r.base)).filter FeedRecord.isFile).filterMap
      FeedRecord.toFile = _
    rw [htoFile, filterMap_drop, ← h.file.unread_filter hbase, h.files]
    have hsum : history.length - a.start = (c.file - a.start) + (history.length - c.file) := by omega
    have hmid : a.start + (c.file - a.start) = c.file := by omega
    show _ = ((List.range' a.start (history.length - a.start)).filter _).filterMap _
    rw [hsum, ← List.range'_append_1, hmid, List.filter_append, List.filterMap_append]

/-- Where `take_status` starts to read, and what it reads. -/
theorem clamp_status (h : Served r history a c) (hlog : ChangeFeed.Retains r.toChangeLog history) :
    Nat.min (Nat.max c.status r.base) r.head = max c.status r.base ∧
      r.entries.drop (max c.status r.base - r.base) = history.drop (max c.status r.base) := by
  have hhead : r.head = history.length := hlog.head_eq
  constructor
  · rw [hhead]
    exact Nat.min_eq_left (Nat.max_le.mpr ⟨h.status_le, hlog.base_le⟩)
  · rw [hlog.entries, List.drop_drop]
    congr 1
    omega

/-- A client that takes its status paths gets those up to where the loop stopped. -/
theorem takeStatus (h : Served r history a c) (hlog : ChangeFeed.Retains r.toChangeLog history) (max : Nat) :
    Served r history
      { a with status := a.status ++ (Ring.statusLoop max
          (history.drop (Nat.max c.status r.base)) [] (Nat.max c.status r.base)).1.map fun p => (p, history.length) }
      { c with status := (Ring.statusLoop max
          (history.drop (Nat.max c.status r.base)) [] (Nat.max c.status r.base)).2 } := by
  have hhead : r.head = history.length := hlog.head_eq
  have hge : c.status ≤ Nat.max c.status r.base := Nat.le_max_left _ _
  have hle : Nat.max c.status r.base ≤ history.length := Nat.max_le.mpr ⟨h.status_le, hlog.base_le⟩
  obtain ⟨k, hk, hnext, -, hgiven, -⟩ := Ring.statusLoop_spec max
    (history.drop (Nat.max c.status r.base)) [] (Nat.max c.status r.base)
  rw [List.length_drop] at hk
  generalize Ring.statusLoop max (history.drop (Nat.max c.status r.base)) []
    (Nat.max c.status r.base) = res at hnext hgiven
  have hend : res.2 ≤ history.length := by omega
  refine ⟨h.refs, h.asked, h.base_le, h.file, h.files, hend, ?_⟩
  intro i p hstart hlt hat
  have hlt : i < res.2 := hlt
  rw [hnext] at hlt
  by_cases hold : i < c.status
  · -- a place before the old cursor was given out, or missed, before
    exact (h.paths i p hstart hold hat).imp_right fun ⟨n, hn, hp⟩ => ⟨n, hn, List.mem_append_left _ hp⟩
  · by_cases hbase : i < r.base
    · -- pushed out before the cursor came to it
      have hstarted := h.base_le
      have hge : a.start ≤ i := hstart
      omega
    · right
      have hmax : Nat.max c.status r.base ≤ i :=
        Nat.max_le.mpr ⟨Nat.le_of_not_lt hold, Nat.le_of_not_lt hbase⟩
      have hread : .status p ∈ (history.drop (Nat.max c.status r.base)).take k := by
        rw [List.mem_iff_getElem?]
        refine ⟨i - Nat.max c.status r.base, ?_⟩
        rw [List.getElem?_take_of_lt (by omega), List.getElem?_drop]
        rw [show Nat.max c.status r.base + (i - Nat.max c.status r.base) = i by omega]
        exact hat
      exact ⟨history.length, (List.getElem?_eq_some_iff.mp hat).1,
        List.mem_append_right _ (List.mem_map_of_mem (hgiven p hread))⟩

end Served

/-! ## Every history -/

namespace Clients

variable {s : Clients}

/-- What holds of the ring and of every client. -/
structure Inv (s : Clients) : Prop where
  log : ChangeFeed.Retains s.ring.toChangeLog s.history
  cap : s.ring.cap = s.cap
  fits : s.ring.entries.length ≤ s.ring.cap
  cap_le : s.ring.cap ≤ usizeMax
  given : ∀ n ∈ s.given, n ≤ s.history.length
  /-- A process without connections has no cursor. -/
  left : ∀ key, (s.attached key).conns = 0 → s.ring.cursors.lookup key = none
  served : ∀ key, 0 < (s.attached key).conns →
    ∃ c, s.ring.cursors.lookup key = some c ∧ Served s.ring s.history (s.attached key) c

/-- At the start nobody is attached. -/
theorem Inv.start (cap : UInt64) : (start cap).Inv where
  log := ⟨Nat.le_refl 0, rfl⟩
  cap := rfl
  fits := Nat.zero_le _
  cap_le := by
    have hlt := cap.toNat_lt
    show Nat.max cap.toNat 1 ≤ usizeMax
    exact Nat.max_le.mpr ⟨by unfold usizeMax; omega, by decide⟩
  given n hn := by cases hn
  left _ _ := rfl
  served key hkey := absurd hkey (Nat.lt_irrefl 0)

/-- The two ways to tell whether a process is attached agree. -/
theorem Inv.conns_pos (h : s.Inv) {key : CursorKey} {c : LegacyCursor}
    (hc : s.ring.cursors.lookup key = some c) :
    0 < (s.attached key).conns ∧ Served s.ring s.history (s.attached key) c := by
  have hpos : 0 < (s.attached key).conns := by
    by_contra hzero
    rw [h.left key (Nat.eq_zero_of_not_pos hzero)] at hc
    cases hc
  obtain ⟨c', hc', hserved⟩ := h.served key hpos
  obtain rfl := Option.some.inj (hc.symm.trans hc')
  exact ⟨hpos, hserved⟩

/-- Without a cursor a client has no connections. -/
theorem Inv.conns_zero (h : s.Inv) {key : CursorKey} (hc : s.ring.cursors.lookup key = none) :
    (s.attached key).conns = 0 := by
  by_contra hne
  obtain ⟨c, hc', -⟩ := h.served key (Nat.pos_of_ne_zero hne)
  rw [hc] at hc'
  cases hc'

/-- Appending changes no connections. -/
theorem append_conns (s : Clients) (records : List FeedRecord) (ring : Ring) (key : CursorKey) :
    ((s.append records ring).attached key).conns = (s.attached key).conns := by
  show (if 0 < (s.attached key).conns then _ else _ : Attached).conns = _
  split <;> rfl

/-- A client that is attached misses what is pushed out. -/
theorem append_attached {key : CursorKey} (hpos : 0 < (s.attached key).conns) (records : List FeedRecord)
    (ring : Ring) : (s.append records ring).attached key =
      { s.attached key with
        missedFiles := (s.attached key).missedFiles ++
          pushedOut s.cap s.history.length records.length (s.attached key).asked } := if_pos hpos

/-- Appending keeps the invariant. -/
theorem Inv.append (h : s.Inv) (records : List FeedRecord) :
    (s.append records (s.ring.append records)).Inv where
  log := h.log.append records _
  cap := (Ring.append_cap s.ring records).trans h.cap
  fits := by
    show (s.ring.append records).entries.length ≤ (s.ring.append records).cap
    rw [Ring.append_cap]
    exact Ring.append_fits h.fits records
  cap_le := by
    show (s.ring.append records).cap ≤ usizeMax
    rw [Ring.append_cap]
    exact h.cap_le
  given n hn := by
    show n ≤ (s.history ++ records).length
    rw [List.length_append]
    exact Nat.le_add_right_of_le (h.given n hn)
  left key hzero := h.left key ((append_conns s records _ key).symm.trans hzero)
  served key hpos := by
    rw [append_conns] at hpos
    obtain ⟨c, hc, hserved⟩ := h.served key hpos
    refine ⟨c, hc, ?_⟩
    have happend := hserved.append hc h.fits h.log records
    rw [h.cap] at happend
    rw [append_attached hpos]
    exact happend

/-- The ring's records stay and the cursor and the calls of one process change. -/
theorem Inv.put (h : s.Inv) (key : CursorKey) {cursors : AList fun _ : CursorKey => LegacyCursor}
    {a : Attached} (hothers : ∀ k, k ≠ key → cursors.lookup k = s.ring.cursors.lookup k)
    (hleft : a.conns = 0 → cursors.lookup key = none)
    (hserved : 0 < a.conns → ∃ c, cursors.lookup key = some c ∧ Served s.ring s.history a c) :
    ({ s with
        ring := { s.ring with cursors := cursors }
        attached := Function.update s.attached key a } : Clients).Inv := by
  refine ⟨h.log, h.cap, h.fits, h.cap_le, h.given, fun k hk => ?_, fun k hk => ?_⟩
  · -- the other clients have the cursors they had
    have hk : (Function.update s.attached key a k).conns = 0 := hk
    by_cases hkey : k = key
    · subst hkey
      rw [Function.update_self] at hk
      exact hleft hk
    · rw [Function.update_of_ne hkey] at hk
      exact (hothers k hkey).trans (h.left k hk)
  · have hk : 0 < (Function.update s.attached key a k).conns := hk
    show ∃ c, cursors.lookup k = some c ∧ Served _ s.history (Function.update s.attached key a k) c
    by_cases hkey : k = key
    · subst hkey
      rw [Function.update_self] at hk
      obtain ⟨c, hc, hs⟩ := hserved hk
      refine ⟨c, hc, ?_⟩
      rw [Function.update_self]
      exact hs.of_ring rfl rfl
    · rw [Function.update_of_ne hkey] at hk
      obtain ⟨c, hc, hs⟩ := h.served k hk
      refine ⟨c, (hothers k hkey).trans hc, ?_⟩
      rw [Function.update_of_ne hkey]
      exact hs.of_ring rfl rfl

/-- A process that stays attached, at another place. -/
theorem Inv.insert (h : s.Inv) (key : CursorKey) {c : LegacyCursor} {a : Attached}
    (hserved : Served s.ring s.history a c) (hpos : 0 < a.conns) :
    ({ s with
        ring := { s.ring with cursors := s.ring.cursors.insert key c }
        attached := Function.update s.attached key a } : Clients).Inv :=
  h.put key (fun _ hk => AList.lookup_insert_ne hk) (fun hzero => absurd hzero (Nat.ne_of_gt hpos))
    fun _ => ⟨c, AList.lookup_insert _, hserved⟩

/-- Attaching a connection keeps the invariant. -/
theorem Inv.attach (h : s.Inv) (key : CursorKey) : (s.step (.attach key)).Inv := by
  cases hc : s.ring.cursors.lookup key with
  | none =>
    have hnew := h.insert key (Served.attached h.log) Nat.one_pos
    simpa [Clients.step, Ring.attach, hc, h.conns_zero hc] using hnew
  | some c =>
    obtain ⟨hpos, hserved⟩ := h.conns_pos hc
    have hmore := h.insert key (hserved.withRefs ((s.attached key).conns + 1)) (Nat.succ_pos _)
    simpa [Clients.step, Ring.attach, hc, hpos, hserved.refs] using hmore

/-- So does detaching one. -/
theorem Inv.detach (h : s.Inv) (key : CursorKey) : (s.step (.detach key)).Inv := by
  show ({ s with
    ring := s.ring.detach key
    attached := Function.update s.attached key
      { s.attached key with conns := (s.attached key).conns - 1 } } : Clients).Inv
  unfold Ring.detach
  cases hc : s.ring.cursors.lookup key with
  | none =>
    refine h.put key (fun _ _ => rfl) (fun _ => hc) fun hpos => ?_
    rw [h.conns_zero hc] at hpos
    exact absurd hpos (Nat.lt_irrefl 0)
  | some c =>
    obtain ⟨hpos, hserved⟩ := h.conns_pos hc
    show ({ s with
      ring := if c.refs - 1 = 0 then _ else _
      attached := _ } : Clients).Inv
    rw [hserved.refs]
    split
    · rename_i hlast
      refine h.put key (fun _ hk => AList.lookup_erase_ne hk) (fun _ => AList.lookup_erase _ _) fun hmore => ?_
      exact absurd hlast (Nat.ne_of_gt hmore)
    · rename_i hmore
      exact h.insert key (hserved.withRefs ((s.attached key).conns - 1)) (Nat.pos_of_ne_zero hmore)

/-- What was asked of no cursor changes nothing. -/
theorem Inv.noCursor (h : s.Inv) {key : CursorKey} (hc : s.ring.cursors.lookup key = none) {a : Attached}
    (hconns : a.conns = (s.attached key).conns) :
    ({ s with attached := Function.update s.attached key a } : Clients).Inv := by
  refine h.put key (fun _ _ => rfl) (fun _ => hc) fun hpos => ?_
  rw [hconns, h.conns_zero hc] at hpos
  exact absurd hpos (Nat.lt_irrefl 0)

/-- And taking file changes. -/
theorem Inv.takeFileChanges (h : s.Inv) (key : CursorKey) : (s.step (.takeFileChanges key)).Inv := by
  cases hc : s.ring.cursors.lookup key with
  | none =>
    have hsame := h.noCursor hc (show { s.attached key with asked := s.history.length }.conns = _ from rfl)
    simpa [Clients.step, Ring.takeFileChanges, hc] using hsame
  | some c =>
    obtain ⟨hpos, hserved⟩ := h.conns_pos hc
    have htaken := hserved.takeFiles h.log (Nat.le_trans h.fits h.cap_le)
    simpa [Clients.step, Ring.takeFileChanges, hc, htaken.1] using h.insert key htaken.2 hpos

/-- And taking status paths. -/
theorem Inv.takeStatus (h : s.Inv) (key : CursorKey) (max : Nat) : (s.step (.takeStatus key max)).Inv := by
  cases hc : s.ring.cursors.lookup key with
  | none => simpa [Clients.step, Ring.takeStatus, hc] using h.noCursor hc rfl
  | some c =>
    obtain ⟨hpos, hserved⟩ := h.conns_pos hc
    obtain ⟨hclamp, hrest⟩ := hserved.clamp_status h.log
    have htaken := hserved.takeStatus h.log max
    simpa [Clients.step, Ring.takeStatus, hc, hclamp, hrest] using h.insert key htaken hpos

/-- The live readers play no part. -/
theorem Inv.liveReaders (h : s.Inv) (n : Nat) :
    ({ s with ring := { s.ring with liveReaders := n } } : Clients).Inv := by
  refine ⟨h.log, h.cap, h.fits, h.cap_le, h.given, h.left, fun key hkey => ?_⟩
  obtain ⟨c, hc, hserved⟩ := h.served key hkey
  exact ⟨c, hc, hserved.of_ring rfl rfl⟩

/-- Every event keeps the invariant. -/
theorem Inv.step (h : s.Inv) (e : ClientEvent) : (s.step e).Inv := by
  cases e with
  | append records => exact h.append records
  | pump files paths =>
    show (s.append _ (s.ring.pump files paths)).Inv
    rw [Ring.pump_eq]
    exact h.append _
  | attach key => exact h.attach key
  | detach key => exact h.detach key
  | takeStatus key max => exact h.takeStatus key max
  | takeFileChanges key => exact h.takeFileChanges key
  | addLiveReader =>
    exact h.liveReaders _
  | removeLiveReader =>
    exact h.liveReaders _
  | head =>
    -- the cursor given out is the head, or the end of what was read
    refine ⟨h.log, h.cap, h.fits, h.cap_le, fun n hn => ?_, h.left, h.served⟩
    obtain hn | hn := List.mem_append.mp hn
    · exact h.given n hn
    · rw [List.mem_singleton.mp hn]
      exact Nat.le_of_eq h.log.head_eq
  | readSince since max =>
    refine ⟨h.log, h.cap, h.fits, h.cap_le, fun n hn => ?_, h.left, h.served⟩
    obtain hn | hn := List.mem_append.mp hn
    · exact h.given n hn
    · rw [List.mem_singleton.mp hn, Ring.readSince_eq]
      exact (h.log.read since max).1

/-- And so does a whole run. -/
theorem Inv.steps (es : List ClientEvent) : ∀ {s : Clients}, s.Inv → (s.steps es).Inv := by
  induction es with
  | nil => exact fun h => h
  | cons e es ih => exact fun h => ih (h.step e)

/-- A call for status paths moves the cursor on until it is at the end. -/
theorem Inv.takeStatus_moves (h : s.Inv) {key : CursorKey} {c : LegacyCursor}
    (hc : s.ring.cursors.lookup key = some c) {max : Nat} (hmax : 0 < max)
    (hbehind : c.status < s.history.length) :
    ∃ c', (s.step (.takeStatus key max)).ring.cursors.lookup key = some c' ∧ c.status < c'.status := by
  obtain ⟨-, hserved⟩ := h.conns_pos hc
  obtain ⟨hclamp, hrest⟩ := hserved.clamp_status h.log
  refine ⟨{ c with status := (Ring.statusLoop max (s.history.drop (Nat.max c.status s.ring.base)) []
    (Nat.max c.status s.ring.base)).2 }, by simp [Clients.step, Ring.takeStatus, hc, hclamp, hrest], ?_⟩
  show c.status < (Ring.statusLoop max _ [] _).2
  have hle : c.status ≤ Nat.max c.status s.ring.base := Nat.le_max_left _ _
  by_cases hend : s.ring.base = s.history.length
  · -- the ring was emptied past the cursor
    obtain ⟨k, -, hnext, -⟩ := Ring.statusLoop_spec max
      (s.history.drop (Nat.max c.status s.ring.base)) [] (Nat.max c.status s.ring.base)
    have hbase : s.ring.base ≤ Nat.max c.status s.ring.base := Nat.le_max_right _ _
    omega
  · have hbase := h.log.base_le
    have hlt : Nat.max c.status s.ring.base < s.history.length := Nat.max_lt.mpr ⟨hbehind, by omega⟩
    have hne : s.history.drop (Nat.max c.status s.ring.base) ≠ [] := by
      rw [← List.length_pos_iff, List.length_drop]
      omega
    exact Nat.lt_of_le_of_lt hle (Ring.statusLoop_progress hmax hne _)

/-- Every status path since the process attached, unless it was pushed out, is given in the end. -/
def PathsGiven (s : Clients) (key : CursorKey) (max n : Nat) : Prop :=
  ∀ i p, (s.attached key).start ≤ i → s.history[i]? = some (.status p) → i + s.cap < s.history.length ∨
    ∃ m, i < m ∧ (p, m) ∈ ((s.steps (List.replicate n (.takeStatus key max))).attached key).status

/-- A client that takes its status paths again and again gets them all. -/
theorem Inv.exists_pathsGiven (h : s.Inv) {key : CursorKey} {c : LegacyCursor}
    (hc : s.ring.cursors.lookup key = some c) {max : Nat} (hmax : 0 < max) :
    ∃ n, s.PathsGiven key max n := by
  -- by induction on how far the cursor is behind
  induction hk : s.history.length - c.status using Nat.strongRecOn generalizing s c with
  | ind k ih =>
    obtain ⟨-, hserved⟩ := h.conns_pos hc
    by_cases hbehind : c.status < s.history.length
    · obtain ⟨c', hc', hmoved⟩ := h.takeStatus_moves hc hmax hbehind
      have hsame : (s.step (.takeStatus key max)).history = s.history := rfl
      obtain ⟨n, hn⟩ := ih _ (by rw [hsame]; omega) (h.takeStatus key max) hc' rfl
      refine ⟨n + 1, fun i p hge hat => ?_⟩
      have hstart : ((s.step (.takeStatus key max)).attached key).start = (s.attached key).start := by
        simp [Clients.step]
      exact hn i p (hstart.trans_le hge) hat
    · refine ⟨0, fun i p hge hat => ?_⟩
      have hi := (List.getElem?_eq_some_iff.mp hat).1
      rw [← h.cap]
      exact hserved.paths i p hge (by omega) hat

/-- What the process of `key` was given of the records appended while it is attached. -/
structure Delivered (s : Clients) (key : CursorKey) : Prop where
  /-- The changes given up to the last call, and with one more call: each once and in order, less the
  missed. -/
  files : (s.attached key).files =
    ((List.range' (s.attached key).start ((s.attached key).asked - (s.attached key).start)).filter
      fun i => decide (i ∉ (s.attached key).missedFiles)).filterMap (fileAt s.history)
  allFiles : (s.attached key).files ++ (s.ring.takeFileChanges key).1 =
    ((List.range' (s.attached key).start (s.history.length - (s.attached key).start)).filter
      fun i => decide (i ∉ (s.attached key).missedFiles)).filterMap (fileAt s.history)
  /-- A missed record was appended while attached, with a ring's worth of records after it. -/
  missedFiles : ∀ i ∈ (s.attached key).missedFiles,
    (s.attached key).start ≤ i ∧ i + s.cap < s.history.length
  paths : ∀ max, 0 < max → ∃ n, s.PathsGiven key max n

/-- What an attached client was given is what it was owed. -/
theorem Inv.delivered (h : s.Inv) {key : CursorKey} (hkey : 0 < (s.attached key).conns) :
    s.Delivered key := by
  obtain ⟨c, hc, hserved⟩ := h.served key hkey
  have htaken := hserved.takeFiles h.log (Nat.le_trans h.fits h.cap_le)
  constructor
  · rw [← hserved.asked]
    exact hserved.files
  · have hfiles := htaken.2.files
    simpa [Ring.takeFileChanges, hc] using hfiles
  · intro i hi
    obtain ⟨hge, -, hcap⟩ := hserved.file.missed i hi
    exact ⟨hge, h.cap ▸ hcap⟩
  · exact fun max hmax => h.exists_pathsGiven hc hmax

/-- What `read_since` answers to a cursor: a resync, or the records from it on. -/
def Answers (s : Clients) (since max : Nat) : Prop :=
  (s.ring.readSince since max).resync = true ∨
    (s.ring.readSince since max).records = (s.history.drop since).take max ∧
      (s.ring.readSince since max).next = since + ((s.history.drop since).take max).length

/-- A cursor that was given out is answered. -/
theorem Inv.answers (h : s.Inv) {since : Nat} (hgiven : since ∈ s.given) (max : Nat) :
    s.Answers since max := by
  rw [Answers, Ring.readSince_eq]
  cases hresync : (s.ring.toChangeLog.readSince since max).resync with
  | true => exact .inl rfl
  | false => exact .inr ((h.log.read since max).2 hresync (h.given since hgiven))

/-- Over every history of calls: each process with an open connection is given every structural change
appended since it attached, once and in order, and every status path at least once, except the records
pushed out by the ring's capacity before it asked for them; and a cursor once returned is answered with
a resync or with exactly the records from it on. -/
theorem changes_reach_every_client (cap : UInt64) (es : List ClientEvent) :
    (∀ key, 0 < (((start cap).steps es).attached key).conns → ((start cap).steps es).Delivered key) ∧
    ∀ since ∈ ((start cap).steps es).given, ∀ max, ((start cap).steps es).Answers since max := by
  have h := Inv.steps es (Inv.start cap)
  constructor
  · intro key hkey
    exact h.delivered hkey
  · intro since hgiven max
    exact h.answers hgiven max

/-- A process with two connections that closes one. -/
def sharedRun : List ClientEvent :=
  [.attach 7, .attach 7, .append [.status ["a"], .status ["b"], .status ["c"]], .detach 7,
    .takeStatus 7 1, .head]

/-- Two connections share a cursor, and one of them leaves. -/
theorem shared_cursor_keeps_its_place :
    (((start 2).steps sharedRun).attached 7).conns = 1 ∧
      (((start 2).steps sharedRun).attached 7).status = [(["b"], 3)] ∧
      ((start 2).steps sharedRun).Delivered 7 ∧ ((start 2).steps sharedRun).Answers 3 5 :=
  have h := changes_reach_every_client 2 sharedRun
  ⟨by decide, by decide, h.1 7 (by decide), h.2 3 (by decide) 5⟩

end Clients

end Ncrs
