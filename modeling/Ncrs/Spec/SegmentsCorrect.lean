import Ncrs.ForStd.List
import Ncrs.Native.ReadAhead
import Mathlib.Algebra.Order.Group.Nat

/-!
# Segments of a window

The parts of a split window have the length `per`, its share rounded up to an alignment, and the last one
what remains. Where the share is aligned already and the window has more bytes than the shares, those are
one part more.

The bytes of the segments come in any order. What is on the prefix and what is parked is known from how much
each segment has delivered: the segments below the watermark everything, the one at it as far as it, and the
ones above it have it parked.

## Key results

- `splitSpan_spec`: the parts tile the span, and how many they are.
- `plan_fits_iff`: when a plan keeps to the number of slots.
- `Filling.Inv.next`: what a push, with what it absorbs, preserves.
- `Window.planned`: a plan of `segment_plan` is one for a window.
- `segments_leave_no_hole`: the buffer after any pushes.
-/

namespace Ncrs

/-! ## Plans -/

/-- The segments follow each other from `start` to `stop`. -/
def Contiguous (start stop : Nat) : List Segment → Prop
  | [] => start = stop
  | g :: gs => g.at = start ∧ Contiguous (start + g.len) stop gs

/-- Only the last one is marked as the last. -/
def LastMarked (gs : List Segment) : Prop := gs.map (·.last) = List.replicate (gs.length - 1) false ++ [true]

theorem lastMarked_cons {g : Segment} {gs : List Segment} (hg : g.last = false) (h : LastMarked gs)
    (hne : gs ≠ []) : LastMarked (g :: gs) := by
  unfold LastMarked at *
  have hpos : 0 < gs.length := List.length_pos_of_ne_nil hne
  rw [List.map_cons, h, hg, List.length_cons, Nat.add_sub_cancel,
    show gs.length = gs.length - 1 + 1 by omega, List.replicate_succ]
  simp

/-- The parts of what is left of a span. -/
theorem splitSpan_spec {per span fuel start : Nat} (hper : 0 < per) (hfuel : span ≤ start + fuel * per)
    (hstart : start < span) :
    Contiguous start span (splitSpan per span fuel start) ∧ LastMarked (splitSpan per span fuel start) ∧
      (splitSpan per span fuel start).length = (span - start + per - 1) / per ∧
      ∃ g gs, splitSpan per span fuel start = g :: gs ∧ g.len = min per (span - start) := by
  induction fuel generalizing start with
  | zero => omega
  | succ fuel ih =>
    rw [Nat.add_mul, Nat.one_mul] at hfuel
    rw [splitSpan, if_pos hstart]
    dsimp only
    by_cases hmore : start + per < span
    · have hlen : min per (span - start) = per := by omega
      obtain ⟨htiles, hlast, hcount, g, gs, hgs, -⟩ := ih (by omega) hmore
      rw [hlen]
      refine ⟨⟨rfl, htiles⟩, lastMarked_cons (decide_eq_false (by omega)) hlast (by simp [hgs]), ?_,
        _, _, rfl, rfl⟩
      rw [List.length_cons, hcount, show span - start + per - 1 = span - (start + per) + per - 1 + per by omega,
        Nat.add_div_right _ hper]
    · -- the last part
      have hlen : min per (span - start) = span - start := by omega
      have hnil : splitSpan per span fuel (start + (span - start)) = [] := by
        cases fuel with
        | zero => rfl
        | succ fuel => rw [splitSpan, if_neg (by omega)]
      rw [hlen, hnil]
      refine ⟨⟨rfl, by show start + (span - start) = span; omega⟩, ?_, ?_, _, _, rfl, rfl⟩
      · simp [LastMarked, show span ≤ start + (span - start) by omega]
      · rw [List.length_singleton]
        exact (Nat.div_eq_of_lt_le (by omega) (by omega)).symm

/-- What the file has of the window, if its size is known. -/
def windowSpan (target : Nat) (span : Option Nat) : Option Nat := span.map fun s => min s target

/-- How many parts a window of `w` bytes is meant to have. -/
def partCount (w slots : Nat) : Nat := min (min slots maxWindowSegments) (w / segmentMinBytes)

/-- The length of the parts. -/
def partLength (w slots : Nat) : Nat := (w / partCount w slots + segmentAlign - 1) / segmentAlign * segmentAlign

/-- A window that is split. -/
def Splits (w slots need : Nat) : Prop := 2 ≤ partCount w slots ∧ need ≤ partLength w slots

/-- The share is aligned, with bytes left over. -/
def Overflows (w slots : Nat) : Prop :=
  partCount w slots = min slots maxWindowSegments ∧ segmentAlign ∣ w / partCount w slots ∧
    ¬ partCount w slots ∣ w

instance (w slots need : Nat) : Decidable (Splits w slots need) := inferInstanceAs (Decidable (_ ∧ _))

instance (w slots : Nat) : Decidable (Overflows w slots) := inferInstanceAs (Decidable (_ ∧ _ ∧ _))

theorem segmentPlan_eq (target : Nat) (span : Option Nat) (slots need : Nat) :
    segmentPlan target span slots need =
      match windowSpan target span with
      | none => [{ «at» := 0, len := target, last := true }]
      | some w =>
        if Splits w slots need then splitSpan (partLength w slots) w (partCount w slots + 1) 0
        else [{ «at» := 0, len := target, last := true }] := by
  unfold segmentPlan windowSpan
  cases span with
  | none => rfl
  | some s =>
    dsimp only [Option.map_some]
    have hsplits : (decide (partCount (min s target) slots < 2) || decide
      (partLength (min s target) slots < need)) =
        true ↔ ¬ Splits (min s target) slots need := by
      rw [Bool.or_eq_true, decide_eq_true_iff, decide_eq_true_iff]
      unfold Splits
      omega
    show (if (decide (partCount (min s target) slots < 2) || decide
      (partLength (min s target) slots < need)) = true
      then _ else _) = _
    by_cases h : Splits (min s target) slots need
    · rw [if_pos h, if_neg (fun hnot => hsplits.mp hnot h)]
      rfl
    · rw [if_neg h, if_pos (hsplits.mpr h)]

variable {w slots need : Nat}

theorem dvd_partLength : segmentAlign ∣ partLength w slots := Dvd.intro_left _ rfl

/-- The share is rounded up, by less than the alignment. -/
theorem partLength_bounds :
    w / partCount w slots ≤ partLength w slots ∧ partLength w slots < w / partCount w slots + segmentAlign := by
  unfold partLength
  generalize w / partCount w slots = share
  have hdiv := Nat.div_add_mod' (share + segmentAlign - 1) segmentAlign
  have hmod := Nat.mod_lt (share + segmentAlign - 1) (y := segmentAlign) (by decide)
  have hpos : 0 < segmentAlign := by decide
  constructor <;> omega

/-- The parts of a split window are at least two, all but the last of them of their length. -/
theorem partLength_lt (h : Splits w slots need) : 0 < partLength w slots ∧ partLength w slots < w := by
  obtain ⟨hle, hlt⟩ := @partLength_bounds w slots
  have hcount : partCount w slots ≤ w / segmentMinBytes := Nat.min_le_right _ _
  have hmin : partCount w slots * segmentMinBytes ≤ w :=
    (Nat.mul_le_mul_right _ hcount).trans (Nat.div_mul_le_self w segmentMinBytes)
  have hshare : segmentMinBytes ≤ w / partCount w slots :=
    (Nat.le_div_iff_mul_le (by have := h.1; omega)).mpr (by rw [Nat.mul_comm]; exact hmin)
  have htwo : 2 * (w / partCount w slots) ≤ w :=
    (Nat.mul_le_mul_right _ h.1).trans (Nat.mul_div_le w (partCount w slots))
  have hconst : segmentAlign < segmentMinBytes := by decide
  omega

/-- How many parts there are. -/
theorem partCount_lt_iff (h : Splits w slots need) :
    partCount w slots < (w + partLength w slots - 1) / partLength w slots ↔
      segmentAlign ∣ w / partCount w slots ∧ ¬ partCount w slots ∣ w := by
  obtain ⟨hpos, -⟩ := partLength_lt h
  obtain ⟨hle, hlt⟩ := @partLength_bounds w slots
  have hmod := Nat.div_add_mod w (partCount w slots)
  have hrem := Nat.mod_lt w (y := partCount w slots) (by have := h.1; omega)
  have hcount : partCount w slots < (w + partLength w slots - 1) / partLength w slots ↔
      partCount w slots * partLength w slots < w := by
    rw [Nat.lt_iff_add_one_le, Nat.le_div_iff_mul_le hpos, Nat.add_mul, Nat.one_mul]
    omega
  rw [hcount]
  constructor
  · intro hover
    -- the parts are as long as the share, so that it is aligned
    have heq : partLength w slots = w / partCount w slots := by
      by_contra hne
      have hmul : partCount w slots * (w / partCount w slots + 1) ≤ partCount w slots * partLength w slots :=
        Nat.mul_le_mul_left _ (by omega)
      rw [Nat.mul_add, Nat.mul_one] at hmul
      omega
    refine ⟨heq ▸ dvd_partLength, fun hdvd => ?_⟩
    rw [heq, Nat.mul_div_cancel' hdvd] at hover
    omega
  · intro ⟨halign, hdvd⟩
    have heq : partLength w slots = w / partCount w slots := by
      obtain ⟨c, hc⟩ := halign
      obtain ⟨c', hc'⟩ := @dvd_partLength w slots
      rw [hc, hc'] at hle hlt
      have hc_le : c ≤ c' := Nat.le_of_mul_le_mul_left hle (by decide)
      have hc_lt : c' < c + 1 := Nat.lt_of_mul_lt_mul_left (by rw [Nat.mul_add, Nat.mul_one]; exact hlt)
      rw [hc, hc', show c' = c by omega]
    rw [heq]
    have hne : w % partCount w slots ≠ 0 := fun hzero => hdvd (Nat.dvd_of_mod_eq_zero hzero)
    omega

theorem count_le (h : Splits w slots need) :
    (w + partLength w slots - 1) / partLength w slots ≤ partCount w slots + 1 := by
  obtain ⟨hpos, -⟩ := partLength_lt h
  obtain ⟨hle, -⟩ := @partLength_bounds w slots
  have hmod := Nat.div_add_mod w (partCount w slots)
  have hrem := Nat.mod_lt w (y := partCount w slots) (by have := h.1; omega)
  have hmul : partCount w slots * (w / partCount w slots) ≤ partCount w slots * partLength w slots :=
    Nat.mul_le_mul_left _ hle
  have hshare : partCount w slots ≤ partLength w slots := by
    have hcount : partCount w slots ≤ segmentMinBytes :=
      (Nat.min_le_left _ _).trans ((Nat.min_le_right _ _).trans (by decide))
    have hmin : partCount w slots * segmentMinBytes ≤ w :=
      (Nat.mul_le_mul_right _ (Nat.min_le_right _ _)).trans (Nat.div_mul_le_self w segmentMinBytes)
    have hdiv : segmentMinBytes ≤ w / partCount w slots :=
      (Nat.le_div_iff_mul_le (by have := h.1; omega)).mpr (by rw [Nat.mul_comm]; exact hmin)
    omega
  rw [← Nat.lt_add_one_iff, Nat.div_lt_iff_lt_mul hpos, Nat.add_mul, Nat.add_mul, Nat.one_mul]
  omega

/-- What a plan for `slots` requests should be. -/
structure PlanFits (target : Nat) (span : Option Nat) (slots need : Nat) (plan : List Segment) : Prop where
  /-- A plan of one segment has the whole target, a split one what the file has of it. -/
  tiles : Contiguous 0 (if plan.length ≤ 1 then target else (windowSpan target span).getD target) plan
  last : LastMarked plan
  need : 1 < plan.length → ∀ g ∈ plan.head?, need ≤ g.len
  count : plan.length ≤ max 1 (min slots maxWindowSegments)

/-- A plan keeps to the slots if and only if it is not split, has fewer parts than the slots allow, or its
    shares are not aligned or leave nothing over. -/
theorem plan_fits_iff (target : Nat) (span : Option Nat) (slots need : Nat) :
    PlanFits target span slots need (segmentPlan target span slots need) ↔
      ∀ w ∈ windowSpan target span, Splits w slots need → ¬ Overflows w slots := by
  have hsingle : PlanFits target span slots need [{ «at» := 0, len := target, last := true }] :=
    ⟨⟨rfl, Nat.zero_add _⟩, rfl, fun h => absurd h (by simp), Nat.le_max_left _ _⟩
  rw [segmentPlan_eq]
  cases hspan : windowSpan target span with
  | none => exact iff_of_true hsingle nofun
  | some w =>
    dsimp only
    by_cases hsplits : Splits w slots need
    swap
    · rw [if_neg hsplits]
      refine iff_of_true hsingle fun w' hw' hs => ?_
      cases hw'
      exact absurd hs hsplits
    rw [if_pos hsplits]
    obtain ⟨hpos, hlt⟩ := partLength_lt hsplits
    have hfuel : w ≤ 0 + (partCount w slots + 1) * partLength w slots := by
      have hcount := count_le hsplits
      have hdiv := (Nat.div_lt_iff_lt_mul hpos).mp (Nat.lt_add_one_of_le hcount)
      rw [Nat.add_mul, Nat.one_mul] at hdiv
      omega
    obtain ⟨htiles, hlast, hcount, g, gs, hgs, hg⟩ := splitSpan_spec hpos hfuel (by omega)
    rw [Nat.sub_zero] at hcount hg
    generalize splitSpan (partLength w slots) w (partCount w slots + 1) 0 = plan at *
    have hover := partCount_lt_iff hsplits
    have hbound := count_le hsplits
    rw [← hcount] at hover hbound
    have htwo : 1 < plan.length := by
      rw [hcount, Nat.lt_iff_add_one_le, Nat.le_div_iff_mul_le hpos]
      omega
    have hk : partCount w slots ≤ min slots maxWindowSegments := Nat.min_le_left _ _
    constructor
    · intro h w' hw' _ hoverflows
      cases hw'
      have hlong := hover.mpr hoverflows.2
      have hcount' := h.count
      have heq := hoverflows.1
      have := hsplits.1
      omega
    · intro h
      refine ⟨?_, hlast, fun _ g' hg' => ?_, ?_⟩
      · rw [if_neg (by omega), hspan]
        exact htiles
      · rw [hgs] at hg'
        cases hg'
        have := hsplits.2
        omega
      · by_cases heq : partCount w slots = min slots maxWindowSegments
        · have hnot : ¬ partCount w slots < plan.length := fun hlong => h w rfl hsplits ⟨heq, hover.mp hlong⟩
          omega
        · omega

/-- One byte more than three parts of 4 MiB make four parts for three slots. -/
theorem one_byte_is_a_part :
    segmentPlan (16 * 1024 * 1024) (some (12 * 1024 * 1024 + 1)) 3 0 =
        [⟨0, 4194304, false⟩, ⟨4194304, 4194304, false⟩, ⟨8388608, 4194304, false⟩, ⟨12582912, 1, true⟩] ∧
      ¬ PlanFits (16 * 1024 * 1024) (some (12 * 1024 * 1024 + 1)) 3 0
        (segmentPlan (16 * 1024 * 1024) (some (12 * 1024 * 1024 + 1)) 3 0) :=
  ⟨by decide, fun h => absurd h.count (by decide)⟩

/-! ## Where segments are -/

section Contiguous

variable {start stop : Nat} {gs : List Segment}

theorem Contiguous.bounds (h : Contiguous start stop gs) :
    start ≤ stop ∧ ∀ g ∈ gs, start ≤ g.at ∧ g.at + g.len ≤ stop := by
  induction gs generalizing start with
  | nil => exact ⟨Nat.le_of_eq h, nofun⟩
  | cons g gs ih =>
    obtain ⟨hat, hrest⟩ := h
    obtain ⟨hle, hall⟩ := ih hrest
    refine ⟨by omega, fun g' hg' => ?_⟩
    obtain rfl | hg' := List.mem_cons.mp hg'
    · omega
    · have := hall g' hg'
      omega

theorem Contiguous.pairwise (h : Contiguous start stop gs) : gs.Pairwise fun a b => a.at + a.len ≤ b.at := by
  induction gs generalizing start with
  | nil => exact List.Pairwise.nil
  | cons g gs ih =>
    obtain ⟨hat, hrest⟩ := h
    refine List.Pairwise.cons (fun b hb => ?_) (ih hrest)
    have := (hrest.bounds.2 b hb).1
    omega

/-- Two segments do not overlap. -/
theorem Contiguous.disjoint (h : Contiguous start stop gs) {i j : Nat} {a b : Segment} (hij : i ≠ j)
    (ha : gs[i]? = some a) (hb : gs[j]? = some b) : a.at + a.len ≤ b.at ∨ b.at + b.len ≤ a.at := by
  obtain ⟨hi, rfl⟩ := List.getElem?_eq_some_iff.mp ha
  obtain ⟨hj, rfl⟩ := List.getElem?_eq_some_iff.mp hb
  have hpairs := List.pairwise_iff_getElem.mp h.pairwise
  obtain hlt | hlt := Nat.lt_or_gt_of_ne hij
  · exact .inl (hpairs i j hi hj hlt)
  · exact .inr (hpairs j i hj hi hlt)

theorem Contiguous.cover (h : Contiguous start stop gs) {n : Nat} (hlow : start ≤ n) (hup : n < stop) :
    ∃ g ∈ gs, g.at ≤ n ∧ n < g.at + g.len := by
  induction gs generalizing start with
  | nil =>
    have heq : start = stop := h
    omega
  | cons g gs ih =>
    obtain ⟨hat, hrest⟩ := h
    by_cases hn : n < start + g.len
    · exact ⟨g, List.mem_cons_self .., by omega, by omega⟩
    · obtain ⟨g', hg', hin⟩ := ih hrest (by omega)
      exact ⟨g', List.mem_cons_of_mem _ hg', hin⟩

end Contiguous

/-- How many bytes a plan of `segment_plan` is for. -/
def plannedBytes (target : Nat) (span : Option Nat) (slots need : Nat) : Nat :=
  match windowSpan target span with
  | none => target
  | some w => if Splits w slots need then w else target

/-- The segments of a plan of `segment_plan` tile the bytes it is for. -/
theorem contiguous_segmentPlan (target : Nat) (span : Option Nat) (slots need : Nat) :
    Contiguous 0 (plannedBytes target span slots need) (segmentPlan target span slots need) := by
  rw [segmentPlan_eq]
  unfold plannedBytes
  cases windowSpan target span with
  | none => exact ⟨rfl, Nat.zero_add _⟩
  | some w =>
    dsimp only
    by_cases hsplits : Splits w slots need
    · rw [if_pos hsplits, if_pos hsplits]
      obtain ⟨hpos, hlt⟩ := partLength_lt hsplits
      have hdiv := (Nat.div_lt_iff_lt_mul hpos).mp (Nat.lt_add_one_of_le (count_le hsplits))
      rw [Nat.add_mul, Nat.one_mul] at hdiv
      exact (splitSpan_spec hpos (by omega) (by omega)).1
    · rw [if_neg hsplits, if_neg hsplits]
      exact ⟨rfl, Nat.zero_add _⟩

/-! ## Filling a window -/

/-- A window's bytes with a plan for them. -/
structure Window where
  content : Bytes
  plan : List Segment
  tiles : Contiguous 0 content.length plan

/-- The window that is fetched by a plan of `segment_plan`. -/
def Window.planned (target : Nat) (span : Option Nat) (slots need : Nat) (content : Bytes)
    (h : content.length = plannedBytes target span slots need) : Window where
  content := content
  plan := segmentPlan target span slots need
  tiles := h ▸ contiguous_segmentPlan target span slots need

/-- The buffer, and how much each segment has delivered. -/
structure Filling where
  ss : StreamState
  got : List Nat
  deriving DecidableEq, Repr

namespace Window

/-- The window after the first bytes of segment 0. -/
def opened (w : Window) (first : Nat) : Filling :=
  let n := min first ((w.plan.map (·.len)).headD 0)
  { ss := .new (w.content.take n) w.plan, got := (w.plan.map fun _ => 0).set 0 n }

/-- Segment `p.1` pushes its next `p.2` bytes, or what is left of it. -/
def next (w : Window) (f : Filling) (p : Nat × Nat) : Filling :=
  match w.plan[p.1]?, f.got[p.1]? with
  | some g, some got =>
    let n := min p.2 (g.len - got)
    { ss := f.ss.push p.1 (g.at + got) (w.content.slice (g.at + got) n), got := f.got.set p.1 (got + n) }
  | _, _ => f

/-- Pushes of the segments in any order. -/
def run (w : Window) (first : Nat) (pushes : List (Nat × Nat)) : Filling := pushes.foldl w.next (w.opened first)

end Window

/-- What a segment of which `got` bytes came has parked when the prefix has `n`. -/
structure SegmentAt (w : Window) (n : Nat) (g : Segment) (got : Nat) (sb : SegmentBuf) : Prop where
  le : got ≤ g.len
  ahead : n ≤ g.at → sb.buf = w.content.slice g.at got ∧ (got ≠ 0 → sb.at = g.at)
  behind : g.at < n → sb.buf = [] ∧ (n < g.at + g.len → n = g.at + got) ∧ (g.at + g.len ≤ n → got = g.len)

/-- Every segment is where it should be. -/
structure Placed (w : Window) (ss : StreamState) (got : List Nat) : Prop where
  data : ss.data <+: w.content
  ahead_length : ss.ahead.length = w.plan.length
  got_length : got.length = w.plan.length
  segment : ∀ (i : Nat) (g : Segment) (k : Nat) (sb : SegmentBuf), w.plan[i]? = some g → got[i]? = some k →
    ss.ahead[i]? = some sb → SegmentAt w ss.data.length g k sb

/-- Nothing is parked at the watermark. -/
structure Filling.Inv (w : Window) (f : Filling) : Prop extends Placed w f.ss f.got where
  absorbed : ∀ sb ∈ f.ss.ahead, sb.buf ≠ [] → sb.at ≠ f.ss.data.length

variable {w : Window} {ss : StreamState} {got : List Nat} {g : Segment} {k n m i : Nat} {sb : SegmentBuf}

theorem length_slice (hg : g ∈ w.plan) (hk : k + m ≤ g.len) :
    (w.content.slice (g.at + k) m).length = m := by
  have := (w.tiles.bounds.2 g hg).2
  simp only [Bytes.slice, List.length_take, List.length_drop]
  omega

theorem slice_append (content : Bytes) (off k m : Nat) :
    content.slice off k ++ content.slice (off + k) m = content.slice off (k + m) := by
  simp only [Bytes.slice, List.take_add, List.drop_drop]

/-- The watermark moves within one segment; another one stays in place. -/
theorem SegmentAt.advance (h : SegmentAt w n g k sb) {g' : Segment}
    (hdisjoint : g.at + g.len ≤ g'.at ∨ g'.at + g'.len ≤ g.at) (hlow : g'.at ≤ n)
    (hup : n + m ≤ g'.at + g'.len) : SegmentAt w (n + m) g k sb := by
  refine ⟨h.le, fun hn => h.ahead (by omega), fun hn => ?_⟩
  have hle := h.le
  by_cases hbehind : g.at < n
  · obtain ⟨hbuf, -, hgot⟩ := h.behind hbehind
    exact ⟨hbuf, fun _ => by omega, fun _ => hgot (by omega)⟩
  · -- a segment without bytes
    have hk : k = 0 := by omega
    obtain ⟨hbuf, -⟩ := h.ahead (by omega)
    rw [hk] at hbuf
    exact ⟨by rw [hbuf]; rfl, fun _ => by omega, fun _ => by omega⟩

/-- The prefix takes the next bytes of the segment at the watermark. -/
theorem Placed.extend (h : Placed w ss got) (hg : w.plan[i]? = some g) (hlow : g.at ≤ ss.data.length)
    (hup : ss.data.length + m ≤ g.at + g.len) {ahead : List SegmentBuf} {got' : List Nat}
    (hahead : ahead.length = ss.ahead.length) (hgot : got'.length = got.length)
    (hothers : ∀ j, j ≠ i → ahead[j]? = ss.ahead[j]? ∧ got'[j]? = got[j]?)
    (hsame : ∀ k sb, got'[i]? = some k → ahead[i]? = some sb → SegmentAt w (ss.data.length + m) g k sb) :
    Placed w { ss with data := ss.data ++ w.content.slice ss.data.length m, ahead := ahead } got' := by
  have hmem : g ∈ w.plan := List.mem_of_getElem? hg
  have hlength : (w.content.slice ss.data.length m).length = m := by
    have := length_slice (w := w) (k := ss.data.length - g.at) (m := m) hmem (by omega)
    rwa [show g.at + (ss.data.length - g.at) = ss.data.length by omega] at this
  refine ⟨h.data.append_of_drop (List.take_prefix _ _), hahead.trans h.ahead_length,
    hgot.trans h.got_length, ?_⟩
  intro j g' k sb hg' hk hsb
  show SegmentAt w (ss.data ++ w.content.slice ss.data.length m).length g' k sb
  rw [List.length_append, hlength]
  by_cases hji : j = i
  · subst hji
    rw [hg] at hg'
    cases hg'
    exact hsame k sb hk hsb
  · obtain ⟨hsb', hk'⟩ := hothers j hji
    exact (h.segment j g' k sb hg' (hk' ▸ hk) (hsb' ▸ hsb)).advance (w.tiles.disjoint hji hg' hg) hlow hup

/-- Moving what is parked at the watermark onto the prefix. -/
theorem Placed.absorbed (h : Placed w ss got) (hsb : ss.ahead[i]? = some sb) (hne : sb.buf ≠ [])
    (hat : sb.at = ss.data.length) :
    Placed w { ss with
      data := ss.data ++ sb.buf, ahead := ss.ahead.set i { «at» := sb.at + sb.buf.length } } got := by
  have hi : i < w.plan.length := h.ahead_length ▸ (List.getElem?_eq_some_iff.mp hsb).1
  have hg : w.plan[i]? = some w.plan[i] := List.getElem?_eq_getElem hi
  have higot : i < got.length := h.got_length ▸ hi
  have hk : got[i]? = some got[i] := List.getElem?_eq_getElem higot
  generalize w.plan[i] = g at hg
  generalize got[i] = k at hk
  have hseg := h.segment i g k sb hg hk hsb
  have hahead : ss.data.length ≤ g.at := by
    by_contra hlt
    exact hne (hseg.behind (by omega)).1
  obtain ⟨hbuf, hat'⟩ := hseg.ahead hahead
  have hk0 : k ≠ 0 := by
    intro hk0
    rw [hk0] at hbuf
    exact hne hbuf
  have hstart : g.at = ss.data.length := (hat' hk0).symm.trans hat
  rw [hstart] at hbuf
  have hle := hseg.le
  rw [hbuf]
  refine h.extend hg (by omega) (by omega) List.length_set rfl (fun j hj => ⟨?_, rfl⟩) fun k' sb' hk' hsb' => ?_
  · rw [List.getElem?_set_ne (Ne.symm hj)]
  · rw [hk] at hk'
    cases hk'
    rw [List.getElem?_set_self (h.ahead_length ▸ hi)] at hsb'
    cases hsb'
    exact ⟨hle, fun hn => by omega, fun _ => ⟨rfl, fun _ => by omega, fun _ => by omega⟩⟩

theorem countP_set_lt {l : List SegmentBuf} (hsb : l[i]? = some sb) (hne : sb.buf ≠ []) (at' : Nat) :
    (l.set i { «at» := at' }).countP (fun sb => !sb.buf.isEmpty) < l.countP fun sb => !sb.buf.isEmpty := by
  obtain ⟨hi, rfl⟩ := List.getElem?_eq_some_iff.mp hsb
  have hpos : 0 < l.countP fun sb => !sb.buf.isEmpty :=
    List.countP_pos_iff.mpr ⟨l[i], List.getElem_mem hi, by simpa using hne⟩
  have hparked : (!l[i].buf.isEmpty) = true := by simpa using hne
  rw [List.countP_set hi, if_pos hparked, if_neg (by simp), Nat.add_zero]
  omega

/-- With a turn for each parked buffer all of them are absorbed that can be. -/
theorem Placed.absorb {fuel : Nat} (h : Placed w ss got)
    (hfuel : (ss.ahead.countP fun sb => !sb.buf.isEmpty) ≤ fuel) :
    Placed w (ss.absorb fuel) got ∧
      ∀ sb ∈ (ss.absorb fuel).ahead, sb.buf ≠ [] → sb.at ≠ (ss.absorb fuel).data.length := by
  induction fuel generalizing ss with
  | zero =>
    refine ⟨h, fun sb hsb hne => ?_⟩
    have hnone := List.countP_eq_zero.mp (Nat.le_zero.mp hfuel) sb hsb
    exact absurd (by simpa using hnone) hne
  | succ fuel ih =>
    unfold StreamState.absorb
    split
    · rename_i hnone
      refine ⟨h, fun sb hsb hne hat => ?_⟩
      have hsb := List.findIdx?_eq_none_iff.mp hnone sb hsb
      simp [hne, hat] at hsb
    · rename_i i hi
      obtain ⟨hlt, hsb, -⟩ := List.findIdx?_eq_some_iff_getElem.mp hi
      simp only [Bool.and_eq_true, Bool.not_eq_true', decide_eq_true_iff] at hsb
      have hne : ss.ahead[i].buf ≠ [] := by simpa using hsb.1
      have hget : ss.ahead[i]? = some ss.ahead[i] := List.getElem?_eq_getElem hlt
      rw [hget, Option.getD_some]
      refine ih (h.absorbed hget hne hsb.2) ?_
      have hless := countP_set_lt hget hne (ss.ahead[i].at + ss.ahead[i].buf.length)
      exact Nat.le_of_lt_succ (hless.trans_le hfuel)

/-- A push of the segment at the watermark. -/
theorem Filling.Inv.pushAt {f : Filling} (h : f.Inv w) (hg : w.plan[i]? = some g) (hk : f.got[i]? = some k)
    (hsb : f.ss.ahead[i]? = some sb) (hm : k + m ≤ g.len) (hbuf : sb.buf = [])
    (hat : g.at + k = f.ss.data.length) :
    Filling.Inv w { ss := f.ss.push i (g.at + k) (w.content.slice (g.at + k) m), got := f.got.set i (k + m) } := by
  have hi : i < f.got.length := (List.getElem?_eq_some_iff.mp hk).1
  have hpush : f.ss.push i (g.at + k) (w.content.slice (g.at + k) m) =
      StreamState.absorb f.ss.ahead.length { f.ss with data := f.ss.data ++ w.content.slice (g.at + k) m } := by
    unfold StreamState.push
    simp [hsb, hbuf, hat]
  have hplaced : Placed w { f.ss with data := f.ss.data ++ w.content.slice (g.at + k) m }
    (f.got.set i (k + m)) := by
    rw [hat]
    refine h.toPlaced.extend hg (by omega) (by omega) rfl List.length_set (fun j hj => ⟨rfl, ?_⟩)
      fun k' sb' hk' hsb' => ?_
    · rw [List.getElem?_set_ne (Ne.symm hj)]
    · rw [List.getElem?_set_self hi] at hk'
      rw [hsb] at hsb'
      cases hk'
      cases hsb'
      refine ⟨hm, fun hn => ?_, fun hn => ⟨hbuf, fun _ => by omega, fun _ => by omega⟩⟩
      rw [show k + m = 0 by omega]
      exact ⟨hbuf, fun hne => absurd rfl hne⟩
  rw [hpush]
  obtain ⟨hresult, habsorbed⟩ := hplaced.absorb List.countP_le_length
  exact ⟨hresult, habsorbed⟩

/-- A push of any other segment. -/
theorem Filling.Inv.park {f : Filling} (h : f.Inv w) (hg : w.plan[i]? = some g) (hk : f.got[i]? = some k)
    (hsb : f.ss.ahead[i]? = some sb) (hm : k + m ≤ g.len)
    (hother : ¬ (sb.buf = [] ∧ g.at + k = f.ss.data.length)) :
    Filling.Inv w { ss := f.ss.push i (g.at + k) (w.content.slice (g.at + k) m), got := f.got.set i (k + m) } := by
  have hi : i < f.got.length := (List.getElem?_eq_some_iff.mp hk).1
  have hi' : i < f.ss.ahead.length := (List.getElem?_eq_some_iff.mp hsb).1
  have hmem : g ∈ w.plan := List.mem_of_getElem? hg
  have hseg := h.segment i g k sb hg hk hsb
  have hpush : f.ss.push i (g.at + k) (w.content.slice (g.at + k) m) = { f.ss with
      ahead := f.ss.ahead.set i { «at» := if sb.buf = [] then g.at + k else sb.at,
                                  buf := sb.buf ++ w.content.slice (g.at + k) m } } := by
    unfold StreamState.push
    simp only [hsb, Option.getD_some, List.isEmpty_iff, Bool.and_eq_true, decide_eq_true_iff, if_neg hother]
    by_cases hbuf : sb.buf = [] <;> simp [hbuf]
  -- what is parked now
  have hnew : SegmentAt w f.ss.data.length g (k + m)
      { «at» := if sb.buf = [] then g.at + k else sb.at, buf := sb.buf ++ w.content.slice (g.at + k) m } ∧
      (sb.buf ++ w.content.slice (g.at + k) m ≠ [] →
        (if sb.buf = [] then g.at + k else sb.at) ≠ f.ss.data.length) := by
    have hlength := length_slice (w := w) (k := 0) (m := k) hmem (by omega)
    rw [Nat.add_zero] at hlength
    by_cases hahead : f.ss.data.length ≤ g.at
    · obtain ⟨hbuf, hat⟩ := hseg.ahead hahead
      have hempty : sb.buf = [] ↔ k = 0 := by rw [hbuf, ← List.length_eq_zero_iff, hlength]
      refine ⟨⟨hm, fun _ => ⟨by rw [hbuf, slice_append], fun _ => ?_⟩,
        fun hn => absurd hahead (by omega)⟩, fun _ => ?_⟩
      · show (if sb.buf = [] then g.at + k else sb.at) = g.at
        split
        · rename_i hnil
          rw [hempty.mp hnil]
          rfl
        · rename_i hnil
          exact hat (fun hk0 => hnil (hempty.mpr hk0))
      · split
        · rename_i hnil
          exact fun heq => hother ⟨hnil, heq⟩
        · rename_i hnil
          exact h.absorbed sb (List.mem_of_getElem? hsb) hnil
    · -- everything of it is on the prefix, and nothing comes
      obtain ⟨hbuf, hpart, hall⟩ := hseg.behind (by omega)
      have hdone : g.at + g.len ≤ f.ss.data.length := by
        by_contra hlt
        exact hother ⟨hbuf, (hpart (by omega)).symm⟩
      have hm0 : m = 0 := by
        have := hall hdone
        omega
      have hnil : sb.buf ++ w.content.slice (g.at + k) m = [] := by
        rw [hbuf, hm0]
        rfl
      rw [hnil, hm0]
      exact ⟨⟨hseg.le, fun hn => absurd hn hahead, fun _ => ⟨rfl, hpart, hall⟩⟩, fun hne => absurd rfl hne⟩
  rw [hpush]
  refine ⟨⟨h.data, List.length_set.trans h.ahead_length, List.length_set.trans h.got_length, ?_⟩, ?_⟩
  · intro j g' k' sb' hg' hk' hsb'
    by_cases hji : j = i
    · subst hji
      rw [List.getElem?_set_self hi] at hk'
      rw [List.getElem?_set_self hi'] at hsb'
      rw [hg] at hg'
      cases hk'
      cases hsb'
      cases hg'
      exact hnew.1
    · rw [List.getElem?_set_ne (Ne.symm hji)] at hk' hsb'
      exact h.segment j g' k' sb' hg' hk' hsb'
  · intro sb' hsb' hne
    obtain hsb' | rfl := List.mem_or_eq_of_mem_set hsb'
    · exact h.absorbed sb' hsb' hne
    · exact hnew.2 hne

theorem Filling.Inv.next {f : Filling} (h : f.Inv w) (p : Nat × Nat) : (w.next f p).Inv w := by
  unfold Window.next
  split
  · rename_i g k hg hk
    have hi : p.1 < w.plan.length := (List.getElem?_eq_some_iff.mp hg).1
    have hiahead : p.1 < f.ss.ahead.length := h.ahead_length ▸ hi
    have hsb : f.ss.ahead[p.1]? = some f.ss.ahead[p.1] := List.getElem?_eq_getElem hiahead
    have hle := (h.segment p.1 g k _ hg hk hsb).le
    have hm : k + min p.2 (g.len - k) ≤ g.len := by omega
    by_cases hat : f.ss.ahead[p.1].buf = [] ∧ g.at + k = f.ss.data.length
    · exact h.pushAt hg hk hsb hm hat.1 hat.2
    · exact h.park hg hk hsb hm hat
  · exact h

theorem Window.inv_opened (w : Window) (first : Nat) : (w.opened first).Inv w := by
  have hahead : ∀ sb ∈ (w.opened first).ss.ahead, sb = {} := by
    intro sb hsb
    obtain ⟨_, -, rfl⟩ := List.mem_map.mp hsb
    rfl
  refine ⟨⟨List.take_prefix _ _, List.length_map _, ?_, ?_⟩, fun sb hsb hne => ?_⟩
  · simp [opened]
  · intro i g k sb hg hk hsb
    obtain rfl := hahead sb (List.mem_of_getElem? hsb)
    have hend := (w.tiles.bounds.2 g (List.mem_of_getElem? hg)).2
    have hk : ((w.plan.map fun _ => 0).set 0 (min first ((w.plan.map (·.len)).headD 0)))[i]? = some k := hk
    show SegmentAt w (w.content.take (min first ((w.plan.map (·.len)).headD 0))).length g k {}
    rw [List.length_take]
    have htiles := w.tiles
    cases hplan : w.plan with
    | nil =>
      rw [hplan] at hg
      cases hg
    | cons a gs =>
      rw [hplan] at hg hk htiles
      obtain ⟨hat, hrest⟩ := htiles
      have hhead : ((a :: gs).map (·.len)).headD 0 = a.len := rfl
      rw [hhead] at hk ⊢
      cases i with
      | zero =>
        cases hg
        cases hk
        refine ⟨Nat.min_le_right _ _, fun hn => ?_, fun hn => ⟨rfl, fun _ => by omega, fun _ => by omega⟩⟩
        rw [show min first g.len = 0 by omega]
        exact ⟨rfl, fun hne => absurd rfl hne⟩
      | succ i =>
        rw [List.map_cons, List.set_cons_zero, List.getElem?_cons_succ, List.getElem?_map] at hk
        obtain ⟨_, -, rfl⟩ := Option.map_eq_some_iff.mp hk
        have hafter := (hrest.bounds.2 g (List.mem_of_getElem? hg)).1
        exact ⟨Nat.zero_le _, fun _ => ⟨rfl, fun hne => absurd rfl hne⟩, fun hn => by omega⟩
  · rw [hahead sb hsb] at hne
    exact absurd rfl hne

theorem Window.inv_run (w : Window) (first : Nat) (pushes : List (Nat × Nat)) : (w.run first pushes).Inv w := by
  unfold Window.run
  induction pushes using List.reverseRecOn with
  | nil => exact w.inv_opened first
  | append_singleton pushes p ih =>
    rw [List.foldl_append, List.foldl_cons, List.foldl_nil]
    exact ih.next p

/-! ## What has been received -/

/-- The offsets of the bytes that came. -/
def received (plan : List Segment) (got : List Nat) : List Nat :=
  (plan.zip got).flatMap fun x => List.range' x.1.at x.2

/-- The offsets of the bytes that are parked. -/
def parked (ahead : List SegmentBuf) : List Nat := ahead.flatMap fun sb => List.range' sb.at sb.buf.length

/-- The prefix and the parked bytes are what came, segment by segment. -/
theorem received_eq {start stop : Nat} {plan : List Segment} {got : List Nat} {ahead : List SegmentBuf}
    (htiles : Contiguous start stop plan) (hstop : stop ≤ w.content.length) (hn : n ≤ stop)
    (hgot : got.length = plan.length) (hahead : ahead.length = plan.length)
    (hseg : ∀ (i : Nat) (g : Segment) (k : Nat) (sb : SegmentBuf), plan[i]? = some g → got[i]? = some k →
      ahead[i]? = some sb → SegmentAt w n g k sb) :
    received plan got = List.range' start (n - start) ++ parked ahead := by
  induction plan generalizing start got ahead with
  | nil =>
    have hstart : start = stop := htiles
    rw [List.length_eq_zero_iff.mp hahead, show n - start = 0 by omega]
    rfl
  | cons g gs ih =>
    obtain ⟨hat, hrest⟩ := htiles
    cases got with
    | nil => cases hgot
    | cons k ks =>
      cases ahead with
      | nil => cases hahead
      | cons sb sbs =>
        have hrec := ih hrest (Nat.succ.inj hgot) (Nat.succ.inj hahead)
          fun i g' k' sb' hg' hk' hsb' => hseg (i + 1) g' k' sb' hg' hk' hsb'
        have hfirst := hseg 0 g k sb rfl rfl rfl
        have hle := hfirst.le
        have hend := hrest.bounds.1
        show List.range' g.at k ++ received gs ks =
          List.range' start (n - start) ++ (List.range' sb.at sb.buf.length ++ parked sbs)
        rw [hrec, hat]
        by_cases hahead' : n ≤ g.at
        · -- it is parked whole
          obtain ⟨hbuf, hat'⟩ := hfirst.ahead hahead'
          have hlength : sb.buf.length = k := by
            rw [hbuf]
            simp only [Bytes.slice, List.length_take, List.length_drop]
            omega
          rw [hlength, show n - (start + g.len) = 0 by omega, show n - start = 0 by omega]
          by_cases hk : k = 0
          · rw [hk]
            rfl
          · rw [hat' hk, hat]
            rfl
        · obtain ⟨hbuf, hpart, hall⟩ := hfirst.behind (by omega)
          rw [hbuf]
          by_cases hinside : n < g.at + g.len
          · have hnk := hpart hinside
            rw [show n - (start + g.len) = 0 by omega, show n - start = k by omega]
            rfl
          · rw [hall (by omega), show n - start = g.len + (n - (start + g.len)) by omega,
              ← List.range'_append_1, List.append_assoc]
            rfl

theorem Filling.Inv.received_eq {f : Filling} (h : f.Inv w) :
    received w.plan f.got = List.range f.ss.data.length ++ parked f.ss.ahead := by
  have hle := h.data.length_le
  rw [Ncrs.received_eq w.tiles (Nat.le_refl _) hle h.got_length h.ahead_length h.segment, Nat.sub_zero,
    List.range_eq_range']

/-- With everything delivered the prefix is the window. -/
theorem Filling.Inv.complete {f : Filling} (h : f.Inv w) (hall : f.got = w.plan.map (·.len)) :
    f.ss.data = w.content ∧ ∀ sb ∈ f.ss.ahead, sb.buf = [] := by
  have hat : ∀ (i : Nat) (g : Segment) (sb : SegmentBuf), w.plan[i]? = some g → f.ss.ahead[i]? = some sb →
      SegmentAt w f.ss.data.length g g.len sb := by
    intro i g sb hg hsb
    exact h.segment i g g.len sb hg (by rw [hall, List.getElem?_map, hg]; rfl) hsb
  have hle := h.data.length_le
  have hend : f.ss.data.length = w.content.length := by
    by_contra hne
    obtain ⟨g, hg, hlow, hup⟩ := w.tiles.cover (Nat.zero_le f.ss.data.length) (by omega)
    obtain ⟨i, hi, rfl⟩ := List.mem_iff_getElem.mp hg
    have hiahead : i < f.ss.ahead.length := h.ahead_length ▸ hi
    have hsb : f.ss.ahead[i]? = some f.ss.ahead[i] := List.getElem?_eq_getElem hiahead
    have hseg := hat i _ _ (List.getElem?_eq_getElem hi) hsb
    by_cases hstart : f.ss.data.length ≤ w.plan[i].at
    · -- it would be parked at the watermark
      obtain ⟨hbuf, hat'⟩ := hseg.ahead hstart
      have hlength := length_slice (w := w) (k := 0) (m := w.plan[i].len) hg (by omega)
      rw [Nat.add_zero, ← hbuf] at hlength
      have hne' := h.absorbed _ (List.mem_of_getElem? hsb)
        (fun hnil => by rw [hnil] at hlength; simp at hlength; omega)
      have := hat' (by omega)
      omega
    · have := (hseg.behind (by omega)).2.1 hup
      omega
  refine ⟨h.data.eq_of_length hend, fun sb hsb => ?_⟩
  obtain ⟨i, hi, rfl⟩ := List.mem_iff_getElem.mp hsb
  have hi' : i < w.plan.length := h.ahead_length ▸ hi
  have hseg := hat i _ _ (List.getElem?_eq_getElem hi') (List.getElem?_eq_getElem hi)
  have hbounds := (w.tiles.bounds.2 _ (List.getElem_mem hi')).2
  by_cases hstart : f.ss.data.length ≤ w.plan[i].at
  · rw [(hseg.ahead hstart).1, show w.plan[i].len = 0 by omega]
    rfl
  · exact (hseg.behind (by omega)).1

/-- What a window's buffer is at any time. -/
structure Filling.NoHole (w : Window) (f : Filling) : Prop where
  /-- Readers see the window's bytes. -/
  data : f.ss.data <+: w.content
  /-- So are the parked ones, and none of them are where the prefix ends. -/
  parked : ∀ sb ∈ f.ss.ahead, sb.buf ≠ [] →
    sb.buf = w.content.slice sb.at sb.buf.length ∧ sb.at ≠ f.ss.data.length
  /-- Each byte that came is held once. -/
  received : received w.plan f.got = List.range f.ss.data.length ++ Ncrs.parked f.ss.ahead
  complete : f.got = w.plan.map (·.len) → f.ss.data = w.content ∧ ∀ sb ∈ f.ss.ahead, sb.buf = []

/-- Whatever order the segments' pushes come in, the buffer has no hole. -/
theorem segments_leave_no_hole (w : Window) (first : Nat) (pushes : List (Nat × Nat)) :
    (w.run first pushes).NoHole w := by
  have h := w.inv_run first pushes
  refine ⟨h.data, fun sb hsb hne => ⟨?_, h.absorbed sb hsb hne⟩, h.received_eq, h.complete⟩
  obtain ⟨i, hi, rfl⟩ := List.mem_iff_getElem.mp hsb
  have hi' : i < w.plan.length := h.ahead_length ▸ hi
  have higot : i < (w.run first pushes).got.length := h.got_length ▸ hi'
  have hk : (w.run first pushes).got[i]? = some (w.run first pushes).got[i] := List.getElem?_eq_getElem higot
  generalize (w.run first pushes).got[i] = k at hk
  have hseg := h.segment i _ k _ (List.getElem?_eq_getElem hi') hk (List.getElem?_eq_getElem hi)
  by_cases hstart : (w.run first pushes).ss.data.length ≤ w.plan[i].at
  · obtain ⟨hbuf, hat⟩ := hseg.ahead hstart
    have hk0 : k ≠ 0 := by
      rintro rfl
      exact hne hbuf
    have hle := hseg.le
    have hlength := length_slice (w := w) (k := 0) (m := k) (List.getElem_mem hi') (by omega)
    rw [Nat.add_zero] at hlength
    rw [hat hk0]
    conv_rhs => rw [hbuf, hlength]
    exact hbuf
  · exact absurd (hseg.behind (by omega)).1 hne

/-- A window of sixteen megabytes in a larger file, planned for two requests. -/
def sixteenMegabytes : Window :=
  .planned 16777216 (some 33554432) 2 131072 (List.replicate 16777216 0)
    (List.length_replicate.trans (by decide))

/-- It is fetched in two parts, here after some pushes of both. -/
theorem segments_leave_no_hole_in_two_parts :
    sixteenMegabytes.plan.length = 2 ∧
      (sixteenMegabytes.run 65536 [(1, 65536), (0, 131072), (1, 9000000)]).NoHole sixteenMegabytes :=
  ⟨by decide, segments_leave_no_hole _ _ _⟩

end Ncrs
