import Ncrs.ForStd.List
import Ncrs.Native.ReadAhead

/-!
# READs served from windows

The bytes in a window's buffer are the file's from the window's start on, without a hole, and its end
mark stands where the server said the file ends. So what a READ is served from a window is the file's,
and short only at an end. One branch takes a slice that need not be within the buffer: a finished
window that ends before a READ's offset is at its end mark, or at the listed size, like one that ends
inside the READ.

## Key results

- `ReadStream.Right.segment`: what the pump does to a buffer
- `ReadHandle.Inv.step`: windows and parked READs name such buffers
- `ReadHandle.window_replies_are_the_file`: the replies, exactly when they are right
- `ReadHandle.read_past_the_end_panics`: a READ past the end of a file that is shorter than listed
-/

namespace Ncrs

variable {content : Bytes}

/-! ## Slices -/

/-- A slice within the buffer of a window at `start` is the file's. -/
theorem subslice_of_le {data : Bytes} {start off e : Nat} (h : data <+: content.drop start)
    (hoff : start ≤ off) (hlow : off - start ≤ e) (hup : e ≤ data.length) :
    ∃ b, subslice data (off - start) e = some b ∧ b <+: content.drop off ∧
      b.length = e - (off - start) := by
  refine ⟨(data.take e).drop (off - start), ?_, ?_, ?_⟩
  · simp [subslice, hlow, hup]
  · have htake : data.take e <+: content.drop start := (List.take_prefix e data).trans h
    have hdrop := htake.drop (off - start)
    rwa [List.drop_drop, show start + (off - start) = off by omega] at hdrop
  · rw [List.length_drop, List.length_take, Nat.min_eq_left hup]

/-- A slice that ends before it begins is out of range. -/
theorem subslice_eq_none {data : Bytes} {s e : Nat} (h : e < s) : subslice data s e = none := by
  simp [subslice, show ¬s ≤ e by omega]

/-! ## The buffer of a window -/

namespace StreamState

variable {ss : StreamState} {start : Nat}

/-- The buffered parts are the file's. -/
structure Holds (content : Bytes) (start : Nat) (ss : StreamState) : Prop where
  data : ss.data <+: content.drop start
  ahead : ∀ (i : Nat) (sb : SegmentBuf), ss.ahead[i]? = some sb →
    sb.buf <+: content.drop (start + sb.at)

/-- Each buffer is one of before, or empty. -/
structure Absorbed (ss ss' : StreamState) : Prop where
  ahead : ∀ (i : Nat) (sb : SegmentBuf), ss'.ahead[i]? = some sb → sb.buf = [] ∨ ss.ahead[i]? = some sb
  length : ss'.ahead.length = ss.ahead.length
  eofLen : ss'.eofLen = ss.eofLen

theorem Absorbed.refl (ss : StreamState) : Absorbed ss ss :=
  ⟨fun _ _ h => .inr h, rfl, rfl⟩

/-- Moving parked segments to the front keeps what the stream holds a part of the file. -/
theorem absorb_spec (fuel : Nat) (h : Holds content start ss) :
    Holds content start (absorb fuel ss) ∧ Absorbed ss (absorb fuel ss) := by
  -- the induction is over the segments that may be moved
  induction fuel generalizing ss with
  | zero => exact ⟨h, .refl ss⟩
  | succ fuel ih =>
    unfold absorb
    split
    · exact ⟨h, .refl ss⟩
    · rename_i i hi
      obtain ⟨hlt, hsb, -⟩ := List.findIdx?_eq_some_iff_getElem.1 hi
      rw [Bool.and_eq_true, decide_eq_true_eq] at hsb
      rw [List.getElem?_eq_getElem hlt, Option.getD_some]
      have hbuf := h.ahead i _ (List.getElem?_eq_getElem hlt)
      have hnext : Holds content start { ss with
          data := ss.data ++ ss.ahead[i].buf
          ahead := ss.ahead.set i { «at» := ss.ahead[i].at + ss.ahead[i].buf.length } } := by
        refine ⟨h.data.append_of_drop ?_, fun k sb hk => ?_⟩
        · -- the parked bytes continue the data
          rwa [List.drop_drop, ← hsb.2]
        · dsimp only at hk
          rw [List.getElem?_set] at hk
          split at hk
          · -- the segment that was moved is empty now
            cases hk
            exact List.nil_prefix
          · exact h.ahead k sb hk
      obtain ⟨hholds, habsorbed⟩ := ih hnext
      refine ⟨hholds, ⟨fun k sb hk => ?_, ?_, habsorbed.eofLen⟩⟩
      · obtain hnil | hk := habsorbed.ahead k sb hk
        · exact .inl hnil
        · dsimp only at hk
          rw [List.getElem?_set] at hk
          split at hk
          · cases hk
            exact .inl rfl
          · exact .inr hk
      · rw [habsorbed.length]
        exact List.length_set

end StreamState

namespace ReadStream

variable {s s' : ReadStream} {i : Nat} {g g' : PumpSegment}

/-- What a window's buffer holds, and where its segments are. -/
structure Right (content : Bytes) (s : ReadStream) : Prop where
  holds : s.ss.Holds content s.start
  /-- A segment pushes its bytes in order. -/
  next : ∀ (i : Nat) (sb : SegmentBuf) (g : PumpSegment), s.ss.ahead[i]? = some sb → sb.buf ≠ [] →
    s.segments[i]? = some g → sb.at + sb.buf.length = g.seg.at + g.got
  buffers : s.ss.ahead.length = s.segments.length
  eof : ∀ n, s.ss.eofLen = some n → s.total = some (s.start + n)

/-- A window that was just opened holds a part of the file. -/
theorem right_opened {start firstLen slots : Nat} {total : Option Nat} {first : Bytes}
    {plan : List Segment} (hfirst : first = content.slice start firstLen) :
    Right content (opened start total first plan slots) where
  holds := by
    refine ⟨?_, fun i sb hi => ?_⟩
    · rw [hfirst]
      exact List.take_prefix ..
    · have hsb : (plan.map fun _ => ({} : SegmentBuf))[i]? = some sb := hi
      rw [List.getElem?_map, Option.map_eq_some_iff] at hsb
      obtain ⟨_, -, rfl⟩ := hsb
      exact List.nil_prefix
  next i sb g hi hne := by
    have hsb : (plan.map fun _ => ({} : SegmentBuf))[i]? = some sb := hi
    rw [List.getElem?_map, Option.map_eq_some_iff] at hsb
    obtain ⟨_, -, rfl⟩ := hsb
    exact absurd rfl hne
  buffers := by simp [opened, StreamState.new]
  eof n hn := by cases hn

/-- A segment that has fetched as much as before. -/
theorem Right.setSegment (h : Right content s) (hg : s.segments[i]? = some g)
    (hgot : g'.seg.at + g'.got = g.seg.at + g.got) : Right content (s.setSegment i g') where
  holds := h.holds
  next k sb x hk hne hx := by
    replace hx : (s.segments.set i g')[k]? = some x := hx
    by_cases hik : i = k
    · subst hik
      rw [List.getElem?_set_self (List.getElem?_eq_some_iff.1 hg).1] at hx
      cases hx
      rw [hgot]
      exact h.next i sb g hk hne hg
    · rw [List.getElem?_set_ne hik] at hx
      exact h.next k sb x hk hne hx
  buffers := by
    rw [ReadStream.setSegment, List.length_set]
    exact h.buffers
  eof := h.eof

/-- The flags of the window. -/
theorem Right.setFlags (h : Right content s) {done broken stopped : Bool} {waiters : Nat} :
    Right content { s with ss := { s.ss with
      done := done, broken := broken, stopped := stopped, waiters := waiters } } :=
  ⟨⟨h.holds.data, h.holds.ahead⟩, h.next, h.buffers, h.eof⟩

/-- A segment that leaves changes no bytes. -/
theorem Right.leave (h : Right content s) (hg : s.segments[i]? = some g) :
    Right content (s.leave i g) := by
  have hset : Right content (s.setSegment i { g with running := false }) := h.setSegment hg rfl
  unfold ReadStream.leave
  dsimp only
  split
  · rename_i hend
    rw [Bool.and_eq_true, decide_eq_true_eq] at hend
    refine ⟨⟨hset.holds.data, hset.holds.ahead⟩, hset.next, hset.buffers, fun n hn => ?_⟩
    cases hn
    rw [← Nat.add_assoc]
    exact hend.2
  · exact hset

/-- A segment's next bytes go to the end of the prefix, or behind those it has parked. -/
theorem Right.bytes (h : Right content s) (hg : s.segments[i]? = some g) (n : Nat)
    (hn : s.start + g.seg.at + g.got + n ≤ content.length) :
    Right content (ReadStream.setSegment
      { s with ss := s.ss.push i (g.seg.at + g.got) (content.slice (s.start + g.seg.at + g.got) n) } i
      { g with got := g.got + n }) := by
  have hchunk : content.slice (s.start + g.seg.at + g.got) n <+:
      content.drop (s.start + (g.seg.at + g.got)) := by
    rw [← Nat.add_assoc]
    exact List.take_prefix ..
  have hlen : (content.slice (s.start + g.seg.at + g.got) n).length = n := by
    rw [Bytes.slice, List.length_take, List.length_drop]
    omega
  have hlt : i < s.ss.ahead.length := by
    rw [h.buffers]
    exact (List.getElem?_eq_some_iff.1 hg).1
  have hsb := List.getElem?_eq_getElem hlt
  generalize s.ss.ahead[i] = sb at hsb
  -- the other segments keep their places
  have hother : ∀ k (x : PumpSegment), i ≠ k →
      (s.segments.set i { g with got := g.got + n })[k]? = some x → s.segments[k]? = some x := by
    intro k x hk hx
    rwa [List.getElem?_set_ne hk] at hx
  unfold StreamState.push
  rw [hsb, Option.getD_some]
  dsimp only
  -- the bytes come at the front, or are parked in their segment
  split
  · rename_i hfront
    rw [Bool.and_eq_true, decide_eq_true_eq] at hfront
    have hholds : StreamState.Holds content s.start { s.ss with
        data := s.ss.data ++ content.slice (s.start + g.seg.at + g.got) n } := by
      refine ⟨h.holds.data.append_of_drop ?_, h.holds.ahead⟩
      rwa [List.drop_drop, ← hfront.2]
    obtain ⟨hholds', habsorbed⟩ := StreamState.absorb_spec s.ss.ahead.length hholds
    refine ⟨hholds', fun k sb' x hk hne hx => ?_, ?_, fun m hm => ?_⟩
    · have hk := (habsorbed.ahead k sb' hk).resolve_left hne
      by_cases hik : i = k
      · -- Nothing of the segment itself is parked.
        subst hik
        cases hsb.symm.trans hk
        exact absurd (List.isEmpty_iff.1 hfront.1) hne
      · exact h.next k sb' x hk hne (hother k x hik hx)
    · rw [ReadStream.setSegment, List.length_set]
      exact habsorbed.length.trans h.buffers
    · exact h.eof m (habsorbed.eofLen.symm.trans hm)
  · -- what is parked of the segment ends where the new bytes begin
    have hparked : ∀ sb', (if sb.buf.isEmpty then { sb with «at» := g.seg.at + g.got } else sb) = sb' →
        sb'.buf <+: content.drop (s.start + sb'.at) ∧
          sb'.at + sb'.buf.length = g.seg.at + g.got := by
      rintro sb' rfl
      split
      · rename_i hempty
        rw [List.isEmpty_iff] at hempty
        dsimp only
        rw [hempty]
        exact ⟨List.nil_prefix, rfl⟩
      · rename_i hne
        rw [List.isEmpty_iff] at hne
        exact ⟨h.holds.ahead i sb hsb, h.next i sb g hsb hne hg⟩
    obtain ⟨hbuf, hend⟩ := hparked _ rfl
    generalize (if sb.buf.isEmpty then { sb with «at» := g.seg.at + g.got } else sb) = sb' at hbuf hend
    -- only the buffer of the segment itself is another
    have hset : ∀ k (x : SegmentBuf),
        (s.ss.ahead.set i { sb' with buf := sb'.buf ++ content.slice (s.start + g.seg.at + g.got) n })[k]? =
          some x → i = k ∧ x =
            { sb' with buf := sb'.buf ++ content.slice (s.start + g.seg.at + g.got) n } ∨
          i ≠ k ∧ s.ss.ahead[k]? = some x := by
      intro k x hk
      by_cases hik : i = k
      · subst hik
        rw [List.getElem?_set_self hlt] at hk
        cases hk
        exact .inl ⟨rfl, rfl⟩
      · rw [List.getElem?_set_ne hik] at hk
        exact .inr ⟨hik, hk⟩
    refine ⟨⟨h.holds.data, fun k x hk => ?_⟩, fun k x y hk hne hy => ?_, ?_, h.eof⟩
    · obtain ⟨-, rfl⟩ | ⟨-, hk⟩ := hset k x hk
      · refine hbuf.append_of_drop ?_
        rwa [List.drop_drop,
          show s.start + sb'.at + sb'.buf.length = s.start + (g.seg.at + g.got) by omega]
      · exact h.holds.ahead k x hk
    · obtain ⟨rfl, rfl⟩ | ⟨hik, hk⟩ := hset k x hk
      · have hi : (s.segments.set i { g with got := g.got + n })[i]? = some y := hy
        rw [List.getElem?_set_self (by rwa [← h.buffers])] at hi
        cases hi
        dsimp only
        rw [List.length_append, hlen]
        omega
      · exact h.next k x y hk hne (hother k y hik hy)
    · show (s.ss.ahead.set i _).length = (s.segments.set i _).length
      rw [List.length_set, List.length_set]
      exact h.buffers

/-- Every step of a segment keeps the window a part of the file. -/
theorem Right.segment (h : Right content s) (hg : s.segments[i]? = some g) {e : SegmentStep}
    (hstep : s.segment content i g e = some s') : Right content s' ∧ s'.start = s.start := by
  have hleave : ∀ s : ReadStream, (s.leave i g).start = s.start := by
    intro s
    unfold ReadStream.leave
    dsimp only
    split <;> rfl
  cases e with
  | bytes n =>
    simp only [ReadStream.segment] at hstep
    split at hstep <;> cases hstep
    rename_i hn
    simp only [Bool.and_eq_true, decide_eq_true_eq] at hn
    exact ⟨h.bytes hg n hn.2, rfl⟩
  | bodyEnd =>
    simp only [ReadStream.segment] at hstep
    split at hstep <;> cases hstep
    exact ⟨h.setFlags.leave hg, hleave _⟩
  | halt stop early =>
    simp only [ReadStream.segment] at hstep
    cases hstep
    split
    · exact ⟨h.setFlags.setSegment hg rfl, rfl⟩
    · exact ⟨h.setFlags.leave hg, hleave _⟩
  | leave =>
    simp only [ReadStream.segment] at hstep
    split at hstep <;> cases hstep
    exact ⟨h.leave hg, hleave s⟩

/-- So does its end. -/
theorem Right.finish (h : Right content s) (panicking : Bool) : Right content (s.finish panicking) :=
  h.setFlags

end ReadStream

/-! ## The handle -/

namespace ReadHandle

variable {h h' : ReadHandle} {s s' : ReadStream} {k : Nat}

/-- The handle has the window. -/
def Has (h : ReadHandle) (b : ReadAheadBuf) : Prop :=
  h.buf = some b ∨ h.nextBuf = some b ∨ h.prevBuf = some b

/-- Streams are right, and windows and waiting READs name one that starts where they say. -/
structure Inv (content : Bytes) (h : ReadHandle) : Prop where
  streams : ∀ (k : Nat) (s : ReadStream), h.streams[k]? = some s → s.Right content
  windows : ∀ b, h.Has b → ∃ s, h.streams[b.stream]? = some s ∧ s.start = b.start
  waits : ∀ j ∈ h.waits, j.start ≤ j.off ∧ ∃ s, h.streams[j.stream]? = some s ∧ s.start = j.start

/-- A handle without windows. -/
theorem inv_start : Inv content {} where
  streams k s hk := by simp at hk
  windows b hb := by simp [Has] at hb
  waits j hj := by cases hj

/-- No new window, stream or waiting READ. -/
theorem Inv.shrink (h₀ : Inv content h) (hstreams : h'.streams = h.streams)
    (hwindows : ∀ b, h'.Has b → h.Has b) (hwaits : ∀ j ∈ h'.waits, j ∈ h.waits) : Inv content h' where
  streams := by
    rw [hstreams]
    exact h₀.streams
  windows b hb := by
    rw [hstreams]
    exact h₀.windows b (hwindows b hb)
  waits j hj := by
    rw [hstreams]
    exact h₀.waits j (hwaits j hj)

/-- Promoting the look-ahead brings no new window. -/
theorem has_promoteLookahead {off : Nat} {b : ReadAheadBuf}
    (hb : (h.promoteLookahead off).Has b) : h.Has b := by
  unfold promoteLookahead at hb
  split at hb
  · exact hb
  · split at hb
    · obtain hb | hb | hb := hb
      · exact .inr (.inl hb)
      · cases hb
      · exact .inl hb
    · exact hb

/-- Dropping the window before the current one does not either. -/
theorem has_retirePrevWindow {off : Nat} {b : ReadAheadBuf}
    (hb : (h.retirePrevWindow off).Has b) : h.Has b := by
  unfold retirePrevWindow at hb
  split at hb
  · split at hb
    · dsimp only at hb
      split at hb
      · obtain hb | hb | hb := hb
        · exact .inl hb
        · exact .inr (.inl hb)
        · cases hb
      · exact hb
    · exact hb
  · exact hb

/-- Both leave the streams. -/
theorem streams_promoteLookahead (off : Nat) : (h.promoteLookahead off).streams = h.streams := by
  unfold promoteLookahead
  split
  · rfl
  · split <;> rfl

theorem waits_promoteLookahead (off : Nat) : (h.promoteLookahead off).waits = h.waits := by
  unfold promoteLookahead
  split
  · rfl
  · split <;> rfl

theorem streams_retirePrevWindow (off : Nat) : (h.retirePrevWindow off).streams = h.streams := by
  unfold retirePrevWindow
  split
  · split
    · dsimp only
      split <;> rfl
    · rfl
  · rfl

theorem waits_retirePrevWindow (off : Nat) : (h.retirePrevWindow off).waits = h.waits := by
  unfold retirePrevWindow
  split
  · split
    · dsimp only
      split <;> rfl
    · rfl
  · rfl

/-- A READ that arrives promotes and drops windows only. -/
theorem Inv.arrive (h₀ : Inv content h) (off : Nat) : Inv content (h.arrive off) := by
  refine h₀.shrink ?_ (fun b hb => has_promoteLookahead (has_retirePrevWindow hb)) fun j hj => ?_
  · exact (streams_retirePrevWindow off).trans (streams_promoteLookahead off)
  · have hwaits : (h.arrive off).waits = h.waits :=
      (waits_retirePrevWindow off).trans (waits_promoteLookahead off)
    rwa [hwaits] at hj

/-- Planning a look-ahead leaves the windows. -/
theorem Inv.planLookahead (h₀ : Inv content h) (off sz : Nat) (sequential : Bool)
    (fileSize ceiling : Nat) (reserved : Bool) :
    Inv content (h.planLookahead off sz sequential fileSize ceiling reserved) := by
  unfold ReadHandle.planLookahead
  split
  · split
    · exact h₀.shrink rfl (fun _ hb => hb) fun _ hj => hj
    · exact h₀
  · exact h₀

/-- A READ may wait on a window that holds its offset. -/
theorem Inv.wait (h₀ : Inv content h) {j : WindowWait} (hoff : j.start ≤ j.off)
    (hj : ∃ s, h.streams[j.stream]? = some s ∧ s.start = j.start) :
    Inv content { h with waits := h.waits ++ [j] } where
  streams := h₀.streams
  windows := h₀.windows
  waits i hi := by
    obtain hi | hi := List.mem_append.1 hi
    · exact h₀.waits i hi
    · cases List.mem_singleton.1 hi
      exact ⟨hoff, hj⟩

/-- A stream goes on from the same place. -/
theorem Inv.setStream (h₀ : Inv content h) (hs : h.streams[k]? = some s)
    (hright : s'.Right content) (hstart : s'.start = s.start) : Inv content (h.setStream k s') := by
  -- every stream is still there with its beginning
  have hset : ∀ (i : Nat) (t : ReadStream), h.streams[i]? = some t →
      ∃ t', (h.setStream k s').streams[i]? = some t' ∧ t'.start = t.start := by
    intro i t hi
    by_cases hk : k = i
    · subst hk
      cases hs.symm.trans hi
      exact ⟨s', List.getElem?_set_self (List.getElem?_eq_some_iff.1 hs).1, hstart⟩
    · exact ⟨t, (List.getElem?_set_ne hk).trans hi, rfl⟩
  refine ⟨fun i t hi => ?_, fun b hb => ?_, fun j hj => ?_⟩
  · -- the streams, the windows, and the reads that wait
    have hi : (h.streams.set k s')[i]? = some t := hi
    by_cases hk : k = i
    · subst hk
      rw [List.getElem?_set_self (List.getElem?_eq_some_iff.1 hs).1] at hi
      cases hi
      exact hright
    · rw [List.getElem?_set_ne hk] at hi
      exact h₀.streams i t hi
  · obtain ⟨t, ht, hb⟩ := h₀.windows b hb
    obtain ⟨t', ht', hsame⟩ := hset b.stream t ht
    exact ⟨t', ht', hsame.trans hb⟩
  · obtain ⟨hoff, t, ht, hj⟩ := h₀.waits j hj
    obtain ⟨t', ht', hsame⟩ := hset j.stream t ht
    exact ⟨hoff, t', ht', hsame.trans hj⟩

/-- The waiters are a part of the stream's state. -/
theorem setWaiters_eq (hs : h.streams[k]? = some s) (f : Nat → Nat) :
    h.setWaiters k f = h.setStream k { s with ss := { s.ss with waiters := f s.ss.waiters } } := by
  unfold setWaiters setStream
  congr 1
  refine List.ext_getElem? fun i => ?_
  rw [List.getElem?_modify, List.getElem?_set]
  by_cases hk : k = i
  · subst hk
    rw [hs, if_pos rfl, if_pos (List.getElem?_eq_some_iff.1 hs).1]
    simp
  · simp [hk]

/-- Counting them changes no bytes. -/
theorem Inv.setWaiters (h₀ : Inv content h) (hs : h.streams[k]? = some s) (f : Nat → Nat) :
    Inv content (h.setWaiters k f) := by
  rw [setWaiters_eq hs]
  exact h₀.setStream hs (h₀.streams k s hs).setFlags rfl

/-- A new stream, and a handle whose windows are old ones or the new stream's. -/
theorem Inv.openStream (h₀ : Inv content h) (hright : s.Right content)
    (hstreams : h'.streams = h.streams ++ [s]) (hwaits : h'.waits = h.waits)
    (hwindows : ∀ b, h'.Has b → h.Has b ∨ b.stream = h.streams.length ∧ b.start = s.start) :
    Inv content h' := by
  have hold : ∀ (i : Nat) (t : ReadStream), h.streams[i]? = some t → h'.streams[i]? = some t := by
    intro i t hi
    rw [hstreams, List.getElem?_append_left (List.getElem?_eq_some_iff.1 hi).1, hi]
  refine ⟨fun i t hi => ?_, fun b hb => ?_, fun j hj => ?_⟩
  · rw [hstreams] at hi
    by_cases hlt : i < h.streams.length
    · rw [List.getElem?_append_left hlt] at hi
      exact h₀.streams i t hi
    · rw [List.getElem?_append_right (by omega)] at hi
      obtain rfl : t = s := List.mem_singleton.1 (List.mem_of_getElem? hi)
      exact hright
  · obtain hb | ⟨hstream, hstart⟩ := hwindows b hb
    · obtain ⟨t, ht, hb⟩ := h₀.windows b hb
      exact ⟨t, hold _ t ht, hb⟩
    · refine ⟨s, ?_, hstart.symm⟩
      rw [hstreams, hstream, List.getElem?_concat_length]
  · rw [hwaits] at hj
    obtain ⟨hoff, t, ht, hj⟩ := h₀.waits j hj
    exact ⟨hoff, t, hold _ t ht, hj⟩

/-- A window that was fetched for a READ becomes the current one. -/
theorem Inv.fetched (h₀ : Inv content h) {f : WindowFetch} {budget slots firstLen : Nat}
    {total : Option Nat} {partialContent : Bool}
    (hstep : h.fetched content f budget slots total partialContent firstLen = some h') :
    Inv content h' := by
  unfold ReadHandle.fetched at hstep
  split at hstep
  · dsimp only at hstep
    split at hstep <;> cases hstep
    · exact h₀
    · refine h₀.openStream (ReadStream.right_opened rfl) rfl rfl fun b hb => .inr ?_
      obtain hb | hb | hb := hb <;> cases hb
      exact ⟨rfl, rfl⟩
  · cases hstep

/-- A look-ahead becomes the next one. -/
theorem Inv.installLookahead (h₀ : Inv content h) (l : LookaheadPlan) (slots : Nat)
    (total : Option Nat) : Inv content (h.installLookahead l slots total) := by
  unfold ReadHandle.installLookahead
  dsimp only
  split
  · have hfirst : ([] : Bytes) = content.slice l.start 0 := rfl
    refine h₀.openStream (ReadStream.right_opened hfirst) rfl rfl fun b hb => ?_
    obtain hb | hb | hb := hb
    · exact .inl (.inl hb)
    · cases hb
      exact .inr ⟨rfl, rfl⟩
    · exact .inl (.inr (.inr hb))
  · exact h₀.shrink rfl (fun _ hb => hb) fun _ hj => hj

/-- The window for an offset is one that the handle has. -/
theorem windowFor_has {off : Nat} {ra : ReadAheadBuf} (hra : h.windowFor off = some ra) : h.Has ra := by
  unfold windowFor at hra
  split at hra
  · exact .inr (.inr hra)
  · exact .inl hra

/-- A finished window that the READ starts in is served to its end. -/
def ServesEnd (ss : StreamState) (off start sz fileSize : Nat) : Prop :=
  ss.done = true ∧ ss.halted = false ∧
    (ss.atEof = true ∨ shortReplyOk off (ss.data.length - (off - start)) sz fileSize = true)

/-- The branches of `read`, in their order. -/
theorem answer_cases (h : ReadHandle) (off sz fileSize : Nat) :
    h.answer off sz fileSize = (.fetch, false) ∨
    ∃ ra st, h.windowFor off = some ra ∧ h.streams[ra.stream]? = some st ∧ ra.start ≤ off ∧
      (off + sz ≤ ra.start + st.ss.data.length ∧ h.answer off sz fileSize =
          (.reply (subslice st.ss.data (off - ra.start) (off - ra.start + sz)), true) ∨
        (∃ plans, h.answer off sz fileSize = (.wait ra.stream ra.start, plans)) ∨
        ra.start + st.ss.data.length < off + sz ∧ off < ra.start + ra.targetLen ∧
          ((∃ a, h.stitch ra st.ss off sz = some a ∧ h.answer off sz fileSize = (a, false)) ∨
            ServesEnd st.ss off ra.start sz fileSize ∧ h.answer off sz fileSize =
              (.reply (subslice st.ss.data (off - ra.start)
                (min st.ss.data.length (off - ra.start + sz))), false))) := by
  unfold answer
  cases hra : h.windowFor off with
  | none => exact .inl rfl
  | some ra =>
    cases hst : h.streams[ra.stream]? with
    | none => exact .inl (by simp [hst])
    | some st =>
      simp only [hst]
      -- a hit, a wait, a miss at the end of the window, or none of them
      split
      · rename_i hhit
        rw [Bool.and_eq_true, decide_eq_true_eq, decide_eq_true_eq] at hhit
        exact .inr ⟨ra, st, rfl, hst, hhit.1, .inl ⟨hhit.2, rfl⟩⟩
      rename_i hmiss
      rw [Bool.and_eq_true, decide_eq_true_eq, decide_eq_true_eq, not_and, not_le] at hmiss
      split
      · rename_i hwait
        simp only [Bool.and_eq_true, decide_eq_true_eq] at hwait
        exact .inr ⟨ra, st, rfl, hst, hwait.1.1, .inr (.inl ⟨true, rfl⟩)⟩
      -- the window holds the offset but not all that is asked for
      split
      · rename_i hin
        rw [Bool.and_eq_true, decide_eq_true_eq, decide_eq_true_eq] at hin
        have hmiss := hmiss hin.1
        split
        · rename_i a hstitch
          exact .inr ⟨ra, st, rfl, hst, hin.1, .inr (.inr ⟨hmiss, hin.2, .inl ⟨a, hstitch, rfl⟩⟩)⟩
        · split
          · rename_i hdone
            rw [Bool.and_eq_true, Bool.not_eq_true'] at hdone
            split
            · rename_i hend
              rw [Bool.or_eq_true] at hend
              exact .inr ⟨ra, st, rfl, hst, hin.1,
                .inr (.inr ⟨hmiss, hin.2, .inr ⟨⟨hdone.1, hdone.2, hend⟩, rfl⟩⟩)⟩
            · exact .inl rfl
          · split
            · exact .inr ⟨ra, st, rfl, hst, hin.1, .inr (.inl ⟨false, rfl⟩)⟩
            · exact .inl rfl
      · exact .inl rfl

/-- A READ over the end of a window is served from this one and the next. -/
theorem stitch_eq_some {ra : ReadAheadBuf} {ss : StreamState} {off sz : Nat} {a : ReadAnswer}
    (ha : h.stitch ra ss off sz = some a) :
    ∃ nb, h.Has nb ∧ nb.start = ra.start + ra.targetLen ∧
      ra.start + ss.data.length = ra.start + ra.targetLen ∧
      off + sz - (ra.start + ra.targetLen) ≤ ((h.streams[nb.stream]?.map (·.ss.data)).getD []).length ∧
      a = .reply ((subslice ss.data (off - ra.start) ss.data.length).bind fun head =>
        (subslice ((h.streams[nb.stream]?.map (·.ss.data)).getD []) 0
          (off + sz - (ra.start + ra.targetLen))).map fun tail => head ++ tail) := by
  unfold stitch at ha
  dsimp only at ha
  split at ha
  · -- the next window is the one fetched ahead or the current one
    rename_i nb hnb
    have hhas : h.Has nb := by
      split at hnb
      · exact .inl hnb
      · exact .inr (.inl hnb)
    split at ha
    · rename_i hfull
      simp only [Bool.and_eq_true, decide_eq_true_eq] at hfull
      split at ha <;> cases ha
      rename_i hneed
      exact ⟨nb, hhas, hfull.1.1.1, hfull.2, hneed, rfl⟩
    · cases ha
  · cases ha

/-- An answer is not a wait. -/
theorem reply_ne_wait {b : Option Bytes} {stream start : Nat} :
    ReadAnswer.reply b ≠ .wait stream start := by
  cases b <;> exact fun hb => by cases hb

/-- A READ waits on a window that starts at or before its offset. -/
theorem answer_wait {off sz fileSize stream start : Nat} {plans : Bool}
    (ha : h.answer off sz fileSize = (.wait stream start, plans)) :
    ∃ ra, h.Has ra ∧ ra.stream = stream ∧ ra.start = start ∧ start ≤ off := by
  obtain hfetch | ⟨ra, st, hra, hst, hoff, hcases⟩ := h.answer_cases off sz fileSize
  · cases hfetch.symm.trans ha
  · obtain ⟨-, hhit⟩ | ⟨p, hwait⟩ | ⟨-, -, ⟨a, hstitch, heq⟩ | ⟨-, hend⟩⟩ := hcases
    · exact absurd (congrArg Prod.fst (hhit.symm.trans ha)) reply_ne_wait
    · cases hwait.symm.trans ha
      exact ⟨ra, windowFor_has hra, rfl, rfl, hoff⟩
    · obtain ⟨nb, -, -, -, -, rfl⟩ := stitch_eq_some hstitch
      exact absurd (congrArg Prod.fst (heq.symm.trans ha)) reply_ne_wait
    · exact absurd (congrArg Prod.fst (hend.symm.trans ha)) reply_ne_wait

/-- Planning a look-ahead leaves the streams. -/
theorem streams_planLookahead (off sz : Nat) (sequential : Bool) (fileSize ceiling : Nat)
    (reserved : Bool) :
    (h.planLookahead off sz sequential fileSize ceiling reserved).streams = h.streams := by
  unfold ReadHandle.planLookahead
  split
  · split <;> rfl
  · rfl

/-- A READ keeps what the handle holds a part of the file. -/
theorem Inv.read (h₀ : Inv content h) {off sz fileSize ceiling : Nat} {reserved : Bool}
    (hstep : h.read off sz fileSize ceiling reserved = some h') : Inv content h' := by
  have harrive : Inv content ({ h with nextExpectedOff := off + sz }.arrive off) := by
    refine Inv.arrive ?_ off
    exact h₀.shrink rfl (fun _ hb => hb) fun _ hj => hj
  unfold ReadHandle.read at hstep
  dsimp only at hstep
  generalize ({ h with nextExpectedOff := off + sz } : ReadHandle).arrive off = h₁ at harrive hstep
  generalize ha : h₁.answer off sz fileSize = r at hstep
  obtain ⟨a, plans⟩ := r
  dsimp only at hstep
  -- the answer may plan a look-ahead, which fetches nothing yet
  have hplan : ∀ (sequential : Bool) (ceiling : Nat),
      Inv content (if plans then h₁.planLookahead off sz sequential fileSize ceiling reserved else h₁) ∧
        (if plans then h₁.planLookahead off sz sequential fileSize ceiling reserved else h₁).streams =
          h₁.streams := by
    intro sequential ceiling
    split
    · exact ⟨harrive.planLookahead .., streams_planLookahead ..⟩
    · exact ⟨harrive, rfl⟩
  cases a with
  | data b =>
    cases hstep
    exact (hplan _ _).1
  | wait stream start =>
    -- the window that it waits on has its offset
    cases hstep
    obtain ⟨ra, hra, rfl, rfl, hoff⟩ := answer_wait ha
    refine (hplan _ _).1.wait hoff ?_
    dsimp only
    rw [(hplan _ _).2]
    exact harrive.windows ra hra
  | fetch =>
    -- the fetch itself comes as an event of its own
    cases hstep
    exact (hplan _ _).1.shrink rfl (fun _ hb => hb) fun _ hj => hj
  | panics => cases hstep

/-- Every event keeps what the handle holds a part of the file. -/
theorem Inv.step (h₀ : Inv content h) {e : ReadEvent} (hstep : h.step content e = some h') :
    Inv content h' := by
  cases e with
  | read off sz fileSize ceiling reserved => exact h₀.read hstep
  | readElsewhere off sz =>
    cases hstep
    refine Inv.arrive ?_ off
    exact h₀.shrink rfl (fun _ hb => hb) fun _ hj => hj
  | releaseIdle =>
    -- releasing an idle handle drops all but the current window
    cases hstep
    refine h₀.shrink rfl (fun b hb => ?_) fun _ hj => hj
    obtain hb | hb | hb := hb
    · exact .inl hb
    · cases hb
    · cases hb
  | fetched i budget slots total partialContent firstLen =>
    obtain ⟨f, -, hstep⟩ := Option.bind_eq_some_iff.1 hstep
    refine Inv.fetched ?_ hstep
    exact h₀.shrink rfl (fun _ hb => hb) fun _ hj => hj
  | dropFetch i =>
    cases hstep
    exact h₀.shrink rfl (fun _ hb => hb) fun _ hj => hj
  | installLookahead slots total =>
    obtain ⟨l, -, rfl⟩ := Option.map_eq_some_iff.1 hstep
    exact h₀.installLookahead l slots total
  | dropLookahead =>
    cases hstep
    exact h₀.shrink rfl (fun _ hb => hb) fun _ hj => hj
  | endLookahead =>
    cases hstep
    exact h₀.shrink rfl (fun _ hb => hb) fun _ hj => hj
  | segment k i e =>
    obtain ⟨s, hs, hstep⟩ := Option.bind_eq_some_iff.1 hstep
    obtain ⟨g, hg, hstep⟩ := Option.bind_eq_some_iff.1 hstep
    split at hstep
    · -- a running segment
      obtain ⟨s', hsegment, rfl⟩ := Option.map_eq_some_iff.1 hstep
      obtain ⟨hright, hstart⟩ := (h₀.streams k s hs).segment hg hsegment
      exact h₀.setStream hs hright hstart
    · cases hstep
  | finish k panicking =>
    obtain ⟨s, hs, hstep⟩ := Option.bind_eq_some_iff.1 hstep
    split at hstep <;> cases hstep
    exact h₀.setStream hs ((h₀.streams k s hs).finish panicking) rfl
  | park i =>
    -- a wait that is parked is counted, and one that is woken or dropped no longer
    obtain ⟨j, hj, rfl⟩ := Option.map_eq_some_iff.1 hstep
    obtain ⟨hoff, s, hs, hstart⟩ := h₀.waits j (List.mem_of_getElem? hj)
    have hparked : Inv content { h with waits := h.waits.set i { j with parked := true } } := by
      refine ⟨h₀.streams, h₀.windows, fun x hx => ?_⟩
      obtain hx | rfl := List.mem_or_eq_of_mem_set hx
      · exact h₀.waits x hx
      · exact ⟨hoff, s, hs, hstart⟩
    exact hparked.setWaiters hs _
  | dropWait i =>
    obtain ⟨j, -, hstep⟩ := Option.bind_eq_some_iff.1 hstep
    split at hstep <;> cases hstep
    exact h₀.shrink rfl (fun _ hb => hb) fun _ hj => List.mem_of_mem_eraseIdx hj
  | wake i timedOut =>
    obtain ⟨j, -, hstep⟩ := Option.bind_eq_some_iff.1 hstep
    obtain ⟨s, hs, hstep⟩ := Option.bind_eq_some_iff.1 hstep
    split at hstep <;> cases hstep
    · exact h₀
    · have hrest : Inv content { h with waits := h.waits.eraseIdx i } :=
        h₀.shrink rfl (fun _ hb => hb) fun _ hj => List.mem_of_mem_eraseIdx hj
      exact hrest.setWaiters hs _

/-- And so does a whole run. -/
theorem Inv.steps (h₀ : Inv content h) {es : List ReadEvent} (hrun : h.steps content es = some h') :
    Inv content h' := by
  induction es generalizing h with
  | nil =>
    cases hrun
    exact h₀
  | cons e es ih =>
    rw [ReadHandle.steps, Option.bind_eq_some_iff] at hrun
    obtain ⟨h₁, hstep, hrest⟩ := hrun
    exact ih (h₀.step hstep) hrest

end ReadHandle

/-! ## What READs are served -/

/-- The file's bytes from `off` on; fewer than asked for only at the end the server stated, or at the
    listed size. -/
structure RightBytes (content : Bytes) (total : Option Nat) (off sz fileSize : Nat) (b : Bytes) : Prop where
  bytes : b <+: content.drop off
  length : b.length ≤ sz
  short : b.length < sz → (∃ n, total = some n ∧ n ≤ off + b.length) ∨
    0 < fileSize ∧ fileSize ≤ off + b.length

/-- What a READ is answered with is the file's: all that was asked for, or what there is up to its
    end. -/
def ReadAnswer.Right (content : Bytes) (total : Option Nat) (off sz fileSize : Nat) :
    ReadAnswer → Prop
  | .data b => RightBytes content total off sz fileSize b
  | .wait _ _ | .fetch => True
  | .panics => False

/-- The same of a READ that waited. -/
def WaitAnswer.Right (content : Bytes) (total : Option Nat) (off sz fileSize : Nat) :
    WaitAnswer → Prop
  | .data b => RightBytes content total off sz fileSize b
  | .error _ => True
  | .panics => False

/-- A short reply is made only at the end of the file as it was listed. -/
theorem shortReplyOk_eq_true {off avail sz fileSize : Nat}
    (h : shortReplyOk off avail sz fileSize = true) :
    sz ≤ avail ∨ 0 < fileSize ∧ fileSize ≤ off + avail := by
  simpa [shortReplyOk] using h

section

variable {s : ReadStream} {off sz fileSize : Nat}

/-- At the end of the file the window knows where the end is. -/
theorem ReadStream.Right.atEof (h : s.Right content) (hend : s.ss.atEof = true) :
    s.total = some (s.start + s.ss.data.length) := by
  rw [StreamState.atEof, decide_eq_true_eq] at hend
  exact h.eof _ hend

/-- All that was asked for is in the buffer. -/
theorem ReadStream.Right.serves (h : s.Right content) (hoff : s.start ≤ off)
    (hhas : off + sz ≤ s.start + s.ss.data.length) (total : Option Nat) (fileSize : Nat) :
    ∃ b, subslice s.ss.data (off - s.start) (off - s.start + sz) = some b ∧
      RightBytes content total off sz fileSize b := by
  obtain ⟨b, hb, hbytes, hlen⟩ :=
    subslice_of_le h.holds.data hoff (Nat.le_add_right _ sz) (by omega)
  have hsz : b.length = sz := by omega
  exact ⟨b, hb, hbytes, hsz.le, fun hlt => absurd hsz hlt.ne⟩

/-- A finished window, served to its end. -/
theorem ReadStream.Right.servesEnd (h : s.Right content) (hoff : s.start ≤ off)
    (hin : off ≤ s.start + s.ss.data.length) (hend : s.ss.atEof = true ∨
      shortReplyOk off (s.ss.data.length - (off - s.start)) sz fileSize = true) :
    ∃ b, subslice s.ss.data (off - s.start) (min s.ss.data.length (off - s.start + sz)) = some b ∧
      RightBytes content s.total off sz fileSize b := by
  obtain ⟨b, hb, hbytes, hlen⟩ := subslice_of_le (e := min s.ss.data.length (off - s.start + sz))
    h.holds.data hoff (by omega) (by omega)
  refine ⟨b, hb, hbytes, by omega, fun hlt => ?_⟩
  -- Less than asked for: the whole rest of the buffer.
  have hrest : off + b.length = s.start + s.ss.data.length := by omega
  obtain hend | hend := hend
  · exact .inl ⟨_, h.atEof hend, hrest.ge⟩
  · obtain hall | ⟨hpos, hlisted⟩ := shortReplyOk_eq_true hend
    · omega
    · exact .inr ⟨hpos, by omega⟩

/-- `wait_on_window`, which checks that the READ starts within the buffer. -/
theorem ReadStream.Right.waitOnWindow (h : s.Right content) (hoff : s.start ≤ off)
    {timedOut : Bool} {a : WaitAnswer}
    (ha : Ncrs.waitOnWindow s.ss s.start off sz fileSize timedOut = some a) :
    a.Right content s.total off sz fileSize := by
  unfold Ncrs.waitOnWindow at ha
  dsimp only at ha
  split at ha
  · -- the bytes have arrived
    rename_i hhas
    obtain ⟨b, hb, hserved⟩ := h.serves hoff hhas s.total fileSize
    rw [hb] at ha
    cases ha
    exact hserved
  split at ha
  · -- no more will: the reply is short, or an error
    split at ha
    · rename_i hend
      rw [Bool.and_eq_true, Bool.or_eq_true] at hend
      split at ha
      · rename_i hin
        obtain ⟨b, hb, hserved⟩ := h.servesEnd hoff (by omega) hend.2
        rw [hb] at ha
        cases ha
        exact hserved
      · -- The READ starts at the end of the buffer or behind it.
        rename_i hpast
        cases ha
        refine ⟨List.nil_prefix, Nat.zero_le sz, fun hlt => ?_⟩
        rw [List.length_nil, Nat.add_zero]
        obtain hend | hend := hend.2
        · exact .inl ⟨_, h.atEof hend, by omega⟩
        · obtain hall | ⟨hpos, hlisted⟩ := shortReplyOk_eq_true hend
          · rw [List.length_nil] at hlt
            omega
          · exact .inr ⟨hpos, by omega⟩
    · cases ha
      trivial
  · split at ha <;> cases ha
    trivial

end

namespace ReadHandle

variable {h : ReadHandle} {off sz fileSize : Nat}

/-- The windows by which `read` serves a READ. -/
def serving (h : ReadHandle) (off sz : Nat) : ReadHandle :=
  { h with nextExpectedOff := off + sz }.arrive off

/-- The end of the file as the server stated it to the window a READ is served from. -/
def totalFor (h : ReadHandle) (off : Nat) : Option Nat :=
  (h.windowFor off).bind fun ra => h.streams[ra.stream]?.bind (·.total)

/-- The READ starts behind all that the finished window it falls into holds, and the window is at its
    end mark, or the READ at the listed size. -/
def startsPastEnd (h : ReadHandle) (off sz fileSize : Nat) : Bool :=
  (h.windowFor off).any fun ra => h.streams[ra.stream]?.any fun s =>
    s.ss.done && !s.ss.halted && decide (ra.start + s.ss.data.length < off) &&
      decide (off < ra.start + ra.targetLen) && (s.ss.atEof || shortReplyOk off 0 sz fileSize)

/-- A READ over the end of a window that the following one continues. -/
theorem Inv.stitch (h₀ : Inv content h) {ra : ReadAheadBuf} {s : ReadStream}
    (hs : s.Right content) (hstart : s.start = ra.start) (hoff : ra.start ≤ off)
    (hmiss : ra.start + s.ss.data.length < off + sz) (hin : off < ra.start + ra.targetLen)
    {a : ReadAnswer} (ha : h.stitch ra s.ss off sz = some a) (total : Option Nat) :
    a.Right content total off sz fileSize := by
  obtain ⟨nb, hnb, hfollows, hfull, hneed, rfl⟩ := stitch_eq_some ha
  obtain ⟨t, ht, htstart⟩ := h₀.windows nb hnb
  rw [ht, Option.map_some, Option.getD_some] at hneed ⊢
  rw [← hstart] at hoff hmiss hin hfollows hfull hneed ⊢
  obtain ⟨head, hhead, hheadBytes, hheadLen⟩ :=
    subslice_of_le hs.holds.data hoff (by omega) (Nat.le_refl _)
  obtain ⟨tail, htail, htailBytes, htailLen⟩ :=
    subslice_of_le (h₀.streams _ t ht).holds.data (Nat.le_refl t.start) (by omega) hneed
  rw [Nat.sub_self] at htail htailLen
  rw [hhead, Option.bind_some, htail, Option.map_some]
  have hjoin : head ++ tail <+: content.drop off := by
    refine hheadBytes.append_of_drop ?_
    rwa [List.drop_drop, show off + head.length = t.start by omega]
  have hsz : (head ++ tail).length = sz := by
    rw [List.length_append]
    omega
  exact ⟨hjoin, hsz.le, fun hlt => absurd hsz hlt.ne⟩

/-- The READ starts behind the end of what the window holds. -/
theorem startsPastEnd_iff : h.startsPastEnd off sz fileSize = true ↔
    ∃ ra s, h.windowFor off = some ra ∧ h.streams[ra.stream]? = some s ∧
      ServesEnd s.ss off ra.start sz fileSize ∧ ra.start + s.ss.data.length < off ∧
        off < ra.start + ra.targetLen := by
  have havail : ∀ {start : Nat} {ss : StreamState}, start + ss.data.length < off →
      ss.data.length - (off - start) = 0 := by
    intro start ss hlt
    omega
  simp only [startsPastEnd, Option.any_eq_true, Bool.and_eq_true, Bool.or_eq_true,
    Bool.not_eq_true', decide_eq_true_eq]
  constructor
  · rintro ⟨ra, hra, s, hs, ⟨⟨⟨hdone, hhalted⟩, hpast⟩, hin⟩, hend⟩
    rw [← havail hpast] at hend
    exact ⟨ra, s, hra, hs, ⟨hdone, hhalted, hend⟩, hpast, hin⟩
  · rintro ⟨ra, s, hra, hs, ⟨hdone, hhalted, hend⟩, hpast, hin⟩
    rw [havail hpast] at hend
    exact ⟨ra, hra, s, hs, ⟨⟨⟨hdone, hhalted⟩, hpast⟩, hin⟩, hend⟩

/-- The end of such a window's buffer is behind the READ's start. -/
theorem answer_of_startsPastEnd (hpast : h.startsPastEnd off sz fileSize = true) :
    h.answer off sz fileSize = (.panics, false) := by
  obtain ⟨ra, s, hra, hs, ⟨hdone, hhalted, hend⟩, hpast, hin⟩ := startsPastEnd_iff.1 hpast
  have hstitch : h.stitch ra s.ss off sz = none := by
    cases hst : h.stitch ra s.ss off sz with
    | none => rfl
    | some a =>
      obtain ⟨-, -, -, hfull, -, -⟩ := stitch_eq_some hst
      omega
  have hmiss : ¬off + sz ≤ ra.start + s.ss.data.length := by omega
  have hslice : subslice s.ss.data (off - ra.start)
      (min s.ss.data.length (off - ra.start + sz)) = none := subslice_eq_none (by omega)
  simp only [ReadHandle.answer, hra, hs, hstitch, hdone, hhalted, hslice, hin, hmiss,
    show ra.start ≤ off by omega, Bool.or_eq_true, if_pos hend, decide_true, decide_false,
    Bool.not_true, Bool.not_false, Bool.and_true, Bool.and_false, Bool.false_eq_true, if_true,
    if_false, ReadAnswer.reply]

theorem Inv.answer (h₀ : Inv content h) (hpast : h.startsPastEnd off sz fileSize = false) :
    (h.answer off sz fileSize).1.Right content (h.totalFor off) off sz fileSize := by
  obtain hfetch | ⟨ra, s, hra, hs, hoff, hcases⟩ := h.answer_cases off sz fileSize
  · rw [hfetch]
    trivial
  -- the window that answers is a part of the file
  obtain ⟨t, ht, hstart⟩ := h₀.windows ra (windowFor_has hra)
  cases hs.symm.trans ht
  have hright := h₀.streams ra.stream s hs
  have htotal : h.totalFor off = s.total := by
    rw [totalFor, hra, Option.bind_some, hs, Option.bind_some]
  rw [htotal]
  obtain ⟨hhas, heq⟩ | ⟨plans, heq⟩ | ⟨hmiss, hin, ⟨a, hstitch, heq⟩ | ⟨hend, heq⟩⟩ := hcases
  · rw [← hstart] at hoff hhas heq
    obtain ⟨b, hb, hserved⟩ := hright.serves hoff hhas s.total fileSize
    rw [heq, hb]
    exact hserved
  · rw [heq]
    trivial
  · rw [heq]
    exact h₀.stitch hright hstart hoff hmiss hin hstitch s.total
  · -- with the offset inside the window the short reply ends at the file's end
    have hwithin : off ≤ ra.start + s.ss.data.length := by
      by_contra hlt
      refine absurd (startsPastEnd_iff.2 ⟨ra, s, hra, hs, hend, by omega, hin⟩) ?_
      rw [hpast]
      exact Bool.false_ne_true
    obtain ⟨-, -, hend⟩ := hend
    rw [← hstart] at hoff hwithin hend heq
    obtain ⟨b, hb, hserved⟩ := hright.servesEnd hoff hwithin hend
    rw [heq, hb]
    exact hserved

/-- In every state that a handle of one version of the file can get into, a READ that is served from
    windows gets the file's bytes, and short only at an end, unless it starts past the end of the
    window; a READ that waits for a window gets them in any case. -/
theorem window_replies_are_the_file {es : List ReadEvent}
    (hrun : ({} : ReadHandle).steps content es = some h) :
    (∀ off sz fileSize, (((h.serving off sz).answer off sz fileSize).1.Right content
        ((h.serving off sz).totalFor off) off sz fileSize ↔
          (h.serving off sz).startsPastEnd off sz fileSize = false)) ∧
      ∀ j ∈ h.waits, ∀ s, h.streams[j.stream]? = some s → ∀ timedOut a,
        waitOnWindow s.ss j.start j.off j.sz j.fileSize timedOut = some a →
          a.Right content s.total j.off j.sz j.fileSize := by
  have h₀ : Inv content h := inv_start.steps hrun
  refine ⟨fun off sz fileSize => ?_, fun j hj s hs timedOut a ha => ?_⟩
  · -- the READ arrives first, which leaves the windows parts of the file
    have hserving : Inv content (h.serving off sz) := by
      refine Inv.arrive ?_ off
      exact h₀.shrink rfl (fun _ hb => hb) fun _ hj => hj
    constructor
    · intro hright
      rw [← Bool.not_eq_true]
      intro hpast
      rw [answer_of_startsPastEnd hpast] at hright
      exact hright
    · exact hserving.answer
  · -- a wait is on a window that began before its offset
    obtain ⟨hoff, t, ht, hstart⟩ := h₀.waits j hj
    cases hs.symm.trans ht
    rw [← hstart] at hoff ha
    exact (h₀.streams _ s hs).waitOnWindow hoff ha

/-- A file of three bytes that is listed with eight: its first two, a READ that waits for the rest, and
    the rest. -/
def shortFile : List ReadEvent :=
  [.read 0 2 8 0 true, .fetched 0 4096 1 (some 3) true 2, .read 1 4 8 0 true,
    .segment 0 0 (.bytes 1), .segment 0 0 .bodyEnd, .finish 0 false]

/-- A handle on a short file, opened and read once. -/
def shortFileHandle : ReadHandle := (({} : ReadHandle).steps [1, 2, 3] shortFile).getD {}

/-- A READ that waits on its window. -/
def shortFileWait : WindowWait := { stream := 0, start := 0, off := 1, sz := 4, fileSize := 8 }

/-- The short file is served up to its end. -/
theorem short_file_is_served :
    ((shortFileHandle.serving 2 4).answer 2 4 8).1 = .data [3] ∧
      ((shortFileHandle.serving 2 4).answer 2 4 8).1.Right [1, 2, 3] (some 3) 2 4 8 ∧
      shortFileWait ∈ shortFileHandle.waits ∧
        ∀ s, shortFileHandle.streams[0]? = some s → ∀ timedOut a,
          waitOnWindow s.ss 0 1 4 8 timedOut = some a → a.Right [1, 2, 3] s.total 1 4 8 := by
  have hrun : ({} : ReadHandle).steps [1, 2, 3] shortFile = some shortFileHandle := by decide
  have hwait : shortFileWait ∈ shortFileHandle.waits := by decide
  obtain ⟨hread, hwaits⟩ := window_replies_are_the_file hrun
  exact ⟨by decide, (hread 2 4 8).2 (by decide), hwait, hwaits shortFileWait hwait⟩

/-- A READ behind those three bytes, within the size the file is listed with. -/
theorem read_past_the_end_panics :
    ({} : ReadHandle).steps [1, 2, 3] shortFile = some shortFileHandle ∧
      ((shortFileHandle.serving 5 2).answer 5 2 8).1 = .panics ∧
      ¬((shortFileHandle.serving 5 2).answer 5 2 8).1.Right [1, 2, 3]
        ((shortFileHandle.serving 5 2).totalFor 5) 5 2 8 := by
  have hpanics : ((shortFileHandle.serving 5 2).answer 5 2 8).1 = .panics := by decide
  refine ⟨by decide, hpanics, ?_⟩
  rw [hpanics]
  exact id

end ReadHandle

end Ncrs
