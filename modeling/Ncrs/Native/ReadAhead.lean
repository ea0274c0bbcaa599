import Ncrs.Native.StreamUpload

/-!
# Read-ahead windows

Model of how `read` serves a READ from the windows of a handle (the current one, the look-ahead and
the previous one), of `wait_on_window`, and of what fills the windows: `open_window`,
`run_lookahead` and the segments of `WindowPump`. A window's bytes are in a stream that the pump and
parked READs share, so a stream lives on when the handle lets go of its window.

All requests of a handle are pinned to one version of the file, `content`. A response holds the bytes
of the range asked for, and a body can end or break anywhere. The slots, memory and time that decide
how many segments there are and when one gives up are parameters of the events. Offsets and sizes are
natural numbers: those of a READ are far below 2^64.
-/

namespace Ncrs

/-- The first window that is read ahead. -/
def readAheadInitial : Nat := 1024 * 1024
/-- The first window of a handle that reads on from where it was opened. -/
def readAheadSequentialStart : Nat := 8 * 1024 * 1024
/-- The size from which a file is read on in large windows. -/
def sequentialStartMinFile : Nat := 32 * 1024 * 1024
/-- How many requests a window is cut into at most. -/
def maxWindowSegments : Nat := 4
/-- A segment is at least this long. -/
def segmentMinBytes : Nat := 4 * 1024 * 1024
/-- Where segments are cut. -/
def segmentAlign : Nat := 64 * 1024
/-- How much of the window before the current one is kept. -/
def prevWindowKeep : Nat := 4 * 1024 * 1024

/-- A reply may be short only at the end of the file. -/
def shortReplyOk (off avail sz fileSize : Nat) : Bool :=
  decide (sz ≤ avail) || decide (0 < fileSize) && decide (fileSize ≤ off + avail)

/-- `&data[s..e]`, which panics unless the range is within the buffer. -/
def subslice (data : Bytes) (s e : Nat) : Option Bytes :=
  if s ≤ e && e ≤ data.length then some ((data.take e).drop s) else none

/-! ## Segments -/

/-- A part of a window, fetched by a request of its own. -/
structure Segment where
  «at» : Nat
  len : Nat
  last : Bool
  deriving DecidableEq, Repr

/-- The loop of `segment_plan`. All parts but the last have `per` bytes, so `k + 1` turns are
    enough. -/
def splitSpan (per span : Nat) : Nat → Nat → List Segment
  | 0, _ => []
  | fuel + 1, start =>
    if start < span then
      let len := min per (span - start)
      { «at» := start, len := len, last := decide (span ≤ start + len) } ::
        splitSpan per span fuel (start + len)
    else []

/-- How a window is cut into segments. -/
def segmentPlan (target : Nat) (span : Option Nat) (slots need : Nat) : List Segment :=
  let single := [{ «at» := 0, len := target, last := true }]
  match span.map fun s => min s target with
  | none => single
  | some span =>
    let k := min (min slots maxWindowSegments) (span / segmentMinBytes)
    let per := (span / k + segmentAlign - 1) / segmentAlign * segmentAlign
    if k < 2 || per < need then single else splitSpan per span (k + 1) 0

/-- The plan that `open_window` ends up with. -/
def openPlan (start target need fileSize slots : Nat) (total : Option Nat) (partialContent : Bool) :
    List Segment :=
  let span := if start < fileSize then some (fileSize - start) else none
  match segmentPlan target span slots need with
  | first :: second :: rest =>
    if !partialContent || decide (total ≠ some fileSize) then [{ first with last := true }]
    else first :: second :: rest
  | plan => plan

/-! ## The buffer of a window -/

/-- What has arrived of a segment. -/
structure SegmentBuf where
  «at» : Nat := 0
  buf : Bytes := []
  deriving DecidableEq, Repr

/-- The state of a window that is being fetched. -/
structure StreamState where
  data : Bytes
  done : Bool := false
  ahead : List SegmentBuf
  broken : Bool := false
  stopped : Bool := false
  eofLen : Option Nat := none
  waiters : Nat := 0
  deriving DecidableEq, Repr

namespace StreamState

/-- A window of which the first bytes have arrived. -/
def new (first : Bytes) (plan : List Segment) : StreamState :=
  { data := first, ahead := plan.map fun _ => {} }

/-- Nothing more will arrive. -/
def halted (ss : StreamState) : Bool := ss.broken || ss.stopped

/-- All of the file up to its end has arrived. -/
def atEof (ss : StreamState) : Bool := decide (ss.eofLen = some ss.data.length)

/-- Each turn empties a buffer, so there are at most as many turns as buffers. -/
def absorb : Nat → StreamState → StreamState
  | 0, ss => ss
  | fuel + 1, ss =>
    match ss.ahead.findIdx? fun sb => !sb.buf.isEmpty && decide (sb.at = ss.data.length) with
    | none => ss
    | some i =>
      let sb := ss.ahead[i]?.getD {}
      absorb fuel { ss with
        data := ss.data ++ sb.buf
        ahead := ss.ahead.set i { «at» := sb.at + sb.buf.length } }

/-- Bytes of a segment arrive. -/
def push (ss : StreamState) (seg start : Nat) (bytes : Bytes) : StreamState :=
  let sb := ss.ahead[seg]?.getD {}
  if sb.buf.isEmpty && decide (start = ss.data.length) then
    absorb ss.ahead.length { ss with data := ss.data ++ bytes }
  else
    let sb := if sb.buf.isEmpty then { sb with «at» := start } else sb
    { ss with ahead := ss.ahead.set seg { sb with buf := sb.buf ++ bytes } }

end StreamState

/-! ## The pump -/

/-- A segment's request. -/
structure PumpSegment where
  seg : Segment
  got : Nat := 0
  running : Bool := true
  deriving DecidableEq, Repr

/-- A window's buffer and its pump. -/
structure ReadStream where
  start : Nat
  /-- The file's length as the server stated it. -/
  total : Option Nat
  target : Nat
  ss : StreamState
  segments : List PumpSegment
  deriving DecidableEq, Repr

/-- What the pump of a segment may do next. -/
inductive SegmentStep where
  | bytes (n : Nat)
  | bodyEnd
  /-- `stop_window` or `break_window`; `early`: its request could not be opened. -/
  | halt (stop early : Bool)
  | leave
  deriving DecidableEq, Repr

namespace ReadStream

/-- A window over `plan` whose first request brought `first`. Segments without a slot are not
    fetched. -/
def opened (start : Nat) (total : Option Nat) (first : Bytes) (plan : List Segment) (slots : Nat) :
    ReadStream where
  start := start
  total := total
  target := (plan.map (·.len)).sum
  ss := .new first plan
  segments := plan.zipIdx.map fun x =>
    { seg := x.1, got := if x.2 = 0 then first.length else 0, running := decide (x.2 < slots) }

/-- A segment's request changes. -/
def setSegment (s : ReadStream) (i : Nat) (g : PumpSegment) : ReadStream :=
  { s with segments := s.segments.set i g }

/-- The end of `segment`: whether it reached the end of the file the server stated. -/
def leave (s : ReadStream) (i : Nat) (g : PumpSegment) : ReadStream :=
  let s := s.setSegment i { g with running := false }
  if g.seg.last && decide (s.total = some (s.start + g.seg.at + g.got)) then
    { s with ss := { s.ss with eofLen := some (g.seg.at + g.got) } }
  else s

/-- One step of a segment's pump. -/
def segment (content : Bytes) (s : ReadStream) (i : Nat) (g : PumpSegment) :
    SegmentStep → Option ReadStream
  | .bytes n =>
    let first := s.start + g.seg.at + g.got
    if 0 < n && n ≤ g.seg.len - g.got && first + n ≤ content.length then
      some ({ s with ss := s.ss.push i (g.seg.at + g.got) (content.slice first n) }.setSegment i
        { g with got := g.got + n })
    else none
  | .bodyEnd =>
    if g.got < g.seg.len then
      some ({ s with ss := { s.ss with broken := s.ss.broken || !g.seg.last } }.leave i g)
    else none
  | .halt stop early =>
    let s := { s with ss := { s.ss with stopped := s.ss.stopped || stop
                                        broken := s.ss.broken || !stop } }
    some (if early then s.setSegment i { g with running := false } else s.leave i g)
  | .leave => if decide (g.seg.len ≤ g.got) || s.ss.halted then some (s.leave i g) else none

/-- `WindowDone`: the pump ends. -/
def finish (s : ReadStream) (panicking : Bool) : ReadStream :=
  let short := decide (s.ss.data.length < s.target) && !s.ss.atEof && s.total.isSome
  { s with ss := { s.ss with
      stopped := s.ss.stopped || !s.ss.halted && (panicking || short)
      done := true } }

end ReadStream

/-! ## The handle -/

/-- A window of the handle, with the offset that it begins at. -/
structure ReadAheadBuf where
  start : Nat
  stream : Nat
  targetLen : Nat
  deriving DecidableEq, Repr

/-- The window holds the byte at an offset. -/
def ReadAheadBuf.covers (b : ReadAheadBuf) (off : Nat) : Bool :=
  decide (b.start ≤ off) && decide (off < b.start + b.targetLen)

/-- A READ that waits on a window. -/
structure WindowWait where
  stream : Nat
  start : Nat
  off : Nat
  sz : Nat
  fileSize : Nat
  parked : Bool := false
  deriving DecidableEq, Repr

/-- A READ that fetches a window of its own. -/
structure WindowFetch where
  off : Nat
  sz : Nat
  fetch : Nat
  fileSize : Nat
  deriving DecidableEq, Repr

/-- The window to be fetched next. -/
structure LookaheadPlan where
  after : Nat
  start : Nat
  len : Nat
  fileSize : Nat
  deriving DecidableEq, Repr

/-- What a handle knows of its windows. -/
structure ReadHandle where
  buf : Option ReadAheadBuf := none
  nextBuf : Option ReadAheadBuf := none
  prevBuf : Option ReadAheadBuf := none
  nextExpectedOff : Nat := 0
  readAheadWindow : Nat := readAheadInitial
  lookaheadInflight : Bool := false
  /-- The look-ahead whose request is being opened. -/
  lookahead : Option LookaheadPlan := none
  /-- Every stream opened so far; windows and waiting READs name them by their place. -/
  streams : List ReadStream := []
  waits : List WindowWait := []
  fetches : List WindowFetch := []
  deriving DecidableEq, Repr

/-- What a READ is answered with. -/
inductive ReadAnswer where
  | data (bytes : Bytes)
  | wait (stream start : Nat)
  | fetch
  | panics
  deriving DecidableEq, Repr

/-- A slice that is out of range panics. -/
def ReadAnswer.reply : Option Bytes → ReadAnswer
  | some bytes => .data bytes
  | none => .panics

/-- How a read that waits may fail. -/
inductive WaitErrno where
  | eio
  | eagain
  deriving DecidableEq, Repr

/-- What a read that waits is answered with. -/
inductive WaitAnswer where
  | data (bytes : Bytes)
  | error (e : WaitErrno)
  | panics
  deriving DecidableEq, Repr

/-- The same of a READ that waits. -/
def WaitAnswer.reply : Option Bytes → WaitAnswer
  | some bytes => .data bytes
  | none => .panics

/-- One turn of `wait_on_window`: `none` waits on. -/
def waitOnWindow (ss : StreamState) (start off sz fileSize : Nat) (timedOut : Bool) :
    Option WaitAnswer :=
  let o := off - start
  if off + sz ≤ start + ss.data.length then some (.reply (subslice ss.data o (o + sz)))
  else if ss.done || ss.halted then
    let avail := ss.data.length - o
    if !ss.halted && (ss.atEof || shortReplyOk off avail sz fileSize) then
      let e := min ss.data.length (o + sz)
      some (if o < ss.data.length then .reply (subslice ss.data o e) else .data [])
    else some (.error (if ss.broken then .eio else .eagain))
  else if timedOut then some (.error .eagain)
  else none

namespace ReadHandle

/-- The window that was fetched ahead becomes the current one. -/
def promoteLookahead (h : ReadHandle) (off : Nat) : ReadHandle :=
  if h.buf.any (·.covers off) then h
  else if h.nextBuf.any (·.covers off) then
    { h with prevBuf := h.buf, buf := h.nextBuf, nextBuf := none }
  else h

/-- The window before the current one is dropped once it is no longer near. -/
def retirePrevWindow (h : ReadHandle) (off : Nat) : ReadHandle :=
  match h.prevBuf, h.buf with
  | some prev, some buf =>
    if buf.covers off then
      let ss := h.streams[prev.stream]?.map (·.ss)
      if ss.any (·.done) || ss.any (fun ss => decide (ss.waiters = 0)) &&
          decide (buf.start + prevWindowKeep ≤ off) then
        { h with prevBuf := none }
      else h
    else h
  | _, _ => h

/-- How far a sequential reader of a large file may jump ahead at once. -/
def streamingJump (current windowStart : Nat) (sequential : Bool) (fileSize ceiling : Nat) :
    Option Nat :=
  if sequential && windowStart = 0 && current ≤ readAheadInitial && sequentialStartMinFile ≤ fileSize
  then some (min readAheadSequentialStart ceiling) else none

/-- The length of the next window. -/
def nextReadAheadWindow (current : Nat) (sequential : Bool) (ceiling : Nat) : Nat :=
  if sequential then min (max current readAheadInitial * 2) ceiling else min readAheadInitial ceiling

/-- Whether the next window should be fetched. -/
def lookaheadDue (winStart winLen off sz : Nat) (sequential : Bool) (fileSize : Nat) : Bool :=
  sequential && decide (0 < fileSize) && decide (winStart + winLen < fileSize) &&
    decide (winStart ≤ off) && decide (winStart + winLen / 2 ≤ off + sz)

/-- `reserved`: its memory can be reserved. -/
def planLookahead (h : ReadHandle) (off sz : Nat) (sequential : Bool) (fileSize ceiling : Nat)
    (reserved : Bool) : ReadHandle :=
  match h.buf with
  | some ra =>
    if !h.lookaheadInflight && h.nextBuf.isNone &&
        lookaheadDue ra.start ra.targetLen off sz sequential fileSize && reserved then
      let start := ra.start + ra.targetLen
      let window := (streamingJump h.readAheadWindow ra.start true fileSize ceiling).getD
        (nextReadAheadWindow h.readAheadWindow true ceiling)
      let plan := { after := ra.stream, start := start, len := min window (fileSize - start)
                    fileSize := fileSize }
      { h with readAheadWindow := window, lookaheadInflight := true, lookahead := some plan }
    else h
  | none => h

/-- The window a READ is served from. -/
def windowFor (h : ReadHandle) (off : Nat) : Option ReadAheadBuf :=
  if !h.buf.any (·.covers off) && h.prevBuf.any (·.covers off) then h.prevBuf else h.buf

/-- A READ that runs from a complete window into the following one. -/
def stitch (h : ReadHandle) (ra : ReadAheadBuf) (ss : StreamState) (off sz : Nat) :
    Option ReadAnswer :=
  let windowEnd := ra.start + ra.targetLen
  let following := if h.prevBuf.any (fun p => decide (p.stream = ra.stream)) then h.buf else h.nextBuf
  match following with
  | some nb =>
    if nb.start = windowEnd && ss.done && !ss.halted && ra.start + ss.data.length = windowEnd then
      let ns := (h.streams[nb.stream]?.map (·.ss.data)).getD []
      let need := off + sz - windowEnd
      if need ≤ ns.length then
        some (.reply ((subslice ss.data (off - ra.start) ss.data.length).bind fun head =>
          (subslice ns 0 need).map fun tail => head ++ tail))
      else none
    else none
  | none => none

/-- The window branches of `read`; also whether they plan a look-ahead. -/
def answer (h : ReadHandle) (off sz fileSize : Nat) : ReadAnswer × Bool :=
  match h.windowFor off with
  | none => (.fetch, false)
  | some ra =>
    match h.streams[ra.stream]? with
    | none => (.fetch, false)
    | some st =>
      let ss := st.ss
      let windowEnd := ra.start + ra.targetLen
      let o := off - ra.start
      if ra.start ≤ off && off + sz ≤ ra.start + ss.data.length then
        (.reply (subslice ss.data o (o + sz)), true)
      else if ra.start ≤ off && off + sz ≤ windowEnd && !ss.done then (.wait ra.stream ra.start, true)
      else if ra.start ≤ off && off < windowEnd then
        match h.stitch ra ss off sz with
        | some a => (a, false)
        | none =>
          if ss.done && !ss.halted then
            if ss.atEof || shortReplyOk off (ss.data.length - o) sz fileSize then
              (.reply (subslice ss.data o (min ss.data.length (o + sz))), false)
            else (.fetch, false)
          else if shortReplyOk off (windowEnd - off) sz fileSize then (.wait ra.stream ra.start, false)
          else (.fetch, false)
      else (.fetch, false)

/-- What a READ does to the windows before it is served. -/
def arrive (h : ReadHandle) (off : Nat) : ReadHandle := (h.promoteLookahead off).retirePrevWindow off

/-- A READ that reaches the window branches; one that panics ends its thread. -/
def read (h : ReadHandle) (off sz fileSize ceiling : Nat) (reserved : Bool) : Option ReadHandle :=
  let ceiling := max ceiling readAheadInitial
  let sequential := decide (h.nextExpectedOff = off)
  let h := { h with nextExpectedOff := off + sz }.arrive off
  match h.answer off sz fileSize with
  | (a, plans) =>
    let h := if plans then h.planLookahead off sz sequential fileSize ceiling reserved else h
    match a with
    | .data _ => some h
    | .wait stream start =>
      let wait := { stream := stream, start := start, off := off, sz := sz, fileSize := fileSize }
      some { h with waits := h.waits ++ [wait] }
    | .fetch =>
      let window := (h.buf.bind fun b =>
          streamingJump h.readAheadWindow b.start sequential fileSize ceiling).getD
        (nextReadAheadWindow h.readAheadWindow sequential ceiling)
      let fetch := { off := off, sz := sz, fetch := max sz window, fileSize := fileSize }
      some { h with readAheadWindow := window, fetches := h.fetches ++ [fetch] }
    | .panics => none

/-- The first bytes of a READ's own window are in: it is answered with them, and they become the
    current window. `budget`: the memory it got. -/
def fetched (content : Bytes) (h : ReadHandle) (f : WindowFetch) (budget slots : Nat)
    (total : Option Nat) (partialContent : Bool) (firstLen : Nat) : Option ReadHandle :=
  if (partialContent || f.off = 0) && firstLen ≤ f.sz && f.off + firstLen ≤ content.length then
    let target := max (min budget f.fetch) (min f.sz f.fetch)
    let plan := openPlan f.off target f.sz f.fileSize slots total partialContent
    let totalKnown := total.getD f.fileSize
    if 0 < totalKnown && !shortReplyOk f.off firstLen f.sz totalKnown then some h
    else
      let st := ReadStream.opened f.off total (content.slice f.off firstLen) plan slots
      some { h with
        buf := some { start := f.off, stream := h.streams.length, targetLen := st.target }
        nextBuf := none
        prevBuf := none
        streams := h.streams ++ [st] }
  else none

/-- A look-ahead's window is open. It is dropped when the reader is no longer where it was. -/
def installLookahead (h : ReadHandle) (l : LookaheadPlan) (slots : Nat) (total : Option Nat) :
    ReadHandle :=
  let h := { h with lookahead := none }
  if h.nextBuf.isNone && h.buf.any (fun b => decide (b.stream = l.after)) then
    let st := ReadStream.opened l.start total [] (openPlan l.start l.len 0 l.fileSize slots total true)
      slots
    { h with
      nextBuf := some { start := l.start, stream := h.streams.length, targetLen := st.target }
      streams := h.streams ++ [st] }
  else { h with lookaheadInflight := false }

/-- A window's stream changes. -/
def setStream (h : ReadHandle) (k : Nat) (s : ReadStream) : ReadHandle :=
  { h with streams := h.streams.set k s }

/-- The number of readers that wait for a window changes. -/
def setWaiters (h : ReadHandle) (k : Nat) (f : Nat → Nat) : ReadHandle :=
  { h with streams := h.streams.modify k fun s => { s with ss := { s.ss with waiters := f s.ss.waiters } } }

end ReadHandle

/-- What may happen to a handle. -/
inductive ReadEvent where
  | read (off sz fileSize ceiling : Nat) (reserved : Bool)
  /-- A READ that is answered before the window branches. -/
  | readElsewhere (off sz : Nat)
  | releaseIdle
  | fetched (i budget slots : Nat) (total : Option Nat) (partialContent : Bool) (firstLen : Nat)
  | dropFetch (i : Nat)
  | installLookahead (slots : Nat) (total : Option Nat)
  | dropLookahead
  | endLookahead
  | segment (k i : Nat) (e : SegmentStep)
  | finish (k : Nat) (panicking : Bool)
  | park (i : Nat)
  | dropWait (i : Nat)
  | wake (i : Nat) (timedOut : Bool)
  deriving DecidableEq, Repr

namespace ReadHandle

/-- One event. -/
def step (content : Bytes) (h : ReadHandle) : ReadEvent → Option ReadHandle
  | .read off sz fileSize ceiling reserved => h.read off sz fileSize ceiling reserved
  | .readElsewhere off sz => some ({ h with nextExpectedOff := off + sz }.arrive off)
  | .releaseIdle => some { h with nextBuf := none, prevBuf := none }
  | .fetched i budget slots total partialContent firstLen =>
    h.fetches[i]?.bind fun f =>
      { h with fetches := h.fetches.eraseIdx i }.fetched content f budget slots total partialContent
        firstLen
  | .dropFetch i => some { h with fetches := h.fetches.eraseIdx i }
  | .installLookahead slots total => h.lookahead.map fun l => h.installLookahead l slots total
  | .dropLookahead => some { h with lookahead := none, lookaheadInflight := false }
  | .endLookahead => some { h with lookaheadInflight := h.lookahead.isSome }
  | .segment k i e =>
    h.streams[k]?.bind fun s => s.segments[i]?.bind fun g =>
      if g.running then (s.segment content i g e).map fun s => h.setStream k s else none
  | .finish k panicking =>
    h.streams[k]?.bind fun s =>
      if panicking || s.segments.all fun g => !g.running then
        some (h.setStream k (s.finish panicking))
      else none
  | .park i =>
    h.waits[i]?.map fun j =>
      { h with waits := h.waits.set i { j with parked := true } }.setWaiters j.stream (· + 1)
  | .dropWait i =>
    h.waits[i]?.bind fun j =>
      if j.parked then none else some { h with waits := h.waits.eraseIdx i }
  | .wake i timedOut =>
    h.waits[i]?.bind fun j => h.streams[j.stream]?.bind fun s =>
      match j.parked, waitOnWindow s.ss j.start j.off j.sz j.fileSize timedOut with
      | false, _ | _, some .panics => none
      | true, none => some h
      | true, some _ => some ({ h with waits := h.waits.eraseIdx i }.setWaiters j.stream (· - 1))

/-- A run of events. -/
def steps (content : Bytes) (h : ReadHandle) : List ReadEvent → Option ReadHandle
  | [] => some h
  | e :: es => (h.step content e).bind fun h => h.steps content es

end ReadHandle

end Ncrs
