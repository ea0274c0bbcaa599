import Ncrs.Native.Replay

/-!
# The end of a streamed upload assembles the file

The chunks that went up while the file was written, the tail and the kept head have to line up: a run
of `send_chunked_finish` only ever stores chunk 0 and the tail's indices, each with the bytes the file
has there, so any number of failed runs leaves the session ready for another one, and a run that comes
to the assembly finds the file in it.
-/

namespace Ncrs

/-! ## Pieces of a tail -/

/-- The pieces are the tail, whatever the last one's length. -/
theorem pieces_flatten {chunk : Nat} (hchunk : 0 < chunk) {fuel : Nat} {l : Bytes} (h : l.length ≤ fuel) :
    (pieces chunk fuel l).flatten = l := by
  induction fuel generalizing l with
  | zero =>
    obtain rfl := List.length_eq_zero_iff.mp (Nat.le_zero.mp h)
    rfl
  | succ fuel ih =>
    rw [pieces]
    split
    · rename_i hempty
      rw [List.isEmpty_iff.mp hempty]
      rfl
    · rename_i hne
      have hpos : 0 < l.length := List.length_pos_iff.mpr fun h => hne (List.isEmpty_iff.mpr h)
      have hrest : (l.drop chunk).length ≤ fuel := by
        rw [List.length_drop]
        omega
      rw [List.flatten_cons, ih hrest, List.take_append_drop]

/-- A tail goes up in as many pieces as it has begun chunks. -/
theorem pieces_length {chunk : Nat} (hchunk : 0 < chunk) {fuel : Nat} {l : Bytes} (h : l.length ≤ fuel) :
    (pieces chunk fuel l).length = (l.length + chunk - 1) / chunk := by
  have hshort : ∀ n, n < chunk → n / chunk = 0 := fun n hn => Nat.div_eq_of_lt hn
  induction fuel generalizing l with
  | zero =>
    obtain rfl := List.length_eq_zero_iff.mp (Nat.le_zero.mp h)
    simp only [pieces, List.length_nil]
    exact (hshort _ (by omega)).symm
  | succ fuel ih =>
    rw [pieces]
    split
    · rename_i hempty
      rw [List.isEmpty_iff.mp hempty]
      simp only [List.length_nil]
      exact (hshort _ (by omega)).symm
    · rename_i hne
      have hpos : 0 < l.length := List.length_pos_iff.mpr fun h => hne (List.isEmpty_iff.mpr h)
      have hrest : (l.drop chunk).length ≤ fuel := by
        rw [List.length_drop]
        omega
      -- the first piece is one chunk of the count, the rest of it counts what is left
      have hfirst : (l.length + chunk - 1) / chunk = (l.length - 1) / chunk + 1 := by
        rw [Nat.div_eq_sub_div hchunk (by omega), show l.length + chunk - 1 - chunk = l.length - 1 by omega]
      rw [List.length_cons, ih hrest, List.length_drop, hfirst]
      congr 1
      by_cases hlast : chunk < l.length
      · rw [show l.length - chunk + chunk - 1 = l.length - 1 by omega]
      · rw [hshort _ (by omega), hshort _ (by omega)]

/-- Reading a list of chunks by their indices is reading it. -/
theorem flatMap_range_getD (bodies : List Bytes) :
    (List.range bodies.length).flatMap (fun k => bodies[k]?.getD []) = bodies.flatten := by
  induction bodies with
  | nil => rfl
  | cons body rest ih =>
    rw [List.length_cons, List.range_succ_eq_map, List.flatMap_cons, List.flatMap_map, List.flatten_cons, ← ih]
    rfl

/-! ## The session on the server -/

namespace CloudBackend

variable {σ : Type}

/-- A request that is tried again keeps what every try keeps, and its success shows what a try's
success shows. -/
theorem retryChunkWrite_keeps {α : Type} {f : σ → Answer σ α} {P Q : σ → Prop}
    (hkeep : ∀ s, P s → P (f s).2) (hok : ∀ s v, P s → (f s).1 = .ok v → Q (f s).2) (n : Nat) {s : σ}
    (h : P s) : P (retryChunkWrite f n s).2 ∧
      ∀ v, (retryChunkWrite f n s).1 = .ok v → Q (retryChunkWrite f n s).2 := by
  induction n generalizing s with
  | zero => exact ⟨hkeep s h, fun v => hok s v h⟩
  | succ n ih =>
    unfold retryChunkWrite
    have hP := hkeep s h
    have hQ := fun v => hok s v h
    generalize f s = answer at hP hQ
    obtain ⟨r, s'⟩ := answer
    cases r with
    | ok v => exact ⟨hP, fun _ _ => hQ v rfl⟩
    | error e =>
      dsimp only
      split
      · exact ih hP
      · exact ⟨hP, fun _ h => (by cases h)⟩

/-- What the first request and the rest keep, both keep. -/
theorem andThen_keeps {α β : Type} {P : σ → Prop} {a : Answer σ α} {k : α → σ → Answer σ β}
    (ha : P a.2) (hk : ∀ v s, P s → P (k v s).2) : P (andThen a k).2 := by
  unfold andThen
  split
  · exact hk _ _ ha
  · exact ha

end CloudBackend

open CloudBackend

/-- What a server does with the chunks of the upload session `uploadsBase`: none once the session is
gone. A PUT replaces the chunk of its index, one that fails may have done so all the same; the request
that assembles the session may take it away. -/
structure ChunkSession {σ : Type} (b : CloudBackend σ) (uploadsBase : String) where
  chunks : σ → Option (Nat → Option Bytes)
  put_ok : ∀ index body s, (b.putChunk uploadsBase index body s).1 = .ok () →
    ∃ c, chunks s = some c ∧
      chunks (b.putChunk uploadsBase index body s).2 = some (Function.update c index (some body))
  put_error : ∀ index body s e, (b.putChunk uploadsBase index body s).1 = .error e →
    chunks (b.putChunk uploadsBase index body s).2 = chunks s ∨
      ∃ c, chunks s = some c ∧
        chunks (b.putChunk uploadsBase index body s).2 = some (Function.update c index (some body))
  finish : ∀ path ifMatch mtime len s,
    chunks (b.finishChunkedUpload uploadsBase path ifMatch mtime len s).2 = chunks s ∨
      chunks (b.finishChunkedUpload uploadsBase path ifMatch mtime len s).2 = none

/-- The concatenation of the stored chunks in the order of their indices. -/
def Assembles (c : Nat → Option Bytes) (content : Bytes) : Prop :=
  ∃ n, (∀ i, n ≤ i → c i = none) ∧ (List.range n).flatMap (fun i => (c i).getD []) = content

/-- The index of the first chunk sent while the file was written: a head that is kept goes up as
chunk 0. -/
def firstIndex (head : Nat) : Nat := if 0 < head then 1 else 0

/-- The stored chunks below `nextIndex` are the bytes up to `bytesConfirmed`, without the head, for
which index 0 is reserved. Past the indices of the tail nothing is stored. -/
structure Uploaded (c : Nat → Option Bytes) (content : Bytes) (nextIndex bytesConfirmed head : Nat) : Prop where
  stored : (List.range' (firstIndex head) (nextIndex - firstIndex head)).flatMap (fun i => (c i).getD []) =
    (content.take bytesConfirmed).drop head
  reserved : 0 < head → 0 < nextIndex
  last : ∀ i, nextIndex + (content.length - bytesConfirmed + CHUNK_SIZE - 1) / CHUNK_SIZE ≤ i → c i = none

/-- A staging file that holds the head and the tail at the file's own offsets, or only the tail. -/
def Staged (staging content : Bytes) (bytesConfirmed head : Nat) (sparse : Bool) : Prop :=
  if sparse then
    staging.take head = content.take head ∧ staging.drop bytesConfirmed = content.drop bytesConfirmed
  else head = 0 ∧ staging = content.drop bytesConfirmed

section Finish

variable {σ : Type} (b : CloudBackend σ) (d : CacheDir) (uploadsBase : String)
  (nextIndex bytesConfirmed totalLen : Nat) (tailPath : PathBuf) (sparse : Bool) (head : Nat)

/-- What `send_chunked_finish` sends before the request that assembles the session. -/
def chunksSent (s : σ) : Answer σ Unit :=
  andThen
    (if 0 < totalLen - bytesConfirmed then
      eachTailChunk b d uploadsBase tailPath nextIndex (if sparse then bytesConfirmed else 0)
        (totalLen - bytesConfirmed) s
    else (.ok (), s))
    fun _ s => if 0 < head then putHead b d uploadsBase tailPath head totalLen s else (.ok (), s)

/-- The session is assembled once the chunks are sent, and only then. -/
theorem sendChunkedFinish_eq (remotePath : PathBuf) (ifMatch : Option String) (mtime : Option Nat) (s : σ) :
    sendChunkedFinish b d uploadsBase nextIndex bytesConfirmed totalLen tailPath sparse head remotePath
        ifMatch mtime s =
      andThen (chunksSent b d uploadsBase nextIndex bytesConfirmed totalLen tailPath sparse head s)
        fun _ s => retryChunkWrite
          (b.finishChunkedUpload uploadsBase remotePath ifMatch mtime totalLen) MAX_RETRIES s := by
  unfold sendChunkedFinish chunksSent andThen
  dsimp only
  split
  · split
    · rfl
    · rfl
  · rfl

variable {b d uploadsBase nextIndex bytesConfirmed totalLen tailPath sparse head}

/-- What every chunk request keeps, sending the rest of a file keeps. -/
theorem chunksSent_keeps {P : σ → Prop}
    (hchunk : ∀ index body s, P s → P (b.putChunk uploadsBase index body s).2) {s : σ} (h : P s) :
    P (chunksSent b d uploadsBase nextIndex bytesConfirmed totalLen tailPath sparse head s).2 := by
  have hretried : ∀ index body s, P s →
      P (retryChunkWrite (b.putChunk uploadsBase index body) MAX_RETRIES s).2 := fun index body s hs =>
    (retryChunkWrite_keeps (Q := fun _ => True) (hchunk index body) (fun _ _ _ _ => trivial) MAX_RETRIES
      hs).1
  have hpieces : ∀ bodies index s, P s → P (putPieces b uploadsBase index bodies s).2 := by
    intro bodies
    induction bodies with
    | nil => exact fun _ _ hs => hs
    | cons body rest ih =>
      intro index s hs
      exact andThen_keeps (hretried index body s hs) fun _ s hs => ih (index + 1) s hs
  have htail : ∀ start, P (eachTailChunk b d uploadsBase tailPath nextIndex start
      (totalLen - bytesConfirmed) s).2 := by
    intro start
    unfold eachTailChunk
    split
    · exact h
    · split
      · exact h
      · exact hpieces _ _ _ h
  refine andThen_keeps ?_ fun _ s hs => ?_
  · split
    · exact htail _
    · exact h
  · split
    · unfold putHead
      split
      · exact hs
      · dsimp only
        split
        · exact hs
        · exact hretried _ _ _ hs
    · exact hs

end Finish

section Session

variable {σ : Type} {b : CloudBackend σ} {uploadsBase : String} (S : ChunkSession b uploadsBase)

/-- A chunk that is sent changes nothing at other indices; once it is accepted, it is stored. -/
theorem ChunkSession.putChunk (index : Nat) (body : Bytes) {s : σ} {c : Nat → Option Bytes}
    (h : S.chunks s = some c) :
    ∃ c', S.chunks (retryChunkWrite (b.putChunk uploadsBase index body) MAX_RETRIES s).2 = some c' ∧
      (∀ i, i ≠ index → c' i = c i) ∧
      ((retryChunkWrite (b.putChunk uploadsBase index body) MAX_RETRIES s).1 = .ok () →
        c' index = some body) := by
  obtain ⟨⟨c', hc', hsame⟩, hok⟩ := retryChunkWrite_keeps
    (P := fun s => ∃ c', S.chunks s = some c' ∧ ∀ i, i ≠ index → c' i = c i)
    (Q := fun s => ∃ c', S.chunks s = some c' ∧ c' index = some body)
    (f := b.putChunk uploadsBase index body)
    (by
      rintro s ⟨c', hc', hsame⟩
      have hupdate : ∀ i, i ≠ index → Function.update c' index (some body) i = c i := by
        intro i hi
        rw [Function.update_of_ne hi]
        exact hsame i hi
      cases hr : (b.putChunk uploadsBase index body s).1 with
      | ok v =>
        obtain ⟨c₁, hc₁, hafter⟩ := S.put_ok index body s hr
        obtain rfl : c₁ = c' := Option.some.inj (hc₁.symm.trans hc')
        exact ⟨_, hafter, hupdate⟩
      | error e =>
        obtain hafter | ⟨c₁, hc₁, hafter⟩ := S.put_error index body s e hr
        · exact ⟨c', hafter.trans hc', hsame⟩
        · obtain rfl : c₁ = c' := Option.some.inj (hc₁.symm.trans hc')
          exact ⟨_, hafter, hupdate⟩)
    (by
      intro s v _ hv
      obtain ⟨c', -, hafter⟩ := S.put_ok index body s hv
      exact ⟨_, hafter, Function.update_self ..⟩)
    MAX_RETRIES ⟨c, h, fun _ _ => rfl⟩
  refine ⟨c', hc', hsame, fun hr => ?_⟩
  obtain ⟨c₁, hc₁, hbody⟩ := hok () hr
  rw [hc₁] at hc'
  rw [← Option.some.inj hc']
  exact hbody

/-- A chunk is not accepted into a session that is gone. -/
theorem ChunkSession.putChunk_gone (index : Nat) (body : Bytes) {s : σ} (h : S.chunks s = none) :
    S.chunks (b.putChunk uploadsBase index body s).2 = none := by
  cases hr : (b.putChunk uploadsBase index body s).1 with
  | ok v =>
    obtain ⟨c, hc, -⟩ := S.put_ok index body s hr
    rw [h] at hc
    cases hc
  | error e =>
    obtain hafter | ⟨c, hc, -⟩ := S.put_error index body s e hr
    · exact hafter.trans h
    · rw [h] at hc
      cases hc

/-- The pieces of a tail are stored from `index` on, and only there. -/
theorem ChunkSession.putPieces (bodies : List Bytes) (index : Nat) {s : σ} {c : Nat → Option Bytes}
    (h : S.chunks s = some c) :
    ∃ c', S.chunks (Ncrs.putPieces b uploadsBase index bodies s).2 = some c' ∧
      (∀ i, i < index ∨ index + bodies.length ≤ i → c' i = c i) ∧
      ((Ncrs.putPieces b uploadsBase index bodies s).1 = .ok () →
        ∀ k, k < bodies.length → c' (index + k) = bodies[k]?) := by
  induction bodies generalizing index s c with
  | nil => exact ⟨c, h, fun _ _ => rfl, fun _ k hk => absurd hk (Nat.not_lt_zero k)⟩
  | cons body rest ih =>
    obtain ⟨c₁, hc₁, hsame₁, hok₁⟩ := S.putChunk index body h
    rw [Ncrs.putPieces, andThen]
    cases hr : (retryChunkWrite (b.putChunk uploadsBase index body) MAX_RETRIES s).1 with
    | error e =>
      refine ⟨c₁, hc₁, fun i hi => hsame₁ i ?_, fun hok => (by cases hok)⟩
      rw [List.length_cons] at hi
      omega
    | ok v =>
      obtain ⟨c₂, hc₂, hsame₂, hok₂⟩ := ih (index + 1) hc₁
      refine ⟨c₂, hc₂, fun i hi => ?_, fun hok k hk => ?_⟩
      · rw [List.length_cons] at hi
        rw [hsame₂ i (by omega), hsame₁ i (by omega)]
      · cases k with
        | zero => rw [Nat.add_zero, hsame₂ index (Or.inl (Nat.lt_succ_self index)), hok₁ hr]; rfl
        | succ k =>
          rw [List.length_cons] at hk
          rw [show index + (k + 1) = index + 1 + k by omega, hok₂ hok k (by omega), List.getElem?_cons_succ]

variable {d : CacheDir} {tailPath : PathBuf} {f : LocalFile} {content : Bytes}
  {nextIndex bytesConfirmed head : Nat} {sparse : Bool} {c : Nat → Option Bytes}

/-- A session stays ready while the chunks that were counted stay, and no index past the tail's is
used. -/
theorem Uploaded.congr {c' : Nat → Option Bytes} (h : Uploaded c content nextIndex bytesConfirmed head)
    (hstored : ∀ i, firstIndex head ≤ i → i < nextIndex → c' i = c i)
    (hlast : ∀ i, nextIndex + (content.length - bytesConfirmed + CHUNK_SIZE - 1) / CHUNK_SIZE ≤ i →
      c' i = c i) : Uploaded c' content nextIndex bytesConfirmed head where
  stored := by
    rw [← h.stored]
    refine List.flatMap_congr fun i hi => ?_
    rw [List.mem_range'_1] at hi
    rw [hstored i hi.1 (by omega)]
  reserved := h.reserved
  last i hi := (hlast i hi).trans (h.last i hi)

/-- The chunks counted so far, the head before them and the tail after them are the file. -/
theorem Uploaded.assembles (h : Uploaded c content nextIndex bytesConfirmed head)
    (hconfirmed : head ≤ bytesConfirmed) {bodies : List Bytes}
    (hlen : bodies.length = (content.length - bytesConfirmed + CHUNK_SIZE - 1) / CHUNK_SIZE)
    (hbodies : bodies.flatten = content.drop bytesConfirmed)
    (htail : ∀ k, k < bodies.length → c (nextIndex + k) = bodies[k]?)
    (hhead : 0 < head → c 0 = some (content.take head)) : Assembles c content := by
  refine ⟨nextIndex + bodies.length, fun i hi => h.last i (by rwa [hlen] at hi), ?_⟩
  have htailBytes : (List.range' nextIndex bodies.length).flatMap (fun i => (c i).getD []) =
      content.drop bytesConfirmed := by
    rw [← hbodies, List.range'_eq_map_range, List.flatMap_map, ← flatMap_range_getD bodies]
    refine List.flatMap_congr fun k hk => ?_
    rw [htail k (List.mem_range.mp hk)]
  have hbelow : (List.range' 0 nextIndex).flatMap (fun i => (c i).getD []) = content.take bytesConfirmed := by
    have hstored := h.stored
    unfold firstIndex at hstored
    split at hstored
    · rename_i hpos
      rw [show nextIndex = 1 + (nextIndex - 1) by have := h.reserved hpos; omega,
        ← List.range'_append_1, List.flatMap_append, Nat.zero_add, hstored, List.range'_one]
      rw [List.flatMap_singleton, hhead hpos, Option.getD_some]
      conv_rhs => rw [← List.take_append_drop head (content.take bytesConfirmed), List.take_take,
        Nat.min_eq_left hconfirmed]
    · rename_i hzero
      obtain rfl : head = 0 := by omega
      exact hstored
  rw [List.range_eq_range', ← List.range'_append_1, List.flatMap_append, hbelow, Nat.zero_add, htailBytes,
    List.take_append_drop]

/-- The tail that is sent is the file's, whichever way it is staged. -/
theorem tail_eq_putPieces (hfile : d.files tailPath = some f)
    (hstaged : Staged f.data content bytesConfirmed head sparse) (s : σ) :
    (if 0 < content.length - bytesConfirmed then
      eachTailChunk b d uploadsBase tailPath nextIndex (if sparse then bytesConfirmed else 0)
        (content.length - bytesConfirmed) s
    else (.ok (), s)) =
      Ncrs.putPieces b uploadsBase nextIndex
        (pieces CHUNK_SIZE (content.length - bytesConfirmed) (content.drop bytesConfirmed)) s := by
  split
  · rename_i hpos
    have hdrop : f.data.drop (if sparse then bytesConfirmed else 0) = content.drop bytesConfirmed := by
      cases sparse with
      | true => exact hstaged.2
      | false => exact hstaged.2
    have hlen : f.data.length = (if sparse then bytesConfirmed else 0) + (content.length - bytesConfirmed) := by
      have := congrArg List.length hdrop
      rw [List.length_drop, List.length_drop] at this
      omega
    simp only [eachTailChunk, hfile, hlen, ne_eq, not_true_eq_false, if_false, hdrop]
  · rename_i hzero
    rw [show content.length - bytesConfirmed = 0 by omega]
    rfl

/-- The chunks a run sends leave the session ready for another run, and once all are accepted, it holds
the file. -/
theorem ChunkSession.chunksSent (hfile : d.files tailPath = some f)
    (hstaged : Staged f.data content bytesConfirmed head sparse) (hhead : head ≤ bytesConfirmed)
    (hle : bytesConfirmed ≤ content.length) {s : σ} (hs : S.chunks s = some c)
    (hup : Uploaded c content nextIndex bytesConfirmed head) :
    let sent := Ncrs.chunksSent b d uploadsBase nextIndex bytesConfirmed content.length tailPath sparse head s
    ∃ c', S.chunks sent.2 = some c' ∧ Uploaded c' content nextIndex bytesConfirmed head ∧
      (sent.1 = .ok () → Assembles c' content) := by
  have hchunk : 0 < CHUNK_SIZE := by decide
  have htailLen : (content.drop bytesConfirmed).length ≤ content.length - bytesConfirmed := by
    rw [List.length_drop]
  let bodies := pieces CHUNK_SIZE (content.length - bytesConfirmed) (content.drop bytesConfirmed)
  have hlen : bodies.length = (content.length - bytesConfirmed + CHUNK_SIZE - 1) / CHUNK_SIZE := by
    rw [pieces_length hchunk htailLen, List.length_drop]
  have hbodies : bodies.flatten = content.drop bytesConfirmed := pieces_flatten hchunk htailLen
  obtain ⟨c₁, hc₁, hsame₁, hok₁⟩ := S.putPieces bodies nextIndex hs
  have hup₁ : Uploaded c₁ content nextIndex bytesConfirmed head :=
    hup.congr (fun i _ hi => hsame₁ i (Or.inl hi)) (fun i hi => hsame₁ i (Or.inr (by rwa [hlen])))
  intro sent
  have hsent : sent = andThen (Ncrs.putPieces b uploadsBase nextIndex bodies s) fun _ s =>
      if 0 < head then putHead b d uploadsBase tailPath head content.length s else (.ok (), s) := by
    show Ncrs.chunksSent .. = _
    rw [Ncrs.chunksSent, tail_eq_putPieces hfile hstaged]
  rw [hsent, andThen]
  split
  · rename_i v hput
    have htail := hok₁ hput
    split
    · -- the head goes up last, as chunk 0
      rename_i hpos
      have hsparse : f.data.take head = content.take head := by
        cases sparse with
        | true => exact hstaged.1
        | false => exact absurd hstaged.1 (by omega)
      have hmin : min head content.length = head := by omega
      have hstagedLen : ¬ f.data.length < head := by
        have := congrArg List.length hsparse
        rw [List.length_take, List.length_take] at this
        omega
      simp only [putHead, hfile, hmin, if_neg hstagedLen, hsparse]
      obtain ⟨c₂, hc₂, hsame₂, hok₂⟩ := S.putChunk 0 (content.take head) hc₁
      have hfirst : firstIndex head = 1 := if_pos hpos
      have hup₂ : Uploaded c₂ content nextIndex bytesConfirmed head :=
        hup₁.congr (fun i hi _ => hsame₂ i (by omega))
          (fun i hi => hsame₂ i (by have := hup.reserved hpos; omega))
      refine ⟨c₂, hc₂, hup₂, fun hok => hup₂.assembles hhead hlen hbodies ?_ fun _ => hok₂ hok⟩
      intro k hk
      rw [hsame₂ _ (by have := hup.reserved hpos; omega)]
      exact htail k hk
    · rename_i hzero
      exact ⟨c₁, hc₁, hup₁, fun _ => hup₁.assembles hhead hlen hbodies htail fun hpos => absurd hpos hzero⟩
  · exact ⟨c₁, hc₁, hup₁, fun hok => (by cases hok)⟩

/-- Once the session is gone, a run does not bring it back. -/
theorem ChunkSession.chunksSent_gone {totalLen : Nat} {s : σ} (hs : S.chunks s = none) :
    S.chunks (Ncrs.chunksSent b d uploadsBase nextIndex bytesConfirmed totalLen tailPath sparse head s).2 =
      none :=
  chunksSent_keeps (P := fun s => S.chunks s = none) (fun index body _ h => S.putChunk_gone index body h) hs

/-- Asking for the assembly, however often, keeps the session or takes it away. -/
theorem ChunkSession.finishRetried (path : PathBuf) (ifMatch : Option String) (mtime : Option Nat) (len : Nat)
    (s : σ) :
    S.chunks (retryChunkWrite (b.finishChunkedUpload uploadsBase path ifMatch mtime len) MAX_RETRIES s).2 =
        S.chunks s ∨
      S.chunks (retryChunkWrite (b.finishChunkedUpload uploadsBase path ifMatch mtime len) MAX_RETRIES s).2 =
        none := by
  refine (retryChunkWrite_keeps (P := fun t => S.chunks t = S.chunks s ∨ S.chunks t = none)
    (Q := fun _ => True) (f := b.finishChunkedUpload uploadsBase path ifMatch mtime len) ?_
    (fun _ _ _ _ => trivial) MAX_RETRIES (Or.inl rfl)).1
  intro t ht
  obtain hsame | hgone := S.finish path ifMatch mtime len t
  · rw [hsame]
    exact ht
  · exact Or.inr hgone

/-- For every file and every session with its bytes up to `bytesConfirmed`, after any number of runs that
may have failed anywhere: a run assembles the session only after sending the chunks, these then are the
file in index order, and a session that is gone was assembled so. With a tail to send, a staging file of
any other length sends nothing. -/
theorem streamed_finish_assembles_file (hfile : d.files tailPath = some f)
    (hstaged : Staged f.data content bytesConfirmed head sparse) (hhead : head ≤ bytesConfirmed)
    (hle : bytesConfirmed ≤ content.length) {s : σ} (hs : S.chunks s = some c)
    (hup : Uploaded c content nextIndex bytesConfirmed head) (remotePath : PathBuf)
    (ifMatch : Option String) (mtime : Option Nat) :
    let sent := Ncrs.chunksSent b d uploadsBase nextIndex bytesConfirmed content.length tailPath sparse head
    let run := sendChunkedFinish b d uploadsBase nextIndex bytesConfirmed content.length tailPath sparse head
      remotePath ifMatch mtime
    let again := fun n => (fun s => (run s).2)^[n] s
    (∀ s, run s = andThen (sent s) fun _ s => retryChunkWrite
      (b.finishChunkedUpload uploadsBase remotePath ifMatch mtime content.length) MAX_RETRIES s) ∧
    (∀ n c', (sent (again n)).1 = .ok () → S.chunks (sent (again n)).2 = some c' → Assembles c' content) ∧
    (∀ n, S.chunks (again n) = none → ∃ m < n, (sent (again m)).1 = .ok () ∧
      ∃ c', S.chunks (sent (again m)).2 = some c' ∧ Assembles c' content) ∧
    ∀ (d' : CacheDir) (f' : LocalFile) s, bytesConfirmed < content.length → d'.files tailPath = some f' →
      f'.data.length ≠ (if sparse then bytesConfirmed else 0) + (content.length - bytesConfirmed) →
      ∃ e, sendChunkedFinish b d' uploadsBase nextIndex bytesConfirmed content.length tailPath sparse head
        remotePath ifMatch mtime s = (.error e, s) := by
  intro sent run again
  have hrun : ∀ s, run s = andThen (sent s) fun _ s => retryChunkWrite
      (b.finishChunkedUpload uploadsBase remotePath ifMatch mtime content.length) MAX_RETRIES s :=
    fun s => sendChunkedFinish_eq ..
  have hsent : ∀ {s c}, S.chunks s = some c → Uploaded c content nextIndex bytesConfirmed head → ∃ c',
      S.chunks (sent s).2 = some c' ∧ Uploaded c' content nextIndex bytesConfirmed head ∧
        ((sent s).1 = .ok () → Assembles c' content) :=
    fun hs hup => S.chunksSent hfile hstaged hhead hle hs hup
  -- after every run the session is ready for another one, or was assembled by some run so far
  have hinv : ∀ n, (∃ c', S.chunks (again n) = some c' ∧ Uploaded c' content nextIndex bytesConfirmed head) ∨
      (S.chunks (again n) = none ∧ ∃ m < n, (sent (again m)).1 = .ok () ∧
        ∃ c', S.chunks (sent (again m)).2 = some c' ∧ Assembles c' content) := by
    intro n
    induction n with
    | zero => exact Or.inl ⟨c, hs, hup⟩
    | succ n ih =>
      have hstep : again (n + 1) = (run (again n)).2 := Function.iterate_succ_apply' ..
      have hlater : (∃ m < n, (sent (again m)).1 = .ok () ∧
          ∃ c', S.chunks (sent (again m)).2 = some c' ∧ Assembles c' content) → ∃ m < n + 1,
          (sent (again m)).1 = .ok () ∧ ∃ c', S.chunks (sent (again m)).2 = some c' ∧ Assembles c' content :=
        fun ⟨m, hm, h⟩ => ⟨m, Nat.lt_succ_of_lt hm, h⟩
      rw [hstep, hrun]
      obtain ⟨c₁, hc₁, hup₁⟩ | ⟨hgone, hbefore⟩ := ih
      · obtain ⟨c₂, hc₂, hup₂, hok⟩ := hsent hc₁ hup₁
        cases hr : (sent (again n)).1 with
        | error e =>
          simp only [andThen, hr]
          exact Or.inl ⟨c₂, hc₂, hup₂⟩
        | ok v =>
          simp only [andThen, hr]
          obtain hsame | hgone := S.finishRetried remotePath ifMatch mtime content.length (sent (again n)).2
          · exact Or.inl ⟨c₂, hsame.trans hc₂, hup₂⟩
          · exact Or.inr ⟨hgone, n, Nat.lt_succ_self n, hr, c₂, hc₂, hok hr⟩
      · refine Or.inr ⟨?_, hlater hbefore⟩
        refine andThen_keeps (P := fun s => S.chunks s = none) (S.chunksSent_gone hgone) fun _ s hs => ?_
        obtain hsame | hgone := S.finishRetried remotePath ifMatch mtime content.length s
        · exact hsame.trans hs
        · exact hgone
  refine ⟨hrun, fun n c' hok hc' => ?_, fun n hgone => ?_, fun d' f' s hpos hfile' hlen => ?_⟩
  · obtain ⟨c₁, hc₁, hup₁⟩ | ⟨hgone, -⟩ := hinv n
    · obtain ⟨c₂, hc₂, -, hfull⟩ := hsent hc₁ hup₁
      obtain rfl : c₂ = c' := Option.some.inj (hc₂.symm.trans hc')
      exact hfull hok
    · have hnone : S.chunks (sent (again n)).2 = none := S.chunksSent_gone hgone
      rw [hnone] at hc'
      cases hc'
  · obtain ⟨c₁, hc₁, -⟩ | ⟨-, hbefore⟩ := hinv n
    · rw [hc₁] at hgone
      cases hgone
    · exact hbefore
  · have hpos' : 0 < content.length - bytesConfirmed := by omega
    obtain ⟨e, he⟩ : ∃ e, eachTailChunk b d' uploadsBase tailPath nextIndex
        (if sparse then bytesConfirmed else 0) (content.length - bytesConfirmed) s = (.error e, s) := by
      simp only [eachTailChunk, hfile', if_pos hlen]
      exact ⟨_, rfl⟩
    exact ⟨e, by simp only [sendChunkedFinish, if_pos hpos', he, andThen]⟩

end Session

/-! ## One session -/

/-- A server with the one upload session. -/
def oneSession : CloudBackend (Option (Nat → Option Bytes)) where
  putFile _ _ _ s := (.error .unsupported, s)
  mkdir _ s := (.error .unsupported, s)
  delete _ s := (.error .unsupported, s)
  rename _ _ _ s := (.error .unsupported, s)
  putChunk _ index body s :=
    match s with
    | some c => (.ok (), some (Function.update c index (some body)))
    | none => (.error (.server 404 "chunk upload"), none)
  finishChunkedUpload _ _ _ _ _ s :=
    match s with
    | some _ => (.ok { newChangeToken := some "e2" }, none)
    | none => (.error (.server 404 "chunked MOVE"), none)
  abortChunkedUpload _ _ := none
  listSelf _ s := (none, s)

def oneSessionChunks (uploadsBase : String) : ChunkSession oneSession uploadsBase where
  chunks s := s
  put_ok index body s h := by
    cases s with
    | some c => exact ⟨c, rfl, rfl⟩
    | none => cases h
  put_error index body s e h := by
    cases s with
    | some c => cases h
    | none => exact Or.inl rfl
  finish path ifMatch mtime len s := by
    cases s with
    | some c => exact Or.inr rfl
    | none => exact Or.inl rfl

/-- A staging file with the head and the tail of a file of three bytes. -/
def sparseStaging : CacheDir :=
  { files := fun p => if p = ["write_1"] then some { data := [1, 0, 3] } else none }

/-- The chunk with the second byte is on the server. -/
def secondByte : Nat → Option Bytes := Function.update (fun _ => none) 1 (some [2])

theorem three_bytes_are_assembled :
    (Ncrs.chunksSent oneSession sparseStaging "u" 2 2 3 ["write_1"] true 1 (some secondByte)).1 = .ok () ∧
      ∃ c, (Ncrs.chunksSent oneSession sparseStaging "u" 2 2 3 ["write_1"] true 1
        (some secondByte)).2 = some c ∧
        Assembles c [1, 2, 3] := by
  have hup : Uploaded secondByte [1, 2, 3] 2 2 1 := by
    refine ⟨rfl, fun _ => (by decide), fun i hi => ?_⟩
    have h3 : 3 ≤ i := hi
    exact Function.update_of_ne (by omega) ..
  have hfile : sparseStaging.files ["write_1"] = some { data := [1, 0, 3] } := rfl
  have hstaged : Staged [1, 0, 3] [1, 2, 3] 2 1 true := ⟨rfl, rfl⟩
  have hs : (oneSessionChunks "u").chunks (some secondByte) = some secondByte := rfl
  have h := streamed_finish_assembles_file (oneSessionChunks "u") hfile hstaged (by decide) (by decide) hs hup
    ["big.bin"] none none
  exact ⟨rfl, _, rfl, h.2.1 0 _ rfl rfl⟩

/-- The one byte of a file, and another chunk past it. -/
def leftoverChunk : Nat → Option Bytes :=
  Function.update (Function.update (fun _ => none) 0 (some [1])) 1 (some [9])

theorem leftoverChunk_not_assembles : ¬ Assembles leftoverChunk [1] := by
  rintro ⟨n, hlast, hconcat⟩
  have hn : 1 < n := by
    by_contra hle
    have hnone := hlast 1 (by omega)
    cases hnone
  have hmem : (9 : UInt8) ∈ (List.range n).flatMap fun i => (leftoverChunk i).getD [] :=
    List.mem_flatMap.mpr ⟨1, List.mem_range.mpr hn, List.mem_singleton_self 9⟩
  rw [hconcat] at hmem
  exact absurd hmem (by decide)

/-- A head sent over the only chunk of the tail is not the file. -/
theorem head_over_tail_not_assembles :
    ¬ Assembles (Function.update (Function.update (fun _ => none) 0 (some [2])) 0 (some [1])) [1, 2] := by
  rintro ⟨n, -, hconcat⟩
  have hmem : (2 : UInt8) ∈ ([1, 2] : Bytes) := by decide
  rw [← hconcat, List.mem_flatMap] at hmem
  obtain ⟨i, -, hi⟩ := hmem
  by_cases h0 : i = 0
  · subst h0
    rw [Function.update_self] at hi
    exact absurd hi (by decide)
  · rw [Function.update_of_ne h0, Function.update_of_ne h0] at hi
    cases hi

/-- A staging file with these bytes. -/
def stagingOf (data : Bytes) : CacheDir := { files := fun _ => some { data := data } }

/-- Two sessions whose chunks below `next_index` are the file's bytes up to `bytes_confirmed` and that are
not assembled to the file: one has a chunk past the tail's, the other has no index left for the head. -/
theorem other_chunks_are_assembled :
    ((List.range' (firstIndex 0) (1 - firstIndex 0)).flatMap (fun i => (leftoverChunk i).getD []) =
        (List.take 1 ([1] : Bytes)).drop 0 ∧
      Staged [] [1] 1 0 false ∧
      (Ncrs.chunksSent oneSession (stagingOf []) "u" 1 1 1 ["write_1"] false 0
        (some leftoverChunk)).1 = .ok () ∧
      ∃ c, (Ncrs.chunksSent oneSession (stagingOf []) "u" 1 1 1 ["write_1"] false 0 (some leftoverChunk)).2 =
        some c ∧ ¬ Assembles c [1]) ∧
    (List.range' (firstIndex 1) (0 - firstIndex 1)).flatMap (fun _ => []) =
        (List.take 1 ([1, 2] : Bytes)).drop 1 ∧
      Staged [1, 2] [1, 2] 1 1 true ∧
      (Ncrs.chunksSent oneSession (stagingOf [1, 2]) "u" 0 1 2 ["write_1"] true 1
        (some fun _ => none)).1 = .ok () ∧
      ∃ c, (Ncrs.chunksSent oneSession (stagingOf [1, 2]) "u" 0 1 2 ["write_1"] true 1 (some fun _ => none)).2 =
        some c ∧ ¬ Assembles c [1, 2] :=
  ⟨⟨rfl, ⟨rfl, rfl⟩, rfl, leftoverChunk, rfl, leftoverChunk_not_assembles⟩,
    rfl, ⟨rfl, rfl⟩, rfl, _, rfl, head_over_tail_not_assembles⟩

end Ncrs
