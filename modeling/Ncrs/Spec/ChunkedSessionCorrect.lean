import Ncrs.Native.ChunkedSession

/-!
# Chunked uploads do not mix

A session is named after the process and the millisecond, and an MKCOL that answers 405 counts as opened. As
long as no session finds a collection of its name on the server, every upload has its collection for itself
from the MKCOL to the assembly, and in it the chunks it has put so far. Two uploads that open their sessions
in one millisecond put their chunks into one collection.

## Key results

- `assemble_chunksOf`: the chunks of a file make up the file.
- `Inv.step`: collections of uploads that are under way stay apart, and hold their own chunks.
- `assembled_files_are_own`: every file that lands is the staging file of its upload.
- `same_millisecond_mixes`: two uploads that open their sessions in one millisecond.
-/

namespace Ncrs

/-! ## Chunks -/

namespace Chunks

/-- A chunk after all others is put at their end. -/
theorem put_append {c : Chunks} {index : Nat} (h : ∀ x ∈ c, x.1 < index) (body : List UInt8) :
    c.put index body = c ++ [(index, body)] := by
  induction c with
  | nil => rfl
  | cons x rest ih =>
    obtain ⟨j, b⟩ := x
    have hj : j < index := h (j, b) List.mem_cons_self
    have hrest : put index body rest = rest ++ [(index, body)] :=
      ih fun y hy => h y (List.mem_cons_of_mem _ hy)
    rw [put, if_neg (by omega), if_neg (by omega), hrest, List.cons_append]

end Chunks

namespace FileUpload

variable (up : FileUpload)

/-- The first `n` chunks of a file. -/
def chunksOf (n : Nat) : Chunks := (List.range n).map fun i => (i, up.chunk i)

/-- The next chunk of the file. -/
theorem put_chunksOf (n : Nat) : (up.chunksOf n).put n (up.chunk n) = up.chunksOf (n + 1) := by
  have hlt : ∀ x ∈ up.chunksOf n, x.1 < n := by
    intro x hx
    obtain ⟨i, hi, rfl⟩ := List.mem_map.mp hx
    exact List.mem_range.mp hi
  rw [Chunks.put_append hlt, chunksOf, chunksOf, List.range_succ, List.map_append, List.map_singleton]

/-- The chunks together are the front of the file. -/
theorem assemble_chunksOf (n : Nat) : (up.chunksOf n).assemble = up.staging.take (n * chunkSize) := by
  rw [Chunks.assemble, chunksOf, List.flatMap_map]
  induction n with
  | zero => simp
  | succ n ih =>
    rw [List.range_succ, List.flatMap_append, ih, List.flatMap_singleton, Nat.succ_mul, List.take_add, chunk]

/-- The chunks reach to the end of the file. -/
theorem length_le_totalChunks : up.staging.length ≤ up.totalChunks * chunkSize := by
  have hpos : 0 < chunkSize := by decide
  have hlt := Nat.lt_div_mul_add (a := up.staging.length + chunkSize - 1) hpos
  have hmod := Nat.div_add_mod (up.staging.length + chunkSize - 1) chunkSize
  have hmod' := Nat.mod_lt (up.staging.length + chunkSize - 1) hpos
  show up.staging.length ≤ (up.staging.length + chunkSize - 1) / chunkSize * chunkSize
  rw [Nat.mul_comm]
  omega

/-- All chunks of a file, assembled. -/
theorem assemble_of_totalChunks_le {n : Nat} (h : up.totalChunks ≤ n) :
    (up.chunksOf n).assemble = up.staging := by
  rw [assemble_chunksOf]
  refine List.take_of_length_le (le_trans up.length_le_totalChunks ?_)
  exact Nat.mul_le_mul_right _ h

end FileUpload

/-! ## The server -/

namespace UploadServer

variable {srv : UploadServer} {b : String}

/-- MKCOL of a name that is free makes an empty collection. -/
theorem mkcol_of_none (h : srv.lookup b = none) : srv.mkcol b = (201, srv.insert b []) := by
  simp [mkcol, h]

/-- A chunk is put into the collection. -/
theorem putChunk_of_some {c : Chunks} (h : srv.lookup b = some c) (index : Nat) (body : List UInt8) :
    srv.putChunk b index body = (201, srv.insert b (c.put index body)) := by
  simp [putChunk, h]

/-- MOVE assembles the collection and removes it. -/
theorem move_of_some {c : Chunks} (h : srv.lookup b = some c) :
    srv.move b = (some c.assemble, srv.erase b) := by
  simp [move, h]

/-- An MKCOL leaves every collection that is there as it is. -/
theorem lookup_mkcol {d : String} {c : Chunks} (h : srv.lookup d = some c) :
    (srv.mkcol b).2.lookup d = some c := by
  unfold mkcol
  cases hb : srv.lookup b with
  | some c' => exact h
  | none =>
    have hne : d ≠ b := by
      rintro rfl
      rw [hb] at h
      cases h
    exact (AList.lookup_insert_ne hne).trans h

end UploadServer

/-! ## Uploads under way -/

/-- The collection that an upload works on. -/
def UploadPhase.session? : UploadPhase → Option String
  | .putting b _ | .cleaning b => some b
  | .start | .single | .done _ => none

namespace UploadSystem

variable {s : UploadSystem} {i : Nat} {up : FileUpload}

/-- What the server holds for an upload. -/
def Holds (srv : UploadServer) (up : FileUpload) : Prop :=
  match up.phase with
  | .putting b n => srv.lookup b = some (up.chunksOf n)
  | .cleaning b => ∃ c, srv.lookup b = some c
  | .start | .single | .done _ => True

/-- Every upload has what its phase says on the server, no two share a collection, and what landed
    is the file. -/
structure Inv (s : UploadSystem) : Prop where
  holds : ∀ (i : Nat) (up : FileUpload), s.uploads[i]? = some up → Holds s.server up
  apart : ∀ (i j : Nat) (up up' : FileUpload) (b : String), s.uploads[i]? = some up →
    s.uploads[j]? = some up' → up.phase.session? = some b → up'.phase.session? = some b → i = j
  own : ∀ l ∈ s.landed, ∃ up, s.uploads[l.upload]? = some up ∧ l.bytes = up.staging

/-- An upload with a session has a collection on the server. -/
theorem Holds.lookup {srv : UploadServer} {b : String} (h : Holds srv up) (hb : up.phase.session? = some b) :
    ∃ c, srv.lookup b = some c := by
  unfold Holds at h
  cases hphase : up.phase with
  | putting d n =>
    rw [hphase] at h hb
    cases hb
    exact ⟨_, h⟩
  | cleaning d =>
    rw [hphase] at h hb
    cases hb
    exact h
  | start | single | done =>
    rw [hphase] at hb
    cases hb

/-- What the server holds is one collection. -/
theorem Holds.congr {srv srv' : UploadServer} (h : Holds srv up)
    (hsame : ∀ b c, up.phase.session? = some b → srv.lookup b = some c → srv'.lookup b = some c) :
    Holds srv' up := by
  unfold Holds at h ⊢
  cases hphase : up.phase with
  | putting d n =>
    rw [hphase] at h hsame
    exact hsame d _ rfl h
  | cleaning d =>
    rw [hphase] at h hsame
    obtain ⟨c, hc⟩ := h
    exact ⟨c, hsame d c rfl hc⟩
  | start | single | done => trivial

/-- A step of one upload: it touches no collection but its own, which it had before or which was not there,
    and what lands is its staging file. -/
theorem Inv.set (h : s.Inv) (hup : s.uploads[i]? = some up) {server : UploadServer} {landed : List Landed}
    {phase : UploadPhase}
    (hframe : ∀ b c, up.phase.session? ≠ some b → s.server.lookup b = some c → server.lookup b = some c)
    (hholds : Holds server { up with phase := phase })
    (hsession : ∀ b, phase.session? = some b → up.phase.session? = some b ∨ s.server.lookup b = none)
    (hland : ∀ l ∈ landed, l ∈ s.landed ∨ l.upload = i ∧ l.bytes = up.staging) :
    Inv { s with server := server, landed := landed, uploads := s.uploads.set i { up with phase := phase } } := by
  have hlt : i < s.uploads.length := (List.getElem?_eq_some_iff.mp hup).1
  -- upload `i` has the new phase, and every other one is as before
  have hself : (s.uploads.set i { up with phase := phase })[i]? = some { up with phase := phase } :=
    List.getElem?_set_self hlt
  have hother : ∀ j, j ≠ i → (s.uploads.set i { up with phase := phase })[j]? = s.uploads[j]? :=
    fun j hj => List.getElem?_set_ne hj.symm
  -- no other upload works on the collection
  have hapart : ∀ j up' b, j ≠ i → s.uploads[j]? = some up' → up'.phase.session? = some b →
      phase.session? ≠ some b := by
    intro j up' b hj hup' hb hphase
    obtain hold | hnone := hsession b hphase
    · exact hj (h.apart j i up' up b hup' hup hb hold)
    · obtain ⟨c, hc⟩ := (h.holds j up' hup').lookup hb
      rw [hnone] at hc
      cases hc
  constructor
  · -- what upload `i` holds is a premise, what the others hold is out of its reach
    intro j up' hup'
    by_cases hj : j = i
    · subst hj
      rw [hself] at hup'
      cases hup'
      exact hholds
    · rw [hother j hj] at hup'
      refine (h.holds j up' hup').congr fun b c hb hc => hframe b c (fun hown => ?_) hc
      exact hj (h.apart j i up' up b hup' hup hb hown)
  · -- no two share a collection: `i` and another one by `hapart`
    intro j k up₁ up₂ b h₁ h₂ hb₁ hb₂
    by_cases hj : j = i <;> by_cases hk : k = i
    · exact hj.trans hk.symm
    · subst hj
      rw [hself] at h₁
      cases h₁
      rw [hother k hk] at h₂
      exact absurd hb₁ (hapart k up₂ b hk h₂ hb₂)
    · subst hk
      rw [hself] at h₂
      cases h₂
      rw [hother j hj] at h₁
      exact absurd hb₂ (hapart j up₁ b hj h₁ hb₁)
    · rw [hother j hj] at h₁
      rw [hother k hk] at h₂
      exact h.apart j k up₁ up₂ b h₁ h₂ hb₁ hb₂
  · -- what landed before is an upload's file still, and what lands now is this one's
    intro l hl
    have hkeep : ∀ up', s.uploads[l.upload]? = some up' → l.bytes = up'.staging →
        ∃ up', (s.uploads.set i { up with phase := phase })[l.upload]? = some up' ∧ l.bytes = up'.staging := by
      intro up' hup' hbytes
      by_cases hj : l.upload = i
      · rw [hj, hup] at hup'
        cases hup'
        rw [hj]
        exact ⟨_, hself, hbytes⟩
      · exact ⟨up', (hother _ hj).trans hup', hbytes⟩
    obtain hold | ⟨hi, hbytes⟩ := hland l hl
    · obtain ⟨up', hup', hbytes⟩ := h.own l hold
      exact hkeep up' hup' hbytes
    · exact hkeep up (hi ▸ hup) hbytes

/-- A step that only changes the phase, to one without a session or with the one it had. -/
theorem Inv.setPhase (h : s.Inv) (hup : s.uploads[i]? = some up) {phase : UploadPhase}
    (hholds : Holds s.server { up with phase := phase })
    (hsession : ∀ b, phase.session? = some b → up.phase.session? = some b) : (s.setPhase i up phase).Inv :=
  h.set hup (fun _ _ _ hc => hc) hholds (fun b hb => .inl (hsession b hb)) fun _ hl => .inl hl

/-- An upload that stops, in order or not. -/
theorem Inv.stop (h : s.Inv) (hup : s.uploads[i]? = some up) (ok : Bool) : (s.setPhase i up (.done ok)).Inv :=
  h.setPhase hup trivial nofun

/-- An upload that fails has a session to clean up. -/
theorem Inv.fail (h : s.Inv) (hup : s.uploads[i]? = some up) {b : String} (hb : up.phase.session? = some b) :
    (s.setPhase i up (.cleaning b)).Inv :=
  h.setPhase hup ((h.holds i up hup).lookup hb) fun _ hd => hb.trans hd

/-- An opening that gets an answer finds no collection of its name. -/
def Fresh (s : UploadSystem) : UploadEvent → Prop
  | .next i x =>
    match s.uploads[i]? with
    | some ⟨staging, .start⟩ =>
      chunkSize < staging.length → x.fate = .reached → s.server.lookup (transferId s.pid x.millis) = none
    | _ => True
  | .begin _ => True

/-- A session is opened under a name that is free. -/
theorem Inv.openSession (h : s.Inv) (hup : s.uploads[i]? = some up) (x : StepInput)
    (hfresh : x.fate = .reached → s.server.lookup (transferId s.pid x.millis) = none) :
    (s.openSession i up x).Inv := by
  unfold UploadSystem.openSession
  cases hfate : x.fate with
  | reached =>
    have hnone := hfresh hfate
    simp only [UploadServer.mkcol_of_none hnone]
    refine h.set hup (fun b c _ hc => ?_) ?_ (fun b hb => ?_) fun _ hl => .inl hl
    · have hlookup := UploadServer.lookup_mkcol (b := transferId s.pid x.millis) hc
      rwa [UploadServer.mkcol_of_none hnone] at hlookup
    · exact AList.lookup_insert _
    · cases hb
      exact .inr hnone
  | unsupported => exact h.setPhase hup trivial nofun
  | refused | lost => exact h.stop hup false
  | replyLost =>
    exact h.set hup (fun _ _ _ hc => UploadServer.lookup_mkcol hc) trivial nofun fun _ hl => .inl hl

/-- Writing one's own collection leaves the others as they are. -/
theorem lookup_insert_own {b d : String} {c c' : Chunks} (hb : up.phase.session? = some b)
    (hd : up.phase.session? ≠ some d) (hc : s.server.lookup d = some c) :
    (s.server.insert b c').lookup d = some c := by
  rw [AList.lookup_insert_ne, hc]
  rintro rfl
  exact hd hb

/-- Removing a collection leaves the others. -/
theorem lookup_erase_own {b d : String} {c : Chunks} (hb : up.phase.session? = some b)
    (hd : up.phase.session? ≠ some d) (hc : s.server.lookup d = some c) :
    (s.server.erase b).lookup d = some c := by
  rw [AList.lookup_erase_ne, hc]
  rintro rfl
  exact hd hb

/-- A chunk is put, or the upload fails. -/
theorem Inv.putChunk (h : s.Inv) (hup : s.uploads[i]? = some up) {b : String} {n : Nat}
    (hphase : up.phase = .putting b n) (x : StepInput) : (s.putChunk i up b n x).Inv := by
  have hb : up.phase.session? = some b := by rw [hphase]; rfl
  have hchunks : s.server.lookup b = some (up.chunksOf n) := by
    have := h.holds i up hup
    rwa [Holds, hphase] at this
  unfold UploadSystem.putChunk
  split
  · exact h.fail hup hb
  · simp only [UploadServer.putChunk_of_some hchunks, up.put_chunksOf]
    cases x.fate with
    | reached =>
      refine h.set hup (fun d c hd hc => lookup_insert_own hb hd hc) ?_ (fun d hd => .inl ?_)
        fun _ hl => .inl hl
      · exact AList.lookup_insert _
      · exact hb.trans hd
    | unsupported | refused | lost => exact h.fail hup hb
    | replyLost =>
      refine h.set hup (fun d c hd hc => lookup_insert_own hb hd hc) ?_ (fun d hd => .inl ?_)
        fun _ hl => .inl hl
      · exact ⟨_, AList.lookup_insert _⟩
      · exact hb.trans hd

/-- A landed file is an old one or this one. -/
theorem mem_land {l : Landed} {path : PathBuf} {bytes : List UInt8} (hbytes : bytes = up.staging)
    (hl : l ∈ s.landed ++ [⟨i, path, bytes⟩]) : l ∈ s.landed ∨ l.upload = i ∧ l.bytes = up.staging := by
  obtain hold | hnew := List.mem_append.mp hl
  · exact .inl hold
  · rw [List.mem_singleton.mp hnew]
    exact .inr ⟨rfl, hbytes⟩

/-- The session is assembled when all chunks are there. -/
theorem Inv.finish (h : s.Inv) (hup : s.uploads[i]? = some up) {b : String} {n : Nat}
    (hphase : up.phase = .putting b n) (hn : up.totalChunks ≤ n) (x : StepInput) : (s.finish i up b x).Inv := by
  have hb : up.phase.session? = some b := by rw [hphase]; rfl
  have hchunks : s.server.lookup b = some (up.chunksOf n) := by
    have := h.holds i up hup
    rwa [Holds, hphase] at this
  unfold UploadSystem.finish
  cases x.settle with
  | none => exact h.fail hup hb
  | some path =>
    simp only [UploadServer.move_of_some hchunks, up.assemble_of_totalChunks_le hn]
    cases x.fate with
    | unsupported | refused | lost => exact h.stop hup false
    | reached | replyLost =>
      exact h.set hup (fun d c hd hc => lookup_erase_own hb hd hc) trivial nofun fun _ hl => mem_land rfl hl

/-- A small file is put in one piece. -/
theorem Inv.putFile (h : s.Inv) (hup : s.uploads[i]? = some up) (x : StepInput) : (s.putFile i up x).Inv := by
  unfold UploadSystem.putFile
  cases x.settle with
  | none => exact h.stop hup false
  | some path =>
    cases x.fate with
    | unsupported | refused | lost => exact h.stop hup false
    | reached | replyLost =>
      exact h.set hup (fun _ _ _ hc => hc) trivial nofun fun _ hl => mem_land rfl hl

/-- A failed session is removed, or left behind. -/
theorem Inv.cleanup (h : s.Inv) (hup : s.uploads[i]? = some up) {b : String} (hb : up.phase.session? = some b)
    (x : StepInput) : (s.cleanup i up b x).Inv := by
  unfold UploadSystem.cleanup
  cases x.fate with
  | unsupported | refused | lost => exact h.stop hup false
  | reached | replyLost =>
    exact h.set hup (fun d c hd hc => lookup_erase_own hb hd hc) trivial nofun fun _ hl => .inl hl

/-- Collections of uploads that are under way stay apart, and hold their own chunks. -/
theorem Inv.step (h : s.Inv) {e : UploadEvent} (hfresh : s.Fresh e) : (s.step e).Inv := by
  cases e with
  | begin staging =>
    -- the uploads are the old ones and the new one, which has no session yet
    have hget : ∀ (j : Nat) (up' : FileUpload), (s.uploads ++ [⟨staging, .start⟩])[j]? = some up' →
        s.uploads[j]? = some up' ∨ up' = ⟨staging, .start⟩ := by
      intro j up' hup'
      rw [List.getElem?_append] at hup'
      split at hup'
      · exact .inl hup'
      · rw [List.getElem?_singleton] at hup'
        split at hup'
        · cases hup'
          exact .inr rfl
        · cases hup'
    constructor
    · intro j up' hup'
      obtain hold | rfl := hget j up' hup'
      · exact h.holds j up' hold
      · trivial
    · intro j k up₁ up₂ b h₁ h₂ hb₁ hb₂
      obtain hold₁ | rfl := hget j up₁ h₁
      · obtain hold₂ | rfl := hget k up₂ h₂
        · exact h.apart j k up₁ up₂ b hold₁ hold₂ hb₁ hb₂
        · cases hb₂
      · cases hb₁
    · intro l hl
      obtain ⟨up', hup', hbytes⟩ := h.own l hl
      refine ⟨up', ?_, hbytes⟩
      exact (List.getElem?_append_left (List.getElem?_eq_some_iff.mp hup').1).trans hup'
  | next i x =>
    cases hup : s.uploads[i]? with
    | none =>
      have hstep : s.step (.next i x) = s := by simp only [UploadSystem.step, hup]
      rw [hstep]
      exact h
    | some up =>
      have hstep : s.step (.next i x) = s.advance i up x := by simp only [UploadSystem.step, hup]
      rw [hstep]
      unfold UploadSystem.advance
      cases hphase : up.phase with
      | start =>
        dsimp only
        split
        · -- a file of one chunk at most is put whole
          exact h.setPhase hup trivial nofun
        · rename_i hlen
          obtain ⟨staging, phase⟩ := up
          simp only at hphase
          subst hphase
          simp only [Fresh, hup] at hfresh
          -- a larger one opens a session, under the name that is free
          exact h.openSession hup x (hfresh (not_le.mp hlen))
      | putting b n =>
        dsimp only
        split
        · -- chunks are left: the next one is put
          exact h.putChunk hup hphase x
        · rename_i hn
          -- none is left: the session is assembled
          exact h.finish hup hphase (not_lt.mp hn) x
      | single => exact h.putFile hup x
      | cleaning b => exact h.cleanup hup (by rw [hphase]; rfl) x
      | done ok => exact h

/-- A run in which every opening that gets an answer finds no collection of its name. -/
def FreshRun : UploadSystem → List UploadEvent → Prop
  | _, [] => True
  | s, e :: events => s.Fresh e ∧ FreshRun (s.step e) events

/-- Every run of fresh steps keeps it. -/
theorem Inv.run (h : s.Inv) {events : List UploadEvent} (hfresh : FreshRun s events) : (s.run events).Inv := by
  induction events generalizing s with
  | nil => exact h
  | cons e events ih => exact ih (h.step hfresh.1) hfresh.2

/-- Whatever a server holds before, and however the uploads of a process interleave, every file that lands is
    the staging file of its upload, if no session is opened under the name of a collection that is there. -/
theorem assembled_files_are_own (pid : Nat) (server : UploadServer) (events : List UploadEvent)
    (hfresh : FreshRun { pid := pid, server := server } events) :
    ∀ l ∈ (run { pid := pid, server := server } events).landed,
      ∃ up, (run { pid := pid, server := server } events).uploads[l.upload]? = some up ∧
        l.bytes = up.staging := by
  have h : Inv { pid := pid, server := server } := ⟨nofun, nofun, nofun⟩
  exact (h.run hfresh).own

/-- Two uploads of two chunks each, which open their sessions at these clock readings and take turns. -/
def twoUploads (a b : List UInt8) (millis millis' : Nat) : List UploadEvent :=
  [.begin a, .begin b, .next 0 { millis := millis }, .next 1 { millis := millis' }, .next 0 {}, .next 0 {},
    .next 1 {}, .next 0 { settle := some ["a"] }]

/-- A file one byte longer than a chunk has two. -/
theorem totalChunks_eq_two (h : up.staging.length = chunkSize + 1) : up.totalChunks = 2 := by
  unfold FileUpload.totalChunks
  rw [h]
  decide

section TwoUploads

variable {a b : List UInt8} (ha : a.length = chunkSize + 1) (hb : b.length = chunkSize + 1)

include ha hb

/-- Two uploads a millisecond apart get names of their own. -/
theorem freshRun_twoUploads : FreshRun { pid := 7, server := ∅ } (twoUploads a b 5 6) := by
  have hne : transferId 7 6 ≠ transferId 7 5 := by decide
  simp [-AList.insert_empty, AList.lookup_insert, AList.lookup_insert_ne, FreshRun, Fresh,
    twoUploads, step, advance, openSession, setPhase, UploadServer.mkcol, setServer,
      totalChunks_eq_two, putChunk, UploadServer.putChunk, hne,
    hne.symm, ha, hb]

/-- Two uploads in one millisecond share a collection, and a mixture lands. -/
theorem landed_twoUploads : (run { pid := 7, server := ∅ } (twoUploads a b 5 5)).landed =
    [⟨0, ["a"], b.take chunkSize ++ a.drop chunkSize⟩] := by
  have hpos : 1 ≤ chunkSize := by decide
  simp [-AList.insert_empty, AList.lookup_insert, run, twoUploads, step, advance, openSession, setPhase,
    UploadServer.mkcol, setServer, totalChunks_eq_two, putChunk, UploadServer.putChunk, finish,
    UploadServer.move, land, Chunks.put, Chunks.assemble, FileUpload.chunk, hpos, ha, hb]

/-- The first of the two uploads ends in order all the same. -/
theorem uploads_twoUploads : (run { pid := 7, server := ∅ } (twoUploads a b 5 5)).uploads[0]? =
    some ⟨a, .done true⟩ := by
  simp [-AList.insert_empty, AList.lookup_insert, run, twoUploads, step, advance, openSession, setPhase,
    UploadServer.mkcol, setServer, totalChunks_eq_two, putChunk, UploadServer.putChunk, finish,
    UploadServer.move, land, ha, hb]

end TwoUploads

/-- Two uploads a millisecond apart land as their own files. -/
theorem assembled_files_are_own_apart :
    FreshRun { pid := 7, server := ∅ }
        (twoUploads (List.replicate (chunkSize + 1) 0) (List.replicate (chunkSize + 1) 1) 5 6) ∧
      ∀ l ∈ (run { pid := 7, server := ∅ }
          (twoUploads (List.replicate (chunkSize + 1) 0) (List.replicate (chunkSize + 1) 1) 5 6)).landed,
        ∃ up, (run { pid := 7, server := ∅ }
            (twoUploads (List.replicate (chunkSize + 1) 0) (List.replicate (chunkSize + 1) 1) 5
              6)).uploads[l.upload]?
              = some up ∧ l.bytes = up.staging := by
  have hfresh := freshRun_twoUploads (a := List.replicate (chunkSize + 1) 0)
    (b := List.replicate (chunkSize + 1) 1) List.length_replicate List.length_replicate
  exact ⟨hfresh, assembled_files_are_own 7 ∅ _ hfresh⟩

/-- Two uploads that open their sessions in one millisecond: the first chunk of the one is assembled into the
    file of the other, which its upload takes for its own. -/
theorem same_millisecond_mixes :
    ∃ a b : List UInt8, (run { pid := 7, server := ∅ } (twoUploads a b 5 5)).landed =
        [⟨0, ["a"], b.take chunkSize ++ a.drop chunkSize⟩] ∧
      (run { pid := 7, server := ∅ } (twoUploads a b 5 5)).uploads[0]? = some ⟨a, .done true⟩ ∧
      b.take chunkSize ++ a.drop chunkSize ≠ a := by
  have hlen : ∀ x : UInt8, (List.replicate (chunkSize + 1) x).length = chunkSize + 1 :=
    fun x => List.length_replicate
  refine ⟨_, _, landed_twoUploads (hlen 0) (hlen 1), uploads_twoUploads (hlen 0) (hlen 1), ?_⟩
  intro heq
  -- the first byte tells the files apart
  have hbyte : (1 : UInt8) ∈ List.replicate (chunkSize + 1) 0 := by
    rw [← heq, List.take_replicate]
    refine List.mem_append_left _ (List.mem_replicate.mpr ⟨?_, rfl⟩)
    decide
  exact absurd (List.eq_of_mem_replicate hbyte) (by decide)

end UploadSystem

end Ncrs
