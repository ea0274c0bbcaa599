import Ncrs.Native.PassthroughHelper
import Mathlib.Data.List.GetD
import Mathlib.Data.UInt

/-!
# Replies of the passthrough helper

Replies are matched to requests by their position on the socket only. As long as no call returns
at its timeout, a call finds the socket empty when it sends and leaves it empty when it returns,
so the one reply it can receive is its own. A call that gives up leaves its reply behind, and
every later call reads the answer to the one before it.

## Key results

- `decodeReply_encodeReply`, `parseRequest_encode` : the wire format loses nothing
- `Conversation.Orderly.step` : what one step keeps
- `Conversation.replies_answer_their_requests` : every reply returned answers its own request
- `Conversation.late_reply_answers_next_open` : one timeout, and a file gets another file's id
-/

namespace Ncrs.Passthrough

/-! ## The wire format -/

/-- A word is four bytes. -/
@[simp] theorem toNeBytes_length (x : UInt32) : (toNeBytes x).length = 4 := rfl

/-- Reading behind a prefix. -/
theorem getD_append_length (a b : List UInt8) (i : Nat) :
    (a ++ b).getD (a.length + i) 0 = b.getD i 0 := by
  rw [List.getD_append_right _ _ _ _ (by omega), Nat.add_sub_cancel_left]

/-- Reading a word behind a prefix. -/
theorem u32At_append (a b : List UInt8) (i : Nat) : u32At (a ++ b) (a.length + i) = u32At b i := by
  simp only [u32At, Nat.add_assoc, getD_append_length]

/-- A word is read back as written. -/
theorem u32At_toNeBytes (x : UInt32) (rest : List UInt8) : u32At (toNeBytes x ++ rest) 0 = x := by
  have hx := x.toNat_lt
  apply UInt32.toNat_inj.mp
  simp only [u32At, toNeBytes, List.cons_append, List.nil_append, List.getD_cons_zero,
    List.getD_cons_succ, Nat.zero_add, UInt32.toNat_ofNat', UInt8.toNat_ofNat']
  omega

/-- The `u32` written after `a`. -/
theorem u32At_after (a : List UInt8) (x : UInt32) (rest : List UInt8) :
    u32At (a ++ (toNeBytes x ++ rest)) a.length = x := by
  have h := u32At_append a (toNeBytes x ++ rest) 0
  rw [Nat.add_zero] at h
  rw [h, u32At_toNeBytes]

/-- Both words of a reply are read back. -/
theorem u32At_reply (a b : UInt32) :
    u32At (toNeBytes a ++ toNeBytes b) 0 = a ∧ u32At (toNeBytes a ++ toNeBytes b) 4 = b := by
  refine ⟨u32At_toNeBytes a _, ?_⟩
  have h := u32At_after (toNeBytes a) b []
  rwa [List.append_nil] at h

/-- A refusal is never written as error 0. -/
theorem max_one_toUInt32_ne_zero (e : Errno) : (max e 1).toUInt32 ≠ 0 := by
  intro h
  have h0 : (if e ≤ 1 then 1 else e) = 0 := by
    show max e 1 = 0
    rw [← Int32.toInt32_toUInt32 (max e 1), h]
    rfl
  -- `max e 1` is 1 when `e ≤ 1` and `e` otherwise; neither is 0
  by_cases he : e ≤ 1
  · rw [if_pos he] at h0
    exact absurd h0 (by decide)
  · rw [if_neg he] at h0
    subst h0
    exact he (by decide)

/-- A reply is decoded as the answer it encodes, with error 0 turned into error 1. -/
theorem decodeReply_encodeReply (r : Except Errno UInt32) :
    decodeReply (encodeReply r) = some (r.mapError (max · 1)) := by
  cases r with
  | ok v =>
    obtain ⟨h0, h4⟩ := u32At_reply 0 v
    simp only [encodeReply, decodeReply, h0, h4]
    rfl
  | error e =>
    obtain ⟨h0, h4⟩ := u32At_reply (max e 1).toUInt32 0
    have hne := max_one_toUInt32_ne_zero e
    simp only [encodeReply, decodeReply, h0, h4]
    simp [REPLY_LEN, hne, Except.mapError]

/-- The words of an encoded request. -/
theorem encode_words (req : Request) :
    u32At req.encode 0 = MAGIC ∧ u32At req.encode 4 = req.opId.1 ∧
      u32At req.encode 8 = req.opId.2 ∧ u32At req.encode 12 = 0 := by
  simp only [Request.encode, List.append_assoc]
  refine ⟨u32At_toNeBytes _ _, u32At_after (toNeBytes MAGIC) _ _, ?_, ?_⟩
  · rw [← List.append_assoc]
    exact u32At_after (toNeBytes MAGIC ++ toNeBytes req.opId.1) _ _
  · rw [← List.append_assoc, ← List.append_assoc]
    exact u32At_append (toNeBytes MAGIC ++ toNeBytes req.opId.1 ++ toNeBytes req.opId.2) _ 0

/-- A request is recognized by its op code and its id. -/
theorem requestOf_opId (req : Request) : requestOf req.opId.1 req.opId.2 = .ok req := by
  cases req <;> rfl

/-- What the helper reads of a request it accepts is what the daemon sent. -/
theorem parseRequest_encode {req req' : Request} {nfds : Nat}
    (h : parseRequest req.encode nfds false = .ok req') : req' = req := by
  obtain ⟨h0, h4, h8, h12⟩ := encode_words req
  have hlen : req.encode.length = REQ_LEN := rfl
  simp only [parseRequest, h0, h4, h8, h12, hlen, requestOf_opId, bne_self_eq_false, Bool.or_self,
    Bool.false_eq_true, if_false, bind, Except.bind, pure, Except.pure, throw, throwThe,
    MonadExceptOf.throw] at h
  generalize (!req.idOk req.opId.2 || !nfds == if req.carriesFd = true then 1 else 0) = bad at h
  cases bad with
  | true => cases h
  | false => exact (Except.ok.inj h).symm

/-! ## What the helper's answer says -/

namespace Server

variable {σ : Type} {K : Kernel σ} {s : Server σ}

/-- A value answered to an encoded request is what handling the request gives. -/
theorem serve_ok {req : Request} {fd : Option Descriptor} {v : UInt32}
    (h : (s.serve K req.encode fd).1 = .ok v) : (s.handle K req fd).1 = .ok v := by
  simp only [serve] at h
  split at h
  · cases h
  · next req' hp => rwa [parseRequest_encode hp] at h

/-- An answered `Open` carries the id the kernel gave for the file that came with it. -/
theorem handle_open_ok {file : Descriptor} {id : UInt32}
    (h : (s.handle K .open (some file)).1 = .ok id) :
    ∃ fuse, s.fuse = some fuse ∧ (K.backingOpen s.kernel fuse file).1 = .ok id := by
  simp only [handle] at h
  split at h
  · next hfd => cases hfd
  · cases h
  · next file' fuse hfd hfuse =>
    cases hfd
    refine ⟨fuse, hfuse, ?_⟩
    split at h
    · cases h
    · split at h
      · cases h
      · next id' k hk => rw [hk]; exact h

/-- An answered `Close` closed the id it names. -/
theorem handle_close_ok {id v : UInt32} {fd : Option Descriptor}
    (h : (s.handle K (.close id) fd).1 = .ok v) :
    ∃ fuse, s.fuse = some fuse ∧ id ∈ s.ids ∧ (K.backingClose s.kernel fuse id).1 = .ok () := by
  simp only [handle] at h
  split at h
  · cases h
  · next fuse hfuse =>
    refine ⟨fuse, hfuse, ?_⟩
    split at h
    · cases h
    · next hid =>
      refine ⟨not_not.mp hid, ?_⟩
      split at h
      · cases h
      · next k hk => rw [hk]

end Server

/-! ## The socket between calls -/

namespace Conversation

variable {σ : Type} (K : Kernel σ)

/-- The helper served the message of call `c` and answered `r`. -/
def Answered (w : Conversation σ) (c : Call) (r : Except Errno UInt32) : Prop :=
  ∃ s ∈ w.served, s.number = c.number ∧ (s.before.serve K c.req.encode c.fd).1 = r

/-- Where the message of the waiting call `c` is. -/
inductive Pending (w : Conversation σ) (c : Call) : Prop where
  | sent (hq : w.requests = [⟨c.number, c.req.encode, c.fd⟩]) (hr : w.replies = [])
  | replied (r : Except Errno UInt32) (hq : w.requests = [])
      (hr : w.replies = [⟨c.number, encodeReply r⟩]) (hs : w.Answered K c r)
  | lost (hq : w.requests = []) (hr : w.replies = []) (hdead : w.alive = false)

/-- What a returned reply owes to the helper: it is the one sent for that call. -/
def Returned (w : Conversation σ) (c : Call) (r : Except Errno UInt32) : Prop :=
  ∃ a, w.Answered K c a ∧ decodeReply (encodeReply a) = some r

/-- The state between two steps while no call is made after a timeout. -/
structure Orderly (w : Conversation σ) : Prop where
  /-- A free channel is empty. -/
  idle : w.waiting = none → w.timedOut = false → w.alive = true → w.requests = [] ∧ w.replies = []
  busy : ∀ c, w.waiting = some c → w.timedOut = false ∧ w.Pending K c
  returned : ∀ c r, (c, .ok r) ∈ w.returned → w.Returned K c r

variable {K}

/-- An answer stays one as more requests are served. -/
theorem Answered.mono {w w' : Conversation σ} {c : Call} {r : Except Errno UInt32}
    (h : w.Answered K c r) (hs : ∀ s ∈ w.served, s ∈ w'.served) : w'.Answered K c r := by
  obtain ⟨s, hmem, hn, hr⟩ := h
  exact ⟨s, hs s hmem, hn, hr⟩

/-- A returned result stays justified as more requests are served. -/
theorem Returned.mono {w w' : Conversation σ} {c : Call} {r : Except Errno UInt32}
    (h : w.Returned K c r) (hs : ∀ s ∈ w.served, s ∈ w'.served) : w'.Returned K c r := by
  obtain ⟨a, ha, hd⟩ := h
  exact ⟨a, ha.mono hs, hd⟩

/-- The daemon reads every reply the helper sends. -/
theorem received_encodeReply (r : Except Errno UInt32) :
    ∃ v, decodeReply (encodeReply r) = some v ∧ received (encodeReply r) = .ok v := by
  have hlen : (encodeReply r).length ≠ 0 := by cases r <;> simp [encodeReply]
  refine ⟨_, decodeReply_encodeReply r, ?_⟩
  simp [received, decodeReply_encodeReply, hlen]

/-- A call that returns an error adds nothing to what has to be answered. -/
theorem mem_returned_error {w : Conversation σ} {c c' : Call} {e : CallError}
    {r : Except Errno UInt32} (h : (c', .ok r) ∈ (w.finish c (.error e)).returned) :
    (c', .ok r) ∈ w.returned := by
  simpa [finish] using h

/-! ## Steps -/

section Steps

variable {w w' : Conversation σ}

/-- A request is sent on a channel that is free. -/
theorem Orderly.send {req : Request} {fd : Option Descriptor} (hw : w.Orderly K)
    (ht : w.timedOut = false) (h : w.step K (.send req fd) = some w') : w'.Orderly K := by
  simp only [step] at h
  split at h
  · next hfree =>
    obtain ⟨hfree, halive⟩ := Bool.and_eq_true_iff.mp hfree
    obtain ⟨hq, hr⟩ := hw.idle (Option.isNone_iff_eq_none.mp hfree) ht halive
    cases h
    refine ⟨fun hnone => (nomatch hnone), ?_, hw.returned⟩
    intro c hc
    -- the channel was empty, so the request is alone on it
    cases hc
    refine ⟨ht, .sent ?_ hr⟩
    simp only [hq, List.nil_append]
  · cases h

/-- A request that cannot be sent leaves nothing behind. -/
theorem Orderly.sendFails {req : Request} {fd : Option Descriptor} {e : Errno} (hw : w.Orderly K)
    (h : w.step K (.sendFails req fd e) = some w') : w'.Orderly K := by
  simp only [step] at h
  split at h
  · next hfree =>
    cases h
    refine ⟨fun _ => hw.idle (Option.isNone_iff_eq_none.mp hfree), fun c hc => (nomatch hc), ?_⟩
    intro c r hcr
    exact hw.returned c r (mem_returned_error hcr)
  · cases h

theorem Orderly.answer (hw : w.Orderly K) (h : w.step K .answer = some w') : w'.Orderly K := by
  simp only [step] at h
  split at h
  case h_2 => cases h
  case h_1 m rest halive hq =>
  cases h
  have hserved : ∀ s ∈ w.served, s ∈ w.served ++ [⟨m.number, w.server⟩] := by
    intro s hs
    exact List.mem_append_left _ hs
  refine ⟨?_, ?_, fun c r hcr => (hw.returned c r hcr).mono hserved⟩
  · intro hnone ht _
    -- a free channel holds no request to answer
    rw [(hw.idle hnone ht halive).1] at hq
    cases hq
  · -- the served request is the one the waiting call sent
    intro c hc
    obtain ⟨ht, hp⟩ := hw.busy c hc
    refine ⟨ht, ?_⟩
    cases hp with
    | sent hq' hr =>
      rw [hq'] at hq
      cases hq
      refine .replied _ rfl ?_ ⟨_, List.mem_append_right _ (List.mem_singleton.mpr rfl), rfl, rfl⟩
      simp only [hr, List.nil_append]
    -- a reply is in flight already, or the request is lost: there is nothing to answer
    | replied r hq' _ _ => rw [hq'] at hq; cases hq
    | lost hq' _ _ => rw [hq'] at hq; cases hq

/-- The helper exits. -/
theorem Orderly.exit (hw : w.Orderly K) (h : w.step K .exit = some w') : w'.Orderly K := by
  simp only [step] at h
  split at h
  case isFalse => cases h
  cases h
  refine ⟨fun _ _ halive => (nomatch halive), ?_, hw.returned⟩
  intro c hc
  obtain ⟨ht, hp⟩ := hw.busy c hc
  refine ⟨ht, ?_⟩
  cases hp with
  | sent _ hr => exact .lost rfl hr rfl
  | replied r _ hr hs => exact .replied r rfl hr hs
  | lost _ hr _ => exact .lost rfl hr rfl

/-- A reply is received by the call that waits for it. -/
theorem Orderly.recv (hw : w.Orderly K) (h : w.step K .recv = some w') : w'.Orderly K := by
  simp only [step] at h
  split at h
  case h_2 => cases h
  case h_1 c m rest hc hr =>
  cases h
  obtain ⟨_, hp⟩ := hw.busy c hc
  cases hp with
  | sent _ hr' => rw [hr'] at hr; cases hr
  | lost _ hr' _ => rw [hr'] at hr; cases hr
  | replied a hq hr' hs =>
    rw [hr'] at hr
    cases hr
    obtain ⟨v, hv, hrecv⟩ := received_encodeReply a
    refine ⟨fun _ _ _ => ⟨hq, rfl⟩, fun c' hc' => (nomatch hc'), ?_⟩
    intro c' r hcr
    rcases List.mem_append.mp hcr with hold | hnew
    · exact hw.returned c' r hold
    · -- the reply read is the one to the waiting call
      rw [List.mem_singleton, hrecv] at hnew
      cases hnew
      exact ⟨a, hs, hv⟩

/-- A call gives up: the channel is out of use from then on. -/
theorem Orderly.timeout (hw : w.Orderly K) (h : w.step K .timeout = some w') : w'.Orderly K := by
  simp only [step] at h
  split at h
  · cases h
    refine ⟨fun _ ht => (nomatch ht), fun c' hc' => (nomatch hc'), ?_⟩
    intro c' r hcr
    exact hw.returned c' r (mem_returned_error hcr)
  · cases h

/-- The channel breaks. -/
theorem Orderly.gone {e : CallError} (hw : w.Orderly K) (h : w.step K (.gone e) = some w') :
    w'.Orderly K := by
  simp only [step] at h
  split at h
  · split at h
    · cases h
    · next hdead =>
      cases h
      refine ⟨fun _ _ halive => absurd halive hdead, fun c' hc' => (nomatch hc'), ?_⟩
      intro c' r hcr
      exact hw.returned c' r (mem_returned_error hcr)
  · cases h

end Steps

/-! ## Runs -/

/-- No call is made after a call returned at its timeout. -/
def Meets (w : Conversation σ) : Event → Prop
  | .send _ _ => w.timedOut = false
  | _ => True

/-- Every step of the run meets the condition. -/
def AllMeet (K : Kernel σ) (w : Conversation σ) : List Event → Prop
  | [] => True
  | e :: es =>
    w.Meets e ∧
      match w.step K e with
      | some w' => AllMeet K w' es
      | none => True

/-- Every step of the conversation keeps it in order. -/
theorem Orderly.step {w w' : Conversation σ} {e : Event} (hw : w.Orderly K) (hm : w.Meets e)
    (h : w.step K e = some w') : w'.Orderly K := by
  cases e with
  | send req fd => exact hw.send hm h
  | sendFails req fd e => exact hw.sendFails h
  | answer => exact hw.answer h
  | exit => exact hw.exit h
  | recv => exact hw.recv h
  | timeout => exact hw.timeout h
  | gone e => exact hw.gone h

/-- Every run of the conversation keeps it in order. -/
theorem Orderly.steps {w w' : Conversation σ} {es : List Event} (hw : w.Orderly K)
    (hm : AllMeet K w es) (h : w.steps K es = some w') : w'.Orderly K := by
  induction es generalizing w with
  | nil =>
    cases h
    exact hw
  | cons e es ih =>
    simp only [Conversation.steps, Option.bind_eq_some_iff] at h
    obtain ⟨w₁, h₁, h₂⟩ := h
    obtain ⟨hmeet, hrest⟩ := hm
    rw [h₁] at hrest
    exact ih (hw.step hmeet h₁) hrest h₂

/-- A conversation that begins is in order. -/
theorem orderly_start (server : Server σ) : (start server).Orderly K where
  idle _ _ _ := ⟨rfl, rfl⟩
  busy _ hc := nomatch hc
  returned _ _ h := nomatch h

/-- What the callers of a `Helper` rely on. -/
structure RepliesBelong (K : Kernel σ) (w : Conversation σ) : Prop where
  /-- A reply that a call returns is the helper's reply to that call's request. -/
  reply : ∀ c r, (c, .ok r) ∈ w.returned → w.Returned K c r
  /-- `open_backing(file) = Ok(id)`: the kernel gave `id` for `file` in answer to this call. -/
  opened : ∀ c r file id, (c, r) ∈ w.returned → c.req = .open → c.fd = some file →
    openBackingResult r = .ok id →
    ∃ s ∈ w.served, s.number = c.number ∧ ∃ fuse, s.before.fuse = some fuse ∧
      (K.backingOpen s.before.kernel fuse file).1 = .ok id
  /-- `close_backing(id) = Ok(())`: the kernel closed `id` in answer to this call. -/
  closed : ∀ c r id, (c, r) ∈ w.returned → c.req = .close id → closeBackingResult r = .ok () →
    ∃ s ∈ w.served, s.number = c.number ∧ ∃ fuse, s.before.fuse = some fuse ∧
      (K.backingClose s.before.kernel fuse id).1 = .ok ()

/-- A returned value is a value the helper answered, not an error read as one. -/
theorem Returned.ok {w : Conversation σ} {c : Call} {v : UInt32} (h : w.Returned K c (.ok v)) :
    ∃ s ∈ w.served, s.number = c.number ∧ (s.before.handle K c.req c.fd).1 = .ok v := by
  obtain ⟨a, ⟨s, hs, hn, ha⟩, hd⟩ := h
  rw [decodeReply_encodeReply] at hd
  cases a with
  | error e => cases hd
  | ok v' =>
    cases hd
    exact ⟨s, hs, hn, Server.serve_ok ha⟩

/-- In an orderly conversation each result is the helper's answer to the call's own request. -/
theorem Orderly.repliesBelong {w : Conversation σ} (hw : w.Orderly K) : w.RepliesBelong K where
  reply := hw.returned
  opened := by
    intro c r file id hcr hreq hfd hres
    match r with
    | .error e => cases hres
    | .ok (.error e) => cases hres
    | .ok (.ok v) =>
      cases hres
      obtain ⟨s, hs, hn, hv⟩ := (hw.returned c _ hcr).ok
      rw [hreq, hfd] at hv
      exact ⟨s, hs, hn, Server.handle_open_ok hv⟩
  closed := by
    intro c r id hcr hreq hres
    match r with
    | .error e => cases hres
    | .ok (.error e) => cases hres
    | .ok (.ok v) =>
      obtain ⟨s, hs, hn, hv⟩ := (hw.returned c _ hcr).ok
      rw [hreq] at hv
      obtain ⟨fuse, hfuse, _, hclose⟩ := Server.handle_close_ok hv
      exact ⟨s, hs, hn, fuse, hfuse, hclose⟩

/-- In every run in which no call is made after a call returned at its timeout, every reply a call
returns is the helper's answer to that call's request. -/
theorem replies_answer_their_requests (server : Server σ) (es : List Event) (w : Conversation σ)
    (hm : AllMeet K (start server) es) (h : (start server).steps K es = some w) :
    w.RepliesBelong K :=
  ((orderly_start server).steps hm h).repliesBelong

/-! ## Two files -/

/-- Takes every descriptor for `/dev/fuse` and hands out ids in sequence. -/
def sequentialKernel : Kernel Nat where
  isFuseDev _ _ := true
  backingOpen next _ _ := (.ok (UInt32.ofNat next), next + 1)
  backingClose next _ _ := (.ok (), next)

/-- A read-only regular file of user 1000, not on FUSE. -/
def cacheCopy (file : Nat) : Descriptor :=
  { file, fstat := .ok ⟨true, 1000⟩, getfl := .ok ⟨false, true⟩, onFuse := .ok false }

/-- The two files are opened one after the other, and each call waits for its reply. -/
def twoOpens : List Event :=
  [.send .setup (some (cacheCopy 0)), .answer, .recv, .send .open (some (cacheCopy 7)), .answer,
    .recv, .send .open (some (cacheCopy 8)), .answer, .recv]

/-- Two files that are opened one after the other get the ids of their own files. -/
theorem two_files_get_their_own_ids : ∃ w,
    (start (Server.new 1 1000 true)).steps sequentialKernel twoOpens = some w ∧
    w.returned.map (·.2) = [.ok (.ok 1), .ok (.ok 1), .ok (.ok 2)] ∧
    w.RepliesBelong sequentialKernel := by
  obtain ⟨w, hw, hret⟩ : ∃ w,
      (start (Server.new 1 1000 true)).steps sequentialKernel twoOpens = some w ∧
      w.returned.map (·.2) = [.ok (.ok 1), .ok (.ok 1), .ok (.ok 2)] :=
    ⟨_, rfl, by decide⟩
  have hmeet : AllMeet sequentialKernel (start (Server.new 1 1000 true)) twoOpens :=
    ⟨rfl, trivial, trivial, rfl, trivial, trivial, rfl, trivial, trivial, trivial⟩
  exact ⟨w, hw, hret, replies_answer_their_requests _ _ w hmeet hw⟩

/-- The first file's `open_backing` returns at its timeout, before its reply. -/
def openAfterTimeout : List Event :=
  [.send .setup (some (cacheCopy 0)), .answer, .recv, .send .open (some (cacheCopy 7)), .timeout,
    .answer, .send .open (some (cacheCopy 8)), .answer, .recv]

/-- After one timeout the second file's `open_backing` returns the first file's id. -/
theorem late_reply_answers_next_open :
    ¬ ∀ (server : Server Nat) (es : List Event) (w : Conversation Nat),
      (start server).steps sequentialKernel es = some w → w.RepliesBelong sequentialKernel := by
  intro hall
  obtain ⟨w, hw, hret, hserved⟩ : ∃ w,
      (start (Server.new 1 1000 true)).steps sequentialKernel openAfterTimeout = some w ∧
      (⟨2, .open, some (cacheCopy 8)⟩, .ok (.ok 1)) ∈ w.returned ∧
      w.served.map (fun s => (s.number, s.before.kernel)) = [(0, 1), (1, 1), (2, 2)] :=
    ⟨_, rfl, by decide, rfl⟩
  -- call 2 opened file 8 and returned id 1
  obtain ⟨s, hs, hn, fuse, _, hid⟩ := (hall _ _ w hw).opened _ _ (cacheCopy 8) 1 hret rfl rfl rfl
  -- but when its message was served, the kernel's next id was 2
  have hmem : (s.number, s.before.kernel) ∈ [(0, 1), (1, 1), (2, 2)] := by
    rw [← hserved]
    exact List.mem_map.mpr ⟨s, hs, rfl⟩
  have hk : s.before.kernel = 2 := by
    simp only [hn, List.mem_cons, Prod.mk.injEq, List.not_mem_nil, or_false] at hmem
    omega
  rw [hk] at hid
  change Except.ok (2 : UInt32) = Except.ok 1 at hid
  cases hid

end Conversation

end Ncrs.Passthrough
