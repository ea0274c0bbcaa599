import Ncrs.Native.PassthroughServe
import Ncrs.Spec.PassthroughHelperCorrect
import Mathlib.Data.List.TakeWhile

/-!
# What the passthrough helper does for an arbitrary sender

The helper holds `CAP_SYS_ADMIN` and answers whatever arrives on its socket. `Server.Does` lists the
four things a turn can do to the kernel or to the server; every other message leaves both as they
were. Over a run, the ids the helper may close are counted against the registrations that gave them
(`HelperRun.Accounted`).

## Key results

- `parseRequest_eq_ok_iff`: the messages the parser accepts
- `Server.turn_does`: what one turn can do
- `HelperRun.helper_touches_only_given_ids`: what every run of the helper asked of the kernel
-/

namespace Ncrs.Passthrough

/-! ## The messages the parser accepts -/

/-- The bytes of a word are the word's bytes. -/
theorem toNeBytes_ofNat (a b c d : UInt8) :
    toNeBytes (UInt32.ofNat (a.toNat + 256 * b.toNat + 65536 * c.toNat + 16777216 * d.toNat)) =
      [a, b, c, d] := by
  have ha := a.toNat_lt
  have hb := b.toNat_lt
  have hc := c.toNat_lt
  have hd := d.toNat_lt
  simp only [toNeBytes, UInt32.toNat_ofNat', List.cons.injEq, and_true, ← UInt8.toNat_inj,
    UInt8.toNat_ofNat']
  omega

/-- A message of 16 bytes is its four words. -/
theorem eq_words {buf : List UInt8} (h : buf.length = REQ_LEN) :
    buf = toNeBytes (u32At buf 0) ++ toNeBytes (u32At buf 4) ++ toNeBytes (u32At buf 8) ++
      toNeBytes (u32At buf 12) := by
  match buf, h with
  | [a, b, c, d, e, f, g, i, j, k, l, m, n, o, p, q], _ =>
    simp only [u32At, List.getD_cons_zero, List.getD_cons_succ, toNeBytes_ofNat]
    rfl

/-- A recognized request has its op code, and its id when that is a valid one. -/
theorem requestOf_eq_ok {op id : UInt32} {req : Request} (h : requestOf op id = .ok req) :
    op = req.opId.1 ∧ (req.idOk id = true → id = req.opId.2) := by
  unfold requestOf at h
  split at h
  · rename_i hop
    obtain rfl := Except.ok.inj h
    exact ⟨UInt32.toNat_inj.mp hop, fun hid => by simpa [Request.idOk, Request.opId] using hid⟩
  · rename_i hop
    obtain rfl := Except.ok.inj h
    exact ⟨UInt32.toNat_inj.mp hop, fun _ => rfl⟩
  · rename_i hop
    obtain rfl := Except.ok.inj h
    exact ⟨UInt32.toNat_inj.mp hop, fun hid => by simpa [Request.idOk, Request.opId] using hid⟩
  · rename_i hop
    obtain rfl := Except.ok.inj h
    exact ⟨UInt32.toNat_inj.mp hop, fun _ => rfl⟩
  · cases h

/-- How many descriptors travel with a request. -/
def Request.fdCount (req : Request) : Nat := if req.carriesFd then 1 else 0

/-- A request that names an id names one the kernel can have given. -/
def Request.Named : Request → Prop
  | .adopt id | .close id => id ≠ 0
  | .setup | .open => True

/-- A request names what it must when its id is valid. -/
theorem Request.named_iff (req : Request) : req.Named ↔ req.idOk req.opId.2 = true := by
  cases req <;> simp [Request.Named, Request.idOk, Request.opId]

/-- `parse_request` accepts the encodings of requests with the right descriptors, whole, of ids
    from 1. -/
theorem parseRequest_eq_ok_iff {buf : List UInt8} {nfds : Nat} {truncated : Bool} {req : Request} :
    parseRequest buf nfds truncated = .ok req ↔
      truncated = false ∧ buf = req.encode ∧ nfds = req.fdCount ∧ req.Named := by
  constructor
  · -- each check that is passed says one thing about the bytes
    intro h
    simp only [parseRequest, bind, Except.bind, pure, Except.pure, throw, throwThe,
      MonadExceptOf.throw] at h
    split at h
    · cases h
    rename_i hshape
    split at h
    · cases h
    rename_i hmagic
    split at h
    · cases h
    rename_i hzero
    split at h
    · cases h
    rename_i r hr
    rw [show (if r.carriesFd = true then 1 else 0) = r.fdCount from rfl] at h
    split at h
    · cases h
    rename_i hok
    obtain rfl := Except.ok.inj h
    simp only [Bool.or_eq_true, bne_iff_ne, Bool.not_eq_true', not_or, ne_eq, Decidable.not_not,
      Bool.not_eq_true, beq_eq_false_iff_ne, Bool.not_eq_false] at hshape hmagic hzero hok
    obtain ⟨hop, hid⟩ := requestOf_eq_ok hr
    have hid := hid hok.1
    refine ⟨hshape.1, ?_, hok.2, ?_⟩
    · -- the four words are the request's
      rw [eq_words hshape.2, hmagic, hop, hid, hzero]
      rfl
    · rw [Request.named_iff, ← hid]
      exact hok.1
  · -- the encoded request passes each of them
    rintro ⟨rfl, rfl, rfl, hnamed⟩
    obtain ⟨h0, h4, h8, h12⟩ := encode_words req
    have hlen : req.encode.length = REQ_LEN := rfl
    rw [Request.named_iff] at hnamed
    simp [parseRequest, h0, h4, h8, h12, hlen, requestOf_opId, hnamed, Request.fdCount, bind,
      Except.bind, pure, Except.pure]

/-! ## What one turn does -/

variable {σ : Type} {K : Kernel σ}

/-- What a turn can do to the kernel or to the server, besides nothing. -/
inductive Turn.Does (K : Kernel σ) (t : Turn σ) : Prop where
  | setup (fuse : Descriptor) (hreq : t.request = .ok .setup) (hfd : t.message.fds.head? = some fuse)
      (hreply : ∃ v, t.reply = .ok v)
      (hnew : t.before.fuse = none) (hdev : K.isFuseDev t.before.kernel fuse = true)
      (hcalls : t.calls = []) (hafter : t.after = { t.before with fuse := some fuse })
  | adopt (id : UInt32) (hreq : t.request = .ok (.adopt id)) (hreply : ∃ v, t.reply = .ok v)
      (hset : t.before.fuse.isSome = true) (hearly : t.before.openedAny = false)
      (hcalls : t.calls = []) (hafter : t.after = { t.before with ids := t.before.ids.insert id })
  | open (fuse file : Descriptor) (r : Except Errno UInt32) (hreq : t.request = .ok .open)
      (hfd : t.message.fds.head? = some file) (hset : t.before.fuse = some fuse)
      (hvalid : validateBackingFd file t.before.uid = .ok ())
      (hcalls : t.calls = [.backingOpen fuse file r]) (hfuse : t.after.fuse = t.before.fuse)
      (huid : t.after.uid = t.before.uid) (hopened : t.after.openedAny = true)
      (hids : t.after.ids = match r with
        | .ok id => t.before.ids.insert id
        | .error _ => t.before.ids)
  | close (fuse : Descriptor) (id : UInt32) (r : Except Errno Unit)
      (hreq : t.request = .ok (.close id)) (hset : t.before.fuse = some fuse)
      (hmem : id ∈ t.before.ids)
      (hcalls : t.calls = [.backingClose fuse id r]) (hfuse : t.after.fuse = t.before.fuse)
      (huid : t.after.uid = t.before.uid) (hopened : t.after.openedAny = t.before.openedAny)
      (hids : t.after.ids = t.before.ids.erase id)

/-- A turn that did nothing: the kernel was not asked and the server is as it was. -/
def Turn.Idle (t : Turn σ) : Prop :=
  t.calls = [] ∧ t.after = t.before ∧ ∃ e, t.reply = .error e

/-- A turn that answers `req`. -/
theorem Server.turn_eq (s : Server σ) {m : Message} {req : Request} {r : Except Errno UInt32}
    {s' : Server (σ × List KernelCall)}
    (hp : parseRequest m.received m.nfds m.truncated = .ok req)
    (hh : (s.withKernel (s.kernel, [])).handle K.logged req m.fds.head? = (r, s')) :
    s.turn K m =
      { message := m
        before := s
        reply := r
        calls := s'.kernel.2
        after := s'.withKernel s'.kernel.1 } := by
  have hr : (s.withKernel (s.kernel, [])).serveMessage K.logged m = (r, s') := by
    rw [Server.serveMessage, hp]
    exact hh
  simp only [Server.turn, hr]

/-- A refused message changes nothing. -/
theorem Server.turn_refused (s : Server σ) {m : Message} {e : Errno}
    (h : (s.turn K m).request = .error e) :
    (s.turn K m).Idle ∧ (s.turn K m).reply = .error e := by
  have hp : parseRequest m.received m.nfds m.truncated = .error e := h
  have hr : (s.withKernel (s.kernel, [])).serveMessage K.logged m =
      (.error e, s.withKernel (s.kernel, [])) := by
    rw [Server.serveMessage, hp]
  simp only [Server.turn, hr]
  exact ⟨⟨rfl, rfl, e, rfl⟩, trivial⟩

/-- Every turn does one of the four things, or nothing. -/
theorem Server.turn_does (s : Server σ) (m : Message) :
    (s.turn K m).Does K ∨ (s.turn K m).Idle := by
  cases hp : parseRequest m.received m.nfds m.truncated with
  | error e => exact .inr (s.turn_refused hp).1
  | ok req =>
    obtain ⟨⟨r, s'⟩, hh⟩ : ∃ x,
      (s.withKernel (s.kernel, [])).handle K.logged req m.fds.head? = x := ⟨_, rfl⟩
    rw [s.turn_eq hp hh]
    cases req with
    | setup =>
      -- set up: once, and for a FUSE device
      simp only [Server.handle] at hh
      split at hh
      · obtain ⟨rfl, rfl⟩ := Prod.mk.inj hh
        exact .inr ⟨rfl, rfl, EINVAL, rfl⟩
      · rename_i fuse hfd
        split at hh
        · obtain ⟨rfl, rfl⟩ := Prod.mk.inj hh
          exact .inr ⟨rfl, rfl, EALREADY, rfl⟩
        · rename_i hset
          split at hh
          · obtain ⟨rfl, rfl⟩ := Prod.mk.inj hh
            exact .inr ⟨rfl, rfl, ENODEV, rfl⟩
          · rename_i hdev
            obtain ⟨rfl, rfl⟩ := Prod.mk.inj hh
            exact .inl (.setup fuse hp hfd ⟨_, rfl⟩ (by simpa [Server.withKernel] using hset)
              (by simpa [Server.withKernel, Kernel.logged] using hdev) rfl rfl)
    | adopt id =>
      -- adopted before anything was opened
      simp only [Server.handle] at hh
      split at hh
      · obtain ⟨rfl, rfl⟩ := Prod.mk.inj hh
        exact .inr ⟨rfl, rfl, ENOTCONN, rfl⟩
      · rename_i hset
        split at hh
        · obtain ⟨rfl, rfl⟩ := Prod.mk.inj hh
          exact .inr ⟨rfl, rfl, EPERM, rfl⟩
        · rename_i hearly
          obtain ⟨rfl, rfl⟩ := Prod.mk.inj hh
          exact .inl (.adopt id hp ⟨0, rfl⟩ (by
              simpa [Server.withKernel, Option.isSome_iff_ne_none] using hset)
            (by simpa [Server.withKernel] using hearly) rfl rfl)
    | «open» =>
      -- opened for a file that may be
      simp only [Server.handle] at hh
      split at hh
      · obtain ⟨rfl, rfl⟩ := Prod.mk.inj hh
        exact .inr ⟨rfl, rfl, EINVAL, rfl⟩
      · obtain ⟨rfl, rfl⟩ := Prod.mk.inj hh
        exact .inr ⟨rfl, rfl, ENOTCONN, rfl⟩
      · rename_i file fuse hfd hset
        split at hh
        · rename_i e he
          obtain ⟨rfl, rfl⟩ := Prod.mk.inj hh
          exact .inr ⟨rfl, rfl, e, rfl⟩
        · rename_i hvalid
          left
          split at hh
          · rename_i e k hk
            -- the kernel refuses
            obtain ⟨rfl, rfl⟩ := Prod.mk.inj hh
            refine .open fuse file (.error e) hp hfd hset hvalid ?_ rfl rfl rfl rfl
            have hlog := congrArg (·.2.2) hk
            have herr := congrArg (·.1) hk
            simp only [Kernel.logged] at hlog herr
            rw [← hlog, herr]
            rfl
          · rename_i id k hk
            -- the kernel gives an id
            obtain ⟨rfl, rfl⟩ := Prod.mk.inj hh
            refine .open fuse file (.ok id) hp hfd hset hvalid ?_ rfl rfl rfl rfl
            have hlog := congrArg (·.2.2) hk
            have hid := congrArg (·.1) hk
            simp only [Kernel.logged] at hlog hid
            rw [← hlog, hid]
            rfl
    | close id =>
      -- closed when it is one of this connection's
      simp only [Server.handle] at hh
      split at hh
      · obtain ⟨rfl, rfl⟩ := Prod.mk.inj hh
        exact .inr ⟨rfl, rfl, ENOTCONN, rfl⟩
      · rename_i fuse hset
        split at hh
        · obtain ⟨rfl, rfl⟩ := Prod.mk.inj hh
          exact .inr ⟨rfl, rfl, ENOENT, rfl⟩
        · rename_i hmem
          left
          split at hh
          · rename_i e k hk
            -- the kernel refuses, and the id is given up all the same
            obtain ⟨rfl, rfl⟩ := Prod.mk.inj hh
            refine .close fuse id (.error e) hp hset
              (by simpa [Server.withKernel] using hmem) ?_ rfl rfl rfl rfl
            have hlog := congrArg (·.2.2) hk
            have herr := congrArg (·.1) hk
            simp only [Kernel.logged] at hlog herr
            rw [← hlog, herr]
            rfl
          · rename_i k hk
            -- the kernel closes it
            obtain ⟨rfl, rfl⟩ := Prod.mk.inj hh
            refine .close fuse id (.ok ()) hp hset
              (by simpa [Server.withKernel] using hmem) ?_ rfl rfl rfl rfl
            have hlog := congrArg (·.2.2) hk
            have hok := congrArg (·.1) hk
            simp only [Kernel.logged] at hlog hok
            rw [← hlog, hok]
            rfl

/-! ## Registrations and closes -/

namespace Turn

/-- The ids `backing_open` returned in this turn. -/
def opened (t : Turn σ) : List UInt32 :=
  t.calls.filterMap fun c =>
    match c with
    | .backingOpen _ _ (.ok id) => some id
    | _ => none

/-- The ids `backing_close` was called with. -/
def closed (t : Turn σ) : List UInt32 :=
  t.calls.filterMap fun c =>
    match c with
    | .backingClose _ id _ => some id
    | _ => none

/-- The id an accepted `Adopt` named. -/
def adopted (t : Turn σ) : List UInt32 :=
  match t.request, t.reply with
  | .ok (.adopt id), .ok _ => [id]
  | _, _ => []

/-- An `Open` was accepted: its file was handed to the kernel. -/
def opens (t : Turn σ) : Bool :=
  t.calls.any fun c =>
    match c with
    | .backingOpen _ _ _ => true
    | .backingClose _ _ _ => false

/-- An accepted `Setup` with the descriptor `fuse`, which is of `/dev/fuse`. -/
structure SetUp (K : Kernel σ) (t : Turn σ) (fuse : Descriptor) : Prop where
  request : t.request = .ok .setup
  reply : ∃ v, t.reply = .ok v
  fd : t.message.fds.head? = some fuse
  dev : K.isFuseDev t.before.kernel fuse = true

end Turn

/-- The registrations of some turns: what the kernel returned, and what was adopted before the first
    accepted `Open`. -/
def registered (ts : List (Turn σ)) : List UInt32 :=
  ts.flatMap Turn.opened ++ (ts.takeWhile fun t => !t.opens).flatMap Turn.adopted

/-- The ids that were closed in a run of turns. -/
def closedIds (ts : List (Turn σ)) : List UInt32 := ts.flatMap Turn.closed

/-- The ids closed in one more turn. -/
theorem closedIds_append (ts : List (Turn σ)) (t : Turn σ) :
    closedIds (ts ++ [t]) = closedIds ts ++ t.closed := by
  simp [closedIds]

/-- One more turn registers what it opens. -/
theorem count_registered_append (ts : List (Turn σ)) (t : Turn σ) (id : UInt32) :
    (registered ts).count id + t.opened.count id ≤ (registered (ts ++ [t])).count id := by
  obtain ⟨r, hr⟩ : ∃ r,
      (ts ++ [t]).takeWhile (fun t => !t.opens) = ts.takeWhile (fun t => !t.opens) ++ r := by
    rw [List.takeWhile_append]
    split
    · rename_i hall
      have hself : ts.takeWhile (fun t => !t.opens) = ts :=
        (List.takeWhile_sublist _).eq_of_length hall
      rw [hself]
      exact ⟨_, rfl⟩
    · exact ⟨[], (List.append_nil _).symm⟩
  simp only [registered, hr, List.count_append, List.flatMap_append, List.flatMap_cons,
    List.flatMap_nil, List.append_nil]
  omega

/-- An `Adopt` before any `Open` is a registration. -/
theorem count_registered_adopt {ts : List (Turn σ)} {t : Turn σ} {id : UInt32}
    (hearly : ∀ u ∈ ts, u.opens = false) (ht : t.opens = false) (ha : t.adopted = [id])
    (x : UInt32) :
    (registered (ts ++ [t])).count x = (registered ts).count x + [id].count x + t.opened.count x := by
  have hts : ts.takeWhile (fun t => !t.opens) = ts :=
    List.takeWhile_eq_self_iff.mpr fun u hu => by simp [hearly u hu]
  have hall : (ts ++ [t]).takeWhile (fun t => !t.opens) = ts ++ [t] := by
    apply List.takeWhile_eq_self_iff.mpr
    intro u hu
    obtain hu | hu := List.mem_append.mp hu
    · simp [hearly u hu]
    · simp [List.mem_singleton.mp hu, ht]
  simp only [registered, hts, hall, List.count_append, List.flatMap_append, List.flatMap_cons,
    List.flatMap_nil, List.append_nil, ha]
  omega

/-! ## Runs -/

namespace HelperRun

variable {h : HelperRun σ} {t : Turn σ}

/-- What the server knows, against the turns that led to it. -/
structure Accounted (K : Kernel σ) (uid : Nat) (s : Server σ) (ts : List (Turn σ)) : Prop where
  uid : s.uid = uid
  ids : ∀ id, (closedIds ts).count id + s.ids.count id ≤ (registered ts).count id
  early : s.openedAny = false → ∀ t ∈ ts, t.opens = false
  fuse : ∀ f, s.fuse = some f → ∃ t ∈ ts, t.SetUp K f
  kept : ∀ t ∈ ts, ∀ f, t.SetUp K f → s.fuse = some f

variable {uid : Nat} {s : Server σ} {ts : List (Turn σ)}

/-- A helper that starts has nothing to account for. -/
theorem accounted_new (k : σ) (uid : Nat) (capable : Bool) :
    Accounted K uid (.new k uid capable) [] where
  uid := rfl
  ids := fun _ => Nat.zero_le _
  early := fun _ t ht => absurd ht List.not_mem_nil
  fuse := fun _ hf => by cases hf
  kept := fun t ht => absurd ht List.not_mem_nil

/-- Inserting an id adds it once at most. -/
theorem count_insert_le (l : List UInt32) (x id : UInt32) :
    (l.insert id).count x ≤ l.count x + [id].count x := by
  by_cases hid : id ∈ l
  · rw [List.insert_of_mem hid]
    omega
  · rw [List.insert_of_not_mem hid, List.count_cons, List.count_cons, List.count_nil]
    omega

/-- A turn that is no accepted `Setup` keeps what is known of the connection. -/
theorem Accounted.connection (ha : Accounted K uid s ts)
    (hfuse : t.after.fuse = s.fuse) (hno : ∀ f, ¬ t.SetUp K f) :
    (∀ f, t.after.fuse = some f → ∃ u ∈ ts ++ [t], u.SetUp K f) ∧
      ∀ u ∈ ts ++ [t], ∀ f, u.SetUp K f → t.after.fuse = some f := by
  constructor
  · intro f hf
    obtain ⟨u, hu, hset⟩ := ha.fuse f (hfuse ▸ hf)
    exact ⟨u, List.mem_append_left _ hu, hset⟩
  · intro u hu f hset
    obtain hu | hu := List.mem_append.mp hu
    · exact hfuse ▸ ha.kept u hu f hset
    · exact absurd (List.mem_singleton.mp hu ▸ hset) (hno f)

/-- A turn that calls nothing and leaves the ids alone keeps the account of them. -/
theorem Accounted.ids_of_silent (ha : Accounted K uid s ts) (hcalls : t.calls = [])
    (hids : t.after.ids = s.ids) (id : UInt32) :
    (closedIds (ts ++ [t])).count id + t.after.ids.count id ≤ (registered (ts ++ [t])).count id := by
  have hreg := count_registered_append ts t id
  have hold := ha.ids id
  have hclosed : t.closed = [] := by rw [Turn.closed, hcalls]; rfl
  rw [closedIds_append, hclosed, List.append_nil, hids]
  omega

/-- A turn without a call opens nothing. -/
theorem opens_of_silent (hcalls : t.calls = []) : t.opens = false := by
  rw [Turn.opens, hcalls]
  rfl

/-- A turn that opens nothing changes nothing about the early ones. -/
theorem early_append (hold : ∀ u ∈ ts, u.opens = false) (ht : t.opens = false) :
    ∀ u ∈ ts ++ [t], u.opens = false := by
  intro u hu
  obtain hu | hu := List.mem_append.mp hu
  · exact hold u hu
  · exact List.mem_singleton.mp hu ▸ ht

/-- A turn that does nothing keeps the account. -/
theorem Accounted.idle (ha : Accounted K uid s ts) (ht : t.before = s) (hidle : t.Idle) :
    Accounted K uid t.after (ts ++ [t]) := by
  obtain ⟨hcalls, hafter, e, he⟩ := hidle
  have hsame : t.after = s := hafter.trans ht
  have hno : ∀ f, ¬ t.SetUp K f := by
    intro f hset
    obtain ⟨v, hv⟩ := hset.reply
    rw [he] at hv
    cases hv
  obtain ⟨hfuse, hkept⟩ := ha.connection (by rw [hsame]) hno
  exact {
    uid := by rw [hsame, ha.uid]
    ids := ha.ids_of_silent hcalls (by rw [hsame])
    early := fun hopen => early_append (ha.early (hsame ▸ hopen)) (opens_of_silent hcalls)
    fuse := hfuse
    kept := hkept }

theorem Accounted.does (ha : Accounted K uid s ts) (ht : t.before = s) (hdoes : t.Does K) :
    Accounted K uid t.after (ts ++ [t]) := by
  subst ht
  cases hdoes with
  | setup fuse hreq hfd hreply hnew hdev hcalls hafter =>
    -- the connection is new, so there was none to keep
    have hset : t.SetUp K fuse := ⟨hreq, hreply, hfd, hdev⟩
    have hf : t.after.fuse = some fuse := by rw [hafter]
    exact {
      uid := by rw [hafter]; exact ha.uid
      ids := ha.ids_of_silent hcalls (by rw [hafter])
      early := fun hopen => early_append (ha.early (by rw [hafter] at hopen; exact hopen))
        (opens_of_silent hcalls)
      fuse := fun f hf' => ⟨t, by simp, by rwa [← Option.some.inj (hf.symm.trans hf')]⟩
      kept := by
        intro u hu f hu'
        obtain hu | hu := List.mem_append.mp hu
        · exact absurd (ha.kept u hu f hu') (by rw [hnew]; nofun)
        · obtain rfl := List.mem_singleton.mp hu
          rw [hf, ← hfd, hu'.fd] }
  | adopt id hreq hreply hset hearly hcalls hafter =>
    -- an adopted id is registered, and none is closed
    have hno : ∀ f, ¬ t.SetUp K f := fun f hs => by
      have := hs.request
      rw [hreq] at this
      cases this
    obtain ⟨hfuse, hkept⟩ := ha.connection (by rw [hafter]) hno
    have hadopted : t.adopted = [id] := by
      obtain ⟨v, hv⟩ := hreply
      rw [Turn.adopted, hreq, hv]
    have hsilent := opens_of_silent hcalls
    refine ⟨by rw [hafter]; exact ha.uid, fun x => ?_, fun _ => early_append (ha.early hearly) hsilent,
      hfuse, hkept⟩
    have hclosed : t.closed = [] := by rw [Turn.closed, hcalls]; rfl
    have hreg := count_registered_adopt (ha.early hearly) hsilent hadopted x
    have hins := count_insert_le t.before.ids x id
    have hold := ha.ids x
    rw [closedIds_append, hclosed, List.append_nil, hafter]
    show _ + (t.before.ids.insert id).count x ≤ _
    omega
  | «open» fuse file r hreq hfd hset hvalid hcalls hfuse' huid hopened hids =>
    -- an opened id is registered, and none is closed
    have hno : ∀ f, ¬ t.SetUp K f := fun f hs => by
      have := hs.request
      rw [hreq] at this
      cases this
    obtain ⟨hfuse, hkept⟩ := ha.connection hfuse' hno
    refine ⟨huid.trans ha.uid, fun x => ?_, fun hopen => ?_, hfuse, hkept⟩
    · have hclosed : t.closed = [] := by rw [Turn.closed, hcalls]; rfl
      have hreg := count_registered_append ts t x
      have hold := ha.ids x
      rw [closedIds_append, hclosed, List.append_nil, hids]
      cases r with
      | error e =>
        dsimp only
        omega
      | ok id =>
        have hopen : t.opened = [id] := by rw [Turn.opened, hcalls]; rfl
        have hins := count_insert_le t.before.ids x id
        rw [hopen] at hreg
        dsimp only
        omega
    · rw [hopened] at hopen
      cases hopen
  | close fuse id r hreq hset hmem hcalls hfuse' huid hopened hids =>
    -- a closed id was registered before
    have hno : ∀ f, ¬ t.SetUp K f := fun f hs => by
      have := hs.request
      rw [hreq] at this
      cases this
    obtain ⟨hfuse, hkept⟩ := ha.connection hfuse' hno
    have hopens : t.opens = false := by rw [Turn.opens, hcalls]; rfl
    refine ⟨huid.trans ha.uid, fun x => ?_,
      fun hopen => early_append (ha.early (hopened ▸ hopen)) hopens, hfuse, hkept⟩
    have hclosed : t.closed = [id] := by rw [Turn.closed, hcalls]; rfl
    have hreg := count_registered_append ts t x
    have hold := ha.ids x
    -- The id leaves the set as it is closed.
    have herase : [id].count x + (t.before.ids.erase id).count x = t.before.ids.count x := by
      rw [← List.count_append]
      exact ((List.perm_cons_erase hmem).symm).count_eq x
    rw [closedIds_append, hclosed, List.count_append, hids]
    omega

/-- Every turn keeps the account. -/
theorem Accounted.turn (ha : Accounted K uid s ts) (m : Message) :
    Accounted K uid (s.turn K m).after (ts ++ [s.turn K m]) := by
  obtain hdoes | hidle := s.turn_does (K := K) m
  · exact ha.does rfl hdoes
  · exact ha.idle rfl hidle

/-- What the helper asks of the kernel in one turn, after the turns `pre`. -/
structure Behaved (K : Kernel σ) (uid : Nat) (pre : List (Turn σ)) (t : Turn σ) : Prop where
  /-- Only registered ids are closed, each at most as often as it was registered. -/
  given : ∀ fuse id r, .backingClose fuse id r ∈ t.calls → id ∈ registered pre
  once : ∀ id, (closedIds (pre ++ [t])).count id ≤ (registered pre).count id
  /-- A file is registered on a connection set up before, and is one that passes the checks. -/
  checked : ∀ fuse file r, .backingOpen fuse file r ∈ t.calls →
    (∃ u ∈ pre, u.SetUp K fuse) ∧ t.message.fds.head? = some file ∧
      validateBackingFd file uid = .ok ()
  /-- The connection is that of the first accepted `Setup`. -/
  same : ∀ u ∈ pre, ∀ f, u.SetUp K f →
    t.before.fuse = some f ∧ t.after.fuse = some f ∧
      (∀ fuse file r, .backingOpen fuse file r ∈ t.calls → fuse = f) ∧
      ∀ fuse id r, .backingClose fuse id r ∈ t.calls → fuse = f
  refused : ∀ e, t.request = .error e → t.after = t.before ∧ t.calls = []

/-- A turn that asks the kernel nothing. -/
theorem Accounted.behaved_silent (ha : Accounted K uid t.before ts)
    (hnext : Accounted K uid t.after (ts ++ [t]))
    (hrefused : ∀ e, t.request = .error e → t.after = t.before ∧ t.calls = [])
    (hcalls : t.calls = []) : Behaved K uid ts t where
  given := fun _ _ _ hc => absurd hc (hcalls ▸ List.not_mem_nil)
  once := fun id => by
    have hclosed : t.closed = [] := by rw [Turn.closed, hcalls]; rfl
    have hold := ha.ids id
    rw [closedIds_append, hclosed, List.append_nil]
    omega
  checked := fun _ _ _ hc => absurd hc (hcalls ▸ List.not_mem_nil)
  same := fun u hu f hs =>
    ⟨ha.kept u hu f hs, hnext.kept u (List.mem_append_left _ hu) f hs,
      fun _ _ _ hc => absurd hc (hcalls ▸ List.not_mem_nil),
      fun _ _ _ hc => absurd hc (hcalls ▸ List.not_mem_nil)⟩
  refused := hrefused

theorem Accounted.behaved_does (ha : Accounted K uid t.before ts) (hdoes : t.Does K)
    (hrefused : ∀ e, t.request = .error e → t.after = t.before ∧ t.calls = []) :
    Behaved K uid ts t := by
  have hnext := ha.does rfl hdoes
  have hkept : ∀ u ∈ ts, ∀ f, u.SetUp K f → t.before.fuse = some f ∧ t.after.fuse = some f :=
    fun u hu f hs => ⟨ha.kept u hu f hs, hnext.kept u (List.mem_append_left _ hu) f hs⟩
  cases hdoes with
  | setup fuse hreq hfd hreply hnew hdev hcalls hafter => exact ha.behaved_silent hnext hrefused hcalls
  | adopt id hreq hreply hset hearly hcalls hafter => exact ha.behaved_silent hnext hrefused hcalls
  | «open» fuse file r hreq hfd hset hvalid hcalls hfuse huid hopened hids =>
    refine ⟨?_, fun id => ?_, ?_, ?_, hrefused⟩
    · -- a turn that opens closes nothing
      intro fuse' id r' hc
      simp [hcalls] at hc
    · have hclosed : t.closed = [] := by rw [Turn.closed, hcalls]; rfl
      have hold := ha.ids id
      rw [closedIds_append, hclosed, List.append_nil]
      omega
    · -- the device is the one that was set up, and the file one the user may open
      intro fuse' file' r' hc
      simp only [hcalls, List.mem_singleton, KernelCall.backingOpen.injEq] at hc
      obtain ⟨rfl, rfl, -⟩ := hc
      exact ⟨ha.fuse fuse' hset, hfd, ha.uid ▸ hvalid⟩
    · intro u hu f hs
      -- the device stays the one set up
      refine ⟨(hkept u hu f hs).1, (hkept u hu f hs).2, ?_, ?_⟩
      · intro fuse' file' r' hc
        simp only [hcalls, List.mem_singleton, KernelCall.backingOpen.injEq] at hc
        have hf := (hkept u hu f hs).1
        rw [hset, Option.some.injEq] at hf
        exact hc.1.trans hf
      · intro fuse' id r' hc
        simp [hcalls] at hc
  | close fuse id r hreq hset hmem hcalls hfuse huid hopened hids =>
    have hclosed : t.closed = [id] := by rw [Turn.closed, hcalls]; rfl
    have hin : [id].count id ≤ t.before.ids.count id := by
      rw [List.count_singleton_self]
      exact List.count_pos_iff.mpr hmem
    refine ⟨?_, fun x => ?_, ?_, ?_, hrefused⟩
    · -- the closed id is one of the connection's, and was given out more often than closed
      intro fuse' id' r' hc
      simp only [hcalls, List.mem_singleton, KernelCall.backingClose.injEq] at hc
      obtain ⟨-, rfl, -⟩ := hc
      have hold := ha.ids id'
      rw [List.count_singleton_self] at hin
      exact List.count_pos_iff.mp (by omega)
    · have hold := ha.ids x
      rw [closedIds_append, hclosed, List.count_append]
      -- the closed id counts once more, any other one as before
      by_cases hx : x = id
      · subst hx
        omega
      · have hzero : [id].count x = 0 := List.count_eq_zero_of_not_mem (by simpa using hx)
        omega
    · intro fuse' file' r' hc
      simp [hcalls] at hc
    · -- the device stays the one set up
      intro u hu f hs
      refine ⟨(hkept u hu f hs).1, (hkept u hu f hs).2, ?_, ?_⟩
      · intro fuse' file' r' hc
        simp [hcalls] at hc
      · intro fuse' id' r' hc
        simp only [hcalls, List.mem_singleton, KernelCall.backingClose.injEq] at hc
        have hf := (hkept u hu f hs).1
        rw [hset, Option.some.injEq] at hf
        exact hc.1.trans hf

/-- A turn of an accounted helper behaves. -/
theorem Accounted.behaved (ha : Accounted K uid s ts) (m : Message) :
    Behaved K uid ts (s.turn K m) := by
  have hrefused : ∀ e, (s.turn K m).request = .error e →
      (s.turn K m).after = (s.turn K m).before ∧ (s.turn K m).calls = [] := by
    intro e he
    obtain ⟨⟨hcalls, hafter, -⟩, -⟩ := s.turn_refused he
    exact ⟨hafter, hcalls⟩
  obtain hdoes | hidle := s.turn_does (K := K) m
  · exact Accounted.behaved_does ha hdoes hrefused
  · exact Accounted.behaved_silent ha (ha.turn m) hrefused hidle.1

/-- The server is accounted for by the turns, and so was every turn when it was made. -/
structure Sound (K : Kernel σ) (uid : Nat) (h : HelperRun σ) : Prop where
  accounted : Accounted K uid h.server h.turns
  behaved : ∀ pre t post, h.turns = pre ++ t :: post → Behaved K uid pre t

/-- Every turn is sound. -/
theorem Sound.step {h h' : HelperRun σ} (hs : Sound K uid h) {m : Message}
    (hstep : h.step K m = some h') : Sound K uid h' := by
  unfold HelperRun.step at hstep
  split at hstep
  · cases hstep
  · obtain rfl := Option.some.inj hstep
    refine ⟨hs.accounted.turn m, ?_⟩
    intro pre t post hsplit
    obtain hpost | ⟨post', x, hpost⟩ := post.eq_nil_or_concat'
    · subst hpost
      obtain ⟨rfl, htail⟩ := List.append_inj' hsplit rfl
      obtain rfl := (List.cons.inj htail).1
      exact hs.accounted.behaved m
    · subst hpost
      have hassoc : h.turns ++ [h.server.turn K m] = (pre ++ t :: post') ++ [x] := by
        simpa using hsplit
      exact hs.behaved pre t post' (List.append_inj' hassoc rfl).1

/-- Every run is sound. -/
theorem Sound.steps : ∀ {ms : List Message} {h h' : HelperRun σ}, Sound K uid h →
    h.steps K ms = some h' → Sound K uid h' := by
  intro ms
  induction ms with
  | nil =>
    intro h h' hs hsteps
    exact Option.some.inj hsteps ▸ hs
  | cons m ms ih =>
    intro h h' hs hsteps
    obtain ⟨g, hg, hrest⟩ := Option.bind_eq_some_iff.mp hsteps
    exact ih (hs.step hg) hrest

/-- Whatever is sent to the helper and whatever the kernel answers, every turn is `Behaved`; and the
    parser accepts exactly the whole encodings of requests, with the descriptors they need, that
    name no id 0. -/
theorem helper_touches_only_given_ids (k : σ) (uid : Nat) (capable : Bool) (ms : List Message)
    {h : HelperRun σ} (hrun : (start k uid capable).steps K ms = some h) :
    (∀ pre t post, h.turns = pre ++ t :: post → Behaved K uid pre t) ∧
      ∀ buf nfds truncated req, parseRequest buf nfds truncated = .ok req ↔
        truncated = false ∧ buf = req.encode ∧ nfds = req.fdCount ∧ req.Named := by
  have hstart : Sound K uid (start k uid capable) := by
    refine ⟨accounted_new k uid capable, ?_⟩
    intro pre t post hsplit
    exact absurd hsplit.symm (by simp [start])
  exact ⟨(hstart.steps hrun).behaved, fun _ _ _ _ => parseRequest_eq_ok_iff⟩

/-- A message that carries `req` with the descriptors `fds`. -/
def carrying (req : Request) (fds : List Descriptor) : Message :=
  { payload := req.encode, fds := fds, truncated := false }

/-- An id is adopted, a file opened, both ids and one never given are closed, one of them twice, and
    a message is cut. -/
def mixedMessages : List Message :=
  [carrying .setup [Conversation.cacheCopy 0], carrying (.adopt 40) [],
    carrying .open [Conversation.cacheCopy 7], carrying (.adopt 41) [], carrying (.close 40) [],
    carrying (.close 40) [], carrying (.close 41) [], carrying (.close 1) [],
    { payload := [1, 2, 3], fds := [], truncated := true }]

/-- In a run of mixed messages only ids that were given out are touched. -/
theorem mixed_messages_touch_given_ids : ∃ h : HelperRun Nat,
    (start 1 1000 true).steps Conversation.sequentialKernel mixedMessages = some h ∧
      closedIds h.turns = [40, 1] ∧ registered h.turns = [1, 40] ∧
      ∀ pre t post, h.turns = pre ++ t :: post → Behaved Conversation.sequentialKernel 1000 pre t := by
  obtain ⟨h, hrun, hclosed, hreg⟩ : ∃ h : HelperRun Nat,
      (start 1 1000 true).steps Conversation.sequentialKernel mixedMessages = some h ∧
        closedIds h.turns = [40, 1] ∧ registered h.turns = [1, 40] := ⟨_, rfl, rfl, rfl⟩
  exact ⟨h, hrun, hclosed, hreg, (helper_touches_only_given_ids 1 1000 true _ hrun).1⟩

/-- The encoding of `Close(0)` is refused though no descriptor comes with it. -/
theorem close_of_id_zero_is_refused :
    ¬ ∀ req : Request, parseRequest req.encode req.fdCount false = .ok req := by
  intro h
  exact absurd rfl (parseRequest_eq_ok_iff.mp (h (.close 0))).2.2.2

end HelperRun

end Ncrs.Passthrough
