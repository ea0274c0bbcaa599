import Mathlib.Data.List.Basic

/-!
# The passthrough helper

`ncrs-passthrough` does the two backing ioctls for the daemon. The daemon talks to it over one
`SOCK_SEQPACKET` socket pair: a request is one message of 16 bytes, a reply one of 8 bytes, and
neither names the other. `Helper::call` holds the channel's mutex from its `sendmsg` to the end of
its `recv`, so calls of any number of threads use the socket one after another.

The `Kernel` trait stays a parameter: the ioctls on `/dev/fuse`.

## Main definitions

- `Request.encode`, `parseRequest`, `encodeReply`, `decodeReply` : the wire format
- `Server.handle`, `Server.serve` : the helper's answer to one request, to one message
- `Conversation.step` : one step of the daemon's calls and of the helper
-/

namespace Ncrs.Passthrough

/-! ## The wire format -/

/-- `libc`'s error numbers, as far as the helper answers with them. -/
abbrev Errno := Int32

/-- The operation is not permitted. -/
def EPERM : Errno := 1
/-- There is no such file. -/
def ENOENT : Errno := 2
/-- Access is denied. -/
def EACCES : Errno := 13
/-- There is no such device. -/
def ENODEV : Errno := 19
/-- The argument is invalid. -/
def EINVAL : Errno := 22
/-- A link is where none may be. -/
def ELOOP : Errno := 40
/-- The message is none of the protocol. -/
def EPROTO : Errno := 71
/-- The operation is not supported. -/
def EOPNOTSUPP : Errno := 95
/-- The helper is not set up. -/
def ENOTCONN : Errno := 107
/-- The helper is set up already. -/
def EALREADY : Errno := 114
/-- What `recv` fails with once `SO_RCVTIMEO` has passed. -/
def EAGAIN : Errno := 11

/-- "NCPT". -/
def MAGIC : UInt32 := 0x4e435054
/-- The bytes of a request. -/
def REQ_LEN : Nat := 16
/-- The bytes of a reply. -/
def REPLY_LEN : Nat := 8

/-- `proto::Request`. -/
inductive Request where
  | setup
  | adopt (id : UInt32)
  | open
  | close (id : UInt32)
  deriving DecidableEq, Repr

namespace Request

/-- The operation's number (`Op as u32`) and the id field. -/
def opId : Request → UInt32 × UInt32
  | .setup => (1, 0)
  | .adopt id => (2, id)
  | .open => (3, 0)
  | .close id => (4, id)

/-- Whether the request travels with exactly one descriptor. -/
def carriesFd : Request → Bool
  | .setup | .open => true
  | .adopt _ | .close _ => false

end Request

/-- `u32::to_ne_bytes` on a little-endian host. -/
def toNeBytes (x : UInt32) : List UInt8 :=
  [UInt8.ofNat x.toNat, UInt8.ofNat (x.toNat / 256), UInt8.ofNat (x.toNat / 65536),
    UInt8.ofNat (x.toNat / 16777216)]

/-- The `u32` at byte `i` of a message. -/
def u32At (b : List UInt8) (i : Nat) : UInt32 :=
  UInt32.ofNat ((b.getD i 0).toNat + 256 * (b.getD (i + 1) 0).toNat
    + 65536 * (b.getD (i + 2) 0).toNat + 16777216 * (b.getD (i + 3) 0).toNat)

/-- `Request::encode`: magic, operation, id and four reserved zero bytes. -/
def Request.encode (req : Request) : List UInt8 :=
  toNeBytes MAGIC ++ toNeBytes req.opId.1 ++ toNeBytes req.opId.2 ++ [0, 0, 0, 0]

/-- The operation named by a request's second word. -/
def requestOf (op id : UInt32) : Except Errno Request :=
  match op.toNat with
  | 1 => .ok .setup
  | 2 => .ok (.adopt id)
  | 3 => .ok .open
  | 4 => .ok (.close id)
  | _ => .error EOPNOTSUPP

/-- Backing ids start at 1; a request that names none carries 0. -/
def Request.idOk (req : Request) (id : UInt32) : Bool :=
  match req with
  | .adopt id | .close id => id != 0
  | .setup | .open => id == 0

/-- `parse_request`: `nfds` descriptors arrived with the message, and the kernel may have cut it. -/
def parseRequest (buf : List UInt8) (nfds : Nat) (truncated : Bool) : Except Errno Request := do
  if truncated || buf.length != REQ_LEN then
    throw EINVAL
  if u32At buf 0 != MAGIC then
    throw EPROTO
  if u32At buf 12 != 0 then
    throw EINVAL
  let id := u32At buf 8
  let req ← requestOf (u32At buf 4) id
  let fdsOk := nfds == if req.carriesFd then 1 else 0
  if !req.idOk id || !fdsOk then
    throw EINVAL
  return req

/-- `encode_reply`: an error number is sent as at least 1, so that it is not read as success. -/
def encodeReply (r : Except Errno UInt32) : List UInt8 :=
  match r with
  | .ok v => toNeBytes 0 ++ toNeBytes v
  | .error e => toNeBytes (max e 1).toUInt32 ++ toNeBytes 0

/-- `decode_reply`: `none` for a reply of the wrong size. -/
def decodeReply (buf : List UInt8) : Option (Except Errno UInt32) :=
  if buf.length != REPLY_LEN then none
  else
    let err := u32At buf 0
    let val := u32At buf 4
    some (if err == 0 then .ok val else .error err.toInt32)

/-! ## The helper -/

/-- What `fstat` says of a descriptor. -/
structure Stat where
  regular : Bool
  uid : Nat
  deriving DecidableEq, Repr

/-- What `F_GETFL` says of a descriptor. -/
structure OpenFlags where
  oPath : Bool
  rdonly : Bool
  deriving DecidableEq, Repr

/-- A descriptor sent with a request: the open file behind it and what the kernel answers about
it. -/
structure Descriptor where
  file : Nat
  fstat : Except Errno Stat
  getfl : Except Errno OpenFlags
  /-- `fstatfs`: whether the file lies on a FUSE filesystem. -/
  onFuse : Except Errno Bool
  deriving DecidableEq

/-- `trait Kernel`, over the state `σ` of the connection's backing files. -/
structure Kernel (σ : Type) where
  isFuseDev : σ → Descriptor → Bool
  backingOpen : σ → Descriptor → Descriptor → Except Errno UInt32 × σ
  backingClose : σ → Descriptor → UInt32 → Except Errno Unit × σ

/-- `validate_backing_fd`. -/
def validateBackingFd (fd : Descriptor) (uid : Nat) : Except Errno Unit := do
  let st ← fd.fstat
  if !st.regular then
    throw EINVAL
  if st.uid != uid then
    throw EPERM
  let fl ← fd.getfl
  if fl.oPath then
    throw EINVAL
  if !fl.rdonly then
    throw EACCES
  if ← fd.onFuse then
    throw ELOOP

/-- `struct Server`. -/
structure Server (σ : Type) where
  kernel : σ
  uid : Nat
  capable : Bool
  fuse : Option Descriptor
  /-- Ids this helper may close: those it registered and those it adopted. -/
  ids : List UInt32
  openedAny : Bool

namespace Server

variable {σ : Type} (K : Kernel σ)

/-- `Server::new`. -/
def new (kernel : σ) (uid : Nat) (capable : Bool) : Server σ :=
  { kernel, uid, capable, fuse := none, ids := [], openedAny := false }

/-- `Server::handle`: answers one request. -/
def handle (s : Server σ) (req : Request) (fd : Option Descriptor) :
    Except Errno UInt32 × Server σ :=
  match req with
  | .setup =>
    match fd with
    | none => (.error EINVAL, s)
    | some fd =>
      if s.fuse.isSome then (.error EALREADY, s)
      else if !K.isFuseDev s.kernel fd then (.error ENODEV, s)
      else (.ok (if s.capable then 1 else 0), { s with fuse := some fd })
  | .adopt id =>
    if s.fuse.isNone then (.error ENOTCONN, s)
    else if s.openedAny then (.error EPERM, s)
    else (.ok 0, { s with ids := s.ids.insert id })
  | .open =>
    match fd, s.fuse with
    | none, _ => (.error EINVAL, s)
    | some _, none => (.error ENOTCONN, s)
    | some file, some fuse =>
      match validateBackingFd file s.uid with
      | .error e => (.error e, s)
      | .ok () =>
        match K.backingOpen s.kernel fuse file with
        | (.error e, k) => (.error e, { s with openedAny := true, kernel := k })
        | (.ok id, k) =>
          (.ok id, { s with openedAny := true, kernel := k, ids := s.ids.insert id })
  | .close id =>
    match s.fuse with
    | none => (.error ENOTCONN, s)
    | some fuse =>
      if id ∉ s.ids then (.error ENOENT, s)
      else
        match K.backingClose s.kernel fuse id with
        | (.error e, k) => (.error e, { s with ids := s.ids.erase id, kernel := k })
        | (.ok (), k) => (.ok 0, { s with ids := s.ids.erase id, kernel := k })

/-- One turn of `serve`'s loop: the reply to one message. The socket passes whole messages with
room for one descriptor, and a `Helper` never sends more than that. -/
def serve (s : Server σ) (payload : List UInt8) (fd : Option Descriptor) :
    Except Errno UInt32 × Server σ :=
  match parseRequest payload fd.toList.length false with
  | .error e => (.error e, s)
  | .ok req => s.handle K req fd

end Server

/-! ## The daemon's calls -/

/-- `io::Error`, as `call_raw_fds` builds it. -/
inductive CallError where
  | os (e : Errno)
  | unexpectedEof
  | invalidData
  deriving DecidableEq, Repr

/-- `io::Result<Result<u32, i32>>`: the outer error is the transport's, the inner one the
helper's. -/
abbrev CallResult := Except CallError (Except Errno UInt32)

/-- One `Helper::call`, numbered in the order in which the calls got the channel. -/
structure Call where
  number : Nat
  req : Request
  fd : Option Descriptor
  deriving DecidableEq

/-- `Helper::open_backing`'s result from its call's. -/
def openBackingResult (r : CallResult) : Except CallError UInt32 :=
  match r with
  | .error e => .error e
  | .ok (.error e) => .error (.os e)
  | .ok (.ok id) => .ok id

/-- `Helper::close_backing`'s result from its call's. -/
def closeBackingResult (r : CallResult) : Except CallError Unit :=
  match r with
  | .error e => .error e
  | .ok (.error e) => .error (.os e)
  | .ok (.ok _) => .ok ()

/-- A request on its way to the helper. The call's number is not on the wire. -/
structure Sent where
  number : Nat
  payload : List UInt8
  fd : Option Descriptor

/-- A reply on its way to the daemon. The call's number is not on the wire. -/
structure Reply where
  number : Nat
  payload : List UInt8

/-- The helper served the message of one call in the state `before`. -/
structure Served (σ : Type) where
  number : Nat
  before : Server σ

/-- The socket pair with a `Helper` at one end and the helper process at the other. -/
structure Conversation (σ : Type) where
  server : Server σ
  /-- The helper process still runs. -/
  alive : Bool
  /-- Requests the helper has not received, oldest first. -/
  requests : List Sent
  /-- Replies the daemon has not received, oldest first. -/
  replies : List Reply
  /-- The call that holds the channel's mutex and waits in `recv`. -/
  waiting : Option Call
  /-- How many calls have sent their request. -/
  calls : Nat
  /-- What each finished call returned. -/
  returned : List (Call × CallResult)
  /-- What the helper did, message by message. -/
  served : List (Served σ)
  /-- Some call returned at its reply timeout. -/
  timedOut : Bool

namespace Conversation

variable {σ : Type} (K : Kernel σ)

/-- `Helper::start`, with a helper that has served nothing. -/
def start (server : Server σ) : Conversation σ :=
  { server, alive := true, requests := [], replies := [], waiting := none, calls := 0,
    returned := [], served := [], timedOut := false }

/-- The steps of the threads that call and of the helper. -/
inductive Event where
  /-- A call gets the mutex and its `sendmsg` succeeds. -/
  | send (req : Request) (fd : Option Descriptor)
  /-- A call gets the mutex and its `sendmsg` fails. -/
  | sendFails (req : Request) (fd : Option Descriptor) (e : Errno)
  /-- The helper receives its next message and replies. -/
  | answer
  /-- The helper exits; what it has not received is lost. -/
  | exit
  /-- The waiting call's `recv` returns the next reply. -/
  | recv
  /-- The waiting call's `recv` finds nothing for `REPLY_TIMEOUT`. -/
  | timeout
  /-- The waiting call's `recv` finds the helper gone: end of file, or an error. -/
  | gone (e : CallError)
  deriving DecidableEq

/-- What `call_raw_fds` makes of a received message. -/
def received (payload : List UInt8) : CallResult :=
  if payload.length == 0 then .error .unexpectedEof
  else
    match decodeReply payload with
    | some r => .ok r
    | none => .error .invalidData

/-- The waiting call returns `r` and the mutex is free. -/
def finish (w : Conversation σ) (c : Call) (r : CallResult) : Conversation σ :=
  { w with waiting := none, returned := w.returned ++ [(c, r)] }

/-- One step, when it can happen. -/
def step (w : Conversation σ) : Event → Option (Conversation σ)
  | .send req fd =>
    if w.waiting.isNone && w.alive then
      some { w with
        waiting := some ⟨w.calls, req, fd⟩, calls := w.calls + 1,
        requests := w.requests ++ [⟨w.calls, req.encode, fd⟩] }
    else none
  | .sendFails req fd e =>
    if w.waiting.isNone then
      some ({ w with calls := w.calls + 1 }.finish ⟨w.calls, req, fd⟩ (.error (.os e)))
    else none
  | .answer =>
    match w.alive, w.requests with
    | true, m :: rest =>
      let (r, server) := w.server.serve K m.payload m.fd
      some { w with
        server, requests := rest, replies := w.replies ++ [⟨m.number, encodeReply r⟩],
        served := w.served ++ [⟨m.number, w.server⟩] }
    | _, _ => none
  | .exit => if w.alive then some { w with alive := false, requests := [] } else none
  | .recv =>
    match w.waiting, w.replies with
    | some c, m :: rest => some ({ w with replies := rest }.finish c (received m.payload))
    | _, _ => none
  | .timeout =>
    match w.waiting, w.replies with
    | some c, [] => some ({ w with timedOut := true }.finish c (.error (.os EAGAIN)))
    | _, _ => none
  | .gone e =>
    match w.waiting with
    | some c => if w.alive then none else some (w.finish c (.error e))
    | none => none

/-- A run. -/
def steps (w : Conversation σ) : List Event → Option (Conversation σ)
  | [] => some w
  | e :: es => (w.step K e).bind (·.steps es)

end Conversation

end Ncrs.Passthrough
