import Ncrs.Native.PassthroughHelper

/-!
# The passthrough helper's receive loop

`serve` of `server.rs` on whatever arrives: `recv_one` copies at most one byte more than a request
out of a message, and the kernel passes on any number of descriptors with it and may report either
part as cut. Each message is one turn of the loop. A turn is kept with the calls it made to the
kernel, which a wrapper around the `Kernel` records.
-/

namespace Ncrs.Passthrough

/-- What one `recvmsg` finds on the socket. -/
structure Message where
  payload : List UInt8
  /-- The descriptors in its control data. -/
  fds : List Descriptor
  /-- `MSG_TRUNC` or `MSG_CTRUNC` is set. -/
  truncated : Bool

/-- The receive buffer of `serve`. -/
def RECV_LEN : Nat := REQ_LEN + 1

namespace Message

/-- The received bytes, `&buf[..m.len]`. -/
def received (m : Message) : List UInt8 := m.payload.take RECV_LEN

/-- `recv_one` answers `None`: the daemon closed its end. -/
def closes (m : Message) : Bool := m.payload.isEmpty && m.fds.isEmpty && !m.truncated

/-- The first descriptor is kept (`fds[0]`), any other only noted (`extra_fds`). -/
def nfds (m : Message) : Nat :=
  (if m.fds.head?.isSome then 1 else 0) + if 1 < m.fds.length then 1 else 0

end Message

/-- A call of the `Kernel` trait that acts on the connection. -/
inductive KernelCall where
  | backingOpen (fuse file : Descriptor) (result : Except Errno UInt32)
  | backingClose (fuse : Descriptor) (id : UInt32) (result : Except Errno Unit)

variable {σ : Type}

/-- The same kernel, with a record of what it was asked. -/
def Kernel.logged (K : Kernel σ) : Kernel (σ × List KernelCall) where
  isFuseDev k fd := K.isFuseDev k.1 fd
  backingOpen k fuse file :=
    let (r, next) := K.backingOpen k.1 fuse file
    (r, next, k.2 ++ [.backingOpen fuse file r])
  backingClose k fuse id :=
    let (r, next) := K.backingClose k.1 fuse id
    (r, next, k.2 ++ [.backingClose fuse id r])

namespace Server

/-- The server with another kernel state. -/
def withKernel {τ : Type} (s : Server σ) (kernel : τ) : Server τ :=
  { kernel := kernel
    uid := s.uid
    capable := s.capable
    fuse := s.fuse
    ids := s.ids
    openedAny := s.openedAny }

/-- The reply to one message. -/
def serveMessage (K : Kernel σ) (s : Server σ) (m : Message) : Except Errno UInt32 × Server σ :=
  match parseRequest m.received m.nfds m.truncated with
  | .error e => (.error e, s)
  | .ok req => s.handle K req m.fds.head?

end Server

/-- One turn of the loop: what was received, the server before and after, and what it did. -/
structure Turn (σ : Type) where
  message : Message
  before : Server σ
  reply : Except Errno UInt32
  calls : List KernelCall
  after : Server σ

namespace Turn

/-- What `parse_request` made of the message. -/
def request (t : Turn σ) : Except Errno Request :=
  parseRequest t.message.received t.message.nfds t.message.truncated

end Turn

/-- `serve`'s loop body on `m`. -/
def Server.turn (K : Kernel σ) (s : Server σ) (m : Message) : Turn σ :=
  let r := (s.withKernel (s.kernel, [])).serveMessage K.logged m
  { message := m
    before := s
    reply := r.1
    calls := r.2.kernel.2
    after := r.2.withKernel r.2.kernel.1 }

/-- The helper process: its server and the turns so far. -/
structure HelperRun (σ : Type) where
  server : Server σ
  turns : List (Turn σ) := []

namespace HelperRun

/-- `main`: the server before it has received anything. -/
def start (kernel : σ) (uid : Nat) (capable : Bool) : HelperRun σ :=
  { server := .new kernel uid capable }

def step (K : Kernel σ) (h : HelperRun σ) (m : Message) : Option (HelperRun σ) :=
  if m.closes then none
  else
    let t := h.server.turn K m
    some { server := t.after, turns := h.turns ++ [t] }

def steps (K : Kernel σ) (h : HelperRun σ) : List Message → Option (HelperRun σ)
  | [] => some h
  | m :: ms => (h.step K m).bind (·.steps K ms)

end HelperRun

end Ncrs.Passthrough
