import Tflib.Ae.FileEvents
import Tflib.Core.Bytes
import Tflib.Ipc.Queue

/-! # State of the service

The process manager with the slot table it maps from shared memory, and the
part of the kernel that the handlers talk to. The three byte arrays at the end
of `PROCESS_MGR_ST` are adjacent in memory and are kept in one `Memory`, whose
addresses count from `mq_data.data[0]`.
-/

namespace Tflib.Nac

open Tflib.Core Ae Ipc

def maxPeerNums : Nat := 10000
def peerIdOffset : UInt32 := 20140000
def maxPacketLen : Nat := 4096

/-- A pointer into `_s_->slots`. -/
abbrev Peer := Fin maxPeerNums

instance : NeZero maxPeerNums := ⟨by decide⟩

/-- `PEER_INFO_ST`, without the reserved bits. -/
structure PeerInfo where
  id : UInt32
  fd : Nat
  active : Bool
  authed : Bool
  ip : UInt32
  port : UInt16
  sessionTimer : UInt16
  deriving DecidableEq, Repr

/-- The callbacks that the service registers. -/
inductive FileProc
  | acceptTcpHandler
  | peerRequestHandler
  | messageResponseHandler
  deriving DecidableEq, Repr

/-- What the service passes as `clientData`. -/
inductive ClientData
  | processMgr
  | peer (p : Peer)
  deriving DecidableEq, Repr

abbrev EventLoop := AeEventLoop FileProc ClientData

/-! ## Addresses of the byte arrays -/

/-- `&process_mgr->mq_data.data[i]` -/
def mqDataAt (i : Nat) : Nat := i

/-- `&process_mgr->data[i]` -/
def dataAt (i : Nat) : Nat := maxMqueueLen + i

/-- `&process_mgr->buffer[i]` -/
def bufferAt (i : Nat) : Nat := 2 * maxMqueueLen + i

/-! ## The two halves of the state -/

/-- The fields of `PROCESS_MGR_ST` that the event loop's callbacks use, with the
slot table behind `_s_`. -/
structure ProcessMgr where
  appId : UInt32
  serverFd : Nat
  socketTimeout : UInt16
  connections : UInt16
  cycleStep : UInt32
  deviceInQueueId : Int
  deviceOutQueueId : Int
  el : EventLoop
  /-- `mqueue[0]`, the reading end of the pipe -/
  mqueue : Nat
  slots : Peer → PeerInfo
  /-- `mq_data.msg_type` -/
  msgType : Int
  /-- `mq_data.data`, `data` and `buffer` -/
  mem : Memory

/-- What an open descriptor of the process refers to. `client k` is the end of
the `k`-th connection that was ever accepted. -/
inductive Descriptor
  | listening
  | pipe
  | client (k : Nat)
  | other
  deriving DecidableEq, Repr

def Descriptor.client? : Descriptor → Option Nat
  | .client k => some k
  | _ => none

/-- The kernel's side: open descriptors, bytes under way to each of them, and
what the process has handed over or closed so far. -/
structure Kernel where
  fds : Nat → Option Descriptor
  inbox : Nat → Bytes
  /-- connections accepted so far -/
  accepted : Nat
  /-- messages put on the device's queue, in order -/
  sent : List MqData
  /-- bytes written to sockets, with what the descriptor referred to -/
  written : List (Option Descriptor × Bytes)
  /-- what each `close` closed, in order -/
  closed : List (Option Descriptor)

namespace Kernel

/-- `close(fd)`. -/
def close (k : Kernel) (fd : Nat) : Kernel :=
  { k with fds := Function.update k.fds fd none, closed := k.closed ++ [k.fds fd] }

/-- A successful `accept` that returned `fd`. -/
def accept (k : Kernel) (fd : Nat) : Kernel :=
  { k with
    fds := Function.update k.fds fd (some (.client k.accepted))
    inbox := Function.update k.inbox fd []
    accepted := k.accepted + 1 }

/-- The bytes that stay on `fd` after a read. -/
def leave (k : Kernel) (fd : Nat) (rest : Bytes) : Kernel :=
  { k with inbox := Function.update k.inbox fd rest }

def arrive (k : Kernel) (fd : Nat) (bytes : Bytes) : Kernel :=
  { k with inbox := Function.update k.inbox fd (k.inbox fd ++ bytes) }

@[simp] theorem inbox_leave (k : Kernel) (fd : Nat) (rest : Bytes) :
    (k.leave fd rest).inbox fd = rest := Function.update_self _ _ _

end Kernel

structure World where
  mgr : ProcessMgr
  kernel : Kernel

namespace World

/-- The bytes of a read: they leave the kernel and are stored at `buf`. -/
def receive (w : World) (fd : Nat) (rest : Bytes) (buf : Nat) (moved : Bytes) : World :=
  { mgr := { w.mgr with mem := w.mgr.mem.store buf moved }
    kernel := w.kernel.leave fd rest }

/-- A successful `accept` that returned `fd`. -/
def accept (w : World) (fd : Nat) : World := { w with kernel := w.kernel.accept fd }

def setLoop (w : World) (el : EventLoop) : World := { w with mgr := { w.mgr with el := el } }

def setSlot (w : World) (p : Peer) (info : PeerInfo) : World :=
  { w with mgr := { w.mgr with slots := Function.update w.mgr.slots p info } }

end World

end Tflib.Nac
