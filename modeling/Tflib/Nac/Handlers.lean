import Tflib.Nac.State
import Tflib.Socket.Net
import Tflib.Socket.Transfer
import Tflib.Core.Machine

/-! # The event handlers of `tfnac/main.c`

Each handler is a function of the state and of what the system calls it makes
answer (`Calls`). The log calls are left out: they read the state and change
nothing.
-/

namespace Tflib.Nac

open Tflib.Core Ae Ipc Socket

/-- What the system calls of one callback answer. -/
structure Calls where
  accept : List AcceptResult := []
  apiAdd : Bool := true
  reads : List CallResult := []
  writes : List CallResult := []
  now : UInt32 := 0
  msgsnd : Bool := true

/-! ## Slots -/

/-- The `for` loop of `get_idle_peer` from index `i`, with `n` rounds to go. -/
def idlePeerFrom (slots : Peer → PeerInfo) (i : Nat) : Nat → Option Peer
  | 0 => none
  | n + 1 =>
      if h : i < maxPeerNums then
        if !(slots ⟨i, h⟩).active then some ⟨i, h⟩ else idlePeerFrom slots (i + 1) n
      else none

def getIdlePeer (mgr : ProcessMgr) : Option Peer := idlePeerFrom mgr.slots 0 maxPeerNums

def getActivePeer (mgr : ProcessMgr) (id : UInt32) : Option Peer :=
  -- int index = id - PEER_ID_OFFSET
  let index : Int := (id - peerIdOffset).toInt32.toInt
  if h : index > 0 ∧ index < maxPeerNums then
    let peer : Peer := ⟨index.toNat, by omega⟩
    if (mgr.slots peer).active then some peer else none
  else none

def closePeer (w : World) (peer : Peer) : World :=
  let info := w.mgr.slots peer
  { mgr :=
      { w.mgr with
        el := aeDeleteFileEvent w.mgr.el info.fd aeReadable
        slots := Function.update w.mgr.slots peer { info with active := false, authed := false }
        connections := w.mgr.connections - 1 }
    kernel := w.kernel.close info.fd }

/-- `peer->session_timer = process_mgr->socket_timeout` -/
def reloadTimer (w : World) (peer : Peer) : World :=
  w.setSlot peer { w.mgr.slots peer with sessionTimer := w.mgr.socketTimeout }

/-! ## Timer -/

/-- One round of the `for` loop of `life_cycle_handler`. -/
def lifeCyclePeer (w : World) (peer : Peer) : World :=
  let info := w.mgr.slots peer
  if info.active then
    let timer := info.sessionTimer - 1
    let w := w.setSlot peer { info with sessionTimer := timer }
    if timer = 0 then closePeer w peer else w
  else w

def lifeCycleLoop (w : World) : World := (List.finRange maxPeerNums).foldl lifeCyclePeer w

/-- `life_cycle_handler` and the milliseconds it returns, an `int`. -/
def lifeCycleHandler (w : World) : World × Int :=
  let w := lifeCycleLoop w
  (w, w.mgr.cycleStep.toInt32.toInt)

/-! ## Accept -/

/-- The stores into the slot and the counter that follow `accept`. -/
def admitPeer (w : World) (peer : Peer) (fd : Nat) (ip : UInt32) (port : UInt16) : World :=
  { w with
    mgr :=
      { w.mgr with
        slots := Function.update w.mgr.slots peer
          { w.mgr.slots peer with fd := fd, ip := ip, port := port, active := true }
        connections := w.mgr.connections + 1 } }

def acceptTcpHandler (io : Calls) (w : World) : World :=
  match tfnetTcpAccept2 io.accept with
  | none => w
  | some (cfd, cip, cport) =>
      let w := w.accept cfd
      match getIdlePeer w.mgr with
      | none => w
      | some peer =>
          let w := admitPeer w peer cfd cip cport
          match aeCreateFileEvent w.mgr.el cfd aeReadable .peerRequestHandler (.peer peer) io.apiAdd with
          | none => closePeer w peer
          | some el => reloadTimer (w.setLoop el) peer

/-! ## Requests -/

/-- `(0x0fff0000 & cmd) >> 16` -/
def destination (cmd : UInt32) : UInt32 := (0x0fff0000 &&& cmd) >>> 16

/-- The `host32cpy` and `memcpy` calls that build the queue message from the
frame in `buffer`: target in `mq_data.data` and bytes. -/
def requestStores (mgr : ProcessMgr) (peer : Peer) (now : UInt32) (len : Nat) : List (Nat × Bytes) :=
  let cmd := net32cpy mgr.mem (bufferAt 0)
  [(0, host32 mgr.appId), (4, host32 (destination cmd)), (8, host32 (mgr.slots peer).id),
    (12, host32 now), (16, host32 cmd), (20, host32 0),
    (24, mgr.mem.load (bufferAt 8) (len - 8))]

/-- `wlen` after all the stores. -/
def requestLength (len : Nat) : Nat := 4 + 4 + 4 + 4 + 4 + 4 + len - 8

def storeRequest (mgr : ProcessMgr) (peer : Peer) (now : UInt32) (len : Nat) : ProcessMgr :=
  let cmd := net32cpy mgr.mem (bufferAt 0)
  { mgr with
    mem := (requestStores mgr peer now len).foldl (fun m s => m.store (mqDataAt s.1) s.2) mgr.mem
    msgType := (destination cmd).toNat }

/-- The message that `ipc_write_queue` is given. -/
def queuedRequest (mgr : ProcessMgr) (len : Nat) : MqData :=
  ⟨mgr.msgType, mgr.mem.load (mqDataAt 0) (requestLength len)⟩

/-- From the complete frame in `buffer` to the end of `peer_request_handler`. -/
def forwardRequest (io : Calls) (peer : Peer) (len : Nat) (w : World) : World :=
  let w := { w with mgr := storeRequest w.mgr peer io.now len }
  let msg := queuedRequest w.mgr len
  if ipcWriteQueue w.mgr.deviceOutQueueId msg io.msgsnd then
    reloadTimer { w with kernel := { w.kernel with sent := w.kernel.sent ++ [msg] } } peer
  else closePeer w peer

def peerRequestHandler (io : Calls) (fd : Nat) (peer : Peer) (w : World) : World :=
  let head := tfnetRead io.reads (w.kernel.inbox fd) 2
  let w := { w with kernel := w.kernel.leave fd head.rest }
  if head.ret ≠ 2 then closePeer w peer
  else
    let len := (net16 head.moved).toNat
    if len > maxPacketLen ∨ len < 8 then closePeer w peer
    else
      let body := tfnetRead head.script (w.kernel.inbox fd) len
      let w := w.receive fd body.rest (bufferAt 0) body.moved
      if body.ret ≠ len then closePeer w peer
      else forwardRequest io peer len w

/-! ## Responses -/

/-- The reads at the start of `message_response_handler`: the frame's length
once it stands in `buffer`. -/
def takeResponse (io : Calls) (fd : Nat) (w : World) : World × Option UInt16 :=
  let head := tfnetRead io.reads (w.kernel.inbox fd) 2
  let w := { w with kernel := w.kernel.leave fd head.rest }
  if head.ret ≠ 2 then (w, none)
  else
    let len := net16 head.moved
    let body := tfnetRead head.script (w.kernel.inbox fd) len.toNat
    let w := w.receive fd body.rest (bufferAt 0) body.moved
    if body.ret ≠ len.toNat then (w, none) else (w, some len)

/-- The bytes given to `tfnet_write`, after the length is stored before them. -/
def responseBytes (mem : Memory) (wlen : UInt16) : Bytes :=
  (host16cpy mem (bufferAt 14) wlen).load (bufferAt 14) (wlen.toNat + 2)

/-- From the lookup's success to the end of `message_response_handler`. -/
def deliverResponse (io : Calls) (peer : Peer) (len : UInt16) (w : World) : World :=
  let wlen := len - 16
  let out := tfnetWrite io.writes (responseBytes w.mgr.mem wlen)
  let target := w.kernel.fds (w.mgr.slots peer).fd
  let w :=
    { mgr := { w.mgr with mem := host16cpy w.mgr.mem (bufferAt 14) wlen }
      kernel := { w.kernel with written := w.kernel.written ++ [(target, out.moved)] } }
  if out.ret < 0 then closePeer w peer else reloadTimer w peer

/-- From the lookup to the end of `message_response_handler`. -/
def routeResponse (io : Calls) (len : UInt16) (id : UInt32) (w : World) : World :=
  match getActivePeer w.mgr id with
  | none => w
  | some peer => deliverResponse io peer len w

def messageResponseHandler (io : Calls) (fd : Nat) (w : World) : World :=
  match takeResponse io fd w with
  | (w, none) => w
  | (w, some len) => routeResponse io len (net32cpy w.mgr.mem (bufferAt 8)) w

/-! ## Dispatch -/

/-- The body of `aeProcessEvents` for one fired descriptor. The mask is tested
again here, so an event that fired before its descriptor was closed calls
nothing unless the descriptor was registered anew. -/
def dispatch (io : Calls) (fd : Nat) (w : World) : World :=
  let fe := w.mgr.el.events fd
  if fe.readable then
    match fe.rfileProc, fe.clientData with
    | some .acceptTcpHandler, _ => acceptTcpHandler io w
    | some .peerRequestHandler, some (.peer p) => peerRequestHandler io fd p w
    | some .messageResponseHandler, _ => messageResponseHandler io fd w
    | _, _ => w
  else w

/-! ## The service as a machine -/

inductive Event
  /-- bytes reach an open descriptor -/
  | arrive (fd : Nat) (bytes : Bytes)
  /-- the loop dispatches a readable descriptor -/
  | file (fd : Nat) (io : Calls)
  /-- the loop runs the timer -/
  | tick

def exec (w : World) : Event → World
  | .arrive fd bytes => { w with kernel := w.kernel.arrive fd bytes }
  | .file fd io => dispatch io fd w
  | .tick => (lifeCycleHandler w).1

/-- `accept` returns a descriptor that is not open; every other answer of every
call is possible at any time. -/
def Admissible (w : World) : Event → Prop
  | .file _ io => ∀ cfd cip cport, tfnetTcpAccept2 io.accept = some (cfd, cip, cport) →
      w.kernel.fds cfd = none
  | _ => True

def service : Machine World Event where
  step := exec
  admits := Admissible

end Tflib.Nac
