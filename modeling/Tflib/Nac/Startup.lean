import Tflib.Ipc.Shm
import Tflib.Nac.Refine

/-! # Start-up: `tfnac/config.c` and the set-up in `main`

The slot table lives in shared memory and outlives the process; everything else
starts from zero. A function here answers `none` where the process does not get
past the step.
-/

namespace Tflib.Nac

open Tflib.Core Ae Ipc Socket

/-! ## `config.c` -/

/-- `SHMEM_MGR_ST`. -/
structure ShmemMgr where
  current : UInt16
  slots : Peer → PeerInfo

/-- What `memset(_s_, 0, sizeof(SHMEM_MGR_ST))` leaves. -/
def ShmemMgr.zero : ShmemMgr := ⟨0, fun _ => ⟨0, 0, false, false, 0, 0, 0⟩⟩

/-- `i + PEER_ID_OFFSET` -/
def peerId (p : Peer) : UInt32 := UInt32.ofNat p.val + peerIdOffset

/-- The `general` group of the configuration file: what `cfg_get_kv` finds under
a key, already converted. -/
structure CfgGroup where
  int : String → Option Int
  bool : String → Option Bool

def cfgGetInt (group : CfgGroup) (key : String) (dft : Int) : Int := (group.int key).getD dft

def cfgGetBool (group : CfgGroup) (key : String) (dft : Bool) : Bool := (group.bool key).getD dft

/-- The fields of `PROCESS_MGR_ST` that `initialize` sets. -/
structure Boot where
  reload : Bool
  appId : UInt32
  serverPort : UInt16
  socketTimeout : UInt16
  connections : UInt16
  cycleStep : UInt32
  deviceInQueueId : Int
  deviceOutQueueId : Int
  shm : ShmPtr ShmemMgr

/-- What the system calls of `initialize` answer. -/
structure InitCalls where
  openShm : ShmCalls ShmemMgr
  createShm : ShmCalls ShmemMgr
  queueKeyIn : KeyCalls
  msggetIn : Int
  queueKeyOut : KeyCalls
  msggetOut : Int

/-- The assignments in the `group != NULL` branch of `initialize`. -/
def readSettings (group : CfgGroup) : Boot where
  appId := UInt32.ofInt (cfgGetInt group "app_id" 120)
  reload := cfgGetBool group "reload" false
  serverPort := UInt16.ofInt (cfgGetInt group "server_port" 7960)
  socketTimeout := UInt16.ofInt (cfgGetInt group "socket_timeout" 300)
  cycleStep := UInt32.ofInt (cfgGetInt group "cycle_step" 1000)
  connections := 0
  deviceInQueueId := -1
  deviceOutQueueId := -1
  shm := .null

/-- Why start-up does not go on: `false` is returned, or a store through the
`(void *)-1` of a refused `shmat` ends the process. -/
inductive Stop
  | failed
  | segfault
  deriving DecidableEq, Repr

def loadShareMemory (sys : InitCalls) (b : Boot) : Except Stop Boot :=
  let b := { b with shm := ipcShmOpen sys.openShm }
  if b.shm.isNull then
    match ipcShmCreate sys.createShm with
    | .null => .error .failed
    | .failed => .error .segfault
    | .attached _ => .ok { b with shm := .attached .zero, reload := true }
  else .ok b

def createMessageQueue (sys : InitCalls) (b : Boot) : Except Stop Boot :=
  let b :=
    { b with
      deviceInQueueId := ipcQueueCreate sys.queueKeyIn sys.msggetIn
      deviceOutQueueId := ipcQueueCreate sys.queueKeyOut sys.msggetOut }
  if b.deviceInQueueId < 0 || b.deviceOutQueueId < 0 then .error .failed else .ok b

/-- The stores that `init_peers` makes into one slot. -/
def initPeer (p : Peer) (info : PeerInfo) : PeerInfo :=
  { info with id := peerId p, fd := 0, active := false, authed := false, sessionTimer := 0 }

def initPeers (b : Boot) : Except Stop Boot :=
  if !b.reload then .ok b
  else
    match b.shm with
    | .attached s => .ok { b with shm := .attached ⟨0, fun p => initPeer p (s.slots p)⟩ }
    | _ => .error .segfault

/-- `initialize(filename, console)`; `cfg` is the parsed file with its `general`
group, where there are such. -/
def initializeProcess (cfg : Option (Option CfgGroup)) (console : Bool) (sys : InitCalls) :
    Except Stop Boot :=
  match cfg with
  | some (some group) => do
      let b ← loadShareMemory sys (readSettings group)
      let b ← createMessageQueue sys b
      if console then return b else initPeers b
  | _ => .error .failed

/-! ## `main` -/

/-- What the calls of `main` answer on the way to `aeMain`. -/
structure StartCalls where
  tcpServer : Option Nat
  createLoop : Bool
  addServer : Bool
  socketpair : Option (Nat × Nat)
  addPipe : Bool

/-- From `initialize`'s success to `aeMain`, on top of the kernel state `k`. -/
def startService (b : Boot) (k : Kernel) (c : StartCalls) : Option World := do
  -- without a port there is no event loop to register the pipe with
  guard (b.serverPort ≠ 0)
  let serverFd ← c.tcpServer
  guard c.createLoop
  let el ← aeCreateFileEvent (aeCreateEventLoop (maxPeerNums + 1024)) serverFd aeReadable
    .acceptTcpHandler .processMgr c.addServer
  let (mqueue, mqueueThread) ← c.socketpair
  let el ← aeCreateFileEvent el mqueue aeReadable .messageResponseHandler .processMgr c.addPipe
  let s ← b.shm.attached?
  let fds := Function.update k.fds serverFd (some .listening)
  let fds := Function.update fds mqueue (some .pipe)
  return {
    mgr :=
      { appId := b.appId
        serverFd := serverFd
        socketTimeout := b.socketTimeout
        connections := b.connections
        cycleStep := b.cycleStep
        deviceInQueueId := b.deviceInQueueId
        deviceOutQueueId := b.deviceOutQueueId
        el := el
        mqueue := mqueue
        slots := s.slots
        msgType := 0
        mem := fun _ => 0 }
    kernel := { k with fds := Function.update fds mqueueThread (some .other) } }

/-- The descriptors `main` gets are different, and the process has no connections yet. -/
structure NewProcess (k : Kernel) (c : StartCalls) : Prop where
  pair : ∀ fd fd', c.socketpair = some (fd, fd') →
    fd ≠ fd' ∧ c.tcpServer ≠ some fd ∧ c.tcpServer ≠ some fd'
  clients : ∀ fd n, k.fds fd ≠ some (.client n)
  closed : k.closed = []

/-! ## The service before its first event -/

/-- Two descriptors are registered, and nothing else is there. -/
structure Started (w : World) : Prop where
  inactive : ∀ p, (w.mgr.slots p).active = false
  connections : w.mgr.connections = 0
  distinct : w.mgr.serverFd ≠ w.mgr.mqueue
  listening : w.kernel.fds w.mgr.serverFd = some .listening
  pipe : w.kernel.fds w.mgr.mqueue = some .pipe
  accepts : Serves w w.mgr.serverFd .acceptTcpHandler
  responds : Serves w w.mgr.mqueue .messageResponseHandler
  alone : ∀ fd, fd ≠ w.mgr.serverFd → fd ≠ w.mgr.mqueue → (w.mgr.el.events fd).mask = aeNone
  clients : ∀ fd n, w.kernel.fds fd ≠ some (.client n)

theorem Serves.watch {w : World} {fd : Nat} {proc : FileProc} (r : Serves w fd proc) :
    w.watch fd = none := by
  simp [World.watch, r.data]

theorem Started.wired {w : World} (h : Started w) : Wired w where
  distinct := h.distinct
  listening := h.listening
  pipe := h.pipe
  accepts := h.accepts
  responds := h.responds
  peers fd hs hm hmask := absurd (h.alone fd hs hm) hmask

theorem Started.sound {w : World} (h : Started w) : Sound w := by
  have howner : ∀ p, w.ledger.owner p = none := fun p => by simp [World.ledger, h.inactive]
  have hwatch : ∀ fd, w.watch fd = none := by
    intro fd
    by_cases hs : fd = w.mgr.serverFd
    · exact hs ▸ h.accepts.watch
    · by_cases hm : fd = w.mgr.mqueue
      · exact hm ▸ h.responds.watch
      · simp [World.watch, h.alone fd hs hm]
  refine ⟨h.wired, ?_, ?_, ?_⟩
  · intro p fd hp
    rw [howner] at hp
    contradiction
  · intro p fd
    rw [howner]
    change w.watch fd = some p ↔ none = some fd
    rw [hwatch]
    simp
  · change w.mgr.connections.toNat = w.ledger.used.card
    have hused : w.ledger.used = ∅ := by
      apply Finset.eq_empty_of_forall_notMem
      intro p hp
      simp [Ledger.mem_used, howner] at hp
    rw [hused, h.connections]
    rfl

/-- Everything `startService` did, when the service reaches `aeMain`. -/
theorem startService_cases {b : Boot} {k : Kernel} {c : StartCalls} {w : World}
    (h : startService b k c = some w) :
    ∃ serverFd mqueue mqueueThread s el₀ el, c.tcpServer = some serverFd ∧
      c.socketpair = some (mqueue, mqueueThread) ∧ b.shm = .attached s ∧
      Adds (aeCreateEventLoop (maxPeerNums + 1024)) el₀ serverFd aeReadable
        FileProc.acceptTcpHandler ClientData.processMgr ∧
      Adds el₀ el mqueue aeReadable .messageResponseHandler .processMgr ∧
      w.mgr.serverFd = serverFd ∧ w.mgr.mqueue = mqueue ∧ w.mgr.el = el ∧
      w.mgr.connections = b.connections ∧ w.mgr.slots = s.slots ∧
      w.kernel = { k with
        fds := Function.update (Function.update (Function.update k.fds serverFd (some .listening))
          mqueue (some .pipe)) mqueueThread (some .other) } := by
  simp only [startService, Option.bind_eq_bind, Option.bind_eq_some_iff, Option.pure_def,
    Option.some.injEq] at h
  obtain ⟨_, _, serverFd, hserver, _, _, el₀, hel₀, ⟨mqueue, mqueueThread⟩, hpair, el, hel, s, hs,
    rfl⟩ := h
  have hattached : b.shm = .attached s := by
    cases hb : b.shm <;> simp_all [ShmPtr.attached?]
  exact ⟨serverFd, mqueue, mqueueThread, s, el₀, el, hserver, hpair, hattached,
    aeCreateFileEvent_adds hel₀, aeCreateFileEvent_adds hel, rfl, rfl, rfl, rfl, rfl, rfl⟩

theorem startService_started {b : Boot} {k : Kernel} {c : StartCalls} {w : World}
    (h : startService b k c = some w) (new : NewProcess k c) (hconn : b.connections = 0)
    (hinactive : ∀ s, b.shm = .attached s → ∀ p, (s.slots p).active = false) : Started w := by
  obtain ⟨serverFd, mqueue, mqueueThread, s, el₀, el, hserver, hpair, hs, hadds₀, hadds, hfd, hmq,
    hel, hconns, hslots, hkernel⟩ := startService_cases h
  obtain ⟨hpq, hps, hqs⟩ := new.pair _ _ hpair
  rw [hserver] at hps hqs
  have hsm : serverFd ≠ mqueue := fun heq => hps (by rw [heq])
  have hst : serverFd ≠ mqueueThread := fun heq => hqs (by rw [heq])
  have hfds : ∀ fd, w.kernel.fds fd = Function.update (Function.update (Function.update k.fds
      serverFd (some .listening)) mqueue (some .pipe)) mqueueThread (some .other) fd := by
    intro fd
    rw [hkernel]
  constructor
  · intro p
    rw [hslots]
    exact hinactive s hs p
  · exact hconns.trans hconn
  · rw [hfd, hmq]
    exact hsm
  · rw [hfds, hfd]
    simp [hsm, hst]
  · rw [hfds, hmq]
    simp [hpq]
  · rw [hfd]
    have he : w.mgr.el.events serverFd = el₀.events serverFd := by rw [hel, hadds.others _ hsm]
    exact ⟨by rw [he, hadds₀.mask_of_fresh rfl], by rw [he, hadds₀.reads (by decide)],
      by rw [he, hadds₀.data]⟩
  · rw [hmq]
    have hfresh : (el₀.events mqueue).mask = aeNone := by
      rw [hadds₀.others _ hsm.symm]
      rfl
    exact ⟨by rw [hel, hadds.mask_of_fresh hfresh], by rw [hel, hadds.reads (by decide)],
      by rw [hel, hadds.data]⟩
  · intro fd hs hm
    rw [hfd] at hs
    rw [hmq] at hm
    rw [hel, hadds.others _ hm, hadds₀.others _ hs]
    rfl
  · intro fd n
    rw [hfds]
    have hk := new.clients fd n
    simp only [Function.update_apply]
    repeat' split
    all_goals simp_all

/-! ## A first start -/

/-- What `initialize` leaves with the default settings on a new segment. -/
def firstBoot : Boot where
  reload := true
  appId := 120
  serverPort := 7960
  socketTimeout := 300
  connections := 0
  cycleStep := 1000
  deviceInQueueId := 0
  deviceOutQueueId := 1
  shm := .attached ⟨0, fun p => initPeer p (ShmemMgr.zero.slots p)⟩

def firstKernel : Kernel where
  fds fd := if fd < 5 then some .other else none
  inbox _ := []
  accepted := 0
  sent := []
  written := []
  closed := []

/-- Descriptor 5 listens, 6 is the loop's own, 7 and 8 are the pipe. -/
def firstCalls : StartCalls where
  tcpServer := some 5
  createLoop := true
  addServer := true
  socketpair := some (7, 8)
  addPipe := true

theorem newProcess_first : NewProcess firstKernel firstCalls where
  pair fd fd' h := by
    simp only [firstCalls, Option.some.injEq, Prod.mk.injEq] at h
    obtain ⟨rfl, rfl⟩ := h
    decide
  clients fd n := by
    simp only [firstKernel]
    split <;> simp
  closed := rfl

def firstWorld : World := (startService firstBoot firstKernel firstCalls).get rfl

theorem startService_first : startService firstBoot firstKernel firstCalls = some firstWorld :=
  (Option.some_get _).symm

theorem firstWorld_started : Started firstWorld := by
  refine startService_started startService_first newProcess_first rfl ?_
  intro s hs p
  cases hs
  rfl

theorem firstWorld_slots (p : Peer) :
    firstWorld.mgr.slots p = initPeer p (ShmemMgr.zero.slots p) := rfl

theorem firstWorld_fds (fd : Nat) : firstWorld.kernel.fds fd =
    if fd = 8 then some .other else if fd = 7 then some .pipe
    else if fd = 5 then some .listening else if fd < 5 then some .other else none := by
  change Function.update (Function.update (Function.update firstKernel.fds 5 _) 7 _) 8 _ fd = _
  simp [Function.update_apply, firstKernel]

end Tflib.Nac
