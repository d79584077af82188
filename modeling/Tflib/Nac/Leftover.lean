import Tflib.Nac.Connections

/-! # What an earlier run leaves behind

The slot table is still in the shared segment when the process starts anew.
`initialize` clears the counter in any case and the table only on reload.
-/

namespace Tflib.Nac

open Tflib.Core Ae Ipc Socket

/-! ## Start-up on any segment -/

theorem createMessageQueue_shm {sys : InitCalls} {b b' : Boot}
    (h : createMessageQueue sys b = .ok b') :
    b'.shm = b.shm ∧ b'.reload = b.reload ∧ b'.connections = b.connections := by
  unfold createMessageQueue at h
  dsimp only at h
  split at h
  · contradiction
  · cases h
    exact ⟨rfl, rfl, rfl⟩

/-- The segment is opened as it is, or created anew, which also turns `reload` on. -/
theorem loadShareMemory_cases {sys : InitCalls} {b b' : Boot}
    (h : loadShareMemory sys b = .ok b') :
    b'.connections = b.connections ∧
      (((ipcShmOpen sys.openShm).isNull = true ∧ b'.shm = .attached .zero ∧ b'.reload = true) ∨
        ((ipcShmOpen sys.openShm).isNull = false ∧ b'.shm = ipcShmOpen sys.openShm ∧
          b'.reload = b.reload)) := by
  unfold loadShareMemory at h
  dsimp only at h
  split at h
  · rename_i hnull
    split at h
    · contradiction
    · contradiction
    · cases h
      exact ⟨rfl, .inl ⟨hnull, rfl, rfl⟩⟩
  · rename_i hnull
    cases h
    exact ⟨rfl, .inr ⟨Bool.eq_false_iff.mpr hnull, rfl, rfl⟩⟩

theorem initPeers_cases {b b' : Boot} (h : initPeers b = .ok b') :
    b'.connections = b.connections ∧
      ((b.reload = true ∧ ∃ s, b.shm = .attached s ∧
          b'.shm = .attached ⟨0, fun p => initPeer p (s.slots p)⟩) ∨
        (b.reload = false ∧ b'.shm = b.shm)) := by
  unfold initPeers at h
  cases hreload : b.reload with
  | false =>
      rw [hreload] at h
      cases h
      exact ⟨rfl, .inr ⟨rfl, rfl⟩⟩
  | true =>
      rw [hreload] at h
      cases hshm : b.shm with
      | attached s =>
          rw [hshm] at h
          cases h
          exact ⟨rfl, .inl ⟨rfl, s, rfl, rfl⟩⟩
      | null =>
          rw [hshm] at h
          contradiction
      | failed =>
          rw [hshm] at h
          contradiction

/-- `initialize` succeeds when its three steps do. -/
theorem initializeProcess_steps {group : CfgGroup} {sys : InitCalls} {b : Boot}
    (h : initializeProcess (some (some group)) false sys = .ok b) :
    ∃ b₁ b₂, loadShareMemory sys (readSettings group) = .ok b₁ ∧
      createMessageQueue sys b₁ = .ok b₂ ∧ initPeers b₂ = .ok b := by
  simp only [initializeProcess, bind, Except.bind] at h
  cases hload : loadShareMemory sys (readSettings group) with
  | error e =>
      rw [hload] at h
      contradiction
  | ok b₁ =>
      rw [hload] at h
      dsimp only at h
      cases hqueue : createMessageQueue sys b₁ with
      | error e =>
          rw [hqueue] at h
          contradiction
      | ok b₂ =>
          rw [hqueue] at h
          exact ⟨b₁, b₂, rfl, hqueue, h⟩

/-- The table is set up afresh, or the segment is used as the earlier run left it. -/
theorem initializeProcess_cases {group : CfgGroup} {sys : InitCalls} {b : Boot}
    (h : initializeProcess (some (some group)) false sys = .ok b) :
    b.connections = 0 ∧
      ((∃ s, b.shm = .attached s ∧ ∀ p, (s.slots p).active = false) ∧
          ((ipcShmOpen sys.openShm).isNull = true ∨ cfgGetBool group "reload" false = true) ∨
        (ipcShmOpen sys.openShm).isNull = false ∧ cfgGetBool group "reload" false = false ∧
          b.shm = ipcShmOpen sys.openShm) := by
  obtain ⟨b₁, b₂, hload, hqueue, hinit⟩ := initializeProcess_steps h
  obtain ⟨hshm₂, hreload₂, hconn₂⟩ := createMessageQueue_shm hqueue
  obtain ⟨hconn₁, hload⟩ := loadShareMemory_cases hload
  obtain ⟨hconn, hinit⟩ := initPeers_cases hinit
  refine ⟨hconn.trans (hconn₂.trans hconn₁), ?_⟩
  rcases hinit with ⟨hreload, s, -, hs⟩ | ⟨hreload, hs⟩
  · refine .inl ⟨⟨_, hs, fun _ => rfl⟩, ?_⟩
    rcases hload with ⟨hnull, -, -⟩ | ⟨-, -, hreload₁⟩
    · exact .inl hnull
    · exact .inr (hreload₁.symm.trans (hreload₂.symm.trans hreload))
  · rcases hload with ⟨-, -, hreload₁⟩ | ⟨hnull, hshm₁, hreload₁⟩
    · rw [hreload₂, hreload₁] at hreload
      contradiction
    · exact .inr ⟨hnull, hreload₁.symm.trans (hreload₂.symm.trans hreload),
        hs.trans (hshm₂.trans hshm₁)⟩

/-! ## The table and the new process -/

/-- The table fits a process that has accepted nobody: no slot is active, and so no tick, whatever
happens before it, closes anything but connections of this process or miscounts them. -/
structure FitsProcess (b : Boot) : Prop where
  connections : b.connections = 0
  table : ∃ s, b.shm = .attached s ∧ ∀ p, (s.slots p).active = false
  harmless : ∀ k c w₀ w, NewProcess k c → startService b k c = some w₀ → service.Reaches w₀ w →
    (∀ d ∈ w.kernel.closed, ∃ n, d = some (.client n)) ∧
      w.mgr.connections.toNat = (activeSlots w).card

theorem fitsProcess_of_table {b : Boot} (hconn : b.connections = 0)
    (htable : ∃ s, b.shm = .attached s ∧ ∀ p, (s.slots p).active = false) : FitsProcess b := by
  refine ⟨hconn, htable, ?_⟩
  intro k c w₀ w new hstart h
  have start : Started w₀ := by
    refine startService_started hstart new hconn ?_
    intro s hs p
    obtain ⟨s', hs', hinactive⟩ := htable
    rw [hs'] at hs
    cases hs
    exact hinactive p
  have hrun := start.sound.reaches h
  refine ⟨?_, (hrun.sound start.sound).counted⟩
  intro d hd
  rcases hrun.closes d hd with hold | hclient
  · obtain ⟨_, _, _, _, _, _, _, _, _, _, _, _, _, _, _, _, hkernel⟩ := startService_cases hstart
    rw [hkernel] at hold
    simp [new.closed] at hold
  · exact hclient

/-- The segment is new, the configuration asks for `reload`, or the earlier run left no client. -/
def StartsClean (group : CfgGroup) (sys : InitCalls) : Prop :=
  (ipcShmOpen sys.openShm).isNull = true ∨ cfgGetBool group "reload" false = true ∨
    ∃ s, ipcShmOpen sys.openShm = .attached s ∧ ∀ p, (s.slots p).active = false

/-- Exactly then does `initialize` leave a table that fits the new process. -/
theorem initializeProcess_fits_iff {group : CfgGroup} {sys : InitCalls} {b : Boot}
    (h : initializeProcess (some (some group)) false sys = .ok b) :
    FitsProcess b ↔ StartsClean group sys := by
  obtain ⟨hconn, ⟨htable, hwhy⟩ | ⟨hnull, hreload, hshm⟩⟩ := initializeProcess_cases h
  · constructor
    · intro _
      rcases hwhy with hnull | hreload
      · exact .inl hnull
      · exact .inr (.inl hreload)
    · intro _
      exact fitsProcess_of_table hconn htable
  · constructor
    · intro hfits
      obtain ⟨s, hs, hinactive⟩ := hfits.table
      exact .inr (.inr ⟨s, hshm.symm.trans hs, hinactive⟩)
    · intro hclean
      rcases hclean with hn | hr | ⟨s, hs, hinactive⟩
      · rw [hnull] at hn
        contradiction
      · rw [hreload] at hr
        contradiction
      · exact fitsProcess_of_table hconn ⟨s, hshm.trans hs, hinactive⟩

/-! ## A table with one client -/

theorem lifeCyclePeer_of_inactive {w : World} {p : Peer} (h : (w.mgr.slots p).active = false) :
    lifeCyclePeer w p = w := by
  simp [lifeCyclePeer, h]

theorem foldl_lifeCyclePeer_of_inactive {w : World} {peers : List Peer}
    (h : ∀ p ∈ peers, (w.mgr.slots p).active = false) : peers.foldl lifeCyclePeer w = w := by
  induction peers with
  | nil => rfl
  | cons p peers ih =>
      rw [List.foldl_cons, lifeCyclePeer_of_inactive (h p List.mem_cons_self)]
      exact ih fun q hq => h q (List.mem_cons_of_mem _ hq)

theorem lifeCyclePeer_slot_of_ne {w : World} {p q : Peer} (h : q ≠ p) :
    (lifeCyclePeer w p).mgr.slots q = w.mgr.slots q := by
  unfold lifeCyclePeer
  dsimp only
  split
  · split
    · simp [closePeer, World.setSlot, h]
    · simp [World.setSlot, h]
  · rfl

/-- With one client at most, the loop is its own round. -/
theorem lifeCycleLoop_of_single {w : World} {p : Peer}
    (h : ∀ q, q ≠ p → (w.mgr.slots q).active = false) :
    lifeCycleLoop w = lifeCyclePeer w p := by
  obtain ⟨before, after, hsplit⟩ := List.append_of_mem (List.mem_finRange p)
  have hnodup := List.nodup_finRange maxPeerNums
  rw [hsplit] at hnodup
  have hbefore : ∀ q ∈ before, q ≠ p := fun q hq heq =>
    (List.nodup_append.mp hnodup).2.2 q hq p List.mem_cons_self heq
  have hafter : ∀ q ∈ after, q ≠ p := fun q hq heq =>
    (List.nodup_cons.mp (List.nodup_append.mp hnodup).2.1).1 (heq ▸ hq)
  rw [lifeCycleLoop, hsplit, List.foldl_append, List.foldl_cons,
    foldl_lifeCyclePeer_of_inactive fun q hq => h q (hbefore q hq)]
  refine foldl_lifeCyclePeer_of_inactive ?_
  intro q hq
  rw [lifeCyclePeer_slot_of_ne (hafter q hq)]
  exact h q (hafter q hq)

def noKeys : CfgGroup := ⟨fun _ => none, fun _ => none⟩

def attaching (s : ShmemMgr) : InitCalls where
  openShm := ⟨⟨0, 5⟩, 1, .attached s⟩
  createShm := ⟨⟨0, 5⟩, -1, .null⟩
  queueKeyIn := ⟨0, 6⟩
  msggetIn := 0
  queueKeyOut := ⟨0, 7⟩
  msggetOut := 1

def bootOn (s : ShmemMgr) : Boot :=
  { readSettings noKeys with deviceInQueueId := 0, deviceOutQueueId := 1, shm := .attached s }

theorem initializeProcess_attaching (s : ShmemMgr) :
    initializeProcess (some (some noKeys)) false (attaching s) = .ok (bootOn s) := rfl

theorem fitsProcess_emptied : FitsProcess (bootOn .zero) :=
  (initializeProcess_fits_iff (initializeProcess_attaching .zero)).mpr
    (.inr (.inr ⟨.zero, rfl, fun _ => rfl⟩))

/-- The earlier run was killed while its first client had one tick left. -/
def leftTable : ShmemMgr where
  current := 0
  slots p :=
    if p = 0 then ⟨peerId 0, 8, true, false, 0, 0, 1⟩ else initPeer p (ShmemMgr.zero.slots p)

def leftWorld : World := (startService (bootOn leftTable) firstKernel firstCalls).get rfl

/-- The next tick closes the thread's end of the pipe and leaves 65535 connections. -/
theorem leftover_client_closes :
    initializeProcess (some (some noKeys)) false (attaching leftTable) = .ok (bootOn leftTable) ∧
    startService (bootOn leftTable) firstKernel firstCalls = some leftWorld ∧
    (exec leftWorld .tick).kernel.closed = [some .other] ∧
    (exec leftWorld .tick).mgr.connections = 65535 ∧ ¬ FitsProcess (bootOn leftTable) := by
  have hstart : startService (bootOn leftTable) firstKernel firstCalls = some leftWorld :=
    (Option.some_get _).symm
  have hslots : leftWorld.mgr.slots = leftTable.slots := rfl
  have hloop : lifeCycleLoop leftWorld = lifeCyclePeer leftWorld 0 := by
    refine lifeCycleLoop_of_single ?_
    intro q hq
    rw [hslots, leftTable]
    dsimp only
    rw [if_neg hq, initPeer]
  have htick : exec leftWorld .tick = lifeCyclePeer leftWorld 0 := by
    rw [exec_tick, hloop]
  refine ⟨rfl, hstart, ?_, ?_, ?_⟩
  · rw [htick]
    rfl
  · rw [htick]
    rfl
  · intro hfits
    obtain ⟨s, hs, hinactive⟩ := hfits.table
    cases hs
    exact Bool.noConfusion (hinactive 0)

end Tflib.Nac
