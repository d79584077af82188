import Tflib.Nac.Startup

/-! # When `initialize` tells success from failure

Its calls fail in different ways: `access`, `shmget` and `msgget` with a negative
answer, `ftok` with `-1` among keys that may all be negative, and `shmat` with
`(void *)-1`. The wrappers test for a negative key and for `NULL`.
-/

namespace Tflib.Nac

open Ipc

def HasGeneral (cfg : Option (Option CfgGroup)) : Prop := ∃ group, cfg = some (some group)

namespace InitCalls

/-- The system has a segment for `initialize`, to open or to create. -/
def SegmentGranted (sys : InitCalls) : Prop := sys.openShm.Granted ∨ sys.createShm.Granted

def QueuesGranted (sys : InitCalls) : Prop :=
  QueueGranted sys.queueKeyIn sys.msggetIn ∧ QueueGranted sys.queueKeyOut sys.msggetOut

def QueuesFound (sys : InitCalls) : Prop :=
  QueueFound sys.queueKeyIn sys.msggetIn ∧ QueueFound sys.queueKeyOut sys.msggetOut

/-- Opening gives `NULL`, and a segment is created. -/
def Falls (sys : InitCalls) : Prop := ¬ sys.openShm.Found ∨ sys.openShm.shmat = .null

/-- No answer is one that `initialize` takes for another. -/
structure Plain (sys : InitCalls) : Prop where
  /-- What `shmat` refuses is not opened. -/
  opened : sys.openShm.Found → sys.QueuesFound → sys.openShm.shmat ≠ .failed
  created : sys.Falls → sys.createShm.Found → sys.createShm.shmat ≠ .failed
  /-- Where everything is granted, it is granted under keys that are not negative. -/
  keys : sys.SegmentGranted → sys.QueuesGranted →
    0 ≤ sys.queueKeyIn.ftok ∧ 0 ≤ sys.queueKeyOut.ftok ∧
      (sys.openShm.Granted ∧ 0 ≤ sys.openShm.key.ftok ∨
        sys.createShm.Granted ∧ 0 ≤ sys.createShm.key.ftok)

end InitCalls

/-- `_s_` points to an attached segment, and both queues have an id. -/
structure Boot.Ready (b : Boot) : Prop where
  segment : ∃ s, b.shm = .attached s
  queueIn : 0 ≤ b.deviceInQueueId
  queueOut : 0 ≤ b.deviceOutQueueId

/-- `initialize` returns, with `true` exactly where the file has its section and the system grants a
segment and both queues, and then everything is there. -/
structure TellsSuccess (cfg : Option (Option CfgGroup)) (console : Bool) (sys : InitCalls) : Prop where
  returns : initializeProcess cfg console sys ≠ .error .segfault
  exactly : (∃ b, initializeProcess cfg console sys = .ok b) ↔
    HasGeneral cfg ∧ sys.SegmentGranted ∧ sys.QueuesGranted
  ready : ∀ b, initializeProcess cfg console sys = .ok b → b.Ready

/-! ## The steps of `initialize` -/

variable {sys : InitCalls} {b : Boot}

theorem createMessageQueue_of_found (h : sys.QueuesFound) :
    ∃ b', createMessageQueue sys b = .ok b' ∧ b'.shm = b.shm ∧
      0 ≤ b'.deviceInQueueId ∧ 0 ≤ b'.deviceOutQueueId := by
  have hin := (ipcQueueCreate_nonneg _ _).mpr h.1
  have hout := (ipcQueueCreate_nonneg _ _).mpr h.2
  refine ⟨_, if_neg ?_, rfl, hin, hout⟩
  simp only [Bool.or_eq_true, decide_eq_true_eq]
  omega

theorem createMessageQueue_of_not_found (h : ¬ sys.QueuesFound) :
    createMessageQueue sys b = .error .failed := by
  refine if_pos ?_
  simp only [Bool.or_eq_true, decide_eq_true_eq]
  by_contra hids
  rw [not_or, Int.not_lt, Int.not_lt] at hids
  exact h ⟨(ipcQueueCreate_nonneg _ _).mp hids.1, (ipcQueueCreate_nonneg _ _).mp hids.2⟩

theorem initPeers_of_ready (h : b.Ready) : ∃ b', initPeers b = .ok b' ∧ b'.Ready := by
  obtain ⟨s, hs⟩ := h.segment
  unfold initPeers
  split
  · exact ⟨b, rfl, h⟩
  · rw [hs]
    exact ⟨_, rfl, ⟨_, rfl⟩, h.queueIn, h.queueOut⟩

theorem initPeers_of_failed (h : b.shm = .failed) :
    initPeers b = .ok b ∨ initPeers b = .error .segfault := by
  unfold initPeers
  split
  · exact .inl rfl
  · rw [h]
    exact .inr rfl

/-- `initialize` behind `load_sharememory`. -/
def afterSegment (console : Bool) (sys : InitCalls) (b : Boot) : Except Stop Boot := do
  let b ← createMessageQueue sys b
  if console then return b else initPeers b

theorem initializeProcess_general (group : CfgGroup) (console : Bool) (sys : InitCalls) :
    initializeProcess (some (some group)) console sys =
      loadShareMemory sys (readSettings group) >>= afterSegment console sys := rfl

theorem afterSegment_of_not_found (console : Bool) (h : ¬ sys.QueuesFound) :
    afterSegment console sys b = .error .failed := by
  rw [afterSegment, createMessageQueue_of_not_found h]
  rfl

theorem afterSegment_of_attached (console : Bool) (h : sys.QueuesFound) (hs : ∃ s, b.shm = .attached s) :
    ∃ b', afterSegment console sys b = .ok b' ∧ b'.Ready := by
  obtain ⟨b', hcreate, hshm, hin, hout⟩ := createMessageQueue_of_found (b := b) h
  have hready : b'.Ready := ⟨hshm ▸ hs, hin, hout⟩
  simp only [afterSegment, hcreate]
  cases console with
  | true => exact ⟨b', rfl, hready⟩
  | false => exact initPeers_of_ready hready

theorem afterSegment_of_failed (console : Bool) (h : sys.QueuesFound) (hs : b.shm = .failed) :
    (∃ b', afterSegment console sys b = .ok b' ∧ b'.shm = .failed) ∨
      afterSegment console sys b = .error .segfault := by
  obtain ⟨b', hcreate, hshm, -, -⟩ := createMessageQueue_of_found (b := b) h
  have hfailed := hshm.trans hs
  simp only [afterSegment, hcreate]
  cases console with
  | true => exact .inl ⟨b', rfl, hfailed⟩
  | false => exact (initPeers_of_failed hfailed).imp_left fun h => ⟨b', h, hfailed⟩

theorem loadShareMemory_of_open {p : ShmPtr ShmemMgr} (h : ipcShmOpen sys.openShm = p)
    (hp : p.isNull = false) : loadShareMemory sys b = .ok { b with shm := p } := by
  subst h
  simp [loadShareMemory, hp]

theorem loadShareMemory_of_falls (h : ipcShmOpen sys.openShm = .null) :
    loadShareMemory sys b =
      match ipcShmCreate sys.createShm with
      | .null => .error .failed
      | .failed => .error .segfault
      | .attached _ => .ok { b with shm := .attached .zero, reload := true } := by
  simp only [loadShareMemory, h]
  rfl

/-- A segment that `shmat` attached. -/
def Attaches (c : ShmCalls ShmemMgr) : Prop := c.Found ∧ ∃ s, c.shmat = .attached s

/-- Opening a segment, or creating it. -/
theorem loadShareMemory_answers (sys : InitCalls) (b : Boot) :
    (loadShareMemory sys b = .error .segfault ∧ sys.Falls ∧ sys.createShm.Found ∧
      sys.createShm.shmat = .failed) ∨
    (loadShareMemory sys b = .error .failed ∧ sys.Falls ∧
      (sys.createShm.Found → sys.createShm.shmat = .null)) ∨
    (∃ b', loadShareMemory sys b = .ok b' ∧ b'.shm = .failed ∧ sys.openShm.Found ∧
      sys.openShm.shmat = .failed) ∨
    (∃ b', loadShareMemory sys b = .ok b' ∧ (∃ s, b'.shm = .attached s) ∧
      (Attaches sys.openShm ∨ sys.Falls ∧ Attaches sys.createShm)) := by
  by_cases hopen : ipcShmOpen sys.openShm = .null
  · have hfalls : sys.Falls := by
      by_cases hfound : sys.openShm.Found
      · exact .inr ((ipcShmAttach_of_found hfound).symm.trans hopen)
      · exact .inl hfound
    have hload := loadShareMemory_of_falls (b := b) hopen
    by_cases hfound : sys.createShm.Found
    · have hcreate : ipcShmCreate sys.createShm = sys.createShm.shmat := ipcShmAttach_of_found hfound
      cases hat : sys.createShm.shmat with
      | null =>
          rw [hcreate, hat] at hload
          exact .inr (.inl ⟨hload, hfalls, fun _ => rfl⟩)
      | failed =>
          rw [hcreate, hat] at hload
          exact .inl ⟨hload, hfalls, hfound, rfl⟩
      | attached s =>
          rw [hcreate, hat] at hload
          exact .inr (.inr (.inr ⟨_, hload, ⟨_, rfl⟩, .inr ⟨hfalls, hfound, s, hat⟩⟩))
    · have hcreate : ipcShmCreate sys.createShm = .null := ipcShmAttach_of_not_found hfound
      rw [hcreate] at hload
      exact .inr (.inl ⟨hload, hfalls, fun h => absurd h hfound⟩)
  · have hfound : sys.openShm.Found := by
      by_contra hnot
      exact hopen (ipcShmAttach_of_not_found hnot)
    have hat : ipcShmOpen sys.openShm = sys.openShm.shmat := ipcShmAttach_of_found hfound
    cases hp : sys.openShm.shmat with
    | null => exact absurd (hat.trans hp) hopen
    | failed =>
        have hload := loadShareMemory_of_open (b := b) (hat.trans hp) rfl
        exact .inr (.inr (.inl ⟨_, hload, rfl, hfound, rfl⟩))
    | attached s =>
        have hload := loadShareMemory_of_open (b := b) (hat.trans hp) rfl
        exact .inr (.inr (.inr ⟨_, hload, ⟨s, rfl⟩, .inl ⟨hfound, s, hp⟩⟩))

/-! ## The answers that are told apart -/

theorem tellsSuccess_of_failed {cfg : Option (Option CfgGroup)} {console : Bool}
    (h : initializeProcess cfg console sys = .error .failed) :
    TellsSuccess cfg console sys ↔ ¬ (HasGeneral cfg ∧ sys.SegmentGranted ∧ sys.QueuesGranted) := by
  constructor
  · intro htells hgranted
    obtain ⟨b, hb⟩ := htells.exactly.mpr hgranted
    rw [h] at hb
    cases hb
  · intro hnot
    refine ⟨by rw [h]; nofun, ⟨?_, fun hgranted => absurd hgranted hnot⟩, ?_⟩
    · rintro ⟨b, hb⟩
      rw [h] at hb
      cases hb
    · intro b hb
      rw [h] at hb
      cases hb

theorem tellsSuccess_of_ready {cfg : Option (Option CfgGroup)} {console : Bool}
    (h : initializeProcess cfg console sys = .ok b) (hb : b.Ready) (general : HasGeneral cfg)
    (segment : sys.SegmentGranted) (queues : sys.QueuesGranted) : TellsSuccess cfg console sys where
  returns := by rw [h]; nofun
  exactly := ⟨fun _ => ⟨general, segment, queues⟩, fun _ => ⟨b, h⟩⟩
  ready b' hb' := by
    rw [h] at hb'
    cases hb'
    exact hb

theorem InitCalls.queuesFound_iff (sys : InitCalls) :
    sys.QueuesFound ↔ sys.QueuesGranted ∧ 0 ≤ sys.queueKeyIn.ftok ∧ 0 ≤ sys.queueKeyOut.ftok := by
  unfold QueuesFound QueuesGranted
  rw [Ipc.queueFound_iff, Ipc.queueFound_iff]
  tauto

/-- A segment is attached exactly where it is granted under a key that is not negative. -/
theorem attaches_iff (c : ShmCalls ShmemMgr) : Attaches c ↔ c.Granted ∧ 0 ≤ c.key.ftok := by
  constructor
  · intro h
    exact ⟨(c.granted_iff h.1.2.1).mpr h, h.1.2.1⟩
  · rintro ⟨hgranted, hkey⟩
    exact (c.granted_iff hkey).mp hgranted

theorem InitCalls.Falls.not_attaches (h : sys.Falls) : ¬ Attaches sys.openShm := by
  rintro ⟨hfound, s, hs⟩
  rcases h with h | h
  · exact h hfound
  · rw [hs] at h
    cases h

/-- Where nothing fails in a way of its own, what is plain is that nothing is granted in vain. -/
theorem InitCalls.plain_iff (opened : sys.openShm.Found → sys.QueuesFound → sys.openShm.shmat ≠ .failed)
    (created : sys.Falls → sys.createShm.Found → sys.createShm.shmat ≠ .failed) :
    sys.Plain ↔ (sys.SegmentGranted → sys.QueuesGranted →
      sys.QueuesFound ∧ (Attaches sys.openShm ∨ Attaches sys.createShm)) := by
  constructor
  · intro h hsegment hqueues
    obtain ⟨hin, hout, hkey⟩ := h.keys hsegment hqueues
    rw [attaches_iff, attaches_iff]
    exact ⟨sys.queuesFound_iff.mpr ⟨hqueues, hin, hout⟩, hkey⟩
  · intro h
    refine ⟨opened, created, fun hsegment hqueues => ?_⟩
    obtain ⟨hfound, hattaches⟩ := h hsegment hqueues
    rw [attaches_iff, attaches_iff] at hattaches
    obtain ⟨-, hin, hout⟩ := sys.queuesFound_iff.mp hfound
    exact ⟨hin, hout, hattaches⟩

/-- A run that ends with `false` is right exactly if it could not have ended otherwise. -/
theorem tellsSuccess_iff_of_failed {cfg : Option (Option CfgGroup)} {console : Bool}
    (h : initializeProcess cfg console sys = .error .failed) (general : HasGeneral cfg)
    (opened : sys.openShm.Found → sys.QueuesFound → sys.openShm.shmat ≠ .failed)
    (created : sys.Falls → sys.createShm.Found → sys.createShm.shmat ≠ .failed)
    (vain : ¬ (sys.QueuesFound ∧ (Attaches sys.openShm ∨ Attaches sys.createShm))) :
    TellsSuccess cfg console sys ↔ sys.Plain := by
  rw [tellsSuccess_of_failed h, InitCalls.plain_iff opened created]
  constructor
  · intro hnot hsegment hqueues
    exact absurd ⟨general, hsegment, hqueues⟩ hnot
  · rintro hplain ⟨-, hsegment, hqueues⟩
    exact vain (hplain hsegment hqueues)

theorem InitCalls.Falls.not_refused (h : sys.Falls) :
    sys.openShm.Found → sys.QueuesFound → sys.openShm.shmat ≠ .failed := by
  intro hfound _ hat
  rcases h with h | h
  · exact h hfound
  · rw [hat] at h
    cases h

/-- Where a segment was attached, none was refused. -/
theorem not_refused_of_attaches
    (h : Attaches sys.openShm ∨ sys.Falls ∧ Attaches sys.createShm) :
    (sys.openShm.Found → sys.QueuesFound → sys.openShm.shmat ≠ .failed) ∧
      (sys.Falls → sys.createShm.Found → sys.createShm.shmat ≠ .failed) := by
  rcases h with hopen | ⟨hfalls, -, s, hs⟩
  · refine ⟨fun _ _ hat => ?_, fun hfalls => absurd hopen hfalls.not_attaches⟩
    obtain ⟨-, s, hs⟩ := hopen
    rw [hs] at hat
    cases hat
  · refine ⟨hfalls.not_refused, fun _ _ hat => ?_⟩
    rw [hs] at hat
    cases hat

theorem tellsSuccess_iff (cfg : Option (Option CfgGroup)) (console : Bool) (sys : InitCalls) :
    TellsSuccess cfg console sys ↔ (HasGeneral cfg → sys.Plain) := by
  by_cases hgeneral : HasGeneral cfg
  swap
  · have hfailed : initializeProcess cfg console sys = .error .failed := by
      rcases cfg with - | (- | group)
      · rfl
      · rfl
      · exact absurd ⟨group, rfl⟩ hgeneral
    rw [tellsSuccess_of_failed hfailed]
    exact ⟨fun _ h => absurd h hgeneral, fun _ h => hgeneral h.1⟩
  obtain ⟨group, rfl⟩ := id hgeneral
  rw [forall_prop_of_true hgeneral]
  have hrun := initializeProcess_general group console sys
  rcases loadShareMemory_answers sys (readSettings group) with
    ⟨hload, hfalls, hfound, hat⟩ | ⟨hload, hfalls, hnull⟩ | ⟨b, hload, hb, hfound, hat⟩ |
    ⟨b, hload, hb, hattaches⟩
  · rw [hload] at hrun
    exact ⟨fun h => absurd hrun h.returns, fun h => absurd hat (h.created hfalls hfound)⟩
  · rw [hload] at hrun
    have hcreate : ¬ Attaches sys.createShm := by
      rintro ⟨hfound, s, hs⟩
      rw [hnull hfound] at hs
      cases hs
    refine tellsSuccess_iff_of_failed hrun hgeneral hfalls.not_refused (fun _ hfound => ?_) fun h =>
      h.2.elim hfalls.not_attaches hcreate
    rw [hnull hfound]
    nofun
  · rw [hload] at hrun
    by_cases hqueues : sys.QueuesFound
    · refine ⟨fun h => ?_, fun h => absurd hat (h.opened hfound hqueues)⟩
      rcases afterSegment_of_failed console hqueues hb with ⟨b', hok, hb'⟩ | hfault
      · obtain ⟨s, hs⟩ := (h.ready b' (hrun.trans hok)).segment
        rw [hb'] at hs
        cases hs
      · exact absurd (hrun.trans hfault) h.returns
    · have hfailed := hrun.trans (afterSegment_of_not_found console hqueues)
      refine tellsSuccess_iff_of_failed hfailed hgeneral (fun _ h => absurd h hqueues) (fun hfalls => ?_)
        fun h => hqueues h.1
      rcases hfalls with h | h
      · exact absurd hfound h
      · rw [hat] at h
        cases h
  · rw [hload] at hrun
    obtain ⟨hopened, hcreated⟩ := not_refused_of_attaches hattaches
    by_cases hqueues : sys.QueuesFound
    · have hsome : Attaches sys.openShm ∨ Attaches sys.createShm := hattaches.imp_right And.right
      obtain ⟨b', hok, hready⟩ := afterSegment_of_attached console hqueues hb
      have hgranted := hsome.imp (fun h => ((attaches_iff _).mp h).1) fun h => ((attaches_iff _).mp h).1
      refine ⟨fun _ => (InitCalls.plain_iff hopened hcreated).mpr fun _ _ => ⟨hqueues, hsome⟩, fun _ => ?_⟩
      exact tellsSuccess_of_ready (hrun.trans hok) hready hgeneral hgranted
        (sys.queuesFound_iff.mp hqueues).1
    · have hfailed := hrun.trans (afterSegment_of_not_found console hqueues)
      exact tellsSuccess_iff_of_failed hfailed hgeneral hopened hcreated fun h => hqueues h.1

/-! ## Answers that are not told apart -/

/-- A `general` section in which every setting is left out. -/
def defaultGroup : CfgGroup := ⟨fun _ => none, fun _ => none⟩

/-- The segment is there, but cannot be attached. -/
def refusedCalls : InitCalls where
  openShm := ⟨⟨0, 1⟩, 0, .failed⟩
  createShm := ⟨⟨0, 1⟩, -1, .null⟩
  queueKeyIn := ⟨0, 2⟩
  msggetIn := 0
  queueKeyOut := ⟨0, 3⟩
  msggetOut := 1

/-- All is granted, under negative keys for the queues. -/
def negativeCalls : InitCalls where
  openShm := ⟨⟨0, 1⟩, 0, .attached .zero⟩
  createShm := ⟨⟨0, 1⟩, -1, .null⟩
  queueKeyIn := ⟨0, -2⟩
  msggetIn := 0
  queueKeyOut := ⟨0, -3⟩
  msggetOut := 1

theorem not_tellsSuccess : ¬ TellsSuccess (some (some defaultGroup)) false refusedCalls ∧
    ¬ TellsSuccess (some (some defaultGroup)) false negativeCalls := by
  constructor
  · intro h
    obtain ⟨s, hs⟩ := (h.ready _ rfl).segment
    cases hs
  · intro h
    obtain ⟨b, hb⟩ := h.exactly.mpr ⟨⟨_, rfl⟩, .inl ⟨by decide, by decide, _, rfl⟩, by decide, by decide⟩
    cases hb

end Tflib.Nac
