import Mathlib.Logic.Basic

/-! # Keys, queues and shared memory of `tf_ipc.c`

What the system calls answer is an argument of each function. An attached
segment comes with what it holds.
-/

namespace Tflib.Ipc

universe u

/-- What `access` and `ftok` answer for a key file. -/
structure KeyCalls where
  access : Int
  ftok : Int
  deriving DecidableEq, Repr

def ipcUniqueKey (c : KeyCalls) : Int :=
  if c.access < 0 then -1
  else if c.ftok = -1 then -1
  else c.ftok

/-- `ipc_queue_create`; `msgget` is the answer of the system call. -/
def ipcQueueCreate (c : KeyCalls) (msgget : Int) : Int :=
  if ipcUniqueKey c < 0 then -1
  else if msgget < 0 then -1
  else msgget

/-- The values a `void *` from `shmat` can have. A refused call answers
`(void *)-1`, which is not `NULL`. -/
inductive ShmPtr (α : Type u)
  | null
  | failed
  | attached (content : α)

structure ShmCalls (α : Type u) where
  key : KeyCalls
  shmget : Int
  shmat : ShmPtr α

variable {α : Type u}

def ShmPtr.isNull : ShmPtr α → Bool
  | .null => true
  | _ => false

def ShmPtr.attached? : ShmPtr α → Option α
  | .attached content => some content
  | _ => none

/-- The common body of `ipc_shm_create` and `ipc_shm_open`, which differ in what
they ask `shmget` for. -/
def ipcShmAttach (c : ShmCalls α) : ShmPtr α :=
  if ipcUniqueKey c.key < 0 then .null
  else if c.shmget < 0 then .null
  else c.shmat

/-- `ipc_shm_create`. -/
def ipcShmCreate (c : ShmCalls α) : ShmPtr α := ipcShmAttach c

/-- `ipc_shm_open`. -/
def ipcShmOpen (c : ShmCalls α) : ShmPtr α := ipcShmAttach c

/-! ## What the system grants, and what is made of it -/

/-- The key file can be read and `ftok` has a key for it, whatever its sign. -/
def KeyCalls.Granted (c : KeyCalls) : Prop := 0 ≤ c.access ∧ c.ftok ≠ -1

instance (c : KeyCalls) : Decidable c.Granted := inferInstanceAs (Decidable (_ ∧ _))

def ShmCalls.Granted (c : ShmCalls α) : Prop :=
  c.key.Granted ∧ 0 ≤ c.shmget ∧ ∃ content, c.shmat = .attached content

/-- `shmat` is called. -/
def ShmCalls.Found (c : ShmCalls α) : Prop := 0 ≤ c.key.access ∧ 0 ≤ c.key.ftok ∧ 0 ≤ c.shmget

/-- `msgget` is called and answers with a queue. -/
def QueueFound (c : KeyCalls) (msgget : Int) : Prop := 0 ≤ c.access ∧ 0 ≤ c.ftok ∧ 0 ≤ msgget

def QueueGranted (c : KeyCalls) (msgget : Int) : Prop := c.Granted ∧ 0 ≤ msgget

instance (c : KeyCalls) (msgget : Int) : Decidable (QueueGranted c msgget) :=
  inferInstanceAs (Decidable (_ ∧ _))

theorem ipcUniqueKey_nonneg (c : KeyCalls) : 0 ≤ ipcUniqueKey c ↔ 0 ≤ c.access ∧ 0 ≤ c.ftok := by
  unfold ipcUniqueKey
  split
  · omega
  · split <;> omega

/-- Callers take a granted key for a failure where it is negative. -/
theorem queueFound_iff (c : KeyCalls) (msgget : Int) :
    QueueFound c msgget ↔ QueueGranted c msgget ∧ 0 ≤ c.ftok := by
  unfold QueueFound QueueGranted KeyCalls.Granted
  omega

theorem ShmCalls.granted_iff (c : ShmCalls α) (hkey : 0 ≤ c.key.ftok) :
    c.Granted ↔ c.Found ∧ ∃ content, c.shmat = .attached content := by
  unfold ShmCalls.Granted ShmCalls.Found KeyCalls.Granted
  constructor
  · rintro ⟨⟨haccess, -⟩, hget, hat⟩
    exact ⟨⟨haccess, hkey, hget⟩, hat⟩
  · rintro ⟨⟨haccess, -, hget⟩, hat⟩
    exact ⟨⟨haccess, by omega⟩, hget, hat⟩

theorem ipcQueueCreate_nonneg (c : KeyCalls) (msgget : Int) :
    0 ≤ ipcQueueCreate c msgget ↔ QueueFound c msgget := by
  have hkey := ipcUniqueKey_nonneg c
  unfold ipcQueueCreate QueueFound
  split
  · omega
  · split <;> omega

theorem ipcShmAttach_of_found {c : ShmCalls α} (h : c.Found) : ipcShmAttach c = c.shmat := by
  obtain ⟨haccess, hftok, hget⟩ := h
  have hkey := (ipcUniqueKey_nonneg c.key).mpr ⟨haccess, hftok⟩
  rw [ipcShmAttach, if_neg (by omega), if_neg (by omega)]

theorem ipcShmAttach_of_not_found {c : ShmCalls α} (h : ¬ c.Found) : ipcShmAttach c = .null := by
  have hkey := ipcUniqueKey_nonneg c.key
  unfold ShmCalls.Found at h
  unfold ipcShmAttach
  split
  · rfl
  · exact if_pos (by omega)

end Tflib.Ipc
