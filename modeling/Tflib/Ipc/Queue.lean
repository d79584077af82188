import Tflib.Core.Bytes

/-! # System V message queues, `tf_ipc.c` -/

namespace Tflib.Ipc

open Tflib.Core

def maxMqueueLen : Nat := 4096

/-- `MQ_DATA_ST` as `msgsnd` takes it: the type and the bytes that count. -/
structure MqData where
  msgType : Int
  data : Bytes
  deriving DecidableEq, Repr

/-- The length check of `ipc_write_queue`. -/
def admitsLength (len : Nat) : Bool := !(len ≥ maxMqueueLen || len ≤ 0)

/-- `ipc_write_queue`; `msgsnd` is the answer of the system call, which is made
only when both checks pass. -/
def ipcWriteQueue (id : Int) (pkg : MqData) (msgsnd : Bool) : Bool :=
  if !admitsLength pkg.data.length then false
  else if id < 0 || pkg.msgType = 0 then false
  else msgsnd

theorem admitsLength_iff (len : Nat) : admitsLength len = true ↔ 0 < len ∧ len < maxMqueueLen := by
  simp [admitsLength]
  omega

theorem ipcWriteQueue_iff (id : Int) (pkg : MqData) (msgsnd : Bool) :
    ipcWriteQueue id pkg msgsnd = true ↔
      (0 < pkg.data.length ∧ pkg.data.length < maxMqueueLen) ∧ 0 ≤ id ∧ pkg.msgType ≠ 0 ∧
        msgsnd = true := by
  rw [← admitsLength_iff, ← Int.not_lt]
  unfold ipcWriteQueue
  by_cases hlen : admitsLength pkg.data.length = true
  · by_cases hid : id < 0
    · simp [hlen, hid]
    · by_cases ht : pkg.msgType = 0 <;> simp [hlen, hid, ht]
  · simp [hlen]

end Tflib.Ipc
