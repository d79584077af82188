import Tflib.Nac.Startup

/-! # The queue message of a request

`peer_request_handler` swaps the 8-byte header of the client's frame for the
24-byte header of the queue, in place in `mq_data.data`. The stores lie side by
side, so they are one store of the whole message.
-/

namespace Tflib.Nac

open Tflib.Core Ae Ipc Socket

/-! ## Layout -/

/-- The message, from the application's id to the last byte of the frame. -/
def requestBytes (appId id now cmd : UInt32) (payload : Bytes) : Bytes :=
  host32 appId ++ (host32 (destination cmd) ++ (host32 id ++ (host32 now ++ (host32 cmd ++
    (host32 0 ++ payload)))))

theorem requestBytes_length (appId id now cmd : UInt32) (payload : Bytes) :
    (requestBytes appId id now cmd payload).length = 24 + payload.length := by
  simp [requestBytes]
  omega

/-- The peer's id in a message, in bytes 8 to 11. -/
def messageId (data : Bytes) : UInt32 := net32 ((data.drop 8).take 4)

theorem messageId_requestBytes (appId id now cmd : UInt32) (payload : Bytes) :
    messageId (requestBytes appId id now cmd payload) = id := by
  have hsplit : requestBytes appId id now cmd payload =
      (host32 appId ++ host32 (destination cmd)) ++ (host32 id ++ (host32 now ++ (host32 cmd ++
        (host32 0 ++ payload)))) := by
    simp only [requestBytes, List.append_assoc]
  rw [messageId, hsplit, List.drop_left' (by simp), List.take_left' (by simp), net32_host32]

/-- The message that the frame in `buffer` gives for `peer`. -/
def frameRequest (mgr : ProcessMgr) (peer : Peer) (now : UInt32) (len : Nat) : Bytes :=
  requestBytes mgr.appId (mgr.slots peer).id now (net32cpy mgr.mem (bufferAt 0))
    (mgr.mem.load (bufferAt 8) (len - 8))

theorem frameRequest_length (mgr : ProcessMgr) (peer : Peer) (now : UInt32) {len : Nat}
    (h : 8 ≤ len) : (frameRequest mgr peer now len).length = requestLength len := by
  rw [frameRequest, requestBytes_length, Memory.load_length, requestLength]
  omega

theorem storeRequest_mem (mgr : ProcessMgr) (peer : Peer) (now : UInt32) (len : Nat) :
    (storeRequest mgr peer now len).mem =
      mgr.mem.store (mqDataAt 0) (frameRequest mgr peer now len) := by
  simp only [storeRequest, requestStores, List.foldl_cons, List.foldl_nil, frameRequest,
    requestBytes, Memory.store_append, host32_length, mqDataAt]

/-- What `ipc_write_queue` is given is the message and nothing else. -/
theorem queuedRequest_storeRequest (mgr : ProcessMgr) (peer : Peer) (now : UInt32) {len : Nat}
    (h : 8 ≤ len) :
    queuedRequest (storeRequest mgr peer now len) len =
      ⟨(destination (net32cpy mgr.mem (bufferAt 0))).toNat, frameRequest mgr peer now len⟩ := by
  have hload := Memory.load_store_self mgr.mem (mqDataAt 0) (frameRequest mgr peer now len)
  rw [frameRequest_length mgr peer now h] at hload
  rw [queuedRequest, storeRequest_mem, hload]
  rfl

theorem messageId_queuedRequest (mgr : ProcessMgr) (peer : Peer) (now : UInt32) {len : Nat}
    (h : 8 ≤ len) :
    messageId (queuedRequest (storeRequest mgr peer now len) len).data = (mgr.slots peer).id := by
  rw [queuedRequest_storeRequest mgr peer now h]
  exact messageId_requestBytes _ _ _ _ _

/-- The message that the frame `body` gives. -/
def requestMessage (appId id now : UInt32) (body : Bytes) : MqData :=
  ⟨(destination (net32 (body.take 4))).toNat,
    requestBytes appId id now (net32 (body.take 4)) (body.drop 8)⟩

theorem requestMessage_length (appId id now : UInt32) {body : Bytes} (h : 8 ≤ body.length) :
    (requestMessage appId id now body).data.length = 16 + body.length := by
  rw [requestMessage, requestBytes_length, List.length_drop]
  omega

/-- Once `body` stands in `buffer`, its message stands in `mq_data`. -/
theorem queuedRequest_of_body {mgr : ProcessMgr} {body : Bytes} (peer : Peer) (now : UInt32)
    (hbuf : mgr.mem.load (bufferAt 0) body.length = body) (h : 8 ≤ body.length) :
    queuedRequest (storeRequest mgr peer now body.length) body.length =
      requestMessage mgr.appId (mgr.slots peer).id now body := by
  have hcmd : net32cpy mgr.mem (bufferAt 0) = net32 (body.take 4) := by
    have hsplit := Memory.load_add mgr.mem (bufferAt 0) 4 (body.length - 4)
    rw [Nat.add_sub_cancel' (by omega), hbuf] at hsplit
    rw [net32cpy, hsplit, List.take_left' (Memory.load_length _ _ _)]
  have hpayload : mgr.mem.load (bufferAt 8) (body.length - 8) = body.drop 8 := by
    have hsplit := Memory.load_add mgr.mem (bufferAt 0) 8 (body.length - 8)
    rw [Nat.add_sub_cancel' h, hbuf] at hsplit
    have hdrop := congrArg (List.drop 8) hsplit
    rw [List.drop_left' (Memory.load_length _ _ _)] at hdrop
    exact hdrop.symm
  rw [queuedRequest_storeRequest mgr peer now h, frameRequest, hcmd, hpayload, requestMessage]

/-! ## Limits -/

theorem requestStores_inside_iff (mgr : ProcessMgr) (peer : Peer) (now : UInt32) {len : Nat}
    (h : 8 ≤ len) :
    (∀ s ∈ requestStores mgr peer now len, s.1 + s.2.length ≤ maxMqueueLen) ↔ len ≤ 4080 := by
  simp only [requestStores, List.forall_mem_cons, host32_length, Memory.load_length, maxMqueueLen]
  simp
  omega

theorem admitsLength_requestLength {len : Nat} (h : 8 ≤ len) :
    admitsLength (requestLength len) = true ↔ len ≤ 4079 := by
  rw [admitsLength_iff, requestLength, maxMqueueLen]
  omega

/-- A store outside a range of addresses shows nowhere in the range. -/
theorem storeRequest_frame (mgr : ProcessMgr) (peer : Peer) (now : UInt32) {len a : Nat}
    (h : 8 ≤ len) (ha : requestLength len ≤ a) :
    (storeRequest mgr peer now len).mem a = mgr.mem a := by
  rw [storeRequest_mem]
  refine Memory.store_outside (.inr ?_)
  rw [frameRequest_length mgr peer now h, mqDataAt]
  omega

/-- What building a message should keep to: `mq_data` and the queue's size check. -/
structure BuildsInside (mgr : ProcessMgr) (peer : Peer) (now : UInt32) (len : Nat) : Prop where
  inside : ∀ s ∈ requestStores mgr peer now len, ∀ i, s.1 ≤ i → i < s.1 + s.2.length →
    i < maxMqueueLen
  memory : ∀ a, maxMqueueLen ≤ a → (storeRequest mgr peer now len).mem a = mgr.mem a
  fields : { storeRequest mgr peer now len with mem := mgr.mem, msgType := mgr.msgType } = mgr
  admitted : admitsLength (requestLength len) = true

/-- The handler's own range check lets through seventeen lengths too many. -/
theorem buildsInside_iff (mgr : ProcessMgr) (peer : Peer) (now : UInt32) {len : Nat}
    (low : 8 ≤ len) : BuildsInside mgr peer now len ↔ len ≤ 4079 := by
  constructor
  · intro h
    exact (admitsLength_requestLength low).mp h.admitted
  · intro h
    constructor
    · intro s hs i _ hi
      have := (requestStores_inside_iff mgr peer now low).mpr (by omega) s hs
      omega
    · intro a ha
      refine storeRequest_frame mgr peer now low ?_
      rw [requestLength]
      rw [maxMqueueLen] at ha
      omega
    · rfl
    · exact (admitsLength_requestLength low).mpr h

theorem buildsInside_smallest : 8 ≤ 8 ∧ BuildsInside firstWorld.mgr 0 0 8 :=
  ⟨Nat.le_refl 8, (buildsInside_iff firstWorld.mgr 0 0 (Nat.le_refl 8)).mpr (by decide)⟩

/-- The largest frame that passes the range check is stored past `mq_data.data`, and the queue's
size check refuses it. -/
theorem largest_frame_overruns : 8 ≤ maxPacketLen ∧
    ¬ (∀ s ∈ requestStores firstWorld.mgr 0 0 maxPacketLen, s.1 + s.2.length ≤ maxMqueueLen) ∧
    admitsLength (requestLength maxPacketLen) = false ∧
    ¬ BuildsInside firstWorld.mgr 0 0 maxPacketLen := by
  have low : 8 ≤ maxPacketLen := by decide
  refine ⟨low, ?_, by decide, ?_⟩
  · rw [requestStores_inside_iff _ _ _ low]
    decide
  · intro h
    exact absurd h.admitted (by decide)

end Tflib.Nac
