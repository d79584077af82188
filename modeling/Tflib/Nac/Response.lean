import Tflib.Nac.Lookup
import Tflib.Nac.Stream

/-! # Responses on the wire

`wait_response_thread` frames the queue's messages for the pipe, and
`message_response_handler` turns each of them into a frame for the client: the
last eight bytes of the 24-byte header stay, under a new length that is stored
over the two bytes before them.
-/

namespace Tflib.Nac

open Tflib.Core Ae Ipc Socket

/-! ## The thread -/

/-- The buffers that one turn of the loop of `wait_response_thread` writes to the
pipe; `msg` is what `msgrcv` returned, if it did not fail. -/
def waitResponse (msg : Option Bytes) : List Bytes :=
  let len : Int := match msg with
    | none => -1
    | some data => data.length
  if len = 4 then []
  else if len < 24 then []
  else [host16 (UInt16.ofInt len), msg.getD []]

theorem ofInt_natCast (n : Nat) : UInt16.ofInt (n : Int) = UInt16.ofNat n := by
  apply UInt16.toNat_inj.mp
  rw [UInt16.ofInt, UInt16.toNat_ofNat', UInt16.toNat_ofNat']
  omega

theorem waitResponse_of_long {m : Bytes} (low : 24 ≤ m.length) :
    waitResponse (some m) = [host16 (UInt16.ofNat m.length), m] := by
  have hquit : ¬ (m.length : Int) = 4 := by omega
  have hshort : ¬ (m.length : Int) < 24 := by omega
  simp only [waitResponse, if_neg hquit, if_neg hshort, Option.getD_some, ofInt_natCast]

/-- A message of at least 24 bytes becomes one frame. -/
theorem waitResponse_flatten {m : Bytes} (low : 24 ≤ m.length) (high : m.length < 65536) :
    (waitResponse (some m)).flatten = frame16.encode m := by
  rw [waitResponse_of_long low, frame16_encode high]
  simp

/-- The turn writes a message of at least 24 bytes behind its length, and nothing otherwise. -/
theorem waitResponse_cases (msg : Option Bytes) :
    (∃ m, msg = some m ∧ 24 ≤ m.length ∧
      waitResponse msg = [host16 (UInt16.ofNat m.length), m]) ∨
    (∀ m, msg = some m → m.length < 24) ∧ waitResponse msg = [] := by
  cases msg with
  | none => exact .inr ⟨nofun, rfl⟩
  | some m =>
      by_cases hm : 24 ≤ m.length
      · exact .inl ⟨m, rfl, hm, waitResponse_of_long hm⟩
      · have hlt : (m.length : Int) < 24 := by omega
        refine .inr ⟨?_, ?_⟩
        · intro m' hm'
          cases hm'
          omega
        · simp only [waitResponse, if_pos hlt, ite_self]

/-! ## Taking a frame off the pipe -/

/-- Whatever the reads answer, the handler gets the whole next frame or gives up. -/
theorem takeResponse_of_frame {w : World} {fd : Nat} {m more : Bytes} (io : Calls)
    (high : m.length < 65536) (hpipe : w.kernel.inbox fd = frame16.encode m ++ more) :
    (takeResponse io fd w).2 = none ∨
      takeResponse io fd w = (frameRead w fd m more, some (UInt16.ofNat m.length)) := by
  have hencode : frame16.encode m ++ more = host16 (UInt16.ofNat m.length) ++ (m ++ more) := by
    rw [frame16_encode high, List.append_assoc]
  have hlen : (UInt16.ofNat m.length).toNat = m.length := by
    rw [UInt16.toNat_ofNat']
    omega
  have hdrop : (w.kernel.inbox fd).drop 2 = m ++ more := by
    rw [hpipe, hencode, List.drop_left' (host16_length _)]
  have htake : (w.kernel.inbox fd).take 2 = host16 (UInt16.ofNat m.length) := by
    rw [hpipe, hencode, List.take_left' (host16_length _)]
  unfold takeResponse
  rcases tfnetRead_cases io.reads (w.kernel.inbox fd) 2 with ⟨hret, hmoved, hrest, -⟩ | ⟨hret, -⟩
  · rw [hdrop] at hrest
    rw [htake] at hmoved
    simp only [hret, hmoved, hrest, Kernel.inbox_leave, net16_host16, hlen]
    rcases tfnetRead_cases (tfnetRead io.reads (w.kernel.inbox fd) 2).script (m ++ more) m.length
      with ⟨hret', hmoved', hrest', -⟩ | ⟨hret', -⟩
    · rw [List.take_left] at hmoved'
      rw [List.drop_left] at hrest'
      right
      simp only [hret', hmoved', hrest']
      rw [frameRead, hdrop]
      simp
    · left
      simp only [hret']
      rw [if_neg (by decide), if_pos (by omega)]
  · left
    simp only [hret]
    rw [if_pos (by decide)]

/-! ## The translation -/

/-- The new length damages no byte after it. -/
theorem responseBytes_of_message {mem : Memory} {m : Bytes} (low : 16 ≤ m.length)
    (high : m.length < 65536) (hbuf : mem.load (bufferAt 0) m.length = m) :
    responseBytes mem (UInt16.ofNat m.length - 16) = frame16.encode (m.drop 16) := by
  have hwlen : UInt16.ofNat m.length - 16 = UInt16.ofNat (m.length - 16) := by
    apply UInt16.toNat_inj.mp
    have hsixteen : (16 : UInt16).toNat = 16 := rfl
    rw [UInt16.toNat_sub_of_le]
    · simp only [UInt16.toNat_ofNat', hsixteen]
      omega
    · rw [UInt16.le_iff_toNat_le, UInt16.toNat_ofNat']
      change 16 ≤ _
      omega
  have hnat : (UInt16.ofNat (m.length - 16)).toNat = m.length - 16 := by
    rw [UInt16.toNat_ofNat']
    omega
  have htail : mem.load (bufferAt 16) (m.length - 16) = m.drop 16 := by
    have hsplit := Memory.load_add mem (bufferAt 0) 16 (m.length - 16)
    rw [Nat.add_sub_cancel' low, hbuf] at hsplit
    have hdrop := congrArg (List.drop 16) hsplit
    rw [List.drop_left' (Memory.load_length _ _ _)] at hdrop
    exact hdrop.symm
  have hhead : (host16cpy mem (bufferAt 14) (UInt16.ofNat (m.length - 16))).load (bufferAt 14) 2 =
      host16 (UInt16.ofNat (m.length - 16)) := by
    have hself := Memory.load_store_self mem (bufferAt 14) (host16 (UInt16.ofNat (m.length - 16)))
    rwa [host16_length] at hself
  have hrest : (host16cpy mem (bufferAt 14) (UInt16.ofNat (m.length - 16))).load (bufferAt 16)
      (m.length - 16) = mem.load (bufferAt 16) (m.length - 16) := by
    refine Memory.load_store_disjoint (.inr ?_)
    rw [host16_length]
    exact Nat.le_refl _
  rw [responseBytes, hwlen, hnat, Nat.add_comm (m.length - 16) 2, Memory.load_add, hhead]
  change _ ++ (host16cpy mem (bufferAt 14) _).load (bufferAt 16) _ = _
  rw [hrest, htail, frame16_encode (by rw [List.length_drop]; omega), List.length_drop]

theorem Quiet.getActivePeer_iff {w v : World} (h : Quiet w v) {id : UInt32} {p : Peer} :
    getActivePeer v.mgr id = some p ↔ getActivePeer w.mgr id = some p := by
  rw [Nac.getActivePeer_iff, Nac.getActivePeer_iff, h.active]

theorem deliverResponse_written (io : Calls) (p : Peer) (len : UInt16) (w : World) :
    (deliverResponse io p len w).kernel.written = w.kernel.written ++
      [(w.kernel.fds (w.mgr.slots p).fd,
        (tfnetWrite io.writes (responseBytes w.mgr.mem (len - 16))).moved)] := by
  unfold deliverResponse
  dsimp only
  split <;> rfl

theorem deliverResponse_inbox (io : Calls) (p : Peer) (len : UInt16) (w : World) :
    (deliverResponse io p len w).kernel.inbox = w.kernel.inbox := by
  unfold deliverResponse
  dsimp only
  split <;> rfl

theorem net32cpy_frameRead (w : World) (fd : Nat) {m : Bytes} (more : Bytes)
    (low : 12 ≤ m.length) :
    net32cpy (frameRead w fd m more).mgr.mem (bufferAt 8) = messageId m := by
  have hinside := Memory.load_store_inside w.mgr.mem (bufferAt 0) m (show 8 + 4 ≤ m.length by omega)
  exact congrArg net32 hinside

/-- One frame off the pipe goes where the lookup of its id says. -/
theorem messageResponseHandler_of_frame {w : World} {io : Calls} {fd : Nat} {m more : Bytes}
    (low : 24 ≤ m.length) (high : m.length < 65536)
    (hpipe : w.kernel.inbox fd = frame16.encode m ++ more)
    (hread : (takeResponse io fd w).2 ≠ none) :
    messageResponseHandler io fd w =
      routeResponse io (UInt16.ofNat m.length) (messageId m) (frameRead w fd m more) := by
  have htake := (takeResponse_of_frame io high hpipe).resolve_left hread
  unfold messageResponseHandler
  rw [htake]
  dsimp only
  rw [net32cpy_frameRead w fd more (by omega)]

/-- The client's header and payload in the message of its request. -/
theorem requestMessage_drop (appId id now : UInt32) {body : Bytes} (h : 8 ≤ body.length) :
    (requestMessage appId id now body).data.drop 16 =
      body.take 4 ++ [0, 0, 0, 0] ++ body.drop 8 := by
  have hsplit : (requestMessage appId id now body).data =
      (host32 appId ++ host32 (destination (net32 (body.take 4))) ++ host32 id ++ host32 now) ++
        (host32 (net32 (body.take 4)) ++ host32 0 ++ body.drop 8) := by
    simp only [requestMessage, requestBytes, List.append_assoc]
  have hword : (body.take 4).length = 4 := by
    rw [List.length_take]
    omega
  rw [hsplit, List.drop_left' (by simp), host32_net32 hword]
  rfl

/-- The found peer is given the length and everything from byte 16 on, and a message that comes
back unchanged becomes the request's own frame with its second word cleared. -/
theorem response_translated {w : World} {io : Calls} {fd : Nat} {m more : Bytes} {p : Peer}
    (low : 24 ≤ m.length) (high : m.length ≤ maxMqueueLen)
    (hpipe : w.kernel.inbox fd = (waitResponse (some m)).flatten ++ more)
    (hread : (takeResponse io fd w).2 ≠ none)
    (hfound : getActivePeer w.mgr (messageId m) = some p) :
    let out := host16 (UInt16.ofNat (m.length - 16)) ++ m.drop 16
    (messageResponseHandler io fd w).kernel.written = w.kernel.written ++
      [(w.kernel.fds (w.mgr.slots p).fd, (tfnetWrite io.writes out).moved)] ∧
    ((tfnetWrite io.writes out).ret = -1 ∨ (tfnetWrite io.writes out).moved = out) ∧
    ∀ appId id now body, 8 ≤ body.length → m = (requestMessage appId id now body).data →
      (body.take 4 ++ [0, 0, 0, 0] ++ body.drop 8).length = body.length ∧
        out = frame16.encode (body.take 4 ++ [0, 0, 0, 0] ++ body.drop 8) := by
  rw [maxMqueueLen] at high
  have hout : host16 (UInt16.ofNat (m.length - 16)) ++ m.drop 16 = frame16.encode (m.drop 16) := by
    rw [frame16_encode (by rw [List.length_drop]; omega), List.length_drop]
  rw [waitResponse_flatten low (by omega)] at hpipe
  intro out
  refine ⟨?_, ?_, ?_⟩
  · have hbytes := responseBytes_of_message (by omega) (by omega) (load_frameRead w fd m more)
    have hpeer := (quiet_frameRead w fd m more).getActivePeer_iff.mpr hfound
    rw [messageResponseHandler_of_frame low (by omega) hpipe hread, routeResponse_of_found hpeer,
      deliverResponse_written, hbytes, ← hout]
    rfl
  · exact (tfnetWrite_cases io.writes out).2.imp_right And.right
  · intro appId id now body hbody hm
    have hdrop := requestMessage_drop appId id now hbody
    rw [← hm] at hdrop
    refine ⟨?_, hout.trans (by rw [hdrop])⟩
    simp only [List.length_append, List.length_take, List.length_drop, List.length_cons,
      List.length_nil]
    omega

/-- The second client's own message has come back through the pipe. -/
def echoed : World :=
  exec (crowd 2)
    (.arrive 7 (waitResponse (some (requestMessage 120 20140001 0 smallBody).data)).flatten)

theorem echo_second_client :
    (messageResponseHandler {} 7 echoed).kernel.written =
      [(some (.client 1), [0, 9, 0, 1, 0, 5, 0, 0, 0, 0, 42])] := by
  have hpipe : echoed.kernel.inbox 7 =
      (waitResponse (some (requestMessage 120 20140001 0 smallBody).data)).flatten ++ [] := rfl
  have hread : (takeResponse {} 7 echoed).2 ≠ none := by decide
  have hfound : getActivePeer echoed.mgr
      (messageId (requestMessage 120 20140001 0 smallBody).data) = some 1 :=
    getActivePeer_iff.mpr ⟨by decide, by decide, rfl⟩
  exact (response_translated (by decide) (by decide) hpipe hread hfound).1

end Tflib.Nac
