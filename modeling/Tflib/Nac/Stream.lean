import Tflib.Nac.Connections
import Tflib.Nac.Request

/-! # Streams of requests

One run of `peer_request_handler` takes one frame off the client's stream. It
forwards the frame and keeps the connection, or it closes the connection; the
loop runs it again for as long as the descriptor is registered.
-/

namespace Tflib.Nac

open Tflib.Core Ae Ipc Socket

/-! ## One frame -/

/-- The handler passes `body` on: the length is in range, the destination is not
zero and the queue takes the message. -/
def Forwards (queueId : Int) (io : Calls) (body : Bytes) : Prop :=
  (8 ≤ body.length ∧ body.length ≤ 4079) ∧ destination (net32 (body.take 4)) ≠ 0 ∧
    0 ≤ queueId ∧ io.msgsnd = true

instance (queueId : Int) (io : Calls) (body : Bytes) : Decidable (Forwards queueId io body) :=
  inferInstanceAs (Decidable (_ ∧ _))

theorem ipcWriteQueue_requestMessage {queueId : Int} {io : Calls} {body : Bytes}
    (appId id now : UInt32) (h : 8 ≤ body.length) :
    ipcWriteQueue queueId (requestMessage appId id now body) io.msgsnd = true ↔
      Forwards queueId io body := by
  have htype : (requestMessage appId id now body).msgType ≠ 0 ↔
      destination (net32 (body.take 4)) ≠ 0 := by
    rw [requestMessage, not_iff_not]
    change ((destination _).toNat : Int) = 0 ↔ _
    rw [Int.natCast_eq_zero, ← UInt32.toNat_inj]
    rfl
  rw [ipcWriteQueue_iff, requestMessage_length _ _ _ h, htype, Forwards, maxMqueueLen]
  constructor
  · intro hq
    exact ⟨⟨h, by omega⟩, hq.2.2.1, hq.2.1, hq.2.2.2⟩
  · intro hq
    exact ⟨⟨by omega, by omega⟩, hq.2.2.1, hq.2.1, hq.2.2.2⟩

/-- The state in which the frame has been read. -/
def frameRead (w : World) (fd : Nat) (body rest : Bytes) : World :=
  World.receive { w with kernel := w.kernel.leave fd ((w.kernel.inbox fd).drop 2) } fd rest
    (bufferAt 0) body

theorem quiet_frameRead (w : World) (fd : Nat) (body rest : Bytes) :
    Quiet w (frameRead w fd body rest) := quiet_leave_receive w fd _ rest _ body

theorem peerRequestHandler_of_frame {w : World} {io : Calls} {fd : Nat} {body rest : Bytes}
    (p : Peer) (live : Live io.reads) (few : ReadsThrough io.reads body.length)
    (hnext : frame16.next? (w.kernel.inbox fd) = some (body, rest)) :
    peerRequestHandler io fd p w =
      if body.length > maxPacketLen ∨ body.length < 8 then
        closePeer { w with kernel := w.kernel.leave fd ((w.kernel.inbox fd).drop 2) } p
      else forwardRequest io p body.length (frameRead w fd body rest) := by
  obtain ⟨hhead, hlen, hbody⟩ := tfnetRead_frame live hnext few
  unfold peerRequestHandler
  simp only [hhead, hlen, Kernel.inbox_leave, hbody]
  simp only [ne_eq, not_true_eq_false, if_false]
  rfl

theorem load_frameRead (w : World) (fd : Nat) (body rest : Bytes) :
    (frameRead w fd body rest).mgr.mem.load (bufferAt 0) body.length = body :=
  Memory.load_store_self _ _ _

/-- The state in which the frame's message has been built. -/
def frameStored (w : World) (io : Calls) (fd : Nat) (p : Peer) (body rest : Bytes) : World :=
  let v := frameRead w fd body rest
  { v with mgr := storeRequest v.mgr p io.now body.length }

theorem quiet_frameStored (w : World) (io : Calls) (fd : Nat) (p : Peer) (body rest : Bytes) :
    Quiet w (frameStored w io fd p body rest) :=
  (quiet_frameRead w fd body rest).trans (quiet_storeRequest _ p io.now body.length)

/-- What a run of the handler that forwards `msg` and leaves `rest` on `fd` does. -/
structure Forwarded (w v : World) (fd : Nat) (msg : MqData) (rest : Bytes) : Prop where
  quiet : Quiet w v
  sent : v.kernel.sent = w.kernel.sent ++ [msg]
  inbox : v.kernel.inbox fd = rest
  appId : v.mgr.appId = w.mgr.appId
  queue : v.mgr.deviceOutQueueId = w.mgr.deviceOutQueueId

/-- The handler gives up on slot `p` and sends nothing. -/
def Rejected (w w' : World) (p : Peer) : Prop :=
  ∃ v, Quiet w v ∧ v.kernel.sent = w.kernel.sent ∧ w' = closePeer v p

theorem forwardRequest_frameRead (w : World) (io : Calls) (fd : Nat) (p : Peer) {body : Bytes}
    (rest : Bytes) (h : 8 ≤ body.length) :
    (Forwards w.mgr.deviceOutQueueId io body →
      Forwarded w (forwardRequest io p body.length (frameRead w fd body rest)) fd
        (requestMessage w.mgr.appId (w.mgr.slots p).id io.now body) rest) ∧
    (¬ Forwards w.mgr.deviceOutQueueId io body →
      Rejected w (forwardRequest io p body.length (frameRead w fd body rest)) p) := by
  have hmsg : queuedRequest (frameStored w io fd p body rest).mgr body.length =
      requestMessage w.mgr.appId (w.mgr.slots p).id io.now body :=
    queuedRequest_of_body p io.now (load_frameRead w fd body rest) h
  have hsend : ipcWriteQueue w.mgr.deviceOutQueueId
      (requestMessage w.mgr.appId (w.mgr.slots p).id io.now body) io.msgsnd = true ↔ _ :=
    ipcWriteQueue_requestMessage w.mgr.appId (w.mgr.slots p).id io.now h
  have hquiet := quiet_frameStored w io fd p body rest
  have hforward : forwardRequest io p body.length (frameRead w fd body rest) =
      if ipcWriteQueue w.mgr.deviceOutQueueId
          (queuedRequest (frameStored w io fd p body rest).mgr body.length) io.msgsnd then
        reloadTimer { frameStored w io fd p body rest with
          kernel := { (frameStored w io fd p body rest).kernel with
            sent := w.kernel.sent ++
              [queuedRequest (frameStored w io fd p body rest).mgr body.length] } } p
      else closePeer (frameStored w io fd p body rest) p := rfl
  rw [hforward, hmsg]
  constructor
  · intro hfwd
    rw [if_pos (hsend.mpr hfwd)]
    refine ⟨(hquiet.trans ?_).trans (quiet_reloadTimer _ p), rfl, ?_, rfl, rfl⟩
    · exact ⟨rfl, rfl, rfl, rfl, rfl, rfl, fun _ => rfl, fun _ => rfl, fun _ => rfl⟩
    · exact Function.update_self _ _ _
  · intro hfwd
    rw [if_neg (fun hq => hfwd (hsend.mp hq))]
    exact ⟨_, hquiet, rfl, rfl⟩

/-- A frame that the handler forwards. -/
theorem peerRequestHandler_forwards {w : World} {io : Calls} {fd : Nat} {body rest : Bytes}
    (p : Peer) (live : Live io.reads) (few : ReadsThrough io.reads body.length)
    (hnext : frame16.next? (w.kernel.inbox fd) = some (body, rest))
    (hfwd : Forwards w.mgr.deviceOutQueueId io body) :
    Forwarded w (peerRequestHandler io fd p w) fd
      (requestMessage w.mgr.appId (w.mgr.slots p).id io.now body) rest := by
  have hrange : ¬ (body.length > maxPacketLen ∨ body.length < 8) := by
    have := hfwd.1
    rw [maxPacketLen]
    omega
  rw [peerRequestHandler_of_frame p live few hnext, if_neg hrange]
  exact (forwardRequest_frameRead w io fd p rest hfwd.1.1).1 hfwd

/-- Anything else at the head of the stream ends the connection. -/
theorem peerRequestHandler_rejects {w : World} {io : Calls} {fd : Nat} (p : Peer)
    (patient : Patient io.reads)
    (h : ∀ body rest, frame16.next? (w.kernel.inbox fd) = some (body, rest) →
      ¬ Forwards w.mgr.deviceOutQueueId io body) :
    Rejected w (peerRequestHandler io fd p w) p := by
  cases hnext : frame16.next? (w.kernel.inbox fd) with
  | some frame =>
      obtain ⟨body, rest⟩ := frame
      rw [peerRequestHandler_of_frame p patient.live (patient.readsThrough _) hnext]
      split
      · exact ⟨_, quiet_leave w fd _, rfl, rfl⟩
      · exact (forwardRequest_frameRead w io fd p rest (by omega)).2 (h body rest hnext)
  | none =>
      unfold peerRequestHandler
      rcases tfnetRead_truncated patient hnext with hhead | ⟨hhead, hbody⟩
      · simp only [hhead]
        exact ⟨_, quiet_leave w fd _, rfl, rfl⟩
      · simp only [hhead, Kernel.inbox_leave, hbody, ne_eq, not_true_eq_false, if_false]
        split
        · exact ⟨_, quiet_leave w fd _, rfl, rfl⟩
        · rw [if_pos (by omega)]
          exact ⟨_, quiet_leave_receive w fd _ _ _ _, rfl, rfl⟩

/-! ## A whole stream -/

/-- The messages that a stream should give: those of its frames, up to the first frame that the
handler does not forward. -/
def requests (appId id : UInt32) (queueId : Int) (io : Nat → Calls) : Nat → List Bytes → List MqData
  | _, [] => []
  | i, body :: bodies =>
      if Forwards queueId (io i) body then
        requestMessage appId id (io i).now body :: requests appId id queueId io (i + 1) bodies
      else []

/-- The loop dispatches `fd` `n` times; the `i`-th time the system calls answer `io i`. -/
def serveFrom (fd : Nat) (io : Nat → Calls) : Nat → Nat → World → World
  | _, 0, w => w
  | i, n + 1, w => serveFrom fd io (i + 1) n (dispatch (io i) fd w)

/-- Slot `p` is free again and nothing refers to `fd`. -/
structure Gone (w : World) (p : Peer) (fd : Nat) : Prop where
  inactive : (w.mgr.slots p).active = false
  closed : w.kernel.fds fd = none
  unregistered : (w.mgr.el.events fd).mask = aeNone

theorem serveFrom_of_unregistered {fd : Nat} (io : Nat → Calls) {w : World}
    (h : (w.mgr.el.events fd).mask = aeNone) (i n : Nat) : serveFrom fd io i n w = w := by
  induction n generalizing i with
  | zero => rfl
  | succ n ih => rw [serveFrom, dispatch_of_unregistered h, ih]

theorem Rejected.gone {w w' : World} {p : Peer} {fd : Nat} (hw : Sound w) (hp : Holds w p fd)
    (h : Rejected w w' p) : Gone w' p fd ∧ w'.kernel.sent = w.kernel.sent := by
  obtain ⟨v, hv, hsent, rfl⟩ := h
  have hactive : (v.mgr.slots p).active = true := (hv.active p).trans hp.1
  have hfd : (v.mgr.slots p).fd = fd := (hv.fd p).trans hp.2
  have hreg := (hv.sound hw).registered hactive
  refine ⟨⟨?_, ?_, ?_⟩, hsent⟩
  · exact (closePeer_active v p p).trans (if_pos rfl)
  · exact (closePeer_fds v p fd).trans (if_pos hfd.symm)
  · have hmask := closePeer_mask (.inr ⟨hreg.inTable, hreg.mask⟩)
    rw [hfd] at hmask
    exact hmask

theorem Rejected.serveFrom {w w' : World} {p : Peer} {fd : Nat} (hw : Sound w) (hp : Holds w p fd)
    (h : Rejected w w' p) (io : Nat → Calls) (i n : Nat) :
    (serveFrom fd io i n w').kernel.sent = w.kernel.sent ∧ Gone (serveFrom fd io i n w') p fd := by
  obtain ⟨hgone, hsent⟩ := h.gone hw hp
  rw [serveFrom_of_unregistered io hgone.unregistered]
  exact ⟨hsent, hgone⟩

/-- Frame by frame, by induction on the number of dispatches. -/
theorem serveFrom_spec {w : World} {p : Peer} {fd : Nat} {io : Nat → Calls} {n : Nat} (i : Nat)
    (hw : Sound w) (hp : Holds w p fd) (patient : ∀ i, Patient (io i).reads)
    (hn : (w.kernel.inbox fd).length < n) :
    (serveFrom fd io i n w).kernel.sent = w.kernel.sent ++
      requests w.mgr.appId (w.mgr.slots p).id w.mgr.deviceOutQueueId io i
        (frame16.cut (w.kernel.inbox fd)) ∧
    Gone (serveFrom fd io i n w) p fd := by
  induction n generalizing i w with
  | zero => omega
  | succ n ih =>
      have hreg := hw.registered hp.1
      rw [hp.2] at hreg
      rw [serveFrom, hreg.dispatch]
      cases hnext : frame16.next? (w.kernel.inbox fd) with
      | none =>
          have hreject : Rejected w (peerRequestHandler (io i) fd p w) p := by
            refine peerRequestHandler_rejects p (patient i) ?_
            intro body rest h
            rw [hnext] at h
            contradiction
          rw [frame16.cut_of_next?_none hnext, requests, List.append_nil]
          exact hreject.serveFrom hw hp io (i + 1) n
      | some frame =>
          obtain ⟨body, rest⟩ := frame
          rw [frame16.cut_of_next?_some hnext, requests]
          by_cases hfwd : Forwards w.mgr.deviceOutQueueId (io i) body
          · have hstep := peerRequestHandler_forwards p (patient i).live
              ((patient i).readsThrough _) hnext hfwd
            have hrest := frame16.next?_rest_length hnext
            obtain ⟨hsent, hgone⟩ := ih (i + 1) (hstep.quiet.sound hw)
              ⟨(hstep.quiet.active p).trans hp.1, (hstep.quiet.fd p).trans hp.2⟩
              (by rw [hstep.inbox]; omega)
            rw [if_pos hfwd, hsent, hstep.sent, hstep.inbox, hstep.appId, hstep.queue,
              hstep.quiet.id, List.append_assoc, List.singleton_append]
            exact ⟨rfl, hgone⟩
          · have hreject : Rejected w (peerRequestHandler (io i) fd p w) p := by
              refine peerRequestHandler_rejects p (patient i) ?_
              intro body' rest' h
              rw [hnext] at h
              cases h
              exact hfwd
            rw [if_neg hfwd, List.append_nil]
            exact hreject.serveFrom hw hp io (i + 1) n

/-- On a stream that ends, every client gets exactly the messages of its leading good frames, and
then its connection is closed for good. -/
theorem stream_served {w₀ w : World} (start : Started w₀) (h : service.Reaches w₀ w) {p : Peer}
    {fd : Nat} (hp : Holds w p fd) {io : Nat → Calls} (patient : ∀ i, Patient (io i).reads) {n : Nat}
    (hn : (w.kernel.inbox fd).length < n) :
    (serveFrom fd io 0 n w).kernel.sent = w.kernel.sent ++
      requests w.mgr.appId (w.mgr.slots p).id w.mgr.deviceOutQueueId io 0
        (frame16.cut (w.kernel.inbox fd)) ∧
    Gone (serveFrom fd io 0 n w) p fd :=
  serveFrom_spec 0 ((start.sound.reaches h).sound start.sound) hp patient hn

/-- The first client sends `bytes`. -/
def oneClient (bytes : Bytes) : World := exec (crowd 1) (.arrive 9 bytes)

theorem oneClient_reached (bytes : Bytes) : service.Reaches firstWorld (oneClient bytes) :=
  (crowd_crowded (n := 1) (by decide)).reached.step (e := Event.arrive 9 bytes) trivial

theorem oneClient_holds (bytes : Bytes) : Holds (oneClient bytes) 0 9 := ⟨rfl, rfl⟩

/-- A frame for destination 1 with one byte of payload, and a truncated frame. -/
def twoFrames : Bytes := [0, 9, 0, 1, 0, 5, 7, 7, 7, 7, 42, 0, 3, 1]

theorem stream_served_oneClient :
    (serveFrom 9 (fun _ => {}) 0 15 (oneClient twoFrames)).kernel.sent =
      [⟨1, [0, 0, 0, 120, 0, 0, 0, 1, 0x01, 0x33, 0x4f, 0xe0, 0, 0, 0, 0, 0, 1, 0, 5, 0, 0, 0, 0, 42]⟩] ∧
    Gone (serveFrom 9 (fun _ => {}) 0 15 (oneClient twoFrames)) 0 9 := by
  have few : ((oneClient twoFrames).kernel.inbox 9).length < 15 := by decide
  exact stream_served firstWorld_started (oneClient_reached twoFrames)
    (oneClient_holds twoFrames) (fun _ => .nil) few

/-! ## A frame in pieces -/

/-- Notifications while there are bytes on `fd`: the `i`-th run of the handler meets `io i`. -/
def notify (fd : Nat) (io : Nat → Calls) : Nat → Nat → World → World
  | _, 0, w => w
  | i, n + 1, w =>
      if w.kernel.inbox fd = [] then w else notify fd io (i + 1) n (dispatch (io i) fd w)

/-- The twenty-first interruption of either read ends the connection, whatever has arrived. -/
theorem peerRequestHandler_stalled {w : World} {io : Calls} {fd : Nat} {body rest : Bytes}
    (p : Peer) (live : Live io.reads)
    (hnext : frame16.next? (w.kernel.inbox fd) = some (body, rest))
    (many : ¬ ReadsThrough io.reads body.length) :
    Rejected w (peerRequestHandler io fd p w) p := by
  obtain ⟨hwidth, hsize, hdrop⟩ := frame16.next?_eq_some.mp hnext
  rw [width_frame16] at hwidth hsize hdrop
  rw [size_frame16] at hsize
  by_cases hfew : stalls io.reads 2 ≤ 20
  · obtain ⟨hhead, hlen⟩ := tfnetRead_head live hfew hwidth
    have hbody := tfnetRead_stalled (live.unused 2)
      (show body.length ≤ ((w.kernel.inbox fd).drop 2).length by
        rw [hdrop, List.length_append]; omega)
      (by unfold ReadsThrough at many; omega)
    unfold peerRequestHandler
    simp only [hhead, hlen, hsize, Kernel.inbox_leave, hbody, ne_eq, not_true_eq_false, if_false]
    split
    · exact ⟨_, quiet_leave w fd _, rfl, rfl⟩
    · rw [if_pos (by omega)]
      exact ⟨_, quiet_leave_receive w fd _ _ _ _, rfl, rfl⟩
  · have hhead := tfnetRead_stalled live hwidth (by omega)
    unfold peerRequestHandler
    simp only [hhead]
    exact ⟨_, quiet_leave w fd _, rfl, rfl⟩

/-- What the network's timing must not change: one message, the same as when the frame is there at
once, and the connection stays. -/
structure DeliveredOnce (w v : World) (io : Calls) (fd : Nat) (p : Peer) (body : Bytes) : Prop where
  message : v.kernel.sent =
    w.kernel.sent ++ [requestMessage w.mgr.appId (w.mgr.slots p).id io.now body]
  atOnce : v.kernel.sent = (dispatch { io with reads := [] } fd w).kernel.sent
  active : (v.mgr.slots p).active = true

theorem notify_done {fd : Nat} {w : World} (io : Nat → Calls) (i n : Nat)
    (h : w.kernel.inbox fd = [] ∨ (w.mgr.el.events fd).mask = aeNone) :
    notify fd io i n w = w := by
  induction n generalizing i with
  | zero => rfl
  | succ n ih =>
      rw [notify]
      split
      · rfl
      · rename_i hne
        rw [dispatch_of_unregistered (h.resolve_left hne), ih]

/-- The first run of the handler decides what all of the notifications do. -/
theorem notify_succ {w : World} {p : Peer} {fd : Nat} (hw : Sound w) (hp : Holds w p fd)
    (io : Nat → Calls) (n : Nat) (hne : w.kernel.inbox fd ≠ []) :
    notify fd io 0 (n + 1) w = notify fd io 1 n (peerRequestHandler (io 0) fd p w) := by
  have hreg := hw.registered hp.1
  rw [hp.2] at hreg
  rw [notify, if_neg hne, hreg.dispatch]

theorem notify_stalled {w : World} {p : Peer} {fd : Nat} (hw : Sound w) (hp : Holds w p fd)
    {io : Nat → Calls} (live : Live (io 0).reads) {body rest : Bytes}
    (hnext : frame16.next? (w.kernel.inbox fd) = some (body, rest))
    (many : ¬ ReadsThrough (io 0).reads body.length) (n : Nat) :
    Gone (notify fd io 0 (n + 1) w) p fd ∧
      (notify fd io 0 (n + 1) w).kernel.sent = w.kernel.sent := by
  have hne : w.kernel.inbox fd ≠ [] := by
    intro hnil
    rw [hnil] at hnext
    contradiction
  have hgone := (peerRequestHandler_stalled p live hnext many).gone hw hp
  rw [notify_succ hw hp io n hne, notify_done io _ _ (.inr hgone.1.unregistered)]
  exact hgone

/-- A valid frame gets through exactly when neither read of the first run meets twenty-one
interruptions. Later notifications change nothing. -/
theorem deliveredOnce_iff {w₀ w : World} (start : Started w₀) (h : service.Reaches w₀ w) {p : Peer}
    {fd : Nat} (hp : Holds w p fd) {io : Nat → Calls} (live : Live (io 0).reads) {body : Bytes}
    (hframe : w.kernel.inbox fd = frame16.encode body)
    (valid : Forwards w.mgr.deviceOutQueueId (io 0) body) (n : Nat) :
    DeliveredOnce w (notify fd io 0 (n + 1) w) (io 0) fd p body ↔
      ReadsThrough (io 0).reads body.length := by
  have hw := (start.sound.reaches h).sound start.sound
  have hreg := hw.registered hp.1
  rw [hp.2] at hreg
  have hnext : frame16.next? (w.kernel.inbox fd) = some (body, []) := by
    have hlt : body.length < 65536 := by
      have := valid.1
      omega
    rw [hframe, ← List.append_nil (frame16.encode body), frame16.next?_encode hlt]
  constructor
  · intro hdelivered
    by_contra hmany
    have hactive := hdelivered.active
    rw [(notify_stalled hw hp live hnext hmany n).1.inactive] at hactive
    contradiction
  · intro hfew
    have hstep := peerRequestHandler_forwards p live hfew hnext valid
    have honce : Forwarded w (peerRequestHandler { io 0 with reads := [] } fd p w) fd _ [] :=
      peerRequestHandler_forwards p Patient.nil.live (Patient.nil.readsThrough _) hnext valid
    have hne : w.kernel.inbox fd ≠ [] := by
      intro hnil
      rw [hnil] at hnext
      contradiction
    rw [notify_succ hw hp io n hne, notify_done io _ _ (.inl hstep.inbox)]
    refine ⟨hstep.sent, ?_, (hstep.quiet.active p).trans hp.1⟩
    rw [hreg.dispatch, hstep.sent, honce.sent]

/-- A frame body for destination 1. -/
def smallBody : Bytes := [0, 1, 0, 5, 7, 7, 7, 7, 42]

def interruptedCalls (n : Nat) : Nat → Calls := fun _ =>
  { reads := .moved 0 :: List.replicate n .interrupted }

theorem live_interruptedCalls (n i : Nat) : Live (interruptedCalls n i).reads := by
  simp [interruptedCalls, Live, CallResult.IsLive]

theorem deliveredOnce_interrupted :
    DeliveredOnce (oneClient (frame16.encode smallBody))
      (notify 9 (interruptedCalls 20) 0 (0 + 1) (oneClient (frame16.encode smallBody)))
      (interruptedCalls 20 0) 9 0 smallBody := by
  have valid : Forwards (oneClient (frame16.encode smallBody)).mgr.deviceOutQueueId
      (interruptedCalls 20 0) smallBody := by decide
  have inbox : (oneClient (frame16.encode smallBody)).kernel.inbox 9 = frame16.encode smallBody := rfl
  have few : ReadsThrough (interruptedCalls 20 0).reads smallBody.length := by
    unfold ReadsThrough
    decide
  exact (deliveredOnce_iff firstWorld_started (oneClient_reached _) (oneClient_holds _)
    (live_interruptedCalls 20 0) inbox valid 0).mpr few

/-- One more interruption, and a client whose bytes are all on their way is cut off. -/
theorem slow_frame_closes :
    Live (interruptedCalls 21 0).reads ∧
    (oneClient (frame16.encode smallBody)).kernel.inbox 9 = frame16.encode smallBody ∧
    Forwards (oneClient (frame16.encode smallBody)).mgr.deviceOutQueueId (interruptedCalls 21 0)
      smallBody ∧
    ¬ DeliveredOnce (oneClient (frame16.encode smallBody))
      (notify 9 (interruptedCalls 21) 0 (0 + 1) (oneClient (frame16.encode smallBody)))
      (interruptedCalls 21 0) 9 0 smallBody := by
  have hw := (firstWorld_started.sound.reaches (oneClient_reached (frame16.encode smallBody))).sound
    firstWorld_started.sound
  have hnext : frame16.next? ((oneClient (frame16.encode smallBody)).kernel.inbox 9) =
      some (smallBody, []) := by decide
  have many : ¬ ReadsThrough (interruptedCalls 21 0).reads smallBody.length := by
    unfold ReadsThrough
    decide
  refine ⟨live_interruptedCalls 21 0, rfl, by decide, ?_⟩
  intro hdelivered
  have hactive := hdelivered.active
  rw [(notify_stalled hw (oneClient_holds _) (live_interruptedCalls 21 0) hnext many 0).1.inactive]
    at hactive
  contradiction

end Tflib.Nac
