import Tflib.Core.Countdown
import Tflib.Nac.Leftover

/-! # Session timers

Each slot's timer counts down to the tick that closes it. A run is observed with
the number of ticks that each slot has been idle, and the timers are compared
with these numbers.
-/

namespace Tflib.Nac

open Tflib.Core Ae Ipc Socket

/-! ## One tick -/

/-- What a tick leaves in a slot. -/
def ticked (info : PeerInfo) : PeerInfo :=
  if info.active then
    let timer := info.sessionTimer - 1
    if timer = 0 then { info with sessionTimer := timer, active := false, authed := false }
    else { info with sessionTimer := timer }
  else info

theorem lifeCyclePeer_slot_self (w : World) (p : Peer) :
    (lifeCyclePeer w p).mgr.slots p = ticked (w.mgr.slots p) := by
  unfold lifeCyclePeer ticked
  dsimp only
  split
  · split
    · simp [closePeer, World.setSlot]
    · simp [World.setSlot]
  · rfl

theorem foldl_lifeCyclePeer_slot {peers : List Peer} (hnodup : peers.Nodup) (w : World)
    (p : Peer) : (peers.foldl lifeCyclePeer w).mgr.slots p =
      if p ∈ peers then ticked (w.mgr.slots p) else w.mgr.slots p := by
  induction peers generalizing w with
  | nil => simp
  | cons q peers ih =>
      obtain ⟨hq, hrest⟩ := List.nodup_cons.mp hnodup
      rw [List.foldl_cons, ih hrest]
      by_cases hp : p = q
      · subst hp
        rw [if_neg hq, if_pos List.mem_cons_self, lifeCyclePeer_slot_self]
      · rw [lifeCyclePeer_slot_of_ne hp]
        simp [hp]

/-- The loop visits every slot once. -/
theorem lifeCycleLoop_slot (w : World) (p : Peer) :
    (lifeCycleLoop w).mgr.slots p = ticked (w.mgr.slots p) := by
  rw [lifeCycleLoop, foldl_lifeCyclePeer_slot (List.nodup_finRange _), if_pos (List.mem_finRange p)]

theorem lifeCyclePeer_timeout (w : World) (p : Peer) :
    (lifeCyclePeer w p).mgr.socketTimeout = w.mgr.socketTimeout := by
  unfold lifeCyclePeer
  dsimp only
  split
  · split <;> rfl
  · rfl

/-- The loop keeps whatever the calls for the single peers keep. -/
theorem lifeCycleLoop_keeps {α : Type*} (f : World → α) (h : ∀ w p, f (lifeCyclePeer w p) = f w)
    (w : World) :
    f (lifeCycleLoop w) = f w := by
  unfold lifeCycleLoop
  induction List.finRange maxPeerNums generalizing w with
  | nil => rfl
  | cons p peers ih =>
      rw [List.foldl_cons, ih]
      exact h w p

theorem lifeCycleLoop_timeout (w : World) :
    (lifeCycleLoop w).mgr.socketTimeout = w.mgr.socketTimeout :=
  lifeCycleLoop_keeps (·.mgr.socketTimeout) lifeCyclePeer_timeout w

/-! ## What the callbacks do to the timers -/

/-- The slots that stay active keep their timer, except that those of `renewed` get a full one. -/
structure Touches (w w' : World) (renewed : Peer → Prop) : Prop where
  timeout : w'.mgr.socketTimeout = w.mgr.socketTimeout
  full : ∀ p, (w'.mgr.slots p).active = true → renewed p →
    (w'.mgr.slots p).sessionTimer = w.mgr.socketTimeout
  kept : ∀ p, (w'.mgr.slots p).active = true → ¬ renewed p →
    (w.mgr.slots p).active = true ∧
      (w'.mgr.slots p).sessionTimer = (w.mgr.slots p).sessionTimer

/-- Nobody's timer is renewed. -/
abbrev Leaves (w w' : World) : Prop := Touches w w' fun _ => False

theorem leaves_of_slots {w w' : World} (timeout : w'.mgr.socketTimeout = w.mgr.socketTimeout)
    (slots : w'.mgr.slots = w.mgr.slots) : Leaves w w' where
  timeout := timeout
  full _ _ hfalse := hfalse.elim
  kept p hp _ := by
    rw [slots] at hp ⊢
    exact ⟨hp, rfl⟩

theorem leaves_leave (w : World) (fd : Nat) (rest : Bytes) :
    Leaves w { w with kernel := w.kernel.leave fd rest } := leaves_of_slots rfl rfl

/-- The two reads of a frame. -/
theorem leaves_leave_receive (w : World) (fd : Nat) (first rest : Bytes) (buf : Nat)
    (moved : Bytes) :
    Leaves w (World.receive { w with kernel := w.kernel.leave fd first } fd rest buf moved) :=
  leaves_of_slots rfl rfl

theorem Touches.after_leaves {u v w : World} {renewed : Peer → Prop} (h : Leaves u v)
    (k : Touches v w renewed) : Touches u w renewed where
  timeout := k.timeout.trans h.timeout
  full p hp hrenewed := (k.full p hp hrenewed).trans h.timeout
  kept p hp hnot := by
    obtain ⟨hactive, htimer⟩ := k.kept p hp hnot
    obtain ⟨hactive', htimer'⟩ := h.kept p hactive id
    exact ⟨hactive', htimer.trans htimer'⟩

theorem Touches.congr {w w' : World} {renewed renewed' : Peer → Prop} (h : Touches w w' renewed)
    (hiff : ∀ p, (w'.mgr.slots p).active = true → (renewed' p ↔ renewed p)) :
    Touches w w' renewed' where
  timeout := h.timeout
  full p hp hrenewed := h.full p hp ((hiff p hp).mp hrenewed)
  kept p hp hnot := h.kept p hp fun hrenewed => hnot ((hiff p hp).mpr hrenewed)

theorem leaves_closePeer (w : World) (p : Peer) : Leaves w (closePeer w p) where
  timeout := rfl
  full _ _ hfalse := hfalse.elim
  kept q hq _ := by
    by_cases heq : q = p
    · subst heq
      simp [closePeer] at hq
    · have hslot : (closePeer w p).mgr.slots q = w.mgr.slots q := by simp [closePeer, heq]
      rw [hslot] at hq ⊢
      exact ⟨hq, rfl⟩

theorem touches_reloadTimer (w : World) (p : Peer) : Touches w (reloadTimer w p) (· = p) where
  timeout := rfl
  full q _ heq := by
    subst heq
    simp [reloadTimer, World.setSlot]
  kept q hq hne := by
    have hslot : (reloadTimer w p).mgr.slots q = w.mgr.slots q := by
      simp [reloadTimer, World.setSlot, hne]
    rw [hslot] at hq ⊢
    exact ⟨hq, rfl⟩

/-- Either the request is put on the device's queue and its peer's timer renewed, or neither. -/
theorem peerRequestHandler_touches (io : Calls) (fd : Nat) (p : Peer) (w : World) :
    ((peerRequestHandler io fd p w).kernel.sent.length ≠ w.kernel.sent.length ∧
        Touches w (peerRequestHandler io fd p w) (· = p)) ∨
      ((peerRequestHandler io fd p w).kernel.sent.length = w.kernel.sent.length ∧
        Leaves w (peerRequestHandler io fd p w)) := by
  have hclose : ∀ v : World, v.mgr.socketTimeout = w.mgr.socketTimeout →
      v.mgr.slots = w.mgr.slots → Leaves w (closePeer v p) := fun v htimeout hslots =>
    .after_leaves (leaves_of_slots htimeout hslots) (leaves_closePeer v p)
  unfold peerRequestHandler
  dsimp only
  split
  · exact .inr ⟨rfl, hclose _ rfl rfl⟩
  · split
    · exact .inr ⟨rfl, hclose _ rfl rfl⟩
    · split
      · exact .inr ⟨rfl, hclose _ rfl rfl⟩
      · unfold forwardRequest
        dsimp only
        split
        · refine .inl ⟨?_, .after_leaves (leaves_of_slots ?_ ?_) (touches_reloadTimer _ p)⟩
          · simp [reloadTimer, World.setSlot, World.receive, Kernel.leave]
          · rfl
          · rfl
        · exact .inr ⟨rfl, hclose _ rfl rfl⟩

/-- `message_response_handler` finds `p` under the id of the next frame, and writing to it does
not fail. -/
def delivers (w : World) (fd : Nat) (io : Calls) (p : Peer) : Bool :=
  match takeResponse io fd w with
  | (_, none) => false
  | (v, some len) =>
      getActivePeer v.mgr (net32cpy v.mgr.mem (bufferAt 8)) = some p &&
        0 ≤ (tfnetWrite io.writes (responseBytes v.mgr.mem (len - 16))).ret

theorem takeResponse_leaves (io : Calls) (fd : Nat) (w : World) :
    Leaves w (takeResponse io fd w).1 := by
  unfold takeResponse
  dsimp only
  split
  · exact leaves_leave w fd _
  · have hread := leaves_leave_receive w fd (tfnetRead io.reads (w.kernel.inbox fd) 2).rest
    split <;> exact hread _ _ _

theorem deliverResponse_touches (io : Calls) (q : Peer) (len : UInt16) (w : World) :
    Touches w (deliverResponse io q len w) fun p =>
      q = p ∧ 0 ≤ (tfnetWrite io.writes (responseBytes w.mgr.mem (len - 16))).ret := by
  unfold deliverResponse
  dsimp only
  split
  · rename_i hfails
    refine (Touches.after_leaves (leaves_of_slots ?_ ?_) (leaves_closePeer _ q)).congr ?_
    · rfl
    · rfl
    · intro p _
      exact ⟨fun h => absurd h.2 (Int.not_le.mpr hfails), False.elim⟩
  · rename_i hwritten
    refine (Touches.after_leaves (leaves_of_slots ?_ ?_) (touches_reloadTimer _ q)).congr ?_
    · rfl
    · rfl
    · intro p _
      exact ⟨fun h => h.1.symm, fun h => ⟨h.symm, Int.not_lt.mp hwritten⟩⟩

theorem routeResponse_touches (io : Calls) (len : UInt16) (id : UInt32) (w : World) :
    Touches w (routeResponse io len id w) fun p => getActivePeer w.mgr id = some p ∧
      0 ≤ (tfnetWrite io.writes (responseBytes w.mgr.mem (len - 16))).ret := by
  unfold routeResponse
  cases hpeer : getActivePeer w.mgr id with
  | none => exact (leaves_of_slots rfl rfl).congr fun p _ => ⟨fun h => (nomatch h.1), False.elim⟩
  | some q =>
      refine (deliverResponse_touches io q len w).congr ?_
      intro p _
      rw [Option.some.injEq]

theorem messageResponseHandler_touches (io : Calls) (fd : Nat) (w : World) :
    Touches w (messageResponseHandler io fd w) (fun p => delivers w fd io p = true) := by
  have htake := takeResponse_leaves io fd w
  unfold messageResponseHandler delivers
  rcases hread : takeResponse io fd w with ⟨v, _ | len⟩
  · rw [hread] at htake
    exact htake.congr fun p _ => ⟨fun h => (nomatch h), False.elim⟩
  · rw [hread] at htake
    refine (Touches.after_leaves htake (routeResponse_touches io len _ v)).congr ?_
    intro p _
    rw [Bool.and_eq_true, decide_eq_true_iff, decide_eq_true_iff]

/-- The slot that the connection gets is the only one that becomes active. -/
theorem acceptTcpHandler_touches (io : Calls) (w : World) :
    Touches w (acceptTcpHandler io w) fun p => (w.mgr.slots p).active = false := by
  have hleaves : ∀ {v : World}, Leaves w v →
      Touches w v fun p => (w.mgr.slots p).active = false := fun h => h.congr fun p hp =>
    ⟨fun hinactive => Bool.noConfusion (hinactive.symm.trans (h.kept p hp id).1), False.elim⟩
  cases hio : tfnetTcpAccept2 io.accept with
  | none =>
      simp only [acceptTcpHandler, hio]
      exact hleaves (leaves_of_slots rfl rfl)
  | some c =>
      obtain ⟨cfd, cip, cport⟩ := c
      have hother : ∀ p q, q ≠ p →
          (admitPeer (w.accept cfd) p cfd cip cport).mgr.slots q = w.mgr.slots q :=
        fun p q hq => admitPeer_slot_of_ne (w.accept cfd) hq cfd cip cport
      rcases acceptTcpHandler_cases w hio with ⟨-, h⟩ | ⟨p, hidle, ⟨-, h⟩ | ⟨el, -, h⟩⟩
      · rw [h]
        exact hleaves (leaves_of_slots rfl rfl)
      · rw [h]
        refine hleaves ⟨rfl, fun _ _ hfalse => hfalse.elim, ?_⟩
        intro q hq _
        obtain ⟨hactive, htimer⟩ := (leaves_closePeer _ p).kept q hq id
        by_cases heq : q = p
        · subst heq
          simp [closePeer] at hq
        · rw [hother p q heq] at hactive htimer
          exact ⟨hactive, htimer⟩
      · rw [h]
        have hreload := touches_reloadTimer ((admitPeer (w.accept cfd) p cfd cip cport).setLoop el) p
        have hsame : ∀ q, q ≠ p →
            ((admitPeer (w.accept cfd) p cfd cip cport).setLoop el).mgr.slots q = w.mgr.slots q :=
          fun q hq => hother p q hq
        refine ⟨rfl, ?_, ?_⟩
        · intro q hq hinactive
          by_cases heq : q = p
          · exact hreload.full q hq heq
          · have hactive := (hreload.kept q hq heq).1
            rw [hsame q heq, hinactive] at hactive
            contradiction
        · intro q hq hactive
          have heq : q ≠ p := fun heq => hactive (heq ▸ (getIdlePeer_some hidle).1)
          have hkept := hreload.kept q hq heq
          rwa [hsame q heq] at hkept

/-! ## Renewals -/

/-- The callback makes `p` active. -/
def connects (w : World) (fd : Nat) (io : Calls) (p : Peer) : Bool :=
  !(w.mgr.slots p).active && ((dispatch io fd w).mgr.slots p).active

/-- The callback is about `p`'s descriptor and puts a message on the device's queue. -/
def forwards (w : World) (fd : Nat) (io : Calls) (p : Peer) : Bool :=
  (w.mgr.slots p).fd = fd && (dispatch io fd w).kernel.sent.length ≠ w.kernel.sent.length

/-- `p` was accepted, or its request forwarded, or a response delivered to it. -/
def renews (w : World) (fd : Nat) (io : Calls) (p : Peer) : Bool :=
  connects w fd io p || forwards w fd io p || (fd = w.mgr.mqueue && delivers w fd io p)

theorem renews_iff {w : World} {fd : Nat} {io : Calls} {p : Peer} : renews w fd io p = true ↔
    ((w.mgr.slots p).active = false ∧ ((dispatch io fd w).mgr.slots p).active = true) ∨
      ((w.mgr.slots p).fd = fd ∧
        (dispatch io fd w).kernel.sent.length ≠ w.kernel.sent.length) ∨
      (fd = w.mgr.mqueue ∧ delivers w fd io p = true) := by
  simp [renews, connects, forwards, or_assoc]

/-- An active slot holds neither of the service's own descriptors. -/
theorem Sound.fd_ne {w : World} (hw : Sound w) {p : Peer} (h : (w.mgr.slots p).active = true) :
    (w.mgr.slots p).fd ≠ w.mgr.serverFd ∧ (w.mgr.slots p).fd ≠ w.mgr.mqueue := by
  have hopen := hw.balanced.isOpen p _ (World.owner_eq_some.mpr ⟨h, rfl⟩)
  exact ⟨hw.wired.not_server (.inr hopen), hw.wired.not_mqueue (.inr hopen)⟩

theorem peerRequestHandler_renews {w : World} (hw : Sound w) {fd : Nat} {p : Peer}
    (hholds : Holds w p fd) (hmqueue : fd ≠ w.mgr.mqueue) {io : Calls}
    (hdispatch : dispatch io fd w = peerRequestHandler io fd p w) :
    Touches w (dispatch io fd w) (fun q => renews w fd io q = true) := by
  rcases peerRequestHandler_touches io fd p w with ⟨hsent, htouches⟩ | ⟨hsent, hleaves⟩
  · rw [← hdispatch] at hsent htouches
    refine htouches.congr ?_
    intro q hq
    rw [renews_iff]
    constructor
    · intro hrenews
      by_contra hne
      have hactive := (htouches.kept q hq hne).1
      rcases hrenews with ⟨hinactive, -⟩ | ⟨heq, -⟩ | ⟨heq, -⟩
      · exact Bool.noConfusion (hinactive.symm.trans hactive)
      · exact hne (hw.holds_injective ⟨hactive, heq⟩ hholds)
      · exact hmqueue heq
    · intro heq
      subst heq
      exact .inr (.inl ⟨hholds.2, hsent⟩)
  · rw [← hdispatch] at hsent hleaves
    refine hleaves.congr ?_
    intro q hq
    rw [renews_iff]
    constructor
    · intro hrenews
      have hactive := (hleaves.kept q hq id).1
      rcases hrenews with ⟨hinactive, -⟩ | ⟨-, hne⟩ | ⟨heq, -⟩
      · exact Bool.noConfusion (hinactive.symm.trans hactive)
      · exact hne hsent
      · exact hmqueue heq
    · exact False.elim

/-- Whatever is dispatched, exactly the renewed slots get a full timer. -/
theorem dispatch_touches {w : World} (hw : Sound w) (fd : Nat) (io : Calls) :
    Touches w (dispatch io fd w) (fun p => renews w fd io p = true) := by
  rcases hw.dispatch_cases fd io with
    ⟨hserver, h⟩ | ⟨hmqueue, h⟩ | ⟨-, hmqueue, h | ⟨p, hactive, hfd, h⟩⟩
  · have htouches := acceptTcpHandler_touches io w
    rw [← h] at htouches
    refine htouches.congr ?_
    intro p hp
    rw [renews_iff]
    constructor
    · intro hrenews
      by_contra hactive
      have hne := hw.fd_ne (Bool.not_eq_false _ ▸ hactive)
      rcases hrenews with ⟨hinactive, -⟩ | ⟨heq, -⟩ | ⟨heq, -⟩
      · exact hactive hinactive
      · exact hne.1 (heq.trans hserver)
      · exact hw.wired.distinct (hserver.symm.trans heq)
    · exact fun hinactive => .inl ⟨hinactive, hp⟩
  · have htouches := messageResponseHandler_touches io fd w
    rw [← h] at htouches
    refine htouches.congr ?_
    intro p hp
    rw [renews_iff]
    constructor
    · intro hrenews
      by_contra hnot
      have hactive := (htouches.kept p hp hnot).1
      rcases hrenews with ⟨hinactive, -⟩ | ⟨heq, -⟩ | ⟨-, hdelivers⟩
      · exact Bool.noConfusion (hinactive.symm.trans hactive)
      · exact (hw.fd_ne hactive).2 (heq.trans hmqueue)
      · exact hnot hdelivers
    · exact fun hdelivers => .inr (.inr ⟨hmqueue, hdelivers⟩)
  · rw [h]
    refine (leaves_of_slots rfl rfl).congr ?_
    intro p hp
    rw [renews_iff, h]
    simp [hp, hmqueue]
  · exact peerRequestHandler_renews hw ⟨hactive, hfd⟩ hmqueue h

/-! ## The observed service -/

/-- A state with the number of ticks since each slot was last renewed. -/
structure Aged where
  world : World
  age : Peer → Nat

namespace Aged

def start (w : World) : Aged := ⟨w, fun _ => 0⟩

def observe (s : Aged) (e : Event) : Aged where
  world := exec s.world e
  age :=
    match e with
    | .arrive _ _ => s.age
    | .file fd io => fun p => if renews s.world fd io p then 0 else s.age p
    | .tick => fun p => s.age p + 1

theorem observe_world (s : Aged) (e : Event) : (s.observe e).world = exec s.world e := rfl

theorem observe_tick_age (s : Aged) (p : Peer) : (s.observe .tick).age p = s.age p + 1 := rfl

def Active (s : Aged) (p : Peer) : Prop := (s.world.mgr.slots p).active = true

def timer (s : Aged) (p : Peer) : Nat := (s.world.mgr.slots p).sessionTimer.toNat

/-- `life_cycle_handler` closes `p` when it runs next. -/
def Expires (s : Aged) (p : Peer) : Prop := ¬ (s.observe .tick).Active p

end Aged

def aged : Machine Aged Event where
  step := Aged.observe
  admits s e := Admissible s.world e

/-- `p`'s timer is within the configured time, and the tick that completes it is the one that
closes `p`. -/
structure OnTime (timeout : Int) (s : Aged) (p : Peer) : Prop where
  low : 1 ≤ s.timer p
  high : (s.timer p : Int) ≤ timeout
  expires : s.Expires p ↔ (s.age p : Int) + 1 = timeout

/-! ## Every timer counts down from the stored timeout -/

/-- In a state of a run with `timeout` in `process_mgr->socket_timeout`, each active slot's timer
is as many ticks on its way as the slot is idle. -/
structure Timed (timeout : UInt16) (s : Aged) : Prop where
  sound : Sound s.world
  stored : s.world.mgr.socketTimeout = timeout
  counts : ∀ p, s.Active p → Counts 65536 timeout.toNat (s.age p) (s.timer p)

theorem Aged.tick_slot (s : Aged) (p : Peer) :
    (s.observe .tick).world.mgr.slots p = ticked (s.world.mgr.slots p) := by
  rw [observe_world, exec_tick, lifeCycleLoop_slot]

/-- A slot survives a tick with its timer decremented, unless that makes it zero. -/
theorem Aged.tick_active {s : Aged} {p : Peer} : (s.observe .tick).Active p ↔
    s.Active p ∧ dec 65536 (s.timer p) ≠ 0 := by
  rw [Aged.Active, tick_slot, Aged.Active, Aged.timer, ← toNat_sub_one, ticked]
  have hzero : (s.world.mgr.slots p).sessionTimer - 1 = 0 ↔
      ((s.world.mgr.slots p).sessionTimer - 1).toNat = 0 := UInt16.toNat_inj.symm
  cases hactive : (s.world.mgr.slots p).active with
  | false => simp [hactive]
  | true =>
      by_cases htimer : (s.world.mgr.slots p).sessionTimer - 1 = 0
      · simp [htimer]
      · simp [htimer, ← hzero]

theorem Aged.tick_timer {s : Aged} {p : Peer} (h : s.Active p) :
    (s.observe .tick).timer p = dec 65536 (s.timer p) := by
  have hactive : (s.world.mgr.slots p).active = true := h
  rw [Aged.timer, tick_slot, Aged.timer, ← toNat_sub_one, ticked, if_pos hactive]
  dsimp only
  split <;> rfl

theorem Timed.observe {timeout : UInt16} {s : Aged} (h : Timed timeout s) {e : Event}
    (admitted : Admissible s.world e) : Timed timeout (s.observe e) where
  sound := (exec_refines h.sound e admitted).sound h.sound
  stored := by
    rw [Aged.observe_world]
    refine Eq.trans ?_ h.stored
    cases e with
    | arrive fd bytes => rfl
    | file fd io => exact (dispatch_touches h.sound fd io).timeout
    | tick => rw [exec_tick, lifeCycleLoop_timeout]
  counts p hp := by
    cases e with
    | arrive fd bytes => exact h.counts p hp
    | file fd io =>
        have htouches := dispatch_touches h.sound fd io
        change Counts 65536 timeout.toNat (if renews s.world fd io p then 0 else s.age p)
          ((dispatch io fd s.world).mgr.slots p).sessionTimer.toNat
        split
        · rename_i hrenews
          rw [htouches.full p hp hrenews, h.stored]
          exact .load timeout.toNat_lt
        · rename_i hkept
          obtain ⟨hactive, htimer⟩ := htouches.kept p hp hkept
          rw [htimer]
          exact h.counts p hactive
    | tick =>
        obtain ⟨hactive, hne⟩ := Aged.tick_active.mp hp
        rw [Aged.tick_timer hactive]
        exact (h.counts p hactive).next hne

theorem Timed.reaches {timeout : UInt16} {s t : Aged} (h : Timed timeout s)
    (hrun : aged.Reaches s t) : Timed timeout t := by
  refine hrun.invariant ?_ h
  intro s e hs admitted
  exact hs.observe admitted

theorem Timed.expires_iff {timeout : UInt16} {s : Aged} (h : Timed timeout s) {p : Peer}
    (hp : s.Active p) : s.Expires p ↔ s.age p + 1 = period 65536 timeout.toNat := by
  rw [← (h.counts p hp).dec_eq_zero_iff, Aged.Expires, Aged.tick_active]
  simp [hp]

/-- With a stored timeout that is the configured one, everybody is on time. -/
theorem Timed.onTime {timeout : UInt16} {s : Aged} (h : Timed timeout s) {p : Peer}
    (hp : s.Active p) {T : Int} (hT : 1 ≤ T) (hstored : (timeout.toNat : Int) = T) :
    OnTime T s p := by
  have hcounts := h.counts p hp
  have hne : timeout.toNat ≠ 0 := by omega
  have hperiod : period 65536 timeout.toNat = timeout.toNat := if_neg hne
  have hle := hcounts.shown_le
  refine ⟨hcounts.pos hne, by omega, ?_⟩
  rw [h.expires_iff hp, hperiod]
  omega

/-- Ticks alone let the age of an active slot grow until its period is over. -/
theorem Timed.wait {timeout : UInt16} {s : Aged} (h : Timed timeout s) {p : Peer}
    (hp : s.Active p) (k : Nat) (hk : s.age p + k < period 65536 timeout.toNat) :
    ∃ t, aged.Reaches s t ∧ t.Active p ∧ t.age p = s.age p + k := by
  induction k with
  | zero => exact ⟨s, .refl _ s, hp, rfl⟩
  | succ k ih =>
      obtain ⟨t, hrun, ht, hage⟩ := ih (by omega)
      have hlast : ¬ t.Expires p := by
        rw [(h.reaches hrun).expires_iff ht]
        omega
      have hadmits : aged.admits t .tick := True.intro
      have hstep : aged.Reaches s (t.observe .tick) := hrun.step hadmits
      refine ⟨t.observe .tick, hstep, Classical.not_not.mp hlast, ?_⟩
      rw [Aged.observe_tick_age, hage, Nat.add_assoc]

/-! ## Services that admit nobody -/

/-- No slot is active, and no descriptor is free that the loop could register. -/
structure Barred (w : World) : Prop where
  inactive : ∀ p, (w.mgr.slots p).active = false
  occupied : ∀ fd < w.mgr.el.setsize, w.kernel.fds fd ≠ none

theorem Quiet.barred {w v : World} (h : Quiet w v) (hw : Barred w) : Barred v where
  inactive p := (h.active p).trans (hw.inactive p)
  occupied fd hfd := by
    rw [h.el] at hfd
    rw [h.fds]
    exact hw.occupied fd hfd

theorem Barred.accept {w : World} (hw : Barred w) {io : Calls} {cfd : Nat} {cip : UInt32}
    {cport : UInt16} (hio : tfnetTcpAccept2 io.accept = some (cfd, cip, cport))
    (hfree : w.kernel.fds cfd = none) : Barred (acceptTcpHandler io w) := by
  have hbeyond : ¬ cfd < w.mgr.el.setsize := fun hlt => hw.occupied cfd hlt hfree
  rcases acceptTcpHandler_cases w hio with ⟨hfull, -⟩ | ⟨p, -, ⟨-, h⟩ | ⟨el, hadds, -⟩⟩
  · have hidle := hw.inactive 0
    rw [getIdlePeer_none hfull] at hidle
    contradiction
  · rw [h]
    constructor
    · intro q
      rw [closePeer_active]
      by_cases heq : q = p
      · simp [heq]
      · rw [admitPeer_slot_of_ne (w.accept cfd) heq]
        simp [World.accept, hw.inactive q]
    · intro fd hfd
      rw [closePeer_setsize] at hfd
      have hne : fd ≠ cfd := fun heq => hbeyond (heq ▸ hfd)
      rw [closePeer_fds, admitPeer_slot_self, if_neg hne]
      exact (accept_fds w cfd fd).trans (if_neg hne) ▸ hw.occupied fd hfd
  · exact absurd hadds.inTable hbeyond

theorem Barred.exec {w : World} (hsound : Sound w) (hw : Barred w) {e : Event}
    (admitted : Admissible w e) : Barred (exec w e) := by
  cases e with
  | arrive fd bytes => exact (quiet_arrive w fd bytes).barred hw
  | tick =>
      rw [exec_tick, lifeCycleLoop, foldl_lifeCyclePeer_of_inactive fun p _ => hw.inactive p]
      exact hw
  | file fd io =>
      change Barred (dispatch io fd w)
      rcases hsound.dispatch_cases fd io with ⟨-, h⟩ | ⟨-, h⟩ | ⟨-, -, h | ⟨p, hactive, -, -⟩⟩
      · rw [h]
        cases hio : tfnetTcpAccept2 io.accept with
        | none =>
            simp only [acceptTcpHandler, hio]
            exact hw
        | some c =>
            obtain ⟨cfd, cip, cport⟩ := c
            exact hw.accept hio (admitted cfd cip cport hio)
      · rw [h]
        obtain ⟨u, hquiet, hu | ⟨p, hp, -⟩⟩ := messageResponseHandler_cases io fd w
        · rw [hu]
          exact hquiet.barred hw
        · exact Bool.noConfusion ((hw.inactive p).symm.trans hp)
      · rw [h]
        exact hw
      · exact Bool.noConfusion ((hw.inactive p).symm.trans hactive)

/-- A barred service never has an active slot. -/
theorem Barred.reaches {w₀ : World} (hsound : Sound w₀) (hw : Barred w₀) {s : Aged}
    (hrun : aged.Reaches (.start w₀) s) : Barred s.world := by
  refine (hrun.invariant (I := fun s => Sound s.world ∧ Barred s.world) ?_ ⟨hsound, hw⟩).2
  intro s e hs admitted
  exact ⟨(exec_refines hs.1 e admitted).sound hs.1, hs.2.exec hs.1 admitted⟩

/-! ## The configured timeout -/

theorem loadShareMemory_timeout {sys : InitCalls} {b b' : Boot}
    (h : loadShareMemory sys b = .ok b') : b'.socketTimeout = b.socketTimeout := by
  unfold loadShareMemory at h
  dsimp only at h
  split at h
  · split at h <;> cases h
    rfl
  · cases h
    rfl

theorem createMessageQueue_timeout {sys : InitCalls} {b b' : Boot}
    (h : createMessageQueue sys b = .ok b') : b'.socketTimeout = b.socketTimeout := by
  unfold createMessageQueue at h
  dsimp only at h
  split at h <;> cases h
  rfl

theorem initPeers_timeout {b b' : Boot} (h : initPeers b = .ok b') :
    b'.socketTimeout = b.socketTimeout := by
  unfold initPeers at h
  split at h
  · cases h
    rfl
  · split at h <;> cases h
    rfl

/-- Only the configuration sets the timeout. -/
theorem initializeProcess_timeout {group : CfgGroup} {sys : InitCalls} {b : Boot}
    (h : initializeProcess (some (some group)) false sys = .ok b) :
    b.socketTimeout = UInt16.ofInt (cfgGetInt group "socket_timeout" 300) := by
  obtain ⟨b₁, b₂, hload, hqueue, hinit⟩ := initializeProcess_steps h
  exact (initPeers_timeout hinit).trans
    ((createMessageQueue_timeout hqueue).trans (loadShareMemory_timeout hload))

theorem startService_timeout {b : Boot} {k : Kernel} {c : StartCalls} {w : World}
    (h : startService b k c = some w) : w.mgr.socketTimeout = b.socketTimeout := by
  simp only [startService, Option.bind_eq_bind, Option.bind_eq_some_iff, Option.pure_def,
    Option.some.injEq] at h
  obtain ⟨_, _, _, _, _, _, _, _, _, _, _, _, _, _, rfl⟩ := h
  rfl

/-- The sixteen bits that `socket_timeout` is stored in hold exactly the values below 65536. -/
theorem ofInt_toNat_eq_iff {T : Int} : ((UInt16.ofInt T).toNat : Int) = T ↔ 0 ≤ T ∧ T ≤ 65535 := by
  rw [UInt16.ofInt, UInt16.toNat_ofNat']
  omega

theorem Started.timed {w₀ : World} (start : Started w₀) :
    Timed w₀.mgr.socketTimeout (.start w₀) where
  sound := start.sound
  stored := rfl
  counts p hp := Bool.noConfusion ((start.inactive p).symm.trans hp)

/-- A client that connects first thing has a slot with the stored timeout. -/
theorem Started.connect {w₀ : World} (start : Started w₀) {cfd : Nat}
    (htable : cfd < w₀.mgr.el.setsize) (hfree : w₀.kernel.fds cfd = none) :
    ∃ s p, aged.Reaches (.start w₀) s ∧ s.Active p ∧ s.age p = 0 := by
  have hio : tfnetTcpAccept2 (accepting cfd).accept = some (cfd, 0, 0) := rfl
  have hrun : aged.Reaches (.start w₀)
      ((Aged.start w₀).observe (.file w₀.mgr.serverFd (accepting cfd))) := by
    refine (Machine.Reaches.refl aged _).step (e := .file w₀.mgr.serverFd (accepting cfd)) ?_
    intro cfd' cip cport hcfd
    rw [hio] at hcfd
    cases hcfd
    exact hfree
  have hidle : ∀ p, (w₀.mgr.slots p).active = false := start.inactive
  obtain ⟨p, el, -, -, h⟩ := acceptTcpHandler_admits w₀ hio (hidle 0) htable rfl
  have hquiet := quiet_reloadTimer ((admitPeer (w₀.accept cfd) p cfd 0 0).setLoop el) p
  have hactive : ((dispatch (accepting cfd) w₀.mgr.serverFd w₀).mgr.slots p).active = true := by
    rw [start.wired.dispatch_server, h, hquiet.active]
    exact congrArg PeerInfo.active (admitPeer_slot_self (w₀.accept cfd) p cfd 0 0)
  have hrenews : renews w₀ w₀.mgr.serverFd (accepting cfd) p = true :=
    renews_iff.mpr (.inl ⟨hidle p, hactive⟩)
  exact ⟨_, p, hrun, hactive, if_pos hrenews⟩

/-- Everybody is always on time exactly when the configured timeout survives being stored and is
not zero, unless nobody can connect. -/
theorem Started.onTime_iff {w₀ : World} (start : Started w₀) {T : Int}
    (hstored : w₀.mgr.socketTimeout = UInt16.ofInt T) :
    (∀ s, aged.Reaches (.start w₀) s → ∀ p, s.Active p → OnTime T s p) ↔
      (1 ≤ T ∧ T ≤ 65535) ∨ ∀ fd < w₀.mgr.el.setsize, w₀.kernel.fds fd ≠ none := by
  constructor
  · intro hall
    by_contra hnot
    obtain ⟨hrange, hfree⟩ := not_or.mp hnot
    push Not at hfree
    obtain ⟨cfd, htable, hfree⟩ := hfree
    obtain ⟨s, p, hrun, hp, hage⟩ := start.connect htable hfree
    have htimed := start.timed.reaches hrun
    have hshown := (htimed.counts p hp).shown
    rw [if_pos hage] at hshown
    have hne : w₀.mgr.socketTimeout.toNat ≠ 0 := by
      have hlow := (hall s hrun p hp).low
      omega
    have hperiod : period 65536 w₀.mgr.socketTimeout.toNat = w₀.mgr.socketTimeout.toNat := if_neg hne
    -- the tick that closes the slot is both the last of the period and the one configured
    obtain ⟨t, hwait, ht, hlast⟩ :=
      htimed.wait hp (w₀.mgr.socketTimeout.toNat - 1) (by omega)
    have hexpires : t.Expires p := ((htimed.reaches hwait).expires_iff ht).mpr (by omega)
    have hT := (hall t (hrun.trans hwait) p ht).expires.mp hexpires
    have heq : ((UInt16.ofInt T).toNat : Int) = T := by
      rw [← hstored]
      omega
    have hbound := ofInt_toNat_eq_iff.mp heq
    omega
  · intro hwhen s hrun p hp
    rcases hwhen with ⟨hlow, hhigh⟩ | hfull
    · refine (start.timed.reaches hrun).onTime hp hlow ?_
      rw [hstored]
      exact ofInt_toNat_eq_iff.mpr ⟨by omega, hhigh⟩
    · have hbarred : Barred w₀ := ⟨start.inactive, hfull⟩
      exact Bool.noConfusion (((hbarred.reaches start.sound hrun).inactive p).symm.trans hp)

/-- With any configuration, on a table without clients: each active slot is closed by the tick that
completes `socket_timeout`, and its timer stays within it, exactly when `socket_timeout` fits its
field and is positive, or no descriptor is left for a client. -/
theorem timers_onTime_iff {group : CfgGroup} {sys : InitCalls} {b : Boot} {k : Kernel}
    {c : StartCalls} {w₀ : World}
    (boot : initializeProcess (some (some group)) false sys = .ok b) (clean : StartsClean group sys)
    (start : startService b k c = some w₀) (new : NewProcess k c) :
    (∀ s, aged.Reaches (.start w₀) s → ∀ p, s.Active p →
      OnTime (cfgGetInt group "socket_timeout" 300) s p) ↔
    (1 ≤ cfgGetInt group "socket_timeout" 300 ∧ cfgGetInt group "socket_timeout" 300 ≤ 65535) ∨
      ∀ fd < w₀.mgr.el.setsize, w₀.kernel.fds fd ≠ none := by
  obtain ⟨s, hs, hinactive⟩ := ((initializeProcess_fits_iff boot).mpr clean).table
  have hstarted : Started w₀ := by
    refine startService_started start new (initializeProcess_cases boot).1 ?_
    intro s' hs'
    rw [hs] at hs'
    cases hs'
    exact hinactive
  refine hstarted.onTime_iff ?_
  rw [startService_timeout start, initializeProcess_timeout boot]

/-- A configuration with `reload` and the given `socket_timeout`. -/
def reloading (timeout : Int) : CfgGroup where
  int key := if key = "socket_timeout" then some timeout else none
  bool key := if key = "reload" then some true else none

def reloadedBoot (timeout : Int) : Boot :=
  { readSettings (reloading timeout) with
    deviceInQueueId := 0
    deviceOutQueueId := 1
    shm := .attached ⟨0, fun p => initPeer p (ShmemMgr.zero.slots p)⟩ }

theorem initializeProcess_reloading (timeout : Int) :
    initializeProcess (some (some (reloading timeout))) false (attaching .zero) =
      .ok (reloadedBoot timeout) := rfl

def reloadedWorld (timeout : Int) : World :=
  (startService (reloadedBoot timeout) firstKernel firstCalls).get rfl

theorem startService_reloaded (timeout : Int) :
    startService (reloadedBoot timeout) firstKernel firstCalls = some (reloadedWorld timeout) :=
  (Option.some_get _).symm

theorem reloadedWorld_started (timeout : Int) : Started (reloadedWorld timeout) := by
  refine startService_started (startService_reloaded timeout) newProcess_first rfl ?_
  intro s hs p
  cases hs
  rfl

theorem timers_onTime_minute : ∃ s p, aged.Reaches (.start (reloadedWorld 60)) s ∧ s.Active p ∧
    s.age p = 0 ∧ OnTime 60 s p := by
  have htable : 9 < (reloadedWorld 60).mgr.el.setsize := by decide
  obtain ⟨s, p, hrun, hp, hage⟩ := (reloadedWorld_started 60).connect htable rfl
  exact ⟨s, p, hrun, hp, hage, (timers_onTime_iff (initializeProcess_reloading 60) (.inr (.inl rfl))
    (startService_reloaded 60) newProcess_first).mpr (.inl (by decide)) s hrun p hp⟩

/-- 65537 is stored as 1, and the first tick closes the first client. -/
theorem timeout_narrowed :
    initializeProcess (some (some (reloading 65537))) false (attaching .zero) =
      .ok (reloadedBoot 65537) ∧
    startService (reloadedBoot 65537) firstKernel firstCalls = some (reloadedWorld 65537) ∧
    ∃ s p, aged.Reaches (.start (reloadedWorld 65537)) s ∧ s.Active p ∧ s.age p = 0 ∧
      s.Expires p ∧ ¬ OnTime (cfgGetInt (reloading 65537) "socket_timeout" 300) s p := by
  have hstarted := reloadedWorld_started 65537
  have htable : 9 < (reloadedWorld 65537).mgr.el.setsize := by decide
  obtain ⟨s, p, hrun, hp, hage⟩ := hstarted.connect htable rfl
  have hexpires : s.Expires p := by
    rw [(hstarted.timed.reaches hrun).expires_iff hp, hage]
    rfl
  refine ⟨rfl, startService_reloaded 65537, s, p, hrun, hp, hage, hexpires, ?_⟩
  intro honTime
  have hT : (s.age p : Int) + 1 = 65537 := honTime.expires.mp hexpires
  omega

end Tflib.Nac
