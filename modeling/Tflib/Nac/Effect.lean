import Tflib.Nac.Handlers

/-! # What one handler can do to the connection table

Memory, timers and byte streams change all the time; slots, registrations,
descriptors and the counter change only in `close_peer` and on the accepting
path. The inversion lemmas below say so once for every handler.
-/

namespace Tflib.Nac

open Tflib.Core Ae Ipc Socket

/-- `v` differs from `w` in no view of the connection table. -/
structure Quiet (w v : World) : Prop where
  el : v.mgr.el = w.mgr.el
  serverFd : v.mgr.serverFd = w.mgr.serverFd
  mqueue : v.mgr.mqueue = w.mgr.mqueue
  connections : v.mgr.connections = w.mgr.connections
  fds : v.kernel.fds = w.kernel.fds
  closed : v.kernel.closed = w.kernel.closed
  active : ∀ p, (v.mgr.slots p).active = (w.mgr.slots p).active
  fd : ∀ p, (v.mgr.slots p).fd = (w.mgr.slots p).fd
  id : ∀ p, (v.mgr.slots p).id = (w.mgr.slots p).id

theorem Quiet.refl (w : World) : Quiet w w :=
  ⟨rfl, rfl, rfl, rfl, rfl, rfl, fun _ => rfl, fun _ => rfl, fun _ => rfl⟩

theorem Quiet.trans {u v w : World} (h : Quiet u v) (k : Quiet v w) : Quiet u w where
  el := k.el.trans h.el
  serverFd := k.serverFd.trans h.serverFd
  mqueue := k.mqueue.trans h.mqueue
  connections := k.connections.trans h.connections
  fds := k.fds.trans h.fds
  closed := k.closed.trans h.closed
  active p := (k.active p).trans (h.active p)
  fd p := (k.fd p).trans (h.fd p)
  id p := (k.id p).trans (h.id p)

theorem quiet_leave (w : World) (fd : Nat) (rest : Bytes) :
    Quiet w { w with kernel := w.kernel.leave fd rest } :=
  ⟨rfl, rfl, rfl, rfl, rfl, rfl, fun _ => rfl, fun _ => rfl, fun _ => rfl⟩

theorem quiet_arrive (w : World) (fd : Nat) (bytes : Bytes) :
    Quiet w { w with kernel := w.kernel.arrive fd bytes } :=
  ⟨rfl, rfl, rfl, rfl, rfl, rfl, fun _ => rfl, fun _ => rfl, fun _ => rfl⟩

/-- The two reads of a frame. -/
theorem quiet_leave_receive (w : World) (fd : Nat) (first rest : Bytes) (buf : Nat)
    (moved : Bytes) :
    Quiet w (World.receive { w with kernel := w.kernel.leave fd first } fd rest buf moved) :=
  ⟨rfl, rfl, rfl, rfl, rfl, rfl, fun _ => rfl, fun _ => rfl, fun _ => rfl⟩

theorem quiet_storeRequest (w : World) (peer : Peer) (now : UInt32) (len : Nat) :
    Quiet w { w with mgr := storeRequest w.mgr peer now len } :=
  ⟨rfl, rfl, rfl, rfl, rfl, rfl, fun _ => rfl, fun _ => rfl, fun _ => rfl⟩

/-- A store into a slot that keeps its identity fields. -/
theorem quiet_setSlot (w : World) (peer : Peer) (info : PeerInfo)
    (hactive : info.active = (w.mgr.slots peer).active) (hfd : info.fd = (w.mgr.slots peer).fd)
    (hid : info.id = (w.mgr.slots peer).id) : Quiet w (w.setSlot peer info) := by
  have hslot : ∀ p, (w.setSlot peer info).mgr.slots p =
      if p = peer then info else w.mgr.slots p := fun p => by
    simp [World.setSlot, Function.update_apply]
  refine ⟨rfl, rfl, rfl, rfl, rfl, rfl, ?_, ?_, ?_⟩
  all_goals
    intro p
    rw [hslot]
    split
    · simp_all
    · rfl

theorem quiet_reloadTimer (w : World) (peer : Peer) : Quiet w (reloadTimer w peer) :=
  quiet_setSlot w peer _ rfl rfl rfl

/-! ## Inversion -/

/-- Up to quiet changes, `w'` is `w` or `w` with one active slot closed. -/
def ClosesAtMost (w w' : World) (closing : Peer → Prop) : Prop :=
  ∃ v, Quiet w v ∧ (w' = v ∨ ∃ p, closing p ∧ w' = closePeer v p)

theorem ClosesAtMost.of_quiet {w w' : World} {closing : Peer → Prop} (h : Quiet w w') :
    ClosesAtMost w w' closing := ⟨w', h, .inl rfl⟩

theorem ClosesAtMost.of_close {w v : World} {closing : Peer → Prop} {p : Peer} (h : Quiet w v)
    (hp : closing p) : ClosesAtMost w (closePeer v p) closing := ⟨v, h, .inr ⟨p, hp, rfl⟩⟩

theorem forwardRequest_cases (io : Calls) (peer : Peer) (len : Nat) (w : World) :
    ClosesAtMost w (forwardRequest io peer len w) (· = peer) := by
  have hstore := quiet_storeRequest w peer io.now len
  unfold forwardRequest
  dsimp only
  split
  · refine .of_quiet (hstore.trans (.trans ?_ (quiet_reloadTimer _ peer)))
    exact ⟨rfl, rfl, rfl, rfl, rfl, rfl, fun _ => rfl, fun _ => rfl, fun _ => rfl⟩
  · exact .of_close hstore rfl

theorem peerRequestHandler_cases (io : Calls) (fd : Nat) (peer : Peer) (w : World) :
    ClosesAtMost w (peerRequestHandler io fd peer w) (· = peer) := by
  unfold peerRequestHandler
  dsimp only
  split
  · exact .of_close (quiet_leave w fd _) rfl
  · split
    · exact .of_close (quiet_leave w fd _) rfl
    · have hread := quiet_leave_receive w fd (tfnetRead io.reads (w.kernel.inbox fd) 2).rest
      split
      · exact .of_close (hread _ _ _) rfl
      · obtain ⟨v, hv, h⟩ := forwardRequest_cases io peer _ _
        exact ⟨v, (hread _ _ _).trans hv, h⟩

theorem takeResponse_quiet (io : Calls) (fd : Nat) (w : World) :
    Quiet w (takeResponse io fd w).1 := by
  unfold takeResponse
  dsimp only
  split
  · exact quiet_leave w fd _
  · have hread := quiet_leave_receive w fd (tfnetRead io.reads (w.kernel.inbox fd) 2).rest
    split <;> exact hread _ _ _

theorem deliverResponse_cases (io : Calls) (peer : Peer) (len : UInt16) (w : World) :
    ClosesAtMost w (deliverResponse io peer len w) (· = peer) := by
  unfold deliverResponse
  dsimp only
  split
  · refine .of_close ?_ rfl
    exact ⟨rfl, rfl, rfl, rfl, rfl, rfl, fun _ => rfl, fun _ => rfl, fun _ => rfl⟩
  · refine .of_quiet (.trans ?_ (quiet_reloadTimer _ peer))
    exact ⟨rfl, rfl, rfl, rfl, rfl, rfl, fun _ => rfl, fun _ => rfl, fun _ => rfl⟩

theorem getActivePeer_active {mgr : ProcessMgr} {id : UInt32} {p : Peer}
    (h : getActivePeer mgr id = some p) : (mgr.slots p).active = true := by
  simp only [getActivePeer, Option.dite_none_right_eq_some,
    Option.ite_none_right_eq_some] at h
  obtain ⟨_, hactive, hp⟩ := h
  rw [← Option.some.inj hp]
  exact hactive

theorem routeResponse_cases (io : Calls) (len : UInt16) (ident : UInt32) (w : World) :
    ClosesAtMost w (routeResponse io len ident w) (fun p => (w.mgr.slots p).active = true) := by
  unfold routeResponse
  cases hpeer : getActivePeer w.mgr ident with
  | none => exact .of_quiet (.refl w)
  | some peer =>
      obtain ⟨v, hv, h⟩ := deliverResponse_cases io peer len w
      refine ⟨v, hv, h.imp id ?_⟩
      intro hclose
      obtain ⟨p, rfl, hp⟩ := hclose
      exact ⟨p, getActivePeer_active hpeer, hp⟩

theorem messageResponseHandler_cases (io : Calls) (fd : Nat) (w : World) :
    ClosesAtMost w (messageResponseHandler io fd w) (fun p => (w.mgr.slots p).active = true) := by
  have htake := takeResponse_quiet io fd w
  unfold messageResponseHandler
  rcases hread : takeResponse io fd w with ⟨v, _ | len⟩
  · rw [hread] at htake
    exact .of_quiet htake
  · rw [hread] at htake
    obtain ⟨u, hu, h⟩ := routeResponse_cases io len _ v
    refine ⟨u, htake.trans hu, h.imp id ?_⟩
    intro hclose
    obtain ⟨p, hactive, hp⟩ := hclose
    exact ⟨p, (htake.active p).symm.trans hactive, hp⟩

theorem lifeCyclePeer_cases (w : World) (peer : Peer) :
    ClosesAtMost w (lifeCyclePeer w peer) (fun p => (w.mgr.slots p).active = true) := by
  unfold lifeCyclePeer
  dsimp only
  split
  · rename_i hactive
    have hset := quiet_setSlot w peer
      { w.mgr.slots peer with sessionTimer := (w.mgr.slots peer).sessionTimer - 1 } rfl rfl rfl
    split
    · exact .of_close hset hactive
    · exact .of_quiet hset
  · exact .of_quiet (.refl w)

/-- The three ways out of `accept_tcp_handler` once `accept` has returned `cfd`:
no idle slot, registration refused, connection admitted. -/
theorem acceptTcpHandler_cases (w : World) {io : Calls} {cfd : Nat} {cip : UInt32} {cport : UInt16}
    (hio : tfnetTcpAccept2 io.accept = some (cfd, cip, cport)) :
    (getIdlePeer w.mgr = none ∧ acceptTcpHandler io w = w.accept cfd) ∨
      ∃ p, getIdlePeer w.mgr = some p ∧
        (((w.mgr.el.setsize ≤ cfd ∨ io.apiAdd = false) ∧
            acceptTcpHandler io w = closePeer (admitPeer (w.accept cfd) p cfd cip cport) p) ∨
          ∃ el, Adds w.mgr.el el cfd aeReadable .peerRequestHandler (.peer p) ∧
            acceptTcpHandler io w =
              reloadTimer ((admitPeer (w.accept cfd) p cfd cip cport).setLoop el) p) := by
  have hsame : getIdlePeer (w.accept cfd).mgr = getIdlePeer w.mgr := rfl
  unfold acceptTcpHandler
  rw [hio]
  dsimp only
  rw [hsame]
  cases hidle : getIdlePeer w.mgr with
  | none => exact .inl ⟨rfl, rfl⟩
  | some p =>
      have hel : (admitPeer (w.accept cfd) p cfd cip cport).mgr.el = w.mgr.el := rfl
      refine .inr ⟨p, rfl, ?_⟩
      dsimp only
      rw [hel]
      rcases aeCreateFileEvent_cases w.mgr.el cfd aeReadable .peerRequestHandler (.peer p)
        io.apiAdd with ⟨hnone, hwhy⟩ | ⟨el, hsome, hadds⟩
      · rw [hnone]
        exact .inl ⟨hwhy, rfl⟩
      · rw [hsome]
        exact .inr ⟨el, hadds, rfl⟩

/-! ## Which slot is idle -/

theorem idlePeerFrom_some {slots : Peer → PeerInfo} {i n : Nat} {p : Peer}
    (h : idlePeerFrom slots i n = some p) :
    (slots p).active = false ∧ i ≤ p.val ∧
      ∀ q : Peer, i ≤ q.val → q.val < p.val → (slots q).active = true := by
  induction n generalizing i with
  | zero => simp [idlePeerFrom] at h
  | succ n ih =>
      unfold idlePeerFrom at h
      split at h
      · split at h
        · rename_i hidle
          cases h
          refine ⟨by simpa using hidle, Nat.le_refl _, ?_⟩
          intro q hq hlt
          simp only at hlt
          omega
        · rename_i hi hbusy
          obtain ⟨hp, hle, hall⟩ := ih h
          refine ⟨hp, by omega, ?_⟩
          intro q hq hlt
          by_cases heq : q.val = i
          · have : q = ⟨i, hi⟩ := Fin.ext heq
            subst this
            simpa using hbusy
          · exact hall q (by omega) hlt
      · contradiction

theorem idlePeerFrom_none {slots : Peer → PeerInfo} {i n : Nat}
    (h : idlePeerFrom slots i n = none) (hn : maxPeerNums ≤ i + n) :
    ∀ q : Peer, i ≤ q.val → (slots q).active = true := by
  induction n generalizing i with
  | zero =>
      intro q hq
      have := q.isLt
      omega
  | succ n ih =>
      intro q hq
      unfold idlePeerFrom at h
      split at h
      · split at h
        · contradiction
        · rename_i hi hbusy
          by_cases heq : q.val = i
          · have : q = ⟨i, hi⟩ := Fin.ext heq
            subst this
            simpa using hbusy
          · exact ih h (by omega) q (by omega)
      · have := q.isLt
        omega

/-- `get_idle_peer` returns the first inactive slot. -/
theorem getIdlePeer_some {mgr : ProcessMgr} {p : Peer} (h : getIdlePeer mgr = some p) :
    (mgr.slots p).active = false ∧ ∀ q, q < p → (mgr.slots q).active = true := by
  obtain ⟨hp, _, hall⟩ := idlePeerFrom_some h
  exact ⟨hp, fun q hq => hall q (Nat.zero_le _) hq⟩

/-- It returns `NULL` only when the table is full. -/
theorem getIdlePeer_none {mgr : ProcessMgr} (h : getIdlePeer mgr = none) (q : Peer) :
    (mgr.slots q).active = true :=
  idlePeerFrom_none h (by omega) q (Nat.zero_le _)

/-- With an idle slot and room in the loop's table, the connection is admitted. -/
theorem acceptTcpHandler_admits (w : World) {io : Calls} {cfd : Nat} {cip : UInt32} {cport : UInt16}
    (hio : tfnetTcpAccept2 io.accept = some (cfd, cip, cport)) {q : Peer}
    (hidle : (w.mgr.slots q).active = false) (htable : cfd < w.mgr.el.setsize)
    (hadd : io.apiAdd = true) :
    ∃ p el, getIdlePeer w.mgr = some p ∧
      Adds w.mgr.el el cfd aeReadable .peerRequestHandler (.peer p) ∧
      acceptTcpHandler io w = reloadTimer ((admitPeer (w.accept cfd) p cfd cip cport).setLoop el) p := by
  rcases acceptTcpHandler_cases w hio with ⟨hfull, -⟩ | ⟨p, hp, ⟨hrefused, -⟩ | ⟨el, hadds, h⟩⟩
  · rw [getIdlePeer_none hfull] at hidle
    contradiction
  · rcases hrefused with hsize | hrefused
    · exact absurd htable (Nat.not_lt.mpr hsize)
    · rw [hadd] at hrefused
      contradiction
  · exact ⟨p, el, hp, hadds, h⟩

end Tflib.Nac
