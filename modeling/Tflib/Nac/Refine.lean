import Tflib.Nac.Table

/-! # Every event runs ledger actions -/

namespace Tflib.Nac

open Tflib.Core Ae Ipc Socket

abbrev Action := Ledger.Action Peer Nat Nat

abbrev ledgers : Machine (Ledger Peer Nat Nat) Action := Ledger.machine Peer Nat Nat

/-- From `w`, allowed actions lead to the ledger of `w'`, which is wired again.
On the way only connections are closed, and no slot changes its id. -/
structure Refines (w w' : World) (allowed : Action → Prop) : Prop where
  wired : Wired w'
  runs : ∃ as, (∀ a ∈ as, allowed a) ∧ ledgers.Runs w.ledger as w'.ledger
  closes : ∀ d ∈ w'.kernel.closed, d ∈ w.kernel.closed ∨ ∃ k, d = some (.client k)
  ids : ∀ p, (w'.mgr.slots p).id = (w.mgr.slots p).id
  mqueue : w'.mgr.mqueue = w.mgr.mqueue

theorem Refines.sound {w w' : World} {allowed : Action → Prop} (h : Refines w w' allowed)
    (hw : Sound w) : Sound w' := by
  obtain ⟨as, _, runs⟩ := h.runs
  exact ⟨h.wired, hw.balanced.runs runs⟩

theorem Refines.trans {u v w : World} {allowed : Action → Prop} (h : Refines u v allowed)
    (k : Refines v w allowed) : Refines u w allowed where
  wired := k.wired
  runs := by
    obtain ⟨as, hall, hruns⟩ := h.runs
    obtain ⟨bs, kall, kruns⟩ := k.runs
    refine ⟨as ++ bs, ?_, hruns.append kruns⟩
    intro a ha
    rcases List.mem_append.mp ha with ha | ha
    · exact hall a ha
    · exact kall a ha
  closes d hd := by
    rcases k.closes d hd with hd | hclient
    · exact h.closes d hd
    · exact .inr hclient
  ids p := (k.ids p).trans (h.ids p)
  mqueue := k.mqueue.trans h.mqueue

theorem Refines.of_quiet {w v : World} {allowed : Action → Prop} (h : Quiet w v) (hw : Sound w) :
    Refines w v allowed where
  wired := h.wired hw.wired
  runs := ⟨[], by simp, h.ledger.symm ▸ .nil _⟩
  closes d hd := .inl (h.closed ▸ hd)
  ids := h.id
  mqueue := h.mqueue

theorem Refines.single {w w' : World} {allowed : Action → Prop} {a : Action} (wired : Wired w')
    (ha : allowed a) (admitted : w.ledger.Admits a) (h : w'.ledger = w.ledger.act a)
    (closes : ∀ d ∈ w'.kernel.closed, d ∈ w.kernel.closed ∨ ∃ k, d = some (.client k))
    (ids : ∀ p, (w'.mgr.slots p).id = (w.mgr.slots p).id)
    (mqueue : w'.mgr.mqueue = w.mgr.mqueue) : Refines w w' allowed where
  wired := wired
  runs := by
    refine ⟨[a], ?_, ?_⟩
    · intro b hb
      rw [List.mem_singleton.mp hb]
      exact ha
    · rw [h]
      exact .single (M := ledgers) admitted
  closes := closes
  ids := ids
  mqueue := mqueue

/-- Every `release` is allowed. -/
def Releases : Action → Prop
  | .release _ => True
  | _ => False

theorem Refines.mono {w w' : World} {allowed allowed' : Action → Prop} (h : Refines w w' allowed)
    (himp : ∀ a, allowed a → allowed' a) : Refines w w' allowed' where
  wired := h.wired
  runs := by
    obtain ⟨as, hall, hruns⟩ := h.runs
    exact ⟨as, fun a ha => himp a (hall a ha), hruns⟩
  closes := h.closes
  ids := h.ids
  mqueue := h.mqueue

/-! ## Frame of `close_peer` -/

section Close

variable (w : World) (p : Peer)

theorem closePeer_active (q : Peer) : ((closePeer w p).mgr.slots q).active =
    if q = p then false else (w.mgr.slots q).active := by
  by_cases h : q = p <;> simp [closePeer, h]

theorem closePeer_fd (q : Peer) :
    ((closePeer w p).mgr.slots q).fd = (w.mgr.slots q).fd := by
  by_cases h : q = p <;> simp [closePeer, h]

theorem closePeer_id (q : Peer) :
    ((closePeer w p).mgr.slots q).id = (w.mgr.slots q).id := by
  by_cases h : q = p <;> simp [closePeer, h]

theorem closePeer_fds (fd : Nat) : (closePeer w p).kernel.fds fd =
    if fd = (w.mgr.slots p).fd then none else w.kernel.fds fd := by
  simp [closePeer, Kernel.close, Function.update_apply]

/-- The log of `close` gains what the slot's descriptor refers to. -/
theorem closePeer_closed {d : Option Descriptor} (h : d ∈ (closePeer w p).kernel.closed) :
    d ∈ w.kernel.closed ∨ d = w.kernel.fds (w.mgr.slots p).fd := by
  simpa [closePeer, Kernel.close] using h

theorem closePeer_events_of_ne {fd : Nat} (h : fd ≠ (w.mgr.slots p).fd) :
    (closePeer w p).mgr.el.events fd = w.mgr.el.events fd :=
  aeDeleteFileEvent_events_of_ne _ _ h

theorem closePeer_setsize : (closePeer w p).mgr.el.setsize = w.mgr.el.setsize :=
  aeDeleteFileEvent_setsize _ _ _

end Close

/-- The mask of the closed descriptor is empty afterwards, registered or not. -/
theorem closePeer_mask {w : World} {p : Peer}
    (h : (w.mgr.el.events (w.mgr.slots p).fd).mask = aeNone ∨
      ((w.mgr.slots p).fd < w.mgr.el.setsize ∧
        (w.mgr.el.events (w.mgr.slots p).fd).mask = aeReadable)) :
    ((closePeer w p).mgr.el.events (w.mgr.slots p).fd).mask = aeNone := by
  change ((aeDeleteFileEvent w.mgr.el (w.mgr.slots p).fd aeReadable).events _).mask = aeNone
  rcases h with h | ⟨hsize, h⟩
  · by_cases hsize : (w.mgr.slots p).fd < w.mgr.el.setsize
    · rw [aeDeleteFileEvent_events_self _ _ hsize, h]
      rfl
    · unfold aeDeleteFileEvent
      rw [if_pos (by omega)]
      exact h
  · rw [aeDeleteFileEvent_events_self _ _ hsize, h]
    rfl

theorem closePeer_watch {w : World} {p : Peer}
    (h : ((closePeer w p).mgr.el.events (w.mgr.slots p).fd).mask = aeNone) :
    (closePeer w p).watch = Function.update w.watch (w.mgr.slots p).fd none := by
  funext fd
  by_cases hfd : fd = (w.mgr.slots p).fd
  · subst hfd
    simp [World.watch, h]
  · simp only [World.watch, closePeer_events_of_ne w p hfd, Function.update_of_ne hfd]

/-- `close_peer` leaves everything around the closed descriptor wired. -/
theorem closePeer_wired {w : World} {p : Peer} (hw : Wired w)
    (hopen : w.kernel.fds (w.mgr.slots p).fd = none ∨ w.ledger.conn (w.mgr.slots p).fd ≠ none)
    (hmask : ((closePeer w p).mgr.el.events (w.mgr.slots p).fd).mask = aeNone) :
    Wired (closePeer w p) := by
  have hs := hw.not_server hopen
  have hm := hw.not_mqueue hopen
  constructor
  · exact hw.distinct
  · exact (closePeer_fds w p _).trans ((if_neg hs.symm).trans hw.listening)
  · exact (closePeer_fds w p _).trans ((if_neg hm.symm).trans hw.pipe)
  · exact hw.accepts.congr (closePeer_events_of_ne w p hs.symm)
  · exact hw.responds.congr (closePeer_events_of_ne w p hm.symm)
  · intro fd hfs hfm hfmask
    have hfd : fd ≠ (w.mgr.slots p).fd := by
      intro heq
      rw [heq] at hfmask
      exact hfmask hmask
    have he := closePeer_events_of_ne w p hfd
    rw [he] at hfmask
    obtain ⟨q, r⟩ := hw.peers fd hfs hfm hfmask
    exact ⟨q, r.congr he (closePeer_setsize w p)⟩

/-- Closing an active slot is the ledger's `release`. -/
theorem closePeer_ledger {w : World} {p : Peer} (hw : Sound w)
    (hp : (w.mgr.slots p).active = true) :
    (closePeer w p).ledger = w.ledger.act (.release p) := by
  have howner : w.ledger.owner p = some (w.mgr.slots p).fd := World.owner_eq_some.mpr ⟨hp, rfl⟩
  have hreg := hw.registered hp
  have hact : w.ledger.act (.release p) =
      { owner := Function.update w.ledger.owner p none
        conn := Function.update w.ledger.conn (w.mgr.slots p).fd none
        watch := Function.update w.ledger.watch (w.mgr.slots p).fd none
        count := w.ledger.count - 1 } := by simp [Ledger.act, howner]
  rw [hact]
  apply Ledger.ext
  · funext q
    by_cases hq : q = p
    · simp [World.ledger, closePeer_active, hq]
    · simp [World.ledger, closePeer_active, closePeer_fd, hq]
  · funext fd
    by_cases hfd : fd = (w.mgr.slots p).fd
    · simp [World.ledger, closePeer_fds, hfd]
    · simp [World.ledger, closePeer_fds, hfd]
  · exact closePeer_watch (closePeer_mask (.inr ⟨hreg.inTable, hreg.mask⟩))
  · have hused : p ∈ w.ledger.used := by simp [Ledger.mem_used, howner]
    have hpos : 0 < w.mgr.connections.toNat := by
      have hcount : w.mgr.connections.toNat = w.ledger.used.card := hw.balanced.counted
      rw [hcount]
      exact Finset.card_pos.mpr ⟨p, hused⟩
    change (w.mgr.connections - 1).toNat = w.mgr.connections.toNat - 1
    exact UInt16.toNat_sub_of_le _ _ (UInt16.le_iff_toNat_le.mpr hpos)

theorem closePeer_refines {w : World} {p : Peer} (hw : Sound w)
    (hp : (w.mgr.slots p).active = true) : Refines w (closePeer w p) Releases := by
  have howner : w.ledger.owner p = some (w.mgr.slots p).fd := World.owner_eq_some.mpr ⟨hp, rfl⟩
  have hreg := hw.registered hp
  refine .single (a := .release p) ?_ trivial ?_ (closePeer_ledger hw hp) ?_ (closePeer_id w p) rfl
  · exact closePeer_wired hw.wired (.inr (hw.balanced.isOpen p _ howner))
      (closePeer_mask (.inr ⟨hreg.inTable, hreg.mask⟩))
  · rw [Ledger.Admits, howner]
    exact Option.some_ne_none _
  · intro d hd
    refine (closePeer_closed w p hd).imp_right ?_
    intro hd
    obtain ⟨k, hk⟩ := hw.client hp
    exact ⟨k, hd.trans hk⟩

theorem ClosesAtMost.refines {w w' : World} {closing : Peer → Prop} (hw : Sound w)
    (h : ClosesAtMost w w' closing) (hactive : ∀ p, closing p → (w.mgr.slots p).active = true) :
    Refines w w' Releases := by
  obtain ⟨v, hv, rfl | ⟨p, hp, rfl⟩⟩ := h
  · exact .of_quiet hv hw
  · have hquiet : Refines w v Releases := .of_quiet hv hw
    exact hquiet.trans (closePeer_refines (hv.sound hw)
      ((hv.active p).trans (hactive p hp)))

/-! ## Handlers that only close -/

theorem peerRequestHandler_refines {w : World} (hw : Sound w) (io : Calls) (fd : Nat) {p : Peer}
    (hp : (w.mgr.slots p).active = true) :
    Refines w (peerRequestHandler io fd p w) Releases :=
  (peerRequestHandler_cases io fd p w).refines hw (fun q hq => by rw [hq]; exact hp)

theorem messageResponseHandler_refines {w : World} (hw : Sound w) (io : Calls) (fd : Nat) :
    Refines w (messageResponseHandler io fd w) Releases :=
  (messageResponseHandler_cases io fd w).refines hw (fun _ h => h)

theorem lifeCyclePeer_refines {w : World} (hw : Sound w) (p : Peer) :
    Refines w (lifeCyclePeer w p) Releases :=
  (lifeCyclePeer_cases w p).refines hw (fun _ h => h)

/-- The timer closes any number of slots, one after the other. -/
theorem lifeCycleLoop_refines {w : World} (hw : Sound w) :
    Refines w (lifeCycleLoop w) Releases := by
  unfold lifeCycleLoop
  generalize List.finRange maxPeerNums = peers
  induction peers generalizing w with
  | nil => exact .of_quiet (.refl w) hw
  | cons p peers ih =>
      have hstep := lifeCyclePeer_refines hw p
      exact hstep.trans (ih (hstep.sound hw))

/-! ## Accepting -/

section Accept

variable {w : World} {cfd : Nat}

theorem accept_fds (w : World) (cfd fd : Nat) : (w.kernel.accept cfd).fds fd =
    if fd = cfd then some (.client w.kernel.accepted) else w.kernel.fds fd := by
  simp [Kernel.accept, Function.update_apply]

theorem accept_wired (hw : Wired w) (hfree : w.kernel.fds cfd = none) :
    Wired (w.accept cfd) where
  distinct := hw.distinct
  listening := (accept_fds w cfd _).trans
    ((if_neg (hw.not_server (.inl hfree)).symm).trans hw.listening)
  pipe := (accept_fds w cfd _).trans ((if_neg (hw.not_mqueue (.inl hfree)).symm).trans hw.pipe)
  accepts := hw.accepts.congr rfl
  responds := hw.responds.congr rfl
  peers fd hs hm hmask := by
    obtain ⟨p, r⟩ := hw.peers fd hs hm hmask
    exact ⟨p, r.congr rfl rfl⟩

theorem admitPeer_wired (hw : Wired w) (p : Peer) (ip : UInt32) (port : UInt16) :
    Wired (admitPeer w p cfd ip port) where
  distinct := hw.distinct
  listening := hw.listening
  pipe := hw.pipe
  accepts := hw.accepts.congr rfl
  responds := hw.responds.congr rfl
  peers fd hs hm hmask := by
    obtain ⟨p, r⟩ := hw.peers fd hs hm hmask
    exact ⟨p, r.congr rfl rfl⟩

theorem admitPeer_slot_self (w : World) (p : Peer) (cfd : Nat) (ip : UInt32) (port : UInt16) :
    (admitPeer w p cfd ip port).mgr.slots p =
      { w.mgr.slots p with fd := cfd, ip := ip, port := port, active := true } :=
  Function.update_self _ _ _

theorem admitPeer_slot_of_ne (w : World) {p q : Peer} (h : q ≠ p) (cfd : Nat) (ip : UInt32)
    (port : UInt16) : (admitPeer w p cfd ip port).mgr.slots q = w.mgr.slots q :=
  Function.update_of_ne h _ _

theorem admitPeer_id (w : World) (p q : Peer) (cfd : Nat) (ip : UInt32) (port : UInt16) :
    ((admitPeer w p cfd ip port).mgr.slots q).id = (w.mgr.slots q).id := by
  by_cases hq : q = p
  · subst hq
    rw [admitPeer_slot_self]
  · rw [admitPeer_slot_of_ne w hq]

/-- Without an idle slot the new descriptor stays open and belongs to nobody. -/
theorem strand_ledger (w : World) (cfd : Nat) :
    (w.accept cfd).ledger = w.ledger.act (.strand cfd w.kernel.accepted) := by
  apply Ledger.ext
  · rfl
  · funext fd
    by_cases hfd : fd = cfd
    · simp [World.ledger, Ledger.act, World.accept, accept_fds, hfd, Descriptor.client?]
    · simp [World.ledger, Ledger.act, World.accept, accept_fds, hfd]
  · rfl
  · rfl

/-- A refused registration undoes everything the ledger sees. -/
theorem refuse_ledger (hw : Sound w) (hfree : w.kernel.fds cfd = none) {p : Peer}
    (hidle : (w.mgr.slots p).active = false) (ip : UInt32) (port : UInt16) :
    (closePeer (admitPeer (w.accept cfd) p cfd ip port) p).ledger =
      w.ledger := by
  have hmask := hw.unregistered hfree
  apply Ledger.ext
  · funext q
    by_cases hq : q = p
    · simp [World.ledger, closePeer_active, hq, hidle]
    · simp [World.ledger, closePeer_active, closePeer_fd, hq, admitPeer_slot_of_ne, World.accept]
  · funext fd
    by_cases hfd : fd = cfd
    · simp [World.ledger, closePeer_fds, admitPeer_slot_self, hfd, hfree]
    · simp [World.ledger, closePeer_fds, admitPeer_slot_self, hfd]
      simp [admitPeer, World.accept, accept_fds, hfd]
  · have hnone : ((admitPeer (w.accept cfd) p cfd ip port).mgr.el.events
        ((admitPeer (w.accept cfd) p cfd ip port).mgr.slots p).fd).mask
          = aeNone := by
      rw [admitPeer_slot_self]
      exact hmask
    have hwatch : w.watch cfd = none := by simp [World.watch, hmask]
    refine (closePeer_watch (closePeer_mask (.inl hnone))).trans ?_
    rw [admitPeer_slot_self]
    exact Function.update_eq_self_iff.mpr hwatch.symm
  · change (w.mgr.connections + 1 - 1).toNat = w.mgr.connections.toNat
    rw [UInt16.add_sub_cancel]

theorem refuse_wired (hw : Wired w) (hfree : w.kernel.fds cfd = none) {p : Peer}
    (hmask : (w.mgr.el.events cfd).mask = aeNone) (ip : UInt32) (port : UInt16) :
    Wired (closePeer (admitPeer (w.accept cfd) p cfd ip port) p) := by
  refine closePeer_wired (admitPeer_wired (accept_wired hw hfree) p ip port) (.inr ?_)
    (closePeer_mask (.inl ?_))
  · rw [admitPeer_slot_self]
    simp [World.ledger, admitPeer, World.accept, accept_fds, Descriptor.client?]
  · rw [admitPeer_slot_self]
    exact hmask

/-- The counter has room: there are fewer slots than it can count. -/
theorem Sound.connections_le (hw : Sound w) : w.mgr.connections.toNat ≤ maxPeerNums := by
  have hcount : w.mgr.connections.toNat = w.ledger.used.card := hw.balanced.counted
  rw [hcount]
  exact (Finset.card_le_univ _).trans_eq (Fintype.card_fin _)

/-- An admitted and registered connection is the ledger's `assign`. -/
theorem assign_ledger (hw : Sound w) (p : Peer) (ip : UInt32) (port : UInt16)
    {el : EventLoop}
    (hothers : ∀ x, x ≠ cfd → el.events x = w.mgr.el.events x)
    (hmask : (el.events cfd).mask = aeReadable)
    (hdata : (el.events cfd).clientData = some (.peer p)) :
    ((admitPeer (w.accept cfd) p cfd ip port).setLoop el).ledger =
      w.ledger.act (.assign p cfd w.kernel.accepted) := by
  let u := (admitPeer (w.accept cfd) p cfd ip port).setLoop el
  have hslot : ∀ q, u.mgr.slots q = (admitPeer (w.accept cfd) p cfd ip port).mgr.slots q :=
    fun _ => rfl
  have hfds : u.kernel.fds = (w.kernel.accept cfd).fds := rfl
  have hel : u.mgr.el = el := rfl
  change u.ledger = _
  apply Ledger.ext
  · funext q
    by_cases hq : q = p
    · subst hq
      simp [World.ledger, Ledger.act, hslot, admitPeer_slot_self]
    · simp [World.ledger, Ledger.act, hslot, admitPeer_slot_of_ne, hq, World.accept]
  · funext fd
    by_cases hfd : fd = cfd
    · simp [World.ledger, Ledger.act, hfds, accept_fds, hfd, Descriptor.client?]
    · simp [World.ledger, Ledger.act, hfds, accept_fds, hfd]
  · funext fd
    by_cases hfd : fd = cfd
    · have hne : ¬ aeReadable = aeNone := by decide
      simp [World.ledger, World.watch, Ledger.act, hel, hfd, hmask, hdata, hne]
    · simp [World.ledger, World.watch, Ledger.act, hel, hfd, hothers]
  · have hle := hw.connections_le
    have hroom : maxPeerNums + 1 < 65536 := by decide
    change (w.mgr.connections + 1).toNat = w.mgr.connections.toNat + 1
    rw [UInt16.toNat_add, Nat.mod_eq_of_lt]
    · rfl
    · change w.mgr.connections.toNat + 1 < 65536
      omega

theorem assign_wired (hw : Wired w) (hfree : w.kernel.fds cfd = none) {u : World}
    (hserver : u.mgr.serverFd = w.mgr.serverFd) (hmqueue : u.mgr.mqueue = w.mgr.mqueue)
    (hfds : u.kernel.fds = (w.kernel.accept cfd).fds)
    (hsize : u.mgr.el.setsize = w.mgr.el.setsize)
    (hothers : ∀ x, x ≠ cfd → u.mgr.el.events x = w.mgr.el.events x)
    {p : Peer} (hreg : Registered u cfd p) : Wired u := by
  have hs := hw.not_server (.inl hfree)
  have hm := hw.not_mqueue (.inl hfree)
  have haccept := accept_wired hw hfree
  constructor
  · rw [hserver, hmqueue]
    exact hw.distinct
  · rw [hserver, hfds]
    exact haccept.listening
  · rw [hmqueue, hfds]
    exact haccept.pipe
  · rw [hserver]
    exact hw.accepts.congr (hothers _ hs.symm)
  · rw [hmqueue]
    exact hw.responds.congr (hothers _ hm.symm)
  · intro fd hfs hfm hmask
    rw [hserver] at hfs
    rw [hmqueue] at hfm
    by_cases hfd : fd = cfd
    · exact ⟨p, hfd ▸ hreg⟩
    · rw [hothers fd hfd] at hmask
      obtain ⟨q, r⟩ := hw.peers fd hfs hfm hmask
      exact ⟨q, r.congr (hothers fd hfd) hsize⟩

/-- The new descriptor is registered for the slot that was just given it. -/
theorem registered_of_adds {p : Peer} {el : EventLoop}
    (hadds : Adds w.mgr.el el cfd aeReadable .peerRequestHandler (.peer p))
    (hmask : (w.mgr.el.events cfd).mask = aeNone) (ip : UInt32) (port : UInt16) :
    Registered ((admitPeer (w.accept cfd) p cfd ip port).setLoop el) cfd p where
  inTable := hadds.setsize.symm ▸ hadds.inTable
  mask := hadds.mask_of_fresh hmask
  proc := hadds.reads (by decide)
  data := hadds.data

end Accept

/-- What one `accept_tcp_handler` may do: give the new descriptor to the first
idle slot, or strand it when there is none. -/
def Accepts (w : World) (cfd : Nat) : Action → Prop
  | .assign p d k => getIdlePeer w.mgr = some p ∧ d = cfd ∧ k = w.kernel.accepted
  | .strand d k => getIdlePeer w.mgr = none ∧ d = cfd ∧ k = w.kernel.accepted
  | .release _ => False

/-- Exit by exit: table full, registration refused, connection admitted. -/
theorem acceptTcpHandler_refines {w : World} (hw : Sound w) (io : Calls) {cfd : Nat}
    {cip : UInt32} {cport : UInt16}
    (hio : tfnetTcpAccept2 io.accept = some (cfd, cip, cport)) (hfree : w.kernel.fds cfd = none) :
    Refines w (acceptTcpHandler io w) (Accepts w cfd) := by
  have hmask := hw.unregistered hfree
  rcases acceptTcpHandler_cases w hio with ⟨hidle, h⟩ | ⟨p, hidle, ⟨-, h⟩ | ⟨el, hadds, h⟩⟩
  all_goals rw [h]
  · exact .single (a := Ledger.Action.strand cfd w.kernel.accepted) (accept_wired hw.wired hfree)
      ⟨hidle, rfl, rfl⟩ (World.conn_of_not_open hfree) (strand_ledger w cfd) (fun _ hd => .inl hd)
      (fun _ => rfl) rfl
  · refine ⟨refuse_wired hw.wired hfree hmask cip cport, ⟨[], by simp, ?_⟩, ?_, ?_, rfl⟩
    · rw [refuse_ledger hw hfree (getIdlePeer_some hidle).1]
      exact .nil _
    · intro d hd
      refine (closePeer_closed _ _ hd).imp_right ?_
      intro hd
      rw [admitPeer_slot_self] at hd
      exact ⟨w.kernel.accepted, hd.trans ((accept_fds w cfd cfd).trans (if_pos rfl))⟩
    · intro q
      exact (closePeer_id _ _ q).trans (admitPeer_id (w.accept cfd) p q cfd cip cport)
  · have hinactive := (getIdlePeer_some hidle).1
    have hreg := registered_of_adds hadds hmask cip cport
    have hquiet := quiet_reloadTimer ((admitPeer (w.accept cfd) p cfd cip cport).setLoop el) p
    refine .single (a := .assign p cfd w.kernel.accepted) ?_ ⟨hidle, rfl, rfl⟩ ?_ ?_ ?_ ?_ rfl
    · exact hquiet.wired
        (assign_wired hw.wired hfree rfl rfl rfl hadds.setsize hadds.others hreg)
    · exact ⟨by simp [World.ledger, hinactive], World.conn_of_not_open hfree⟩
    · rw [hquiet.ledger]
      exact assign_ledger hw p cip cport hadds.others hreg.mask hreg.data
    · intro d hd
      rw [hquiet.closed] at hd
      exact .inl hd
    · intro q
      exact (hquiet.id q).trans (admitPeer_id (w.accept cfd) p q cfd cip cport)

/-! ## The service refines the ledger -/

/-- The connection that event `e` takes from the listening socket of `w`. -/
def acceptedBy (w : World) : Event → Option Nat
  | .file fd io =>
      if fd = w.mgr.serverFd then (tfnetTcpAccept2 io.accept).map fun c => c.1 else none
  | _ => none

/-- The ledger actions that one event may run. -/
def Allowed (w : World) (e : Event) (a : Action) : Prop :=
  Releases a ∨ ∃ cfd, acceptedBy w e = some cfd ∧ Accepts w cfd a

/-- An event that fired before its descriptor was closed calls nothing. -/
theorem dispatch_of_unregistered {w : World} {fd : Nat} {io : Calls}
    (h : (w.mgr.el.events fd).mask = aeNone) : dispatch io fd w = w := by
  simp [dispatch, AeFileEvent.readable, h, aeNone]

/-- An event on the listening socket runs `accept_tcp_handler`. -/
theorem Wired.dispatch_server {w : World} (hw : Wired w) (io : Calls) :
    dispatch io w.mgr.serverFd w = acceptTcpHandler io w := by
  unfold dispatch
  dsimp only
  rw [if_pos (AeFileEvent.readable_of_mask hw.accepts.mask), hw.accepts.proc]

theorem Wired.dispatch_mqueue {w : World} (hw : Wired w) (io : Calls) :
    dispatch io w.mgr.mqueue w = messageResponseHandler io w.mgr.mqueue w := by
  unfold dispatch
  dsimp only
  rw [if_pos (AeFileEvent.readable_of_mask hw.responds.mask), hw.responds.proc]

theorem Registered.dispatch {w : World} {fd : Nat} {p : Peer} (r : Registered w fd p) (io : Calls) :
    dispatch io fd w = peerRequestHandler io fd p w := by
  unfold Nac.dispatch
  dsimp only
  rw [if_pos (AeFileEvent.readable_of_mask r.mask), r.proc, r.data]

/-- The four things that a dispatch can come to. -/
theorem Sound.dispatch_cases {w : World} (hw : Sound w) (fd : Nat) (io : Calls) :
    (fd = w.mgr.serverFd ∧ dispatch io fd w = acceptTcpHandler io w) ∨
      (fd = w.mgr.mqueue ∧ dispatch io fd w = messageResponseHandler io fd w) ∨
      (fd ≠ w.mgr.serverFd ∧ fd ≠ w.mgr.mqueue ∧
        (dispatch io fd w = w ∨
          ∃ p, (w.mgr.slots p).active = true ∧ (w.mgr.slots p).fd = fd ∧
            dispatch io fd w = peerRequestHandler io fd p w)) := by
  by_cases hserver : fd = w.mgr.serverFd
  · subst hserver
    exact .inl ⟨rfl, hw.wired.dispatch_server io⟩
  · by_cases hmqueue : fd = w.mgr.mqueue
    · subst hmqueue
      exact .inr (.inl ⟨rfl, hw.wired.dispatch_mqueue io⟩)
    · refine .inr (.inr ⟨hserver, hmqueue, ?_⟩)
      by_cases hmask : (w.mgr.el.events fd).mask = aeNone
      · exact .inl (dispatch_of_unregistered hmask)
      · obtain ⟨p, r⟩ := hw.wired.peers fd hserver hmqueue hmask
        have howner := (hw.balanced.watched p fd).mp (World.watch_of_registered r)
        obtain ⟨hactive, hfd⟩ := World.owner_eq_some.mp howner
        exact .inr ⟨p, hactive, hfd, r.dispatch io⟩

theorem dispatch_refines {w : World} (hw : Sound w) (fd : Nat) (io : Calls)
    (admitted : Admissible w (.file fd io)) :
    Refines w (dispatch io fd w) (Allowed w (.file fd io)) := by
  rcases hw.dispatch_cases fd io with ⟨hfd, h⟩ | ⟨-, h⟩ | ⟨-, -, h | ⟨p, hactive, -, h⟩⟩
  all_goals rw [h]
  · cases hio : tfnetTcpAccept2 io.accept with
    | none =>
        simp only [acceptTcpHandler, hio]
        exact .of_quiet (.refl w) hw
    | some c =>
        obtain ⟨cfd, cip, cport⟩ := c
        refine (acceptTcpHandler_refines hw io hio (admitted cfd cip cport hio)).mono ?_
        intro a ha
        exact .inr ⟨cfd, by simp [acceptedBy, hfd, hio], ha⟩
  · exact (messageResponseHandler_refines hw io fd).mono fun a ha => .inl ha
  · exact .of_quiet (.refl w) hw
  · exact (peerRequestHandler_refines hw io fd hactive).mono fun a ha => .inl ha

theorem exec_tick (w : World) : exec w .tick = lifeCycleLoop w := by
  simp only [exec, lifeCycleHandler]

/-- Every event of the service refines a run of the ledger. -/
theorem exec_refines {w : World} (hw : Sound w) (e : Event) (admitted : Admissible w e) :
    Refines w (exec w e) (Allowed w e) := by
  cases e with
  | arrive fd bytes => exact .of_quiet (quiet_arrive w fd bytes) hw
  | file fd io => exact dispatch_refines hw fd io admitted
  | tick =>
      rw [exec_tick]
      exact (lifeCycleLoop_refines hw).mono fun a ha => .inl ha

/-- What a whole run does to the table, whatever the events were. -/
theorem Sound.reaches {w₀ w : World} (hw : Sound w₀) (h : service.Reaches w₀ w) :
    Refines w₀ w (fun _ => True) := by
  refine h.invariant (I := fun w => Refines w₀ w (fun _ => True)) ?_ (.of_quiet (.refl w₀) hw)
  intro w e hrun admitted
  exact hrun.trans ((exec_refines (hrun.sound hw) e admitted).mono fun _ _ => trivial)

end Tflib.Nac
