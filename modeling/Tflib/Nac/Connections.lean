import Tflib.Nac.Startup

/-! # Connections over whole runs

What the four views of the connection table say to each other in every state
that the service reaches, and where the one way out of `accept_tcp_handler`
that breaks the account lies.
-/

namespace Tflib.Nac

open Tflib.Core Ae Ipc Socket

def activeSlots (w : World) : Finset Peer := Finset.univ.filter fun p => (w.mgr.slots p).active

/-- Slot `p` is active and holds `fd`. -/
def Holds (w : World) (p : Peer) (fd : Nat) : Prop :=
  (w.mgr.slots p).active = true ∧ (w.mgr.slots p).fd = fd

theorem used_eq_activeSlots (w : World) : w.ledger.used = activeSlots w := by
  apply Finset.filter_congr
  intro p _
  cases hp : (w.mgr.slots p).active <;> simp [World.ledger, hp]

theorem holds_iff_owner {w : World} {p : Peer} {fd : Nat} :
    Holds w p fd ↔ w.ledger.owner p = some fd := World.owner_eq_some.symm

theorem Sound.holds_injective {w : World} (hw : Sound w) {p q : Peer} {fd : Nat}
    (hp : Holds w p fd) (hq : Holds w q fd) : p = q :=
  hw.balanced.owner_injective (holds_iff_owner.mp hp) (holds_iff_owner.mp hq)

theorem Sound.counted {w : World} (hw : Sound w) :
    w.mgr.connections.toNat = (activeSlots w).card :=
  used_eq_activeSlots w ▸ hw.balanced.counted

/-! ## The four views agree -/

/-- Counter, slots, descriptors and registrations tell the same story. -/
structure Agrees (w : World) : Prop where
  counted : w.mgr.connections.toNat = (activeSlots w).card
  bounded : w.mgr.connections.toNat ≤ maxPeerNums
  distinct : ∀ p q, (w.mgr.slots p).active = true → (w.mgr.slots q).active = true → p ≠ q →
    (w.mgr.slots p).fd ≠ (w.mgr.slots q).fd
  served : ∀ p, (w.mgr.slots p).active = true →
    (∃ k, w.kernel.fds (w.mgr.slots p).fd = some (.client k)) ∧ Registered w (w.mgr.slots p).fd p
  owned : ∀ fd, fd ≠ w.mgr.serverFd → fd ≠ w.mgr.mqueue → (w.mgr.el.events fd).mask ≠ aeNone →
    ∃! p, Holds w p fd
  ids : ∀ p, (w.mgr.slots p).id = peerId p

/-- A start on a table that `init_peers` has just reset. -/
structure Fresh (w : World) : Prop extends Started w where
  ids : ∀ p, (w.mgr.slots p).id = peerId p

theorem firstWorld_fresh : Fresh firstWorld where
  toStarted := firstWorld_started
  ids p := by rw [firstWorld_slots, initPeer]

/-- `fd` is owned by exactly one active slot and registered for it, or closed. -/
def Settled (w : World) (fd : Nat) : Prop :=
  (∃ p, Holds w p fd ∧ Registered w fd p ∧ ∀ q, Holds w q fd → q = p) ∨ w.kernel.fds fd = none

/-- Whoever takes a connection off the listening socket finds an idle slot. -/
def HasRoom (w : World) (e : Event) : Prop := acceptedBy w e ≠ none → getIdlePeer w.mgr ≠ none

theorem Started.tight {w : World} (h : Started w) : w.ledger.Tight := by
  intro fd hopen
  obtain ⟨k, hk⟩ := Option.ne_none_iff_exists'.mp hopen
  exact absurd (World.conn_eq_some.mp hk) (h.clients fd k)

/-- With an idle slot at hand, no event strands a descriptor. -/
theorem not_isStrand_of_room {w : World} {e : Event} {a : Action} (room : HasRoom w e)
    (ha : Allowed w e a) : ¬ a.IsStrand := by
  intro hstrand
  cases a with
  | assign p d k => exact hstrand
  | release p => exact hstrand
  | strand d k =>
      rcases ha with hrel | ⟨cfd, hacc, hidle, -, -⟩
      · exact hrel
      · exact room (by rw [hacc]; exact Option.some_ne_none cfd) hidle

theorem tight_of_room {w₀ w : World} (start : Started w₀)
    (h : (service.restrict HasRoom).Reaches w₀ w) : Sound w ∧ w.ledger.Tight := by
  refine h.invariant (I := fun w => Sound w ∧ w.ledger.Tight) ?_ ⟨start.sound, start.tight⟩
  intro w e hw admitted
  have hstep := exec_refines hw.1 e admitted.1
  obtain ⟨as, hall, hruns⟩ := hstep.runs
  have hplain : ∀ a ∈ as, ¬ a.IsStrand := fun a ha => not_isStrand_of_room admitted.2 (hall a ha)
  exact ⟨hstep.sound hw.1, hw.2.runs hruns hplain⟩

/-- A descriptor that was accepted without an idle slot belongs to nobody and stays open. -/
theorem not_settled_of_full {w : World} (hw : Sound w) {io : Calls} {cfd : Nat} {cip : UInt32}
    {cport : UInt16} (hio : tfnetTcpAccept2 io.accept = some (cfd, cip, cport))
    (hfree : w.kernel.fds cfd = none) (hfull : getIdlePeer w.mgr = none) :
    ¬ Settled (acceptTcpHandler io w) cfd := by
  rcases acceptTcpHandler_cases w hio with ⟨-, h⟩ | ⟨p, hidle, -⟩
  · rw [h]
    intro hsettled
    rcases hsettled with ⟨p, hp, -, -⟩ | hclosed
    · obtain ⟨k, hk⟩ := hw.client (p := p) hp.1
      have hfd : (w.mgr.slots p).fd = cfd := hp.2
      rw [hfd, hfree] at hk
      contradiction
    · have hopen : (w.accept cfd).kernel.fds cfd = some (.client w.kernel.accepted) :=
        (accept_fds w cfd cfd).trans (if_pos rfl)
      rw [hopen] at hclosed
      contradiction
  · rw [hfull] at hidle
    contradiction

theorem settled_of_idle {w : World} (hw : Sound w) {io : Calls} {cfd : Nat} {cip : UInt32}
    {cport : UInt16} (hio : tfnetTcpAccept2 io.accept = some (cfd, cip, cport))
    (hfree : w.kernel.fds cfd = none) (hroom : getIdlePeer w.mgr ≠ none) :
    Settled (acceptTcpHandler io w) cfd := by
  have hafter := (acceptTcpHandler_refines hw io hio hfree).sound hw
  rcases acceptTcpHandler_cases w hio with ⟨hidle, -⟩ | ⟨p, -, ⟨-, h⟩ | ⟨el, hadds, h⟩⟩
  · contradiction
  · right
    rw [h, closePeer_fds, admitPeer_slot_self]
    exact if_pos rfl
  · left
    have hquiet := quiet_reloadTimer ((admitPeer (w.accept cfd) p cfd cip cport).setLoop el) p
    have hp : Holds (acceptTcpHandler io w) p cfd := by
      rw [h]
      refine ⟨(hquiet.active p).trans ?_, (hquiet.fd p).trans ?_⟩
      · exact congrArg PeerInfo.active (admitPeer_slot_self (w.accept cfd) p cfd cip cport)
      · exact congrArg PeerInfo.fd (admitPeer_slot_self (w.accept cfd) p cfd cip cport)
    exact ⟨p, hp, hp.2 ▸ hafter.registered hp.1, fun q hq => hafter.holds_injective hq hp⟩

/-- An accepted descriptor is settled exactly when there was an idle slot for it. While there always
is one, the open connections are as many as the active slots. -/
theorem accepted_settled_iff {w₀ : World} (start : Started w₀) :
    (∀ w io cfd cip cport, service.Reaches w₀ w →
      tfnetTcpAccept2 io.accept = some (cfd, cip, cport) → w.kernel.fds cfd = none →
        (Settled (acceptTcpHandler io w) cfd ↔ getIdlePeer w.mgr ≠ none)) ∧
    ∀ w, (service.restrict HasRoom).Reaches w₀ w →
      Set.ncard {fd | ∃ k, w.kernel.fds fd = some (.client k)} = (activeSlots w).card := by
  constructor
  · intro w io cfd cip cport h hio hfree
    have hw := (start.sound.reaches h).sound start.sound
    constructor
    · intro hsettled hfull
      exact not_settled_of_full hw hio hfree hfull hsettled
    · exact settled_of_idle hw hio hfree
  · intro w h
    obtain ⟨hw, htight⟩ := tight_of_room start h
    have hopen : {fd | ∃ k, w.kernel.fds fd = some (.client k)} = {fd | w.ledger.conn fd ≠ none} := by
      ext fd
      simp only [Set.mem_ofPred_eq, Option.ne_none_iff_exists', World.conn_eq_some]
    rw [hopen, htight.ncard_open hw.balanced, used_eq_activeSlots]

/-- The calls of a handler for whom `accept` returns `fd` at once. -/
def accepting (fd : Nat) : Calls := { accept := [.conn fd 0 0] }

theorem accepted_settled_firstWorld :
    Settled (acceptTcpHandler (accepting 9) firstWorld) 9 ∧
      Set.ncard {fd | ∃ k, firstWorld.kernel.fds fd = some (.client k)} =
        (activeSlots firstWorld).card := by
  refine ⟨?_, (accepted_settled_iff firstWorld_started).2 _ (.refl _ _)⟩
  refine ((accepted_settled_iff firstWorld_started).1 firstWorld (accepting 9) 9 0 0
    (.refl _ _) rfl rfl).mpr ?_
  intro hfull
  exact Bool.noConfusion (getIdlePeer_none hfull 0)

/-! ## A full table -/

/-- The first world after `n` clients have connected. -/
def crowd : Nat → World
  | 0 => firstWorld
  | n + 1 => exec (crowd n) (.file firstWorld.mgr.serverFd (accepting (9 + n)))

/-- The first `n` slots are in use. -/
structure Crowded (n : Nat) (w : World) : Prop where
  reached : service.Reaches firstWorld w
  serverFd : w.mgr.serverFd = firstWorld.mgr.serverFd
  setsize : w.mgr.el.setsize = maxPeerNums + 1024
  active : ∀ p, (w.mgr.slots p).active = decide (p.val < n)
  free : ∀ fd, 9 + n ≤ fd → w.kernel.fds fd = none

theorem Crowded.succ {n : Nat} {w : World} (h : Crowded n w) (hn : n < maxPeerNums) :
    Crowded (n + 1) (exec w (.file firstWorld.mgr.serverFd (accepting (9 + n)))) := by
  have hw := (firstWorld_started.sound.reaches h.reached).sound firstWorld_started.sound
  have hfree := h.free (9 + n) (Nat.le_refl _)
  have hio : tfnetTcpAccept2 (accepting (9 + n)).accept = some (9 + n, 0, 0) := rfl
  have hexec : exec w (.file firstWorld.mgr.serverFd (accepting (9 + n))) =
      acceptTcpHandler (accepting (9 + n)) w := by
    rw [← h.serverFd]
    exact hw.wired.dispatch_server _
  have hreached : service.Reaches firstWorld (acceptTcpHandler (accepting (9 + n)) w) := by
    rw [← hexec]
    refine h.reached.step (e := .file firstWorld.mgr.serverFd (accepting (9 + n))) ?_
    intro cfd cip cport hcfd
    rw [hio] at hcfd
    cases hcfd
    exact hfree
  rw [hexec]
  have hidle : ∀ p, getIdlePeer w.mgr = some p → p.val = n := by
    intro p hp
    obtain ⟨hinactive, hbelow⟩ := getIdlePeer_some hp
    rw [h.active, decide_eq_false_iff_not] at hinactive
    by_contra hne
    have hlt := hbelow ⟨n, hn⟩ (by rw [Fin.lt_def]; simp only; omega)
    rw [h.active] at hlt
    simp at hlt
  have hnext : (w.mgr.slots ⟨n, hn⟩).active = false := by
    rw [h.active]
    simp
  have htable : 9 + n < w.mgr.el.setsize := by
    rw [h.setsize]
    omega
  obtain ⟨p, el, hp, hadds, hw'⟩ := acceptTcpHandler_admits w hio hnext htable rfl
  have hpn := hidle p hp
  have hquiet := quiet_reloadTimer ((admitPeer (w.accept (9 + n)) p (9 + n) 0 0).setLoop el) p
  rw [hw'] at hreached ⊢
  refine ⟨hreached, hquiet.serverFd.trans h.serverFd, ?_, ?_, ?_⟩
  · rw [hquiet.el]
    exact hadds.setsize.trans h.setsize
  · intro q
    refine (hquiet.active q).trans ?_
    by_cases hq : q = p
    · subst hq
      refine (congrArg PeerInfo.active (admitPeer_slot_self _ _ _ _ _)).trans ?_
      simp [hpn]
    · refine (congrArg PeerInfo.active (admitPeer_slot_of_ne _ hq _ _ _)).trans ?_
      have hqn : q.val ≠ n := fun heq => hq (Fin.ext (heq.trans hpn.symm))
      refine (h.active q).trans ?_
      rw [decide_eq_decide]
      omega
  · intro fd hfd
    rw [hquiet.fds]
    exact (accept_fds w (9 + n) fd).trans ((if_neg (by omega)).trans (h.free fd (by omega)))

theorem crowd_crowded {n : Nat} (hn : n ≤ maxPeerNums) : Crowded n (crowd n) := by
  induction n with
  | zero =>
      refine ⟨.refl _ _, rfl, rfl, ?_, ?_⟩
      · intro p
        rw [crowd, firstWorld_slots]
        simp [initPeer]
      · intro fd hfd
        rw [crowd, firstWorld_fds]
        simp [show ¬ fd < 5 by omega, show fd ≠ 5 by omega, show fd ≠ 7 by omega,
          show fd ≠ 8 by omega]
  | succ n ih => exact (ih (by omega)).succ hn

/-- The client after the last slot is taken: its descriptor stays open without an owner. -/
theorem full_table_strands : service.Reaches firstWorld (crowd maxPeerNums) ∧
    (crowd maxPeerNums).kernel.fds 10009 = none ∧
    ¬ Settled (acceptTcpHandler (accepting 10009) (crowd maxPeerNums)) 10009 := by
  have hcrowd := crowd_crowded (Nat.le_refl maxPeerNums)
  have hw := (firstWorld_started.sound.reaches hcrowd.reached).sound firstWorld_started.sound
  have hfree := hcrowd.free 10009 (by decide)
  have hio : tfnetTcpAccept2 (accepting 10009).accept = some (10009, 0, 0) := rfl
  refine ⟨hcrowd.reached, hfree, not_settled_of_full hw hio hfree ?_⟩
  cases hidle : getIdlePeer (crowd maxPeerNums).mgr with
  | none => rfl
  | some p =>
      have hinactive := (getIdlePeer_some hidle).1
      rw [hcrowd.active] at hinactive
      simp [p.isLt] at hinactive

end Tflib.Nac
