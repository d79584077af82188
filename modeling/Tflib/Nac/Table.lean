import Tflib.Nac.Effect
import Tflib.Core.Ledger

/-! # The connection table refines the ledger

Slots, counter, descriptors and registrations are four representations of one
ledger. `Wired` is what the handlers rely on besides: the listening socket and
the pipe stay open and registered, and nothing but peers is registered next to
them. Every event then runs ledger actions, and the ledger's own rules keep the
four views in agreement.
-/

namespace Tflib.Nac

open Tflib.Core Ae Ipc Socket

namespace World

/-- The slot that events on `fd` are reported to. -/
def watch (w : World) (fd : Nat) : Option Peer :=
  if (w.mgr.el.events fd).mask = aeNone then none
  else
    match (w.mgr.el.events fd).clientData with
    | some (.peer p) => some p
    | _ => none

def ledger (w : World) : Ledger Peer Nat Nat where
  owner p := if (w.mgr.slots p).active then some (w.mgr.slots p).fd else none
  conn fd := (w.kernel.fds fd).bind Descriptor.client?
  watch := w.watch
  count := w.mgr.connections.toNat

theorem owner_eq_some {w : World} {p : Peer} {fd : Nat} :
    w.ledger.owner p = some fd ↔ (w.mgr.slots p).active = true ∧ (w.mgr.slots p).fd = fd := by
  simp [ledger]

theorem conn_eq_some {w : World} {fd k : Nat} :
    w.ledger.conn fd = some k ↔ w.kernel.fds fd = some (.client k) := by
  simp only [ledger]
  cases h : w.kernel.fds fd with
  | none => simp
  | some d => cases d <;> simp [Descriptor.client?]

theorem conn_of_not_open {w : World} {fd : Nat} (h : w.kernel.fds fd = none) :
    w.ledger.conn fd = none := by
  simp [ledger, h]

end World

/-- `fd` is registered for `AE_READABLE` with slot `p` as client data. -/
structure Registered (w : World) (fd : Nat) (p : Peer) : Prop where
  inTable : fd < w.mgr.el.setsize
  mask : (w.mgr.el.events fd).mask = aeReadable
  proc : (w.mgr.el.events fd).rfileProc = some .peerRequestHandler
  data : (w.mgr.el.events fd).clientData = some (.peer p)

/-- The registration of one of the service's own descriptors. -/
structure Serves (w : World) (fd : Nat) (proc : FileProc) : Prop where
  mask : (w.mgr.el.events fd).mask = aeReadable
  proc : (w.mgr.el.events fd).rfileProc = some proc
  data : (w.mgr.el.events fd).clientData = some .processMgr

structure Wired (w : World) : Prop where
  distinct : w.mgr.serverFd ≠ w.mgr.mqueue
  listening : w.kernel.fds w.mgr.serverFd = some .listening
  pipe : w.kernel.fds w.mgr.mqueue = some .pipe
  accepts : Serves w w.mgr.serverFd .acceptTcpHandler
  responds : Serves w w.mgr.mqueue .messageResponseHandler
  peers : ∀ fd, fd ≠ w.mgr.serverFd → fd ≠ w.mgr.mqueue →
    (w.mgr.el.events fd).mask ≠ aeNone → ∃ p, Registered w fd p

/-- The handlers' common precondition. -/
structure Sound (w : World) : Prop where
  wired : Wired w
  balanced : w.ledger.Balanced

/-! ## Quiet changes -/

theorem Quiet.ledger {w v : World} (h : Quiet w v) : v.ledger = w.ledger := by
  apply Ledger.ext
  · funext p
    simp [World.ledger, h.active p, h.fd p]
  · funext fd
    simp [World.ledger, h.fds]
  · funext fd
    simp [World.ledger, World.watch, h.el]
  · simp [World.ledger, h.connections]

theorem Registered.congr {w v : World} {fd : Nat} {p : Peer} (r : Registered w fd p)
    (he : v.mgr.el.events fd = w.mgr.el.events fd)
    (hs : v.mgr.el.setsize = w.mgr.el.setsize) : Registered v fd p :=
  ⟨hs ▸ r.inTable, he ▸ r.mask, he ▸ r.proc, he ▸ r.data⟩

theorem Serves.congr {w v : World} {fd : Nat} {proc : FileProc} (r : Serves w fd proc)
    (he : v.mgr.el.events fd = w.mgr.el.events fd) : Serves v fd proc :=
  ⟨he ▸ r.mask, he ▸ r.proc, he ▸ r.data⟩

theorem Quiet.wired {w v : World} (h : Quiet w v) (hw : Wired w) : Wired v where
  distinct := by rw [h.serverFd, h.mqueue]; exact hw.distinct
  listening := by rw [h.fds, h.serverFd]; exact hw.listening
  pipe := by rw [h.fds, h.mqueue]; exact hw.pipe
  accepts := by rw [h.serverFd]; exact hw.accepts.congr (by rw [h.el])
  responds := by rw [h.mqueue]; exact hw.responds.congr (by rw [h.el])
  peers fd hs hm hmask := by
    rw [h.serverFd] at hs
    rw [h.mqueue] at hm
    rw [h.el] at hmask
    obtain ⟨p, r⟩ := hw.peers fd hs hm hmask
    exact ⟨p, r.congr (by rw [h.el]) (by rw [h.el])⟩

theorem Quiet.sound {w v : World} (h : Quiet w v) (hw : Sound w) : Sound v :=
  ⟨h.wired hw.wired, h.ledger ▸ hw.balanced⟩

/-! ## Descriptors of active slots -/

theorem Wired.not_server {w : World} (hw : Wired w) {fd : Nat}
    (h : w.kernel.fds fd = none ∨ w.ledger.conn fd ≠ none) : fd ≠ w.mgr.serverFd := by
  intro heq
  subst heq
  simp [World.ledger, hw.listening, Descriptor.client?] at h

theorem Wired.not_mqueue {w : World} (hw : Wired w) {fd : Nat}
    (h : w.kernel.fds fd = none ∨ w.ledger.conn fd ≠ none) : fd ≠ w.mgr.mqueue := by
  intro heq
  subst heq
  simp [World.ledger, hw.pipe, Descriptor.client?] at h

theorem World.watch_of_registered {w : World} {fd : Nat} {p : Peer} (r : Registered w fd p) :
    w.ledger.watch fd = some p := by
  have hmask : ¬ aeReadable = aeNone := by decide
  simp [World.ledger, World.watch, r.mask, r.data, hmask]

theorem World.mask_of_watch {w : World} {fd : Nat} {p : Peer} (h : w.ledger.watch fd = some p) :
    (w.mgr.el.events fd).mask ≠ aeNone := by
  intro hmask
  simp [World.ledger, World.watch, hmask] at h

/-- A watched descriptor is registered for exactly the slot that watches it. -/
theorem Wired.registered {w : World} (hw : Wired w) {fd : Nat} {p : Peer}
    (hconn : w.ledger.conn fd ≠ none) (h : w.ledger.watch fd = some p) : Registered w fd p := by
  obtain ⟨q, r⟩ := hw.peers fd (hw.not_server (.inr hconn)) (hw.not_mqueue (.inr hconn))
    (World.mask_of_watch h)
  have hq := World.watch_of_registered r
  rw [h] at hq
  cases hq
  exact r

theorem Sound.registered {w : World} (hw : Sound w) {p : Peer}
    (h : (w.mgr.slots p).active = true) : Registered w (w.mgr.slots p).fd p := by
  have howner : w.ledger.owner p = some (w.mgr.slots p).fd := World.owner_eq_some.mpr ⟨h, rfl⟩
  exact hw.wired.registered (hw.balanced.isOpen p _ howner)
    ((hw.balanced.watched p _).mpr howner)

/-- The descriptor of an active slot refers to a connection. -/
theorem Sound.client {w : World} (hw : Sound w) {p : Peer} (h : (w.mgr.slots p).active = true) :
    ∃ k, w.kernel.fds (w.mgr.slots p).fd = some (.client k) := by
  have hopen := hw.balanced.isOpen p _ (World.owner_eq_some.mpr ⟨h, rfl⟩)
  obtain ⟨k, hk⟩ := Option.ne_none_iff_exists'.mp hopen
  exact ⟨k, World.conn_eq_some.mp hk⟩

/-- A descriptor that is not open is not registered. -/
theorem Sound.unregistered {w : World} (hw : Sound w) {fd : Nat} (h : w.kernel.fds fd = none) :
    (w.mgr.el.events fd).mask = aeNone := by
  by_contra hmask
  obtain ⟨p, r⟩ := hw.wired.peers fd (hw.wired.not_server (.inl h)) (hw.wired.not_mqueue (.inl h))
    hmask
  have hnone := hw.balanced.watch_eq_none (World.conn_of_not_open h)
  rw [World.watch_of_registered r] at hnone
  contradiction

end Tflib.Nac
