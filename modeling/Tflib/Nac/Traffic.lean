import Tflib.Nac.Connections
import Tflib.Nac.Request

/-! # Who touches the queue and the pipe

Only `peer_request_handler` hands messages to the queue, one a run and stamped
with the id of its own slot, and only `message_response_handler` reads the pipe.
-/

namespace Tflib.Nac

open Tflib.Core Ae Ipc Socket

/-- Nothing was handed to the queue, and no bytes moved but on `fd`. -/
structure Silent (w w' : World) (fd : Nat) : Prop where
  sent : w'.kernel.sent = w.kernel.sent
  inbox : ∀ x, x ≠ fd → w'.kernel.inbox x = w.kernel.inbox x

theorem Silent.refl (w : World) (fd : Nat) : Silent w w fd := ⟨rfl, fun _ _ => rfl⟩

theorem Silent.trans {u v w : World} {fd : Nat} (h : Silent u v fd) (k : Silent v w fd) :
    Silent u w fd :=
  ⟨k.sent.trans h.sent, fun x hx => (k.inbox x hx).trans (h.inbox x hx)⟩

theorem lifeCyclePeer_silent (w : World) (p : Peer) (fd : Nat) :
    Silent w (lifeCyclePeer w p) fd := by
  unfold lifeCyclePeer
  dsimp only
  split
  · split
    · exact ⟨rfl, fun _ _ => rfl⟩
    · exact ⟨rfl, fun _ _ => rfl⟩
  · exact .refl w fd

theorem lifeCycleLoop_silent (w : World) (fd : Nat) : Silent w (lifeCycleLoop w) fd := by
  unfold lifeCycleLoop
  generalize List.finRange maxPeerNums = peers
  induction peers generalizing w with
  | nil => exact .refl w fd
  | cons p peers ih => exact (lifeCyclePeer_silent w p fd).trans (ih (lifeCyclePeer w p))

theorem acceptTcpHandler_silent (w : World) {io : Calls} {cfd : Nat} {cip : UInt32} {cport : UInt16}
    (hio : tfnetTcpAccept2 io.accept = some (cfd, cip, cport)) :
    Silent w (acceptTcpHandler io w) cfd := by
  have haccept : Silent w (w.accept cfd) cfd := ⟨rfl, fun x hx => Function.update_of_ne hx _ _⟩
  rcases acceptTcpHandler_cases w hio with ⟨-, h⟩ | ⟨p, -, ⟨-, h⟩ | ⟨el, -, h⟩⟩
  · rw [h]
    exact haccept
  · rw [h]
    exact haccept.trans ⟨rfl, fun _ _ => rfl⟩
  · rw [h]
    exact haccept.trans ⟨rfl, fun _ _ => rfl⟩

/-- The handler put `msg` on the queue, with the id of slot `p`, and kept the connection. -/
structure Stamped (w w' : World) (p : Peer) (msg : MqData) : Prop where
  quiet : Quiet w w'
  sent : w'.kernel.sent = w.kernel.sent ++ [msg]
  ident : messageId msg.data = (w.mgr.slots p).id

theorem forwardRequest_traffic (io : Calls) (p : Peer) {len : Nat} (w : World) (h : 8 ≤ len) :
    (forwardRequest io p len w).kernel.inbox = w.kernel.inbox ∧
      ((forwardRequest io p len w).kernel.sent = w.kernel.sent ∨
        ∃ msg, Stamped w (forwardRequest io p len w) p msg) := by
  have hquiet := quiet_storeRequest w p io.now len
  unfold forwardRequest
  dsimp only
  split
  · refine ⟨rfl, .inr ⟨_, ?_, rfl, messageId_queuedRequest w.mgr p io.now h⟩⟩
    refine (hquiet.trans ?_).trans (quiet_reloadTimer _ p)
    exact ⟨rfl, rfl, rfl, rfl, rfl, rfl, fun _ => rfl, fun _ => rfl, fun _ => rfl⟩
  · exact ⟨rfl, .inl rfl⟩

theorem peerRequestHandler_traffic (io : Calls) (fd : Nat) (p : Peer) (w : World) :
    (∀ x, x ≠ fd → (peerRequestHandler io fd p w).kernel.inbox x = w.kernel.inbox x) ∧
      ((peerRequestHandler io fd p w).kernel.sent = w.kernel.sent ∨
        ∃ msg, Stamped w (peerRequestHandler io fd p w) p msg) := by
  unfold peerRequestHandler
  dsimp only
  split
  · exact ⟨fun x hx => Function.update_of_ne hx _ _, .inl rfl⟩
  · split
    · exact ⟨fun x hx => Function.update_of_ne hx _ _, .inl rfl⟩
    · have hread := quiet_leave_receive w fd (tfnetRead io.reads (w.kernel.inbox fd) 2).rest
      split
      · refine ⟨fun x hx => ?_, .inl rfl⟩
        exact (Function.update_of_ne hx _ _).trans (Function.update_of_ne hx _ _)
      · rename_i hrange _
        obtain ⟨hinbox, hsent⟩ := forwardRequest_traffic io p
          (World.receive { w with kernel := w.kernel.leave fd _ } fd _ (bufferAt 0) _)
          (show 8 ≤ (net16 (tfnetRead io.reads (w.kernel.inbox fd) 2).moved).toNat by omega)
        refine ⟨fun x hx => ?_, ?_⟩
        · rw [hinbox]
          exact (Function.update_of_ne hx _ _).trans (Function.update_of_ne hx _ _)
        · refine hsent.imp id ?_
          intro hstamped
          obtain ⟨msg, hq, hs, hi⟩ := hstamped
          exact ⟨msg, (hread _ _ _).trans hq, hs, hi⟩

/-! ## Events -/

/-- The descriptor that an event is about. -/
def Event.fd? : Event → Option Nat
  | .arrive fd _ => some fd
  | .file fd _ => some fd
  | .tick => none

/-- What an event that leaves the pipe alone does: the pipe stays as it is, and at most one message
goes out, from a peer that keeps its connection. -/
theorem exec_traffic {w : World} (hw : Sound w) {e : Event} (admitted : Admissible w e)
    (hpipe : e.fd? ≠ some w.mgr.mqueue) :
    (exec w e).kernel.inbox w.mgr.mqueue = w.kernel.inbox w.mgr.mqueue ∧
      ((exec w e).kernel.sent = w.kernel.sent ∨
        ∃ fd io p msg, e = .file fd io ∧ Holds w p fd ∧ Stamped w (exec w e) p msg) := by
  cases e with
  | arrive fd bytes =>
      have hne : w.mgr.mqueue ≠ fd := fun heq => hpipe (congrArg some heq.symm)
      exact ⟨Function.update_of_ne hne _ _, .inl rfl⟩
  | tick =>
      have hsilent := lifeCycleLoop_silent w (w.mgr.mqueue + 1)
      rw [exec_tick]
      exact ⟨hsilent.inbox _ (by omega), .inl hsilent.sent⟩
  | file fd io =>
      have hne : w.mgr.mqueue ≠ fd := fun heq => hpipe (congrArg some heq.symm)
      simp only [exec]
      rcases hw.dispatch_cases fd io with
        ⟨-, h⟩ | ⟨hfd, -⟩ | ⟨-, -, h | ⟨p, hactive, hfd, h⟩⟩
      · rw [h]
        cases hio : tfnetTcpAccept2 io.accept with
        | none =>
            have hsame : acceptTcpHandler io w = w := by simp only [acceptTcpHandler, hio]
            rw [hsame]
            exact ⟨rfl, .inl rfl⟩
        | some c =>
            obtain ⟨cfd, cip, cport⟩ := c
            have hfree := admitted cfd cip cport hio
            have hsilent := acceptTcpHandler_silent w hio
            exact ⟨hsilent.inbox _ (hw.wired.not_mqueue (.inl hfree)).symm, .inl hsilent.sent⟩
      · exact absurd hfd.symm hne
      · rw [h]
        exact ⟨rfl, .inl rfl⟩
      · rw [h]
        obtain ⟨hinbox, hsent⟩ := peerRequestHandler_traffic io fd p w
        refine ⟨hinbox _ hne, hsent.imp id ?_⟩
        intro hstamped
        obtain ⟨msg, hs⟩ := hstamped
        exact ⟨fd, io, p, msg, rfl, ⟨hactive, hfd⟩, hs⟩

end Tflib.Nac
