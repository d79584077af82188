import Tflib.Ae.Epoll
import Tflib.Nac.Connections

/-! # What the kernel watches for the service

On Linux the service's loop runs on epoll. Every event of the machine is carried by
calls of the loop and closings that the epoll layer's contract covers, so the
interest list follows the connection table through every run.
-/

namespace Tflib.Nac

open Tflib.Core Ae Ipc Socket

abbrev EpollLoop := Loop FileProc ClientData Interest

abbrev EpollOp := LoopOp FileProc ClientData Bool (List EpollEvent)

/-- The epoll layer, with no removal refused. -/
abbrev epoll : Contract (Epoll.api : Api FileProc ClientData _ _ _) := Epoll.contract true

/-- Calls that the contract covers lead the loop from its state in `w` to that in
`w'`, whatever interest list it is in step with. -/
def Follows (w w' : World) : Prop :=
  ∀ k, epoll.InStep ⟨w.mgr.el, k⟩ → ∃ ops k',
    epoll.machine.Runs (some ⟨w.mgr.el, k⟩) ops (some ⟨w'.mgr.el, k'⟩) ∧ epoll.InStep ⟨w'.mgr.el, k'⟩

theorem Follows.of_eq {w w' : World} (h : w'.mgr.el = w.mgr.el) : Follows w w' := by
  intro k hin
  rw [h]
  exact ⟨[], k, .nil _, hin⟩

theorem Follows.trans {u v w : World} (h : Follows u v) (h' : Follows v w) : Follows u w := by
  intro k hin
  obtain ⟨ops, k₁, hruns, hin₁⟩ := h k hin
  obtain ⟨ops', k₂, hruns', hin₂⟩ := h' k₁ hin₁
  exact ⟨ops ++ ops', k₂, hruns.append hruns', hin₂⟩

theorem runs_apply {l l' : EpollLoop} {op : EpollOp} (hop : epoll.Allowed l op)
    (happly : Epoll.api.apply l op = some l') : epoll.machine.Runs (some l) [op] (some l') := by
  have hstep : epoll.machine.step (some l) op = some l' := happly
  rw [← hstep]
  refine .single fun l₁ hl₁ => ?_
  cases hl₁
  exact hop

/-- Deleting and closing, where nothing is left registered. -/
theorem follows_close {w w' : World} {fd : Nat}
    (hel : w'.mgr.el = aeDeleteFileEvent w.mgr.el fd aeReadable)
    (hnone : (w'.mgr.el.events fd).mask = aeNone) : Follows w w' := by
  intro k hin
  obtain ⟨⟨el, k₁⟩, hdelete, hin₁, -⟩ := hin.delete fd aeReadable (show epoll.deletes false from fun _ => rfl)
  obtain rfl : el = w'.mgr.el := (Api.delete_el hdelete).trans hel.symm
  have hclose : epoll.Allowed ⟨w'.mgr.el, k₁⟩ (.close fd) := hnone
  obtain ⟨⟨el, k₂⟩, happly, hin₂, -⟩ := hin₁.apply hclose
  obtain rfl : w'.mgr.el = el := congrArg Loop.el (Option.some.inj happly)
  have hfirst : epoll.machine.Runs (some ⟨w.mgr.el, k⟩) [.delete fd aeReadable false]
      (some ⟨w'.mgr.el, k₁⟩) := runs_apply (fun _ => rfl) hdelete
  exact ⟨_, k₂, hfirst.append (runs_apply hclose happly), hin₂⟩

/-- A registration for reading, granted or refused. -/
theorem runs_create {el el' : AeEventLoop FileProc ClientData} {k : Interest}
    (hin : epoll.InStep ⟨el, k⟩) {fd : Nat} {proc : FileProc} {clientData : ClientData}
    {apiAdd : Bool}
    (hel : el' = (aeCreateFileEvent el fd aeReadable proc clientData apiAdd).getD el) :
    ∃ ops k', epoll.machine.Runs (some ⟨el, k⟩) ops (some ⟨el', k'⟩) ∧ epoll.InStep ⟨el', k'⟩ := by
  obtain ⟨k', hcreate⟩ := Epoll.create_eq hin.synced fd aeReadable proc clientData !apiAdd
  have hop : epoll.Allowed ⟨el, k⟩ (.create fd aeReadable proc clientData !apiAdd) :=
    ⟨by decide, trivial⟩
  rw [Bool.not_not] at hcreate
  have happly : Epoll.api.apply ⟨el, k⟩ (.create fd aeReadable proc clientData !apiAdd) =
      some ⟨el', k'⟩ := by
    rw [Api.apply, hcreate, hel]
    cases aeCreateFileEvent el fd aeReadable proc clientData apiAdd <;> rfl
  obtain ⟨l, hl, hin', -⟩ := hin.apply hop
  rw [happly] at hl
  cases hl
  exact ⟨_, k', runs_apply hop happly, hin'⟩

theorem follows_create {w w' : World} {fd : Nat} {proc : FileProc} {clientData : ClientData}
    {apiAdd : Bool}
    (hel : w'.mgr.el = (aeCreateFileEvent w.mgr.el fd aeReadable proc clientData apiAdd).getD
      w.mgr.el) : Follows w w' := fun _ hin => runs_create hin hel

/-! ## Events -/

theorem follows_closePeer {w : World} {p : Peer}
    (h : (w.mgr.el.events (w.mgr.slots p).fd).mask = aeNone ∨
      ((w.mgr.slots p).fd < w.mgr.el.setsize ∧
        (w.mgr.el.events (w.mgr.slots p).fd).mask = aeReadable)) : Follows w (closePeer w p) :=
  follows_close rfl (closePeer_mask h)

theorem ClosesAtMost.follows {w w' : World} {closing : Peer → Prop} (hw : Sound w)
    (h : ClosesAtMost w w' closing) (hactive : ∀ p, closing p → (w.mgr.slots p).active = true) :
    Follows w w' := by
  obtain ⟨v, hv, rfl | ⟨p, hp, rfl⟩⟩ := h
  · exact .of_eq hv.el
  · have hreg := (hv.sound hw).registered ((hv.active p).trans (hactive p hp))
    exact (Follows.of_eq hv.el).trans (follows_closePeer (.inr ⟨hreg.inTable, hreg.mask⟩))

theorem follows_lifeCycleLoop {w : World} (hw : Sound w) : Follows w (lifeCycleLoop w) := by
  unfold lifeCycleLoop
  generalize List.finRange maxPeerNums = peers
  induction peers generalizing w with
  | nil => exact .of_eq rfl
  | cons p peers ih =>
      have hstep : Follows w (lifeCyclePeer w p) := (lifeCyclePeer_cases w p).follows hw fun _ h => h
      exact hstep.trans (ih ((lifeCyclePeer_refines hw p).sound hw))

theorem follows_accept {w : World} (hw : Sound w) (io : Calls)
    (hfree : ∀ cfd cip cport, tfnetTcpAccept2 io.accept = some (cfd, cip, cport) →
      w.kernel.fds cfd = none) : Follows w (acceptTcpHandler io w) := by
  unfold acceptTcpHandler
  cases hio : tfnetTcpAccept2 io.accept with
  | none => exact .of_eq rfl
  | some c =>
      obtain ⟨cfd, cip, cport⟩ := c
      have hmask := hw.unregistered (hfree cfd cip cport hio)
      dsimp only
      cases hidle : getIdlePeer (w.accept cfd).mgr with
      | none => exact .of_eq rfl
      | some p =>
          dsimp only
          have hfirst : (admitPeer (w.accept cfd) p cfd cip cport).mgr.el = w.mgr.el := rfl
          cases hel : aeCreateFileEvent (admitPeer (w.accept cfd) p cfd cip cport).mgr.el cfd
              aeReadable FileProc.peerRequestHandler (ClientData.peer p) io.apiAdd with
          | none =>
              have hrefused : Follows w (admitPeer (w.accept cfd) p cfd cip cport) := by
                refine @follows_create _ _ cfd .peerRequestHandler (.peer p) io.apiAdd ?_
                rw [hfirst] at hel
                rw [hfirst, hel]
                rfl
              refine hrefused.trans (follows_closePeer (.inl ?_))
              rw [admitPeer_slot_self]
              exact hmask
          | some el =>
              refine @follows_create _ _ cfd .peerRequestHandler (.peer p) io.apiAdd ?_
              rw [hfirst] at hel
              rw [hel]
              rfl

theorem follows_exec {w : World} (hw : Sound w) (e : Event) (admitted : Admissible w e) :
    Follows w (exec w e) := by
  cases e with
  | arrive fd bytes => exact .of_eq rfl
  | tick =>
      rw [exec_tick]
      exact follows_lifeCycleLoop hw
  | file fd io =>
      change Follows w (dispatch io fd w)
      rcases hw.dispatch_cases fd io with ⟨-, h⟩ | ⟨-, h⟩ | ⟨-, -, h | ⟨p, hactive, -, h⟩⟩
      all_goals rw [h]
      · exact follows_accept hw io admitted
      · exact (messageResponseHandler_cases io fd w).follows hw fun _ h => h
      · exact .of_eq rfl
      · refine (peerRequestHandler_cases io fd p w).follows hw fun q hq => ?_
        rw [hq]
        exact hactive

theorem follows_reaches {w₀ w : World} (hw₀ : Sound w₀) (h : service.Reaches w₀ w) :
    Follows w₀ w := by
  refine (Machine.Reaches.invariant (M := service) (I := fun w => Sound w ∧ Follows w₀ w)
    (fun w e hboth admitted => ?_) h ⟨hw₀, .of_eq rfl⟩).2
  exact ⟨(exec_refines hboth.1 e admitted).sound hboth.1,
    hboth.2.trans (follows_exec hboth.1 e admitted)⟩

/-! ## From the start of the loop -/

/-- The loop that `main` creates. -/
def startLoop : EpollLoop := Epoll.api.createLoop (maxPeerNums + 1024)

/-- The two registrations of `main`. -/
theorem startService_watched {b : Boot} {k : Kernel} {c : StartCalls} {w : World}
    (h : startService b k c = some w) :
    ∃ ops i, epoll.machine.Runs (some startLoop) ops (some ⟨w.mgr.el, i⟩) ∧
      epoll.InStep ⟨w.mgr.el, i⟩ := by
  simp only [startService, Option.bind_eq_bind, Option.bind_eq_some_iff, Option.pure_def,
    Option.some.injEq] at h
  obtain ⟨_, _, serverFd, _, _, _, el₀, hel₀, ⟨mqueue, mqueueThread⟩, _, el, hel, s, _, rfl⟩ := h
  have hin : epoll.InStep startLoop := epoll.inStep_createLoop trivial
  obtain ⟨ops₀, i₀, hruns₀, hin₀⟩ :=
    @runs_create _ el₀ _ hin serverFd .acceptTcpHandler .processMgr c.addServer
      (by rw [hel₀]; rfl)
  obtain ⟨ops, i, hruns, hin⟩ :=
    @runs_create _ el _ hin₀ mqueue .messageResponseHandler .processMgr c.addPipe (by rw [hel]; rfl)
  exact ⟨ops₀ ++ ops, i, hruns₀.append hruns, hin⟩

/-- The service waits for something on `fd`. -/
def Awaited (w : World) (fd : Nat) : Prop :=
  fd = w.mgr.serverFd ∨ fd = w.mgr.mqueue ∨ ∃ p, Holds w p fd

theorem Awaited.mask {w : World} (hw : Sound w) {fd : Nat} (h : Awaited w fd) :
    w.mgr.el.masks fd = aeReadable := by
  obtain rfl | rfl | ⟨p, hactive, rfl⟩ := h
  · exact hw.wired.accepts.mask
  · exact hw.wired.responds.mask
  · exact (hw.registered hactive).mask

theorem Sound.awaited {w : World} (hw : Sound w) {fd : Nat} (hreg : w.mgr.el.masks fd ≠ aeNone) :
    Awaited w fd := by
  by_cases hserver : fd = w.mgr.serverFd
  · exact .inl hserver
  by_cases hmqueue : fd = w.mgr.mqueue
  · exact .inr (.inl hmqueue)
  obtain ⟨p, r⟩ := hw.wired.peers fd hserver hmqueue hreg
  have howner := (hw.balanced.watched p fd).mp (World.watch_of_registered r)
  exact .inr (.inr ⟨p, holds_iff_owner.mpr howner⟩)

end Tflib.Nac
