import Tflib.Ae.Process
import Tflib.Nac.Ticks

/-! # The service under `aeMain`

A turn of `aeMain` polls, runs the callbacks of all that has fired, and then the
timers. A callback can close a descriptor that stands further down in the same
batch. Each turn is still a run of the service's machine, where the events happen
one at a time.
-/

namespace Tflib.Nac

open Tflib.Core Ae Ipc Socket

/-- The service as a program on the loop. `peer_request_handler` returns at once
without a peer. -/
def serviceProgram : Program World FileProc ClientData Calls (List AeFiredEvent) where
  loop := fun w => w.mgr.el
  call := fun proc fd clientData _ io w =>
    match proc, clientData with
    | .acceptTcpHandler, _ => acceptTcpHandler io w
    | .peerRequestHandler, some (.peer p) => peerRequestHandler io fd p w
    | .peerRequestHandler, _ => w
    | .messageResponseHandler, _ => messageResponseHandler io fd w
  poll := fun w fired => some (w, fired)

/-- What the first system calls of the callback for `f` do. -/
def fire (io : Calls) (f : AeFiredEvent) (w : World) : World :=
  if f.mask &&& aeReadable ≠ 0 then dispatch io f.fd w else w

/-- The event that a fired descriptor amounts to. -/
def fileEvent (io : Nat → Calls × Calls) (j : Nat) (f : AeFiredEvent) : List Event :=
  if f.mask &&& aeReadable ≠ 0 then [.file f.fd (io j).1] else []

/-- The events of a batch, from entry `j` of `fired` on. -/
def fileEvents (io : Nat → Calls × Calls) : Nat → List AeFiredEvent → List Event
  | _, [] => []
  | j, f :: rest => fileEvent io j f ++ fileEvents io (j + 1) rest

/-- The answers are possible where the calls happen. -/
def BatchAdmissible (io : Nat → Calls × Calls) : World → Nat → List AeFiredEvent → Prop
  | _, _, [] => True
  | w, j, f :: rest =>
      Admissible w (.file f.fd (io j).1) ∧ BatchAdmissible io (fire (io j).1 f w) (j + 1) rest

/-! ## One fired descriptor -/

theorem Sound.mask {w : World} (hw : Sound w) (fd : Nat) :
    (w.mgr.el.events fd).mask = aeNone ∨ (w.mgr.el.events fd).mask = aeReadable := by
  by_cases hserver : fd = w.mgr.serverFd
  · exact .inr (hserver ▸ hw.wired.accepts.mask)
  · by_cases hmqueue : fd = w.mgr.mqueue
    · exact .inr (hmqueue ▸ hw.wired.responds.mask)
    · by_cases hmask : (w.mgr.el.events fd).mask = aeNone
      · exact .inl hmask
      · obtain ⟨p, r⟩ := hw.wired.peers fd hserver hmqueue hmask
        exact .inr r.mask

theorem Sound.not_writable {w : World} (hw : Sound w) (fd : Nat) (mask : Mask) :
    (w.mgr.el.events fd).mask &&& mask &&& aeWritable = 0 := by
  rcases hw.mask fd with h | h <;> rw [h] <;> revert mask <;> decide

/-- A registered entry is never called through `NULL`. -/
theorem Sound.callProc {w : World} (hw : Sound w) {fd : Nat}
    (hreg : (w.mgr.el.events fd).mask = aeReadable) (mask : Mask) (io : Calls) :
    serviceProgram.callProc (w.mgr.el.events fd).rfileProc fd (w.mgr.el.events fd).clientData mask io
      w = some (dispatch io fd w) := by
  by_cases hserver : fd = w.mgr.serverFd
  · subst hserver
    rw [hw.wired.dispatch_server, hw.wired.accepts.proc]
    rfl
  · by_cases hmqueue : fd = w.mgr.mqueue
    · subst hmqueue
      rw [hw.wired.dispatch_mqueue, hw.wired.responds.proc]
      rfl
    · obtain ⟨p, r⟩ := hw.wired.peers fd hserver hmqueue (by rw [hreg]; decide)
      rw [r.dispatch, r.proc, r.data]
      rfl

theorem Sound.fire {w : World} (hw : Sound w) {f : AeFiredEvent} {io : Calls}
    (admitted : Admissible w (.file f.fd io)) : Sound (fire io f w) := by
  unfold Nac.fire
  split
  · exact (dispatch_refines hw f.fd io admitted).sound hw
  · exact hw

/-- The body of the loop over `fired` does what the machine does for its event. -/
theorem Sound.dispatchFired {w : World} (hw : Sound w) {f : AeFiredEvent} {io : Calls × Calls}
    (admitted : Admissible w (.file f.fd io.1)) :
    serviceProgram.dispatchFired io w f = some (Nac.fire io.1 f w) := by
  refine Program.dispatchFired_eq ?_ ((hw.fire admitted).not_writable f.fd f.mask)
  rw [Nac.fire, Program.callReadable]
  change (if (w.mgr.el.events f.fd).mask &&& f.mask &&& aeReadable ≠ 0 then _ else _) = _
  rcases hw.mask f.fd with hmask | hmask
  · rw [hmask, dispatch_of_unregistered hmask]
    simp [aeNone]
  · have hsame : aeReadable &&& f.mask &&& aeReadable = f.mask &&& aeReadable := by
      generalize f.mask = m
      revert m
      decide
    rw [hmask, hsame]
    split
    · exact hw.callProc hmask f.mask io.1
    · rfl

theorem runs_fileEvent (w : World) (io : Nat → Calls × Calls) (j : Nat) {f : AeFiredEvent}
    (admitted : Admissible w (.file f.fd (io j).1)) :
    service.Runs w (fileEvent io j f) (fire (io j).1 f w) := by
  unfold fileEvent fire
  split
  · exact .single admitted
  · exact .nil w

/-- A batch is a run of the machine over the events that fired as readable. -/
theorem Sound.dispatchFrom {w : World} (hw : Sound w) {io : Nat → Calls × Calls} {j : Nat}
    {fired : List AeFiredEvent} (admitted : BatchAdmissible io w j fired) :
    ∃ w', serviceProgram.dispatchFrom io w j fired = some w' ∧
      service.Runs w (fileEvents io j fired) w' ∧ Sound w' := by
  induction fired generalizing w j with
  | nil => exact ⟨w, rfl, .nil w, hw⟩
  | cons f rest ih =>
      obtain ⟨w', hrest, hruns, hw'⟩ := ih (hw.fire admitted.1) admitted.2
      refine ⟨w', ?_, (runs_fileEvent w io j admitted.1).append hruns, hw'⟩
      rw [Program.dispatchFrom, hw.dispatchFired admitted.1]
      exact hrest

/-! ## The timers of a turn -/

/-- What the callbacks of a list keep of the state, `processTimeEvents` keeps. -/
theorem timeEventLoop_state {σ : Type} {P : List (AeTimeEvent σ) → Prop} {R : σ → Prop}
    (hrearm : ∀ passed te rest tv ms, P (passed ++ te :: rest) →
      P (passed ++ AeTimeEvent.rearm te tv ms :: rest))
    (hdelete : ∀ id events s, P events → R s →
      P (aeDeleteTimeEvent id events s).1 ∧ R (aeDeleteTimeEvent id events s).2)
    (hproc : ∀ passed te rest s, P (passed ++ te :: rest) → R s →
      R (AeTimeEvent.timeProc te te.id s).1)
    {clock : Clock} {maxId : Int} {fuel n : Nat} {passed rest : List (AeTimeEvent σ)} {s : σ}
    {processed : Nat} {out : Processed σ}
    (h : timeEventLoop clock maxId fuel n passed rest s processed = some out)
    (hP : P (passed ++ rest)) (hR : R s) : R out.state := by
  fun_induction timeEventLoop clock maxId fuel n passed rest s processed with
  | case1 => contradiction
  | case2 =>
      cases h
      exact hR
  | case3 fuel n passed te rest s processed hid ih => exact ih h (by simpa using hP) hR
  | case4 fuel n passed te rest s processed hid hdue s' retval hproc' hmore te' =>
      rename_i ih
      have hran := hproc _ _ _ _ hP hR
      rw [hproc'] at hran
      exact ih h (hrearm _ _ _ _ _ hP) hran
  | case5 fuel n passed te rest s processed hid hdue s' retval hproc' hmore events s'' hdel ih =>
      have hran := hproc _ _ _ _ hP hR
      rw [hproc'] at hran
      have hleft := hdelete te.id _ _ hP hran
      rw [hdel] at hleft
      exact ih h hleft.1 hleft.2
  | case6 fuel n passed te rest s processed hid hdue ih => exact ih h (by simpa using hP) hR

theorem CycleList.delete_state {events : List (AeTimeEvent World)} (h : CycleList events)
    (id : Int) (w : World) : (aeDeleteTimeEvent id events w).2 = w := by
  cases events with
  | nil => rfl
  | cons te rest =>
      obtain ⟨hlist, _, _, hfinal⟩ := h te List.mem_cons_self
      obtain rfl : rest = [] := by simpa using hlist
      by_cases hid : te.id = id <;> simp [aeDeleteTimeEvent, hid, hfinal]

theorem lifeCycleProc_fst (id : Int) (w : World) :
    (lifeCycleProc id w).1 = service.step w .tick := by
  simp only [lifeCycleProc, service, exec]

/-- The timers of a turn are ticks of the machine. -/
theorem ServiceTimers.reaches {el el' : AeTimers World} (hel : ServiceTimers el) {clock : Clock}
    {now : Int} {fuel : Nat} {w w' : World} {processed : Nat}
    (h : processTimeEvents clock now fuel el w = some (el', w', processed)) :
    service.Reaches w w' ∧ ServiceTimers el' := by
  have hreturns : Returns clock now el w (el', w', processed) := ⟨fuel, h⟩
  obtain ⟨fuel', events, hloop, _⟩ := returns_iff.mp hreturns
  refine ⟨?_, hel.process hreturns⟩
  refine timeEventLoop_state (P := CycleList) (R := service.Reaches w)
    (fun _ _ _ tv ms hlist => hlist.rearm tv ms) (fun id events v hlist hv => ?_)
    (fun passed te rest v hlist hv => ?_) hloop (hel.cycle.2.detectSkew now) (.refl service w)
  · rw [hlist.delete_state id v]
    exact ⟨hlist.delete id v, hv⟩
  · obtain ⟨_, _, hproc, _⟩ := hlist te (by simp)
    rw [hproc, lifeCycleProc_fst]
    exact hv.step trivial

/-! ## Any number of turns -/

/-- The answers of a turn's callbacks are possible. -/
def TurnAdmissible (w : World) (turn : Program.Turn Calls (List AeFiredEvent)) : Prop :=
  BatchAdmissible turn.io w 0 turn.poll

/-- One turn comes back from its callbacks, and is a run of the machine. -/
theorem turn_reaches {w : World} (hw : Sound w) {el : AeTimers World} (hel : ServiceTimers el)
    {turn : Program.Turn Calls (List AeFiredEvent)} (admitted : TurnAdmissible w turn)
    (fuel : Nat) :
    ∃ v, serviceProgram.dispatchFrom turn.io w 0 turn.poll = some v ∧
      serviceProgram.aeProcessEvents aeAllEvents fuel turn el w =
        (processTimeEvents turn.clock turn.now fuel el v).map
          (fun out => (out.1, out.2.1, turn.poll.length + out.2.2)) ∧
      ∀ el' w' processed, serviceProgram.aeProcessEvents aeAllEvents fuel turn el w =
        some (el', w', processed) → service.Reaches w w' ∧ ServiceTimers el' := by
  obtain ⟨v, hbatch, hruns, hv⟩ := hw.dispatchFrom admitted
  have hturn : serviceProgram.aeProcessEvents aeAllEvents fuel turn el w =
      (processTimeEvents turn.clock turn.now fuel el v).map
        (fun out => (out.1, out.2.1, turn.poll.length + out.2.2)) :=
    Program.aeProcessEvents_all rfl hbatch
  refine ⟨v, hbatch, hturn, fun el' w' processed h => ?_⟩
  rw [hturn] at h
  obtain ⟨⟨el₁, w₁, n⟩, hprocess, heq⟩ := Option.map_eq_some_iff.mp h
  cases heq
  obtain ⟨hreaches, hel'⟩ := hel.reaches hprocess
  exact ⟨Machine.Reaches.trans ⟨_, hruns⟩ hreaches, hel'⟩

/-- What the process comes to under `aeMain`: bytes arrive, and turns go by. -/
inductive MainLoop (el₀ : AeTimers World) (w₀ : World) : AeTimers World → World → Prop
  | start : MainLoop el₀ w₀ el₀ w₀
  | arrive {el : AeTimers World} {w : World} (fd : Nat) (bytes : Bytes) : MainLoop el₀ w₀ el w →
      MainLoop el₀ w₀ el { w with kernel := w.kernel.arrive fd bytes }
  | turn {el el' : AeTimers World} {w w' : World} {fuel processed : Nat}
      {turn : Program.Turn Calls (List AeFiredEvent)} : MainLoop el₀ w₀ el w →
      TurnAdmissible w turn →
      serviceProgram.aeProcessEvents aeAllEvents fuel turn el w = some (el', w', processed) →
      MainLoop el₀ w₀ el' w'

/-- Whatever fires together in one turn and whatever its callbacks close, the states of
the process under `aeMain` are states of the machine that takes one event at a time,
and no callback is called through `NULL`. -/
theorem mainLoop_reaches {el₀ el : AeTimers World} {w₀ w : World} (start : Started w₀)
    (hel₀ : ServiceTimers el₀) (h : MainLoop el₀ w₀ el w) :
    service.Reaches w₀ w ∧ ServiceTimers el ∧
      ∀ turn, TurnAdmissible w turn →
        ∃ v, serviceProgram.dispatchFrom turn.io w 0 turn.poll = some v ∧ service.Reaches w v := by
  have hboth : service.Reaches w₀ w ∧ ServiceTimers el := by
    induction h with
    | start => exact ⟨.refl service w₀, hel₀⟩
    | arrive fd bytes _ ih => exact ⟨ih.1.step (e := Event.arrive fd bytes) trivial, ih.2⟩
    | turn _ admitted hturn ih =>
        have hw := (start.sound.reaches ih.1).sound start.sound
        obtain ⟨_, _, _, hreaches⟩ := turn_reaches hw ih.2 admitted _
        obtain ⟨hstep, hel'⟩ := hreaches _ _ _ hturn
        exact ⟨ih.1.trans hstep, hel'⟩
  refine ⟨hboth.1, hboth.2, fun turn admitted => ?_⟩
  have hw := (start.sound.reaches hboth.1).sound start.sound
  obtain ⟨v, hbatch, hruns, _⟩ := hw.dispatchFrom admitted
  exact ⟨v, hbatch, ⟨_, hruns⟩⟩

/-- The first turn: a connection arrives, and its descriptor is reported for a second
time in the same batch. -/
def firstTurn : Program.Turn Calls (List AeFiredEvent) where
  poll := [⟨5, aeReadable⟩, ⟨9, aeWritable⟩]
  io := fun j => if j = 0 then ({ accept := [.conn 9 0 0] }, {}) else ({}, {})
  clock := stillClock 1700000000
  now := 1700000000

def firstTimers : AeTimers World :=
  startTimers 1700000000 (stillClock 1700000000 0) true firstWorld

theorem firstTurn_isSome :
    (serviceProgram.aeProcessEvents aeAllEvents 2 firstTurn firstTimers firstWorld).isSome = true :=
  rfl

/-- The state after the first turn. -/
def afterFirst : AeTimers World × World × Nat :=
  (serviceProgram.aeProcessEvents aeAllEvents 2 firstTurn firstTimers firstWorld).get firstTurn_isSome

theorem afterFirst_eq :
    serviceProgram.aeProcessEvents aeAllEvents 2 firstTurn firstTimers firstWorld =
      some (afterFirst.1, afterFirst.2.1, afterFirst.2.2) := (Option.some_get firstTurn_isSome).symm

theorem firstTurn_admissible : TurnAdmissible firstWorld firstTurn := by
  refine ⟨?_, ?_, trivial⟩
  · intro cfd cip cport h
    cases h
    rfl
  · intro cfd cip cport h
    cases h

theorem mainLoop_firstTurn :
    service.Reaches firstWorld afterFirst.2.1 ∧ ServiceTimers afterFirst.1 ∧
      ∀ turn, TurnAdmissible afterFirst.2.1 turn →
        ∃ v, serviceProgram.dispatchFrom turn.io afterFirst.2.1 0 turn.poll = some v ∧
          service.Reaches afterFirst.2.1 v :=
  mainLoop_reaches firstWorld_started (show ServiceTimers firstTimers from .start _ _ _ _)
    (.turn .start firstTurn_admissible afterFirst_eq)

end Tflib.Nac
