import Tflib.Ae.TimeEvents
import Tflib.Nac.Lookup
import Tflib.Nac.Timers

/-! # The service's timer list

`main` creates one time event, with `life_cycle_handler` for its callback and
`cycle_step` milliseconds ahead. The callback returns `cycle_step` again, a
`__u32` that becomes an `int` on the way.
-/

namespace Tflib.Nac

open Tflib.Core Ae Ipc Socket

/-- `life_cycle_handler` as a time event's callback. -/
def lifeCycleProc (_id : Int) (w : World) : World × Int := lifeCycleHandler w

/-- The timers of the loop that `main` creates at the time `created` and hands
its one time event. -/
def startTimers (created : Int) (tv : TimeVal) (allocated : Bool) (w : World) : AeTimers World :=
  (aeCreateTimeEvent (aeCreateTimers created) tv w.mgr.cycleStep.toNat lifeCycleProc none
    allocated).1

/-- The timers of the service: those of `main`, and what calls of
`processTimeEvents` leave of them. -/
inductive ServiceTimers : AeTimers World → Prop
  | start (created : Int) (tv : TimeVal) (allocated : Bool) (w : World) :
      ServiceTimers (startTimers created tv allocated w)
  | process {el el' : AeTimers World} {clock : Clock} {now : Int} {w w' : World} {processed : Nat} :
      ServiceTimers el → Returns clock now el w (el', w', processed) → ServiceTimers el'

/-- At most the one event that `main` created. -/
def CycleList (events : List (AeTimeEvent World)) : Prop :=
  ∀ te ∈ events, events = [te] ∧ te.id = 0 ∧ te.timeProc = lifeCycleProc ∧ te.finalizerProc = none

theorem CycleList.map {events : List (AeTimeEvent World)} (h : CycleList events)
    {f : AeTimeEvent World → AeTimeEvent World}
    (hf : ∀ te, (f te).id = te.id ∧ (f te).timeProc = te.timeProc ∧
      (f te).finalizerProc = te.finalizerProc) : CycleList (events.map f) := by
  intro te hte
  obtain ⟨te', hmem, rfl⟩ := List.mem_map.mp hte
  obtain ⟨hlist, hid, hproc, hfinal⟩ := h te' hmem
  obtain ⟨hid', hproc', hfinal'⟩ := hf te'
  rw [hid', hproc', hfinal', hlist]
  exact ⟨rfl, hid, hproc, hfinal⟩

theorem CycleList.rearm {passed rest : List (AeTimeEvent World)} {te : AeTimeEvent World}
    (h : CycleList (passed ++ te :: rest)) (tv : TimeVal) (ms : Int) :
    CycleList (passed ++ te.rearm tv ms :: rest) := by
  obtain ⟨hlist, hid, hproc, hfinal⟩ := h te (by simp)
  obtain ⟨rfl, rfl⟩ : passed = [] ∧ rest = [] := by
    have hlen := congrArg List.length hlist
    simp only [List.length_append, List.length_cons, List.length_nil] at hlen
    exact ⟨List.length_eq_zero_iff.mp (by omega), List.length_eq_zero_iff.mp (by omega)⟩
  intro te' hte'
  obtain rfl : te' = te.rearm tv ms := by simpa using hte'
  exact ⟨rfl, hid, hproc, hfinal⟩

theorem CycleList.delete {events : List (AeTimeEvent World)} (h : CycleList events) (id : Int)
    (w : World) : CycleList (aeDeleteTimeEvent id events w).1 := by
  cases events with
  | nil => exact h
  | cons te rest =>
      obtain ⟨hlist, hrest⟩ := h te List.mem_cons_self
      obtain rfl : rest = [] := by simpa using hlist
      by_cases hid : te.id = id
      · simp [aeDeleteTimeEvent, hid, CycleList]
      · simpa [aeDeleteTimeEvent, hid] using h

theorem CycleList.detectSkew {el : AeTimers World} (h : CycleList el.timeEventHead) (now : Int) :
    CycleList (detectSkew el now) := by
  unfold Ae.detectSkew
  split
  · exact h.map fun te => ⟨rfl, rfl, rfl⟩
  · exact h

theorem ServiceTimers.cycle {el : AeTimers World} (h : ServiceTimers el) :
    el.timeEventNextId = 1 ∧ CycleList el.timeEventHead := by
  induction h with
  | start created tv allocated w =>
      cases allocated with
      | false => exact ⟨rfl, fun te hte => absurd hte List.not_mem_nil⟩
      | true =>
          refine ⟨rfl, ?_⟩
          intro te hte
          obtain rfl := List.mem_singleton.mp hte
          exact ⟨rfl, rfl, rfl, rfl⟩
  | process _ hreturns ih =>
      obtain ⟨hnext, hlist⟩ := ih
      obtain ⟨fuel, events, hloop, rfl⟩ := returns_iff.mp hreturns
      refine ⟨hnext, timeEventLoop_keeps ?_ ?_ hloop (hlist.detectSkew _)⟩
      · exact fun passed te rest tv ms hkeep => hkeep.rearm tv ms
      · exact fun id events w hkeep => hkeep.delete id w

/-! ## What the handler returns -/

theorem lifeCyclePeer_cycleStep (w : World) (p : Peer) :
    (lifeCyclePeer w p).mgr.cycleStep = w.mgr.cycleStep := by
  unfold lifeCyclePeer
  dsimp only
  split
  · split <;> rfl
  · rfl

theorem lifeCycleLoop_cycleStep (w : World) :
    (lifeCycleLoop w).mgr.cycleStep = w.mgr.cycleStep :=
  lifeCycleLoop_keeps (·.mgr.cycleStep) lifeCyclePeer_cycleStep w

theorem lifeCycleHandler_returns (w : World) :
    (lifeCycleHandler w).2 = w.mgr.cycleStep.toInt32.toInt := by
  rw [lifeCycleHandler]
  dsimp only
  rw [lifeCycleLoop_cycleStep]

theorem lifeCycleHandler_cycleStep (w : World) :
    (lifeCycleHandler w).1.mgr.cycleStep = w.mgr.cycleStep := by
  rw [lifeCycleHandler]
  dsimp only
  rw [lifeCycleLoop_cycleStep]

/-! ## One call of `processTimeEvents` -/

/-- The call returns, and `life_cycle_handler` ran at most once in it. -/
def TicksAtMostOnce (clock : Clock) (now : Int) (el : AeTimers World) (w : World) : Prop :=
  ∃ el', Returns clock now el w (el', w, 0) ∨
    Returns clock now el w (el', (lifeCycleHandler w).1, 1)

/-- The first look at the clock finds the time event due. -/
def TickDue (clock : Clock) (now : Int) (el : AeTimers World) : Prop :=
  ∃ te ∈ detectSkew el now, te.Due (clock 0)

/-- During the call the clock, in the milliseconds that `aeGetTime` reads, is not
set back and does not advance by `step`. -/
structure Steady (clock : Clock) (step : Nat) : Prop where
  forward : ∀ i, (clock i).millis ≤ (clock (i + 1)).millis
  short : 0 < step → ∀ i, (clock i).millis < (clock 0).millis + step

theorem Steady.le {clock : Clock} {step : Nat} (h : Steady clock step) (i : Nat) :
    (clock 0).millis ≤ (clock i).millis := by
  induction i with
  | zero => exact Int.le_refl _
  | succ i ih => exact Int.le_trans ih (h.forward i)

/-- A call whose loop leaves `events`, seen from the outside. -/
theorem returns_of_loop {clock : Clock} {now : Int} {el : AeTimers World} {w w' : World}
    {events : List (AeTimeEvent World)} {processed : Nat} (fuel : Nat)
    (h : timeEventLoop clock (el.timeEventNextId - 1) fuel 0 [] (detectSkew el now) w 0 =
      some ⟨events, w', processed⟩) : ∃ el', Returns clock now el w (el', w', processed) :=
  ⟨{ el with lastTime := now, timeEventHead := events },
    returns_iff.mpr ⟨fuel, events, h, rfl⟩⟩

section Call

variable {clock : Clock} {now : Int} {el : AeTimers World} {w : World}

theorem ticks_of_not_due (hel : ServiceTimers el) (hdue : ¬ TickDue clock now el) :
    TicksAtMostOnce clock now el w := by
  obtain ⟨hnext, hlist⟩ := hel.cycle
  have hskew := hlist.detectSkew now
  cases hevents : detectSkew el now with
  | nil =>
      have hloop : timeEventLoop clock (el.timeEventNextId - 1) 1 0 [] (detectSkew el now) w 0 =
          some ⟨[], w, 0⟩ := by
        rw [hevents]
        rfl
      obtain ⟨el', h⟩ := returns_of_loop 1 hloop
      exact ⟨el', .inl h⟩
  | cons te rest =>
      obtain ⟨hsingle, hid, _, _⟩ := hskew te (hevents ▸ List.mem_cons_self)
      have hearly : ¬ te.Due (clock 0) := fun h => hdue ⟨te, by simp [hevents], h⟩
      have hloop : timeEventLoop clock (el.timeEventNextId - 1) 2 0 [] (detectSkew el now) w 0 =
          some ⟨[te], w, 0⟩ := by
        rw [hsingle]
        exact timeEventLoop_early (by omega) hearly 0 0
      obtain ⟨el', h⟩ := returns_of_loop 2 hloop
      exact ⟨el', .inl h⟩

/-- The handler's `AE_NOMORE` ends the list, and with it the call. -/
theorem ticks_of_noMore (hel : ServiceTimers el) {te : AeTimeEvent World}
    (hte : te ∈ detectSkew el now) (hdue : te.Due (clock 0))
    (hmore : (lifeCycleHandler w).2 = aeNoMore) : TicksAtMostOnce clock now el w := by
  obtain ⟨hnext, hlist⟩ := hel.cycle
  obtain ⟨hsingle, hid, hproc, hfinal⟩ := hlist.detectSkew now te hte
  have hloop : timeEventLoop clock (el.timeEventNextId - 1) 2 0 [] (detectSkew el now) w 0 =
      some ⟨[], (lifeCycleHandler w).1, 1⟩ := by
    have hran : te.timeProc te.id w = lifeCycleHandler w := by rw [hproc, lifeCycleProc]
    have hmore' : (te.timeProc te.id w).2 = aeNoMore := by rw [hran, hmore]
    rw [hsingle, timeEventLoop_last (by omega) hdue hmore' hfinal, hran]
  obtain ⟨el', h⟩ := returns_of_loop 2 hloop
  exact ⟨el', .inr h⟩

/-- Set ahead of the next look, the event fires once. -/
theorem ticks_of_ahead (hel : ServiceTimers el) {te : AeTimeEvent World}
    (hte : te ∈ detectSkew el now) (hdue : te.Due (clock 0))
    (hpos : 0 < (lifeCycleHandler w).2)
    (hshort : (clock 2).millis < (clock 1).millis + (lifeCycleHandler w).2) :
    TicksAtMostOnce clock now el w := by
  obtain ⟨hnext, hlist⟩ := hel.cycle
  obtain ⟨hsingle, hid, hproc, _⟩ := hlist.detectSkew now te hte
  have hran : te.timeProc te.id w = lifeCycleHandler w := by rw [hproc, lifeCycleProc]
  have hmore : (te.timeProc te.id w).2 ≠ aeNoMore := by
    rw [hran, aeNoMore]
    omega
  have hloop : timeEventLoop clock (el.timeEventNextId - 1) 3 0 [] (detectSkew el now) w 0 =
      some ⟨[te.rearm (clock 1) (lifeCycleHandler w).2], (lifeCycleHandler w).1, 1⟩ := by
    rw [hsingle, timeEventLoop_fire (by omega) hdue hmore, hran]
    refine timeEventLoop_early ?_ ?_ 0 1
    · rw [AeTimeEvent.rearm_id]
      omega
    · rw [AeTimeEvent.rearm_due_iff te _ _ (by omega)]
      exact Int.not_le.mpr hshort
  obtain ⟨el', h⟩ := returns_of_loop 3 hloop
  exact ⟨el', .inr h⟩

theorem lifeCycleProc_back {w : World} (hback : (lifeCycleHandler w).2 ≤ 0)
    (hmore : (lifeCycleHandler w).2 ≠ aeNoMore) (id : Int) (v : World)
    (hv : v.mgr.cycleStep = w.mgr.cycleStep) :
    (lifeCycleProc id v).1.mgr.cycleStep = w.mgr.cycleStep ∧ (lifeCycleProc id v).2 ≤ 0 ∧
      (lifeCycleProc id v).2 ≠ aeNoMore := by
  have hsame : (lifeCycleProc id v).2 = (lifeCycleHandler w).2 := by
    rw [lifeCycleProc, lifeCycleHandler_returns, lifeCycleHandler_returns, hv]
  rw [hsame]
  refine ⟨?_, hback, hmore⟩
  rw [lifeCycleProc, lifeCycleHandler_cycleStep, hv]

/-- Never set ahead, the event fires again at every look. -/
theorem not_returns_of_back (hel : ServiceTimers el) {te : AeTimeEvent World}
    (hte : te ∈ detectSkew el now) (hdue : te.Due (clock 0))
    (hforward : ∀ i, (clock i).millis ≤ (clock (i + 1)).millis)
    (hback : (lifeCycleHandler w).2 ≤ 0) (hmore : (lifeCycleHandler w).2 ≠ aeNoMore)
    (out : AeTimers World × World × Nat) : ¬ Returns clock now el w out := by
  intro h
  obtain ⟨hnext, hlist⟩ := hel.cycle
  obtain ⟨hsingle, hid, hproc, _⟩ := hlist.detectSkew now te hte
  obtain ⟨fuel, events, hloop, _⟩ := returns_iff.mp h
  -- the step that the handler returns is the one thing its own runs keep
  have hforever := timeEventLoop_forever (fun v : World => v.mgr.cycleStep = w.mgr.cycleStep)
    lifeCycleProc hforward (lifeCycleProc_back hback hmore) fuel hproc
    (show te.id ≤ el.timeEventNextId - 1 by omega) hdue rfl 0
  rw [hsingle, hforever] at hloop
  cases hloop

end Call

/-- A call on a clock that does not move on by `cycle_step` returns after at most
one run of the handler if and only if the event is not due yet, or the handler's
`int` is positive or `AE_NOMORE`. -/
theorem ticksAtMostOnce_iff {clock : Clock} {now : Int} {el : AeTimers World} {w : World}
    (hel : ServiceTimers el) (hclock : Steady clock w.mgr.cycleStep.toNat) :
    TicksAtMostOnce clock now el w ↔
      ¬ TickDue clock now el ∨
        (1 ≤ w.mgr.cycleStep.toNat ∧ w.mgr.cycleStep.toNat ≤ 2147483647) ∨
        w.mgr.cycleStep.toNat = 4294967295 := by
  have hlt := w.mgr.cycleStep.toNat_lt
  have hstep := lifeCycleHandler_returns w
  rw [toInt_toInt32] at hstep
  by_cases hdue : TickDue clock now el
  · obtain ⟨te, hte, hfirst⟩ := hdue
    constructor
    · intro ⟨el', hruns⟩
      by_contra hbad
      simp only [not_or, not_and] at hbad
      obtain ⟨-, hrange, hlast⟩ := hbad
      have hback : (lifeCycleHandler w).2 ≤ 0 := by
        rw [hstep]
        split <;> omega
      have hmore : (lifeCycleHandler w).2 ≠ aeNoMore := by
        rw [hstep, aeNoMore]
        split <;> omega
      rcases hruns with hruns | hruns
      · exact not_returns_of_back hel hte hfirst hclock.forward hback hmore _ hruns
      · exact not_returns_of_back hel hte hfirst hclock.forward hback hmore _ hruns
    · rintro (hearly | hrange | hlast)
      · exact absurd ⟨te, hte, hfirst⟩ hearly
      · have hret : (lifeCycleHandler w).2 = w.mgr.cycleStep.toNat := by
          rw [hstep, if_pos (by omega)]
        refine ticks_of_ahead hel hte hfirst (by omega) ?_
        have hstart := hclock.le 1
        have hend := hclock.short (by omega) 2
        omega
      · refine ticks_of_noMore hel hte hfirst ?_
        rw [hstep, if_neg (by omega), hlast]
        rfl
  · exact ⟨fun _ => .inl hdue, fun _ => ticks_of_not_due hel hdue⟩

/-- A clock that stands still at the second `sec`. -/
def stillClock (sec : Int) : Clock := fun _ => ⟨sec, 0, by decide, by decide⟩

theorem stillClock_steady (sec : Int) (step : Nat) : Steady (stillClock sec) step where
  forward _ := Int.le_refl _
  short hstep i := by
    simp only [stillClock, TimeVal.millis]
    omega

theorem ticksAtMostOnce_first :
    TicksAtMostOnce (stillClock 1700000001) 1700000001
      (startTimers 1700000000 (stillClock 1700000000 0) true firstWorld) firstWorld :=
  (ticksAtMostOnce_iff (.start _ _ _ _) (stillClock_steady _ _)).mpr (.inr (.inl (by decide)))

/-- The group of a file that says `cycle_step = -5`. -/
def negativeStep : CfgGroup where
  int key := if key = "cycle_step" then some (-5) else none
  bool _ := none

/-- The service started with that step. -/
def negativeWorld : World :=
  { firstWorld with
    mgr := { firstWorld.mgr with cycleStep := (readSettings negativeStep).cycleStep } }

theorem startService_negative :
    startService { firstBoot with cycleStep := (readSettings negativeStep).cycleStep } firstKernel
      firstCalls = some negativeWorld := rfl

/-- Once the first tick is due, the call that runs it does not come back, with
the clock standing still. -/
theorem negativeStep_starves :
    negativeWorld.mgr.cycleStep = UInt32.ofInt (-5) ∧
      Steady (stillClock 1705000000) negativeWorld.mgr.cycleStep.toNat ∧
      ServiceTimers (startTimers 1700000000 (stillClock 1700000000 0) true negativeWorld) ∧
      ¬ TicksAtMostOnce (stillClock 1705000000) 1705000000
        (startTimers 1700000000 (stillClock 1700000000 0) true negativeWorld) negativeWorld := by
  have hstep : negativeWorld.mgr.cycleStep = UInt32.ofInt (-5) := by decide
  refine ⟨hstep, stillClock_steady _ _, .start _ _ _ _, ?_⟩
  have hret : (lifeCycleHandler negativeWorld).2 = -5 := by
    rw [lifeCycleHandler_returns, hstep]
    decide
  intro ⟨el', hruns⟩
  have hnever : ∀ out, ¬ Returns (stillClock 1705000000) 1705000000
      (startTimers 1700000000 (stillClock 1700000000 0) true negativeWorld) negativeWorld out :=
    not_returns_of_back (.start _ _ _ _) (List.mem_singleton_self _) (by decide)
      (fun _ => Int.le_refl _) (by rw [hret]; decide) (by rw [hret]; decide)
  rcases hruns with hruns | hruns
  · exact hnever _ hruns
  · exact hnever _ hruns

end Tflib.Nac
