import Tflib.Ae.Backend
import Tflib.Ae.TimerList

/-! # One turn of the event loop

`aeProcessEvents`: the timeout until the nearest timer, the poll, the callbacks of
what has fired and then the timers. The callbacks are those of a program whose
state holds the loop, so a callback can change what the rest of its batch finds.
-/

namespace Tflib.Ae

/-! ## The timeout of the poll -/

section Timeout

variable {σ : Type}

/-- The comparison in `aeSearchNearestTimer`. -/
def AeTimeEvent.Before (te nearest : AeTimeEvent σ) : Prop :=
  te.whenSec < nearest.whenSec ∨ te.whenSec = nearest.whenSec ∧ te.whenMs < nearest.whenMs

instance (te nearest : AeTimeEvent σ) : Decidable (te.Before nearest) :=
  inferInstanceAs (Decidable (_ ∨ _ ∧ _))

/-- The loop of `aeSearchNearestTimer`, with the nearest timer so far. -/
def nearestFrom (nearest : Option (AeTimeEvent σ)) : List (AeTimeEvent σ) → Option (AeTimeEvent σ)
  | [] => nearest
  | te :: rest =>
      match nearest with
      | none => nearestFrom (some te) rest
      | some found => nearestFrom (some (if te.Before found then te else found)) rest

def aeSearchNearestTimer (events : List (AeTimeEvent σ)) : Option (AeTimeEvent σ) :=
  nearestFrom none events

/-- The `tv_sec` and `tv_usec` until `shortest` is due, at the time `now`. -/
def timeUntil (shortest : AeTimeEvent σ) (now : TimeVal) : Int × Int :=
  let (nowSec, nowMs) := aeGetTime now
  let sec := shortest.whenSec - nowSec
  let (sec, usec) :=
    if shortest.whenMs < nowMs then (sec - 1, (shortest.whenMs + 1000 - nowMs) * 1000)
    else (sec, (shortest.whenMs - nowMs) * 1000)
  (if sec < 0 then 0 else sec, if usec < 0 then 0 else usec)

/-- What `ae_epoll.c` hands to `epoll_wait`. -/
def pollMillis : Option (Int × Int) → Int
  | some (sec, usec) => sec * 1000 + usec.tdiv 1000
  | none => -1

theorem AeTimeEvent.Before.dueMillis_le {te found : AeTimeEvent σ} (h : te.Before found)
    (hte : te.whenMs < 1000) : te.dueMillis ≤ found.dueMillis := by
  simp only [AeTimeEvent.Before] at h
  simp only [AeTimeEvent.dueMillis]
  omega

theorem AeTimeEvent.dueMillis_le_of_not_before {te found : AeTimeEvent σ} (h : ¬ te.Before found)
    (hfound : found.whenMs < 1000) : found.dueMillis ≤ te.dueMillis := by
  simp only [AeTimeEvent.Before] at h
  simp only [AeTimeEvent.dueMillis]
  omega

/-- The search ends on a timer that is due no later than any other. -/
theorem nearestFrom_some (events : List (AeTimeEvent σ)) {found : AeTimeEvent σ}
    (hfound : found.whenMs < 1000) (h : ∀ te ∈ events, te.whenMs < 1000) :
    ∃ te, nearestFrom (some found) events = some te ∧ te ∈ found :: events ∧
      ∀ e ∈ found :: events, te.dueMillis ≤ e.dueMillis := by
  induction events generalizing found with
  | nil => exact ⟨found, rfl, List.mem_cons_self, by simp⟩
  | cons next rest ih =>
      have hnext := h next List.mem_cons_self
      have hrest : ∀ te ∈ rest, te.whenMs < 1000 := fun te hte => h te (List.mem_cons_of_mem _ hte)
      by_cases hbefore : next.Before found
      · obtain ⟨te, hte, hmem, hmin⟩ := ih hnext hrest
        refine ⟨te, by rw [nearestFrom, if_pos hbefore]; exact hte,
          List.mem_cons_of_mem _ hmem, fun e he => ?_⟩
        rcases List.mem_cons.mp he with rfl | he
        · exact Int.le_trans (hmin next List.mem_cons_self) (hbefore.dueMillis_le hnext)
        · exact hmin e he
      · obtain ⟨te, hte, hmem, hmin⟩ := ih hfound hrest
        refine ⟨te, by rw [nearestFrom, if_neg hbefore]; exact hte, ?_, fun e he => ?_⟩
        · simp only [List.mem_cons] at hmem ⊢
          exact hmem.imp id .inr
        · have hle := AeTimeEvent.dueMillis_le_of_not_before hbefore hfound
          simp only [List.mem_cons] at he
          rcases he with rfl | rfl | he
          · exact hmin e List.mem_cons_self
          · exact Int.le_trans (hmin found List.mem_cons_self) hle
          · exact hmin e (List.mem_cons_of_mem _ he)

theorem aeSearchNearestTimer_some {events : List (AeTimeEvent σ)} (hne : events ≠ [])
    (h : ∀ te ∈ events, te.whenMs < 1000) :
    ∃ te, aeSearchNearestTimer events = some te ∧ te ∈ events ∧
      ∀ e ∈ events, te.dueMillis ≤ e.dueMillis := by
  cases events with
  | nil => exact absurd rfl hne
  | cons first rest =>
      exact nearestFrom_some rest (h first List.mem_cons_self)
        fun te hte => h te (List.mem_cons_of_mem _ hte)

/-- What is left of a second that has been missed is slept all the same. -/
theorem pollMillis_of_due {te : AeTimeEvent σ} {now : TimeVal} (hrange : te.whenMs < 1000)
    (h : te.dueMillis ≤ now.millis) :
    0 ≤ pollMillis (some (timeUntil te now)) ∧ pollMillis (some (timeUntil te now)) < 1000 := by
  have hlow := now.usec_nonneg
  have hhigh := now.usec_lt
  simp only [AeTimeEvent.dueMillis, TimeVal.millis] at h
  simp only [pollMillis, timeUntil, aeGetTime_eq]
  repeat' split
  all_goals rw [Int.tdiv_eq_ediv_of_nonneg (by omega)]; omega

theorem pollMillis_of_early {te : AeTimeEvent σ} {now : TimeVal} (hrange : te.whenMs < 1000)
    (h : now.millis < te.dueMillis) :
    0 ≤ pollMillis (some (timeUntil te now)) ∧
      now.millis + pollMillis (some (timeUntil te now)) ≤ te.dueMillis ∧
      (0 ≤ te.whenMs → now.millis + pollMillis (some (timeUntil te now)) = te.dueMillis) := by
  have hlow := now.usec_nonneg
  have hhigh := now.usec_lt
  simp only [AeTimeEvent.dueMillis, TimeVal.millis] at h ⊢
  simp only [pollMillis, timeUntil, aeGetTime_eq]
  repeat' split
  all_goals rw [Int.tdiv_eq_ediv_of_nonneg (by omega)]; omega

end Timeout

/-! ## Flags -/

def aeFileEvents : BitVec 3 := 1
def aeTimeEvents : BitVec 3 := 2
def aeAllEvents : BitVec 3 := aeFileEvents ||| aeTimeEvents
def aeDontWait : BitVec 3 := 4

/-- The `tvp` that `aeProcessEvents` polls with; `none` is `NULL`. -/
def pollTimeout {σ : Type} (flags : BitVec 3) (events : List (AeTimeEvent σ)) (now : TimeVal) :
    Option (Int × Int) :=
  let shortest :=
    if flags &&& aeTimeEvents ≠ 0 ∧ flags &&& aeDontWait = 0 then aeSearchNearestTimer events
    else none
  match shortest with
  | some te => some (timeUntil te now)
  | none => if flags &&& aeDontWait ≠ 0 then some (0, 0) else none

section Timeout

variable {σ : Type}

theorem pollTimeout_all {events : List (AeTimeEvent σ)} {te : AeTimeEvent σ}
    (h : aeSearchNearestTimer events = some te) (now : TimeVal) :
    pollTimeout aeAllEvents events now = some (timeUntil te now) := by
  have hwait : aeAllEvents &&& aeTimeEvents ≠ 0 ∧ aeAllEvents &&& aeDontWait = 0 := by decide
  simp only [pollTimeout]
  rw [if_pos hwait, h]

end Timeout

/-! ## The callbacks of one batch -/

/-- A program that runs on an event loop. `ι` is what the system calls of one callback
answer, `ρ` what those of a poll do. -/
structure Program (τ π κ ι ρ : Type) where
  loop : τ → AeEventLoop π κ
  call : π → Nat → Option κ → Mask → ι → τ → τ
  poll : τ → ρ → Option (τ × List AeFiredEvent)

namespace Program

variable {τ π κ ι ρ : Type} [DecidableEq π]

/-- A call through one of the two pointers of an entry; `none` is a call through
`NULL`. -/
def callProc (P : Program τ π κ ι ρ) (proc : Option π) (fd : Nat) (clientData : Option κ)
    (mask : Mask) (io : ι) (s : τ) : Option τ :=
  proc.map fun proc => P.call proc fd clientData mask io s

/-- The call that a readable descriptor gets in the loop over `fired`. -/
def callReadable (P : Program τ π κ ι ρ) (io : ι) (s : τ) (f : AeFiredEvent) : Option τ :=
  let fe := (P.loop s).events f.fd
  if fe.mask &&& f.mask &&& aeReadable ≠ 0 then
    P.callProc fe.rfileProc f.fd fe.clientData f.mask io s
  else some s

/-- The call that a writable one gets, unless it was the same call. The entry is read
again, which the first callback may have changed. -/
def callWritable (P : Program τ π κ ι ρ) (io : ι) (rfired : Bool) (s : τ) (f : AeFiredEvent) :
    Option τ :=
  let fe := (P.loop s).events f.fd
  if fe.mask &&& f.mask &&& aeWritable ≠ 0 then
    if !rfired || fe.wfileProc ≠ fe.rfileProc then
      P.callProc fe.wfileProc f.fd fe.clientData f.mask io s
    else some s
  else some s

/-- The body of the loop over `fired`. -/
def dispatchFired (P : Program τ π κ ι ρ) (io : ι × ι) (s : τ) (f : AeFiredEvent) : Option τ := do
  let rfired := ((P.loop s).events f.fd).mask &&& f.mask &&& aeReadable ≠ 0
  let s ← P.callReadable io.1 s f
  P.callWritable io.2 rfired s f

/-- Nothing is registered for writing once the first callback has run. -/
theorem dispatchFired_eq {P : Program τ π κ ι ρ} {io : ι × ι} {s s' : τ} {f : AeFiredEvent}
    (hfirst : P.callReadable io.1 s f = some s')
    (hlast : ((P.loop s').events f.fd).mask &&& f.mask &&& aeWritable = 0) :
    P.dispatchFired io s f = some s' := by
  rw [dispatchFired, hfirst, Option.bind_eq_bind, Option.bind_some, callWritable,
    if_neg (not_not.mpr hlast)]

/-- The loop over `fired`, from entry `j` on. -/
def dispatchFrom (P : Program τ π κ ι ρ) (io : Nat → ι × ι) (s : τ) (j : Nat) :
    List AeFiredEvent → Option τ
  | [] => some s
  | f :: rest => do
      let s ← P.dispatchFired (io j) s f
      P.dispatchFrom io s (j + 1) rest

/-- What the environment answers during one call of `aeProcessEvents`. -/
structure Turn (ι ρ : Type) where
  poll : ρ
  io : Nat → ι × ι
  clock : Clock
  now : Int

/-- `aeProcessEvents`, and the number it returns. -/
def aeProcessEvents (P : Program τ π κ ι ρ) (flags : BitVec 3) (fuel : Nat) (turn : Turn ι ρ)
    (timers : AeTimers τ) (s : τ) : Option (AeTimers τ × τ × Nat) :=
  if flags &&& aeTimeEvents = 0 ∧ flags &&& aeFileEvents = 0 then some (timers, s, 0)
  else do
    let (s, numevents) ←
      if (P.loop s).maxfd ≠ -1 ∨ flags &&& aeTimeEvents ≠ 0 ∧ flags &&& aeDontWait = 0 then do
        let (s, fired) ← P.poll s turn.poll
        let s ← P.dispatchFrom turn.io s 0 fired
        some (s, fired.length)
      else some (s, 0)
    if flags &&& aeTimeEvents ≠ 0 then do
      let (timers, s, processed) ← processTimeEvents turn.clock turn.now fuel timers s
      some (timers, s, numevents + processed)
    else some (timers, s, numevents)

/-- With all events asked for, a turn polls, runs its batch and then the timers. -/
theorem aeProcessEvents_all {P : Program τ π κ ι ρ} {fuel : Nat} {turn : Turn ι ρ}
    {timers : AeTimers τ} {s s₁ s₂ : τ} {fired : List AeFiredEvent}
    (hpoll : P.poll s turn.poll = some (s₁, fired))
    (hbatch : P.dispatchFrom turn.io s₁ 0 fired = some s₂) :
    P.aeProcessEvents aeAllEvents fuel turn timers s =
      (processTimeEvents turn.clock turn.now fuel timers s₂).map
        fun out => (out.1, out.2.1, fired.length + out.2.2) := by
  have htime : aeAllEvents &&& aeTimeEvents ≠ 0 := by decide
  have hwait : aeAllEvents &&& aeDontWait = 0 := by decide
  unfold aeProcessEvents
  rw [if_neg (fun h => htime h.1), if_pos (.inr ⟨htime, hwait⟩), hpoll]
  simp only [Option.bind_eq_bind, Option.bind_some, hbatch]
  rw [if_pos htime]
  cases processTimeEvents turn.clock turn.now fuel timers s₂ <;> rfl

end Program

end Tflib.Ae
