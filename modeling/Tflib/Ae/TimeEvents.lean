import Mathlib.Order.Basic

/-! # Time events of the `ae` event loop

The timer list of `ae.c`, generic in the state that the callbacks work on. The
clock is a parameter: the times that successive calls of `gettimeofday` give.
`processTimeEvents` goes back to the head of the list after every callback, so
its loop runs with fuel and returning is something to prove.
-/

namespace Tflib.Ae

universe u

/-- `struct timeval`. -/
structure TimeVal where
  tvSec : Int
  tvUsec : Int
  usec_nonneg : 0 ≤ tvUsec
  usec_lt : tvUsec < 1000000

/-- Entry `n` is what the `n`-th call of `gettimeofday` stores. -/
abbrev Clock := Nat → TimeVal

/-- The time in whole milliseconds, the resolution of `aeGetTime`. -/
def TimeVal.millis (tv : TimeVal) : Int := tv.tvSec * 1000 + tv.tvUsec / 1000

/-- `aeTimeEvent`; a callback holds its client data. -/
structure AeTimeEvent (σ : Type u) where
  id : Int
  whenSec : Int
  whenMs : Int
  /-- the state it leaves and the `int` it returns -/
  timeProc : Int → σ → σ × Int
  finalizerProc : Option (σ → σ)

/-- The part of `aeEventLoop` that time events use. -/
structure AeTimers (σ : Type u) where
  lastTime : Int
  timeEventNextId : Int
  timeEventHead : List (AeTimeEvent σ)

variable {σ : Type u}

/-- `AE_NOMORE` -/
def aeNoMore : Int := -1

/-- Seconds and milliseconds. -/
def aeGetTime (tv : TimeVal) : Int × Int := (tv.tvSec, tv.tvUsec.tdiv 1000)

/-- `*sec` and `*ms`; the C operators round towards zero. -/
def aeAddMillisecondsToNow (tv : TimeVal) (milliseconds : Int) : Int × Int :=
  let (curSec, curMs) := aeGetTime tv
  let whenSec := curSec + milliseconds.tdiv 1000
  let whenMs := curMs + milliseconds.tmod 1000
  if whenMs ≥ 1000 then (whenSec + 1, whenMs - 1000) else (whenSec, whenMs)

/-- The two assignments through `&te->when_sec` and `&te->when_ms`. -/
def AeTimeEvent.rearm (te : AeTimeEvent σ) (tv : TimeVal) (milliseconds : Int) : AeTimeEvent σ :=
  let (sec, ms) := aeAddMillisecondsToNow tv milliseconds
  { te with whenSec := sec, whenMs := ms }

/-- The timers of a new loop; `now` is what `time(NULL)` answers. -/
def aeCreateTimers (now : Int) : AeTimers σ := ⟨now, 0, []⟩

/-- `aeCreateTimeEvent`; `allocated` says whether `tf_alloc` succeeds, and
`none` is `AE_ERR`. -/
def aeCreateTimeEvent (el : AeTimers σ) (tv : TimeVal) (milliseconds : Int)
    (proc : Int → σ → σ × Int) (finalizerProc : Option (σ → σ)) (allocated : Bool) :
    AeTimers σ × Option Int :=
  let id := el.timeEventNextId
  let el := { el with timeEventNextId := id + 1 }
  if !allocated then (el, none)
  else
    let te : AeTimeEvent σ :=
      { id := id, whenSec := 0, whenMs := 0, timeProc := proc, finalizerProc := finalizerProc }
    ({ el with timeEventHead := te.rearm tv milliseconds :: el.timeEventHead }, some id)

/-- `aeDeleteTimeEvent`: what is left of the list, and the state after the
finalizer. -/
def aeDeleteTimeEvent (id : Int) : List (AeTimeEvent σ) → σ → List (AeTimeEvent σ) × σ
  | [], s => ([], s)
  | te :: rest, s =>
      if te.id = id then (rest, match te.finalizerProc with | none => s | some f => f s)
      else
        let (rest, s) := aeDeleteTimeEvent id rest s
        (te :: rest, s)

/-- The test of `processTimeEvents` at the time `tv`. -/
def AeTimeEvent.Due (te : AeTimeEvent σ) (tv : TimeVal) : Prop :=
  let (nowSec, nowMs) := aeGetTime tv
  nowSec > te.whenSec ∨ nowSec = te.whenSec ∧ nowMs ≥ te.whenMs

instance (te : AeTimeEvent σ) (tv : TimeVal) : Decidable (te.Due tv) :=
  inferInstanceAs (Decidable (_ ∨ _ ∧ _))

/-- What the loop leaves: the list, the callbacks' state and `processed`. -/
structure Processed (σ : Type u) where
  events : List (AeTimeEvent σ)
  state : σ
  processed : Nat

/-- The `while` loop of `processTimeEvents`. The pointer `te` stands between the
events already passed and those still to come; `n` counts the calls of
`gettimeofday`. -/
def timeEventLoop (clock : Clock) (maxId : Int) : Nat → Nat → List (AeTimeEvent σ) →
    List (AeTimeEvent σ) → σ → Nat → Option (Processed σ)
  | 0, _, _, _, _, _ => none
  | _ + 1, _, passed, [], s, processed => some ⟨passed, s, processed⟩
  | fuel + 1, n, passed, te :: rest, s, processed =>
      if te.id > maxId then timeEventLoop clock maxId fuel n (passed ++ [te]) rest s processed
      else if te.Due (clock n) then
        let (s, retval) := te.timeProc te.id s
        if retval ≠ aeNoMore then
          let te := te.rearm (clock (n + 1)) retval
          timeEventLoop clock maxId fuel (n + 2) [] (passed ++ te :: rest) s (processed + 1)
        else
          let (events, s) := aeDeleteTimeEvent te.id (passed ++ te :: rest) s
          timeEventLoop clock maxId fuel (n + 1) [] events s (processed + 1)
      else timeEventLoop clock maxId fuel (n + 1) (passed ++ [te]) rest s processed

/-- What the check for a clock set back does to the list. -/
def detectSkew (el : AeTimers σ) (now : Int) : List (AeTimeEvent σ) :=
  if now < el.lastTime then el.timeEventHead.map fun te => { te with whenSec := 0 }
  else el.timeEventHead

/-- `processTimeEvents`; `now` is what `time(NULL)` answers, and the number is
its result. -/
def processTimeEvents (clock : Clock) (now : Int) (fuel : Nat) (el : AeTimers σ) (s : σ) :
    Option (AeTimers σ × σ × Nat) := do
  let out ← timeEventLoop clock (el.timeEventNextId - 1) fuel 0 [] (detectSkew el now) s 0
  return ({ el with lastTime := now, timeEventHead := out.events }, out.state, out.processed)

/-- Some number of rounds is enough for the call to return `out`. -/
def Returns (clock : Clock) (now : Int) (el : AeTimers σ) (s : σ)
    (out : AeTimers σ × σ × Nat) : Prop :=
  ∃ fuel, processTimeEvents clock now fuel el s = some out

/-! ## Due times -/

@[simp] theorem AeTimeEvent.rearm_id (te : AeTimeEvent σ) (tv : TimeVal) (ms : Int) :
    (te.rearm tv ms).id = te.id := rfl

theorem aeGetTime_eq (tv : TimeVal) : aeGetTime tv = (tv.tvSec, tv.tvUsec / 1000) := by
  rw [aeGetTime, Int.tdiv_eq_ediv_of_nonneg tv.usec_nonneg]

/-- A timer set `milliseconds` ahead is due once the clock has moved on that far. -/
theorem AeTimeEvent.rearm_due_iff (te : AeTimeEvent σ) (tv tv' : TimeVal) {milliseconds : Int}
    (h : 0 ≤ milliseconds) :
    (te.rearm tv milliseconds).Due tv' ↔ tv.millis + milliseconds ≤ tv'.millis := by
  have hlow := tv.usec_nonneg
  have hhigh := tv.usec_lt
  have hlow' := tv'.usec_nonneg
  have hhigh' := tv'.usec_lt
  simp only [AeTimeEvent.Due, AeTimeEvent.rearm, aeAddMillisecondsToNow, aeGetTime_eq,
    Int.tdiv_eq_ediv_of_nonneg h, Int.tmod_eq_emod_of_nonneg h, TimeVal.millis]
  split <;> dsimp only <;> omega

/-- A timer set back is due at once. -/
theorem AeTimeEvent.rearm_due_of_nonpos (te : AeTimeEvent σ) {tv tv' : TimeVal}
    {milliseconds : Int} (h : milliseconds ≤ 0) (hclock : tv.millis ≤ tv'.millis) :
    (te.rearm tv milliseconds).Due tv' := by
  have hlow := tv.usec_nonneg
  have hhigh := tv.usec_lt
  have hlow' := tv'.usec_nonneg
  have hhigh' := tv'.usec_lt
  obtain ⟨back, rfl⟩ : ∃ back, milliseconds = -back := ⟨-milliseconds, by omega⟩
  have hback : 0 ≤ back := by omega
  simp only [TimeVal.millis] at hclock
  simp only [AeTimeEvent.Due, AeTimeEvent.rearm, aeAddMillisecondsToNow, aeGetTime_eq, Int.neg_tdiv,
    Int.neg_tmod, Int.tdiv_eq_ediv_of_nonneg hback, Int.tmod_eq_emod_of_nonneg hback]
  rw [if_neg (by omega)]
  dsimp only
  omega

/-! ## The loop -/

/-- More fuel than needed changes nothing. -/
theorem timeEventLoop_mono {clock : Clock} {maxId : Int} {fuel more n : Nat}
    {passed rest : List (AeTimeEvent σ)} {s : σ} {processed : Nat} {out : Processed σ}
    (h : timeEventLoop clock maxId fuel n passed rest s processed = some out)
    (hle : fuel ≤ more) : timeEventLoop clock maxId more n passed rest s processed = some out := by
  fun_induction timeEventLoop clock maxId fuel n passed rest s processed generalizing more with
  | case1 => contradiction
  | case2 =>
      obtain ⟨m, rfl⟩ : ∃ m, more = m + 1 := ⟨more - 1, by omega⟩
      exact h
  | case3 fuel n passed te rest s processed hid ih =>
      obtain ⟨m, rfl⟩ : ∃ m, more = m + 1 := ⟨more - 1, by omega⟩
      rw [timeEventLoop, if_pos hid]
      exact ih h (by omega)
  | case4 fuel n passed te rest s processed hid hdue s' retval hproc hmore te' =>
      rename_i ih
      obtain ⟨m, rfl⟩ : ∃ m, more = m + 1 := ⟨more - 1, by omega⟩
      rw [timeEventLoop, if_neg hid, if_pos hdue, hproc]
      dsimp only
      rw [if_pos hmore]
      exact ih h (by omega)
  | case5 fuel n passed te rest s processed hid hdue s' retval hproc hmore events s'' hdel ih =>
      obtain ⟨m, rfl⟩ : ∃ m, more = m + 1 := ⟨more - 1, by omega⟩
      rw [timeEventLoop, if_neg hid, if_pos hdue, hproc]
      dsimp only
      rw [if_neg hmore, hdel]
      exact ih h (by omega)
  | case6 fuel n passed te rest s processed hid hdue ih =>
      obtain ⟨m, rfl⟩ : ∃ m, more = m + 1 := ⟨more - 1, by omega⟩
      rw [timeEventLoop, if_neg hid, if_neg hdue]
      exact ih h (by omega)

/-- A call returns what its loop leaves. -/
theorem returns_iff {clock : Clock} {now : Int} {el : AeTimers σ} {s : σ}
    {out : AeTimers σ × σ × Nat} :
    Returns clock now el s out ↔ ∃ fuel events,
      timeEventLoop clock (el.timeEventNextId - 1) fuel 0 [] (detectSkew el now) s 0 =
          some ⟨events, out.2.1, out.2.2⟩ ∧
        out.1 = { el with lastTime := now, timeEventHead := events } := by
  constructor
  · intro ⟨fuel, h⟩
    refine ⟨fuel, ?_⟩
    unfold processTimeEvents at h
    cases hloop : timeEventLoop clock (el.timeEventNextId - 1) fuel 0 [] (detectSkew el now) s 0 with
    | none => simp [hloop] at h
    | some left =>
        obtain ⟨events, s', processed⟩ := left
        rw [hloop] at h
        cases h
        exact ⟨events, rfl, rfl⟩
  · intro ⟨fuel, events, hloop, hout⟩
    refine ⟨fuel, ?_⟩
    rw [processTimeEvents, hloop]
    exact congrArg some (Prod.ext hout.symm rfl)

theorem Returns.unique {clock : Clock} {now : Int} {el : AeTimers σ} {s : σ}
    {out out' : AeTimers σ × σ × Nat} (h : Returns clock now el s out)
    (h' : Returns clock now el s out') : out = out' := by
  obtain ⟨fuel, events, hloop, hel⟩ := returns_iff.mp h
  obtain ⟨fuel', events', hloop', hel'⟩ := returns_iff.mp h'
  have hsame := (timeEventLoop_mono hloop (Nat.le_max_left fuel fuel')).symm.trans
    (timeEventLoop_mono hloop' (Nat.le_max_right fuel fuel'))
  simp only [Option.some.injEq, Processed.mk.injEq] at hsame
  obtain ⟨rfl, hstate, hcount⟩ := hsame
  exact Prod.ext (hel.trans hel'.symm) (Prod.ext hstate hcount)

/-- What rearming and deleting keep, the loop keeps. -/
theorem timeEventLoop_keeps {P : List (AeTimeEvent σ) → Prop}
    (hrearm : ∀ passed te rest tv ms, P (passed ++ te :: rest) →
      P (passed ++ AeTimeEvent.rearm te tv ms :: rest))
    (hdelete : ∀ id events s, P events → P (aeDeleteTimeEvent id events s).1)
    {clock : Clock} {maxId : Int} {fuel n : Nat} {passed rest : List (AeTimeEvent σ)} {s : σ}
    {processed : Nat} {out : Processed σ}
    (h : timeEventLoop clock maxId fuel n passed rest s processed = some out)
    (hP : P (passed ++ rest)) : P out.events := by
  fun_induction timeEventLoop clock maxId fuel n passed rest s processed with
  | case1 => contradiction
  | case2 =>
      cases h
      simpa using hP
  | case3 fuel n passed te rest s processed hid ih => exact ih h (by simpa using hP)
  | case4 fuel n passed te rest s processed hid hdue s' retval hproc hmore te' =>
      rename_i ih
      exact ih h (hrearm _ _ _ _ _ hP)
  | case5 fuel n passed te rest s processed hid hdue s' retval hproc hmore events s'' hdel ih =>
      refine ih h ?_
      have := hdelete te.id _ s' hP
      rwa [hdel] at this
  | case6 fuel n passed te rest s processed hid hdue ih => exact ih h (by simpa using hP)

/-! ## The loop on one timer -/

section Single

variable {clock : Clock} {maxId : Int} {te : AeTimeEvent σ} {n : Nat} {s : σ}

@[simp] theorem timeEventLoop_nil (clock : Clock) (maxId : Int) (fuel n : Nat)
    (passed : List (AeTimeEvent σ)) (s : σ) (processed : Nat) :
    timeEventLoop clock maxId (fuel + 1) n passed [] s processed = some ⟨passed, s, processed⟩ := rfl

theorem timeEventLoop_early (hid : te.id ≤ maxId) (hdue : ¬ te.Due (clock n)) (fuel processed : Nat) :
    timeEventLoop clock maxId (fuel + 2) n [] [te] s processed = some ⟨[te], s, processed⟩ := by
  rw [timeEventLoop, if_neg (by omega), if_neg hdue]
  rfl

theorem timeEventLoop_fire (hid : te.id ≤ maxId) (hdue : te.Due (clock n))
    (hmore : (te.timeProc te.id s).2 ≠ aeNoMore) (fuel processed : Nat) :
    timeEventLoop clock maxId (fuel + 1) n [] [te] s processed =
      timeEventLoop clock maxId fuel (n + 2) []
        [te.rearm (clock (n + 1)) (te.timeProc te.id s).2] (te.timeProc te.id s).1
        (processed + 1) := by
  rw [timeEventLoop, if_neg (by omega), if_pos hdue]
  dsimp only
  rw [if_pos hmore]
  rfl

theorem timeEventLoop_last (hid : te.id ≤ maxId) (hdue : te.Due (clock n))
    (hmore : (te.timeProc te.id s).2 = aeNoMore) (hfinal : te.finalizerProc = none)
    (fuel processed : Nat) :
    timeEventLoop clock maxId (fuel + 2) n [] [te] s processed =
      some ⟨[], (te.timeProc te.id s).1, processed + 1⟩ := by
  rw [timeEventLoop, if_neg (by omega), if_pos hdue]
  dsimp only
  rw [if_neg (by simpa using hmore)]
  simp [aeDeleteTimeEvent, hfinal]

/-- A callback that never sets its timer ahead keeps the loop busy for good. -/
theorem timeEventLoop_forever (Inv : σ → Prop) (proc : Int → σ → σ × Int)
    (hforward : ∀ i, (clock i).millis ≤ (clock (i + 1)).millis)
    (hproc : ∀ id s, Inv s → Inv (proc id s).1 ∧ (proc id s).2 ≤ 0 ∧ (proc id s).2 ≠ aeNoMore)
    (fuel : Nat) (htimer : te.timeProc = proc) (hid : te.id ≤ maxId) (hdue : te.Due (clock n))
    (hinv : Inv s) (processed : Nat) :
    timeEventLoop clock maxId fuel n [] [te] s processed = none := by
  induction fuel generalizing te n s processed with
  | zero => rfl
  | succ fuel ih =>
      obtain ⟨hinv', hback, hmore⟩ := hproc te.id s hinv
      rw [← htimer] at hinv' hback hmore
      rw [timeEventLoop_fire hid hdue hmore]
      have hdue' := AeTimeEvent.rearm_due_of_nonpos te hback (hforward (n + 1))
      refine ih ?_ ?_ hdue' hinv' _
      · exact htimer
      · exact hid

end Single

end Tflib.Ae
