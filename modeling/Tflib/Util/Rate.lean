import Mathlib.Algebra.Ring.Nat
import Tflib.Core.Machine

/-! # The rate limiter of `tf_util.c`

A limiter counts events in a window of `seconds`. When the count comes to
`total`, the limiter goes bad for `wait` seconds. The field `rate` is a
statistic that nothing reads and is left out.
-/

namespace Tflib.Util

open Tflib.Core

/-- `TF_RATE_ST`; the two times are `time_t`, and 0 means none. -/
structure Rate where
  total : UInt32
  count : UInt32
  seconds : UInt32
  wait : UInt32
  time : Int
  bad : Int
  deriving DecidableEq, Repr

def tfRateReset (rt : Rate) : Rate := { rt with time := 0, count := 0, bad := 0 }

/-- `now - rt->time >= rt->seconds` -/
def Rate.expired (rt : Rate) (now : Int) : Bool := (rt.seconds.toNat : Int) ≤ now - rt.time

def tfRateAdd (rt : Rate) (now : Int) (count : UInt32) : Rate :=
  let rt := if rt.expired now then tfRateReset rt else rt
  let rt := { rt with count := rt.count + count }
  let rt := if rt.time = 0 then { rt with time := now } else rt
  if rt.total ≤ rt.count then { rt with bad := now } else rt

/-- `tf_rate_left`, an `int`. -/
def tfRateLeft (rt : Rate) : Int32 := if rt.bad ≠ 0 then 0 else (rt.total - rt.count).toInt32

def tfRateCheck (rt : Rate) (now : Int) : Rate × Bool :=
  if rt.time = 0 then (rt, true)
  else if rt.count < rt.total then (rt, true)
  else if rt.bad ≠ 0 then
    if (rt.wait.toNat : Int) ≤ now - rt.bad then (tfRateReset rt, true) else (rt, false)
  else (rt, true)

/-! ## Histories -/

/-- A limiter with its history: the clock, the adds so far, and the exact number of events in the
current window. -/
structure Limiter where
  rt : Rate
  now : Int
  adds : List (Int × UInt32)
  events : Nat

def Limiter.start (total seconds wait : UInt32) : Limiter :=
  ⟨⟨total, 0, seconds, wait, 0, 0⟩, 0, [], 0⟩

inductive RateEvent
  | add (now : Int) (count : UInt32)
  | check (now : Int)

def RateEvent.now : RateEvent → Int
  | .add now _ => now
  | .check now => now

def Limiter.step (s : Limiter) : RateEvent → Limiter
  | .add now count =>
      { rt := tfRateAdd s.rt now count
        now := now
        adds := s.adds ++ [(now, count)]
        events := (if s.rt.expired now then 0 else s.events) + count.toNat }
  | .check now =>
      let rt := (tfRateCheck s.rt now).1
      { s with rt := rt, now := now, events := if rt.time = 0 then 0 else s.events }

/-- The clock is positive and never goes back. -/
def Limiter.Admits (s : Limiter) (e : RateEvent) : Prop := 0 < e.now ∧ s.now ≤ e.now

instance (s : Limiter) (e : RateEvent) : Decidable (s.Admits e) :=
  inferInstanceAs (Decidable (_ ∧ _))

def limiter : Machine Limiter RateEvent where
  step := Limiter.step
  admits := Limiter.Admits

/-- The events of the adds at times `a` to `b`. -/
def eventsIn (adds : List (Int × UInt32)) (a b : Int) : Nat :=
  ((adds.filter fun x => a ≤ x.1 ∧ x.1 ≤ b).map fun x => x.2.toNat).sum

theorem eventsIn_append (xs ys : List (Int × UInt32)) (a b : Int) :
    eventsIn (xs ++ ys) a b = eventsIn xs a b + eventsIn ys a b := by
  simp [eventsIn]

theorem eventsIn_singleton (now : Int) (count : UInt32) {a : Int} (h : a ≤ now) :
    eventsIn [(now, count)] a now = count.toNat := by
  simp [eventsIn, h]

theorem eventsIn_mono {adds : List (Int × UInt32)} {a b c : Int} (h : b ≤ c) :
    eventsIn adds a b ≤ eventsIn adds a c := by
  induction adds with
  | nil => simp [eventsIn]
  | cons x adds ih =>
      have hx : eventsIn [x] a b ≤ eventsIn [x] a c := by
        simp only [eventsIn, List.filter_cons, List.filter_nil]
        by_cases hb : a ≤ x.1 ∧ x.1 ≤ b
        · have hc : a ≤ x.1 ∧ x.1 ≤ c := ⟨hb.1, Int.le_trans hb.2 h⟩
          simp [hb, hc]
        · simp [hb]
      have hsplit := fun b => eventsIn_append [x] adds a b
      simp only [List.singleton_append] at hsplit
      rw [hsplit, hsplit]
      exact Nat.add_le_add hx ih

/-! ## One call -/

/-- The count of the window that an add at `now` falls into, before the add. -/
def Rate.countAt (rt : Rate) (now : Int) : UInt32 := if rt.expired now then 0 else rt.count

/-- The time at which the window of an add at `now` began. -/
def Rate.openedAt (rt : Rate) (now : Int) : Int :=
  if rt.expired now ∨ rt.time = 0 then now else rt.time

theorem Rate.openedAt_ne (rt : Rate) {now : Int} (hpos : 0 < now) : rt.openedAt now ≠ 0 := by
  unfold Rate.openedAt
  split
  · omega
  · rename_i h
    exact (not_or.mp h).2

theorem Rate.expired_iff {rt : Rate} {now : Int} :
    rt.expired now = true ↔ rt.seconds.toNat ≤ now - rt.time := decide_eq_true_iff

/-- An add reopens the window or goes on with it, and then tests the new count. -/
theorem tfRateAdd_eq (rt : Rate) (now : Int) (count : UInt32) :
    tfRateAdd rt now count =
      { rt with
        count := rt.countAt now + count
        time := rt.openedAt now
        bad := if rt.total ≤ rt.countAt now + count then now
          else if rt.expired now then 0 else rt.bad } := by
  unfold tfRateAdd Rate.countAt Rate.openedAt
  cases hexp : rt.expired now with
  | true =>
      simp only [if_true, true_or]
      by_cases hfull : rt.total ≤ 0 + count
      · rw [if_pos hfull]
        exact if_pos hfull
      · rw [if_neg hfull]
        exact if_neg hfull
  | false =>
      simp only [Bool.false_eq_true, if_false, false_or]
      by_cases hzero : rt.time = 0
      · simp only [hzero, if_true]
        by_cases hfull : rt.total ≤ rt.count + count
        · rw [if_pos hfull, if_pos hfull]
        · rw [if_neg hfull, if_neg hfull]
      · simp only [hzero, if_false]
        by_cases hfull : rt.total ≤ rt.count + count
        · rw [if_pos hfull, if_pos hfull]
        · rw [if_neg hfull, if_neg hfull]

/-- A check resets the limiter when the wait is over and changes nothing else. -/
theorem tfRateCheck_cases (rt : Rate) (now : Int) :
    (tfRateCheck rt now = (rt, true) ∧ (rt.time = 0 ∨ rt.count < rt.total ∨ rt.bad = 0)) ∨
    (rt.time ≠ 0 ∧ rt.total ≤ rt.count ∧ rt.bad ≠ 0 ∧
      ((rt.wait.toNat ≤ now - rt.bad ∧ tfRateCheck rt now = (tfRateReset rt, true)) ∨
        (now - rt.bad < rt.wait.toNat ∧ tfRateCheck rt now = (rt, false)))) := by
  unfold tfRateCheck
  by_cases htime : rt.time = 0
  · exact .inl ⟨if_pos htime, .inl htime⟩
  · rw [if_neg htime]
    by_cases hcount : rt.count < rt.total
    · exact .inl ⟨if_pos hcount, .inr (.inl hcount)⟩
    · rw [if_neg hcount]
      by_cases hbad : rt.bad = 0
      · exact .inl ⟨if_neg (fun h => h hbad), .inr (.inr hbad)⟩
      · rw [if_pos hbad]
        refine .inr ⟨htime, UInt32.not_lt.mp hcount, hbad, ?_⟩
        by_cases hover : (rt.wait.toNat : Int) ≤ now - rt.bad
        · exact .inl ⟨hover, if_pos hover⟩
        · exact .inr ⟨Int.not_le.mp hover, if_neg hover⟩

theorem tfRateCheck_of_lt {rt : Rate} (h : rt.count < rt.total) (now : Int) :
    (tfRateCheck rt now).2 = true := by
  rcases tfRateCheck_cases rt now with ⟨heq, -⟩ | ⟨-, hfull, -⟩
  · rw [heq]
  · exact absurd h (UInt32.not_lt.mpr hfull)

/-! ## No false blocking -/

/-- What the fields say about the history. -/
structure Accounted (s : Limiter) : Prop where
  clock : ∀ x ∈ s.adds, 0 < x.1 ∧ x.1 ≤ s.now
  idle : s.rt.time = 0 → s.rt.count = 0 ∧ s.rt.bad = 0
  opened : s.rt.time ≤ s.now
  counted : s.rt.count.toNat ≤ eventsIn s.adds s.rt.time s.now
  tripped : s.rt.time ≠ 0 → s.rt.total ≤ s.rt.count →
    (∃ n, (s.rt.bad, n) ∈ s.adds) ∧ s.rt.time ≤ s.rt.bad ∧
      (s.rt.bad - s.rt.time = 0 ∨ s.rt.bad - s.rt.time < s.rt.seconds.toNat) ∧
      s.rt.total.toNat ≤ eventsIn s.adds s.rt.time s.rt.bad

theorem Accounted.start (total seconds wait : UInt32) : Accounted (.start total seconds wait) where
  clock _ hx := absurd hx List.not_mem_nil
  idle _ := ⟨rfl, rfl⟩
  opened := Int.le_refl 0
  counted := Nat.le_refl 0
  tripped h := absurd rfl h

/-- An add is counted in the window that it falls into. -/
theorem Accounted.counted_add {s : Limiter} (h : Accounted s) {now : Int} (count : UInt32)
    (hclock : s.now ≤ now) :
    s.rt.openedAt now ≤ now ∧
      (now - s.rt.openedAt now = 0 ∨ now - s.rt.openedAt now < s.rt.seconds.toNat) ∧
      (s.rt.countAt now + count).toNat ≤
        eventsIn (s.adds ++ [(now, count)]) (s.rt.openedAt now) now := by
  have hsum : ∀ c : UInt32, (c + count).toNat ≤ c.toNat + count.toNat := by
    intro c
    rw [UInt32.toNat_add]
    exact Nat.mod_le _ _
  by_cases hnew : s.rt.expired now = true ∨ s.rt.time = 0
  · have hcount : s.rt.countAt now = 0 := by
      rcases hnew with hexp | hzero
      · exact if_pos hexp
      · rw [Rate.countAt, (h.idle hzero).1, ite_self]
    rw [Rate.openedAt, if_pos hnew, hcount, eventsIn_append,
      eventsIn_singleton now count (Int.le_refl now)]
    have := hsum 0
    refine ⟨Int.le_refl now, .inl (Int.sub_self now), ?_⟩
    simp only [UInt32.toNat_zero] at this
    omega
  · obtain ⟨hexp, hzero⟩ := not_or.mp hnew
    have hopen : now - s.rt.time < s.rt.seconds.toNat := by
      rw [Rate.expired_iff] at hexp
      omega
    have hle : s.rt.time ≤ now := Int.le_trans h.opened hclock
    rw [Rate.openedAt, if_neg hnew, Rate.countAt, if_neg hexp, eventsIn_append,
      eventsIn_singleton now count hle]
    refine ⟨hle, .inr hopen, ?_⟩
    have hmono : eventsIn s.adds s.rt.time s.now ≤ eventsIn s.adds s.rt.time now := eventsIn_mono hclock
    have := hsum s.rt.count
    have := h.counted
    omega

theorem Accounted.add {s : Limiter} (h : Accounted s) {now : Int} {count : UInt32}
    (admitted : s.Admits (.add now count)) : Accounted (s.step (.add now count)) := by
  obtain ⟨hpos, hclock⟩ := admitted
  have hpos : 0 < now := hpos
  obtain ⟨hle, hspan, hcount⟩ := h.counted_add count hclock
  simp only [Limiter.step, tfRateAdd_eq]
  constructor
  · intro x hx
    rcases List.mem_append.mp hx with hx | hx
    · exact ⟨(h.clock x hx).1, Int.le_trans (h.clock x hx).2 hclock⟩
    · rw [List.mem_singleton] at hx
      rw [hx]
      exact ⟨hpos, Int.le_refl now⟩
  · intro hzero
    exact absurd hzero (Rate.openedAt_ne s.rt hpos)
  · exact hle
  · exact hcount
  · intro _ hfull
    simp only [if_pos hfull]
    exact ⟨⟨count, List.mem_append_right _ (List.mem_singleton_self _)⟩, hle, hspan,
      Nat.le_trans (UInt32.le_iff_toNat_le.mp hfull) hcount⟩

theorem Accounted.check {s : Limiter} (h : Accounted s) {now : Int}
    (admitted : s.Admits (.check now)) : Accounted (s.step (.check now)) := by
  obtain ⟨hpos, hclock⟩ := admitted
  have hadds : ∀ x ∈ s.adds, 0 < x.1 ∧ x.1 ≤ now := fun x hx =>
    ⟨(h.clock x hx).1, Int.le_trans (h.clock x hx).2 hclock⟩
  have hkeep : Accounted { s with now := now } :=
    ⟨hadds, h.idle, Int.le_trans h.opened hclock, Nat.le_trans h.counted (eventsIn_mono hclock), h.tripped⟩
  rcases tfRateCheck_cases s.rt now with ⟨heq, -⟩ | ⟨-, -, -, ⟨-, heq⟩ | ⟨-, heq⟩⟩
  · simp only [Limiter.step, heq]
    exact ⟨hadds, hkeep.idle, hkeep.opened, hkeep.counted, hkeep.tripped⟩
  · simp only [Limiter.step, heq]
    exact ⟨hadds, fun _ => ⟨rfl, rfl⟩, Int.le_of_lt hpos, Nat.zero_le _, fun h => absurd rfl h⟩
  · simp only [Limiter.step, heq]
    exact ⟨hadds, hkeep.idle, hkeep.opened, hkeep.counted, hkeep.tripped⟩

theorem accounted_of_reaches {total seconds wait : UInt32} {s : Limiter}
    (h : limiter.Reaches (.start total seconds wait) s) : Accounted s := by
  refine h.invariant ?_ (.start total seconds wait)
  intro s e hs admitted
  cases e with
  | add now count => exact hs.add admitted
  | check now => exact hs.check admitted

/-- The three parameters never change. -/
def Rate.params (rt : Rate) : UInt32 × UInt32 × UInt32 := (rt.total, rt.seconds, rt.wait)

theorem params_step (s : Limiter) (e : RateEvent) : (s.step e).rt.params = s.rt.params := by
  cases e with
  | add now count => simp only [Limiter.step, tfRateAdd_eq, Rate.params]
  | check now =>
      rcases tfRateCheck_cases s.rt now with ⟨heq, -⟩ | ⟨-, -, -, ⟨-, heq⟩ | ⟨-, heq⟩⟩
      · simp only [Limiter.step, heq]
      · simp only [Limiter.step, heq, tfRateReset, Rate.params]
      · simp only [Limiter.step, heq]

theorem params_of_runs {s t : Limiter} {es : List RateEvent} (h : limiter.Runs s es t) :
    t.rt.params = s.rt.params := by
  induction h with
  | nil s => rfl
  | cons _ _ ih => exact ih.trans (params_step _ _)

/-- A check that blocks has a reason: within the last `wait` seconds an add ended a span that is
shorter than the window and holds `total` events. -/
theorem no_false_blocking {total seconds wait : UInt32} {s : Limiter}
    (h : limiter.Reaches (.start total seconds wait) s) {t : Int}
    (admitted : s.Admits (.check t)) (blocked : (tfRateCheck s.rt t).2 = false) :
    (∃ b n a, (b, n) ∈ s.adds ∧ t - wait.toNat < b ∧ b ≤ t ∧ a ≤ b ∧
      (b - a = 0 ∨ b - a < seconds.toNat) ∧ total.toNat ≤ eventsIn s.adds a b) ∧
    tfRateLeft (tfRateCheck s.rt t).1 = 0 := by
  have hs := accounted_of_reaches h
  obtain ⟨es, hruns⟩ := h
  have hparams := params_of_runs hruns
  obtain ⟨rfl, rfl, rfl⟩ : s.rt.total = total ∧ s.rt.seconds = seconds ∧ s.rt.wait = wait := by
    simpa [Rate.params, Limiter.start] using hparams
  rcases tfRateCheck_cases s.rt t with ⟨heq, -⟩ | ⟨htime, hfull, hbad, ⟨-, heq⟩ | ⟨hwait, heq⟩⟩
  · rw [heq] at blocked
    contradiction
  · rw [heq] at blocked
    contradiction
  · obtain ⟨⟨n, hadd⟩, hle, hspan, hcount⟩ := hs.tripped htime hfull
    refine ⟨⟨s.rt.bad, n, s.rt.time, hadd, by omega, ?_, hle, hspan, hcount⟩, ?_⟩
    · exact Int.le_trans (hs.clock _ hadd).2 admitted.2
    · rw [heq]
      exact if_pos hbad

/-- Three events in five seconds. -/
def tripped : Limiter :=
  ((Limiter.start 3 10 60).step (.add 100 2)).step (.add 105 1)

theorem tripped_reached : limiter.Reaches (.start 3 10 60) tripped :=
  ⟨[.add 100 2, .add 105 1], .cons ⟨by decide, by decide⟩ (.cons ⟨by decide, by decide⟩ (.nil _))⟩

theorem no_false_blocking_tripped : ∃ b n a, (b, n) ∈ tripped.adds ∧ 110 - 60 < b ∧ b ≤ 110 ∧
    a ≤ b ∧ (b - a = 0 ∨ b - a < 10) ∧ 3 ≤ eventsIn tripped.adds a b :=
  (no_false_blocking tripped_reached (t := 110) (by decide) (by decide)).1

/-! ## The penalty -/

/-- The events of the window that an add falls into, the add included. -/
def Limiter.eventsAt (s : Limiter) (now : Int) (count : UInt32) : Nat :=
  (if s.rt.expired now then 0 else s.events) + count.toNat

/-- A step that leaves a penalty alone. An add does not wrap the counter back below `total`; and
where it finds the window expired while a penalty runs, it brings `total` events of its own. -/
def Limiter.Steady (s : Limiter) : RateEvent → Prop
  | .add now count =>
      (s.rt.wait ≠ 0 → s.rt.total.toNat ≤ s.eventsAt now count →
        s.rt.total.toNat ≤ s.eventsAt now count % 2 ^ 32) ∧
      (s.rt.bad ≠ 0 → now < s.rt.bad + s.rt.wait.toNat → s.rt.expired now = true →
        s.rt.total ≤ count)
  | .check _ => True

/-- The counter is the number of events in the window, modulo its 32 bits. -/
def Limiter.Exact (s : Limiter) : Prop :=
  s.rt.count.toNat = s.events % 2 ^ 32 ∧ (s.rt.time = 0 → s.events = 0)

theorem Limiter.Exact.countAt {s : Limiter} (h : s.Exact) (now : Int) (count : UInt32) :
    (s.rt.countAt now + count).toNat = s.eventsAt now count % 2 ^ 32 := by
  rw [UInt32.toNat_add, Rate.countAt, Limiter.eventsAt]
  split
  · rfl
  · rw [h.1, Nat.mod_add_mod]

theorem Limiter.Exact.step {s : Limiter} (h : s.Exact) {e : RateEvent} (admitted : s.Admits e) :
    (s.step e).Exact := by
  have hexact := h
  obtain ⟨hcount, hidle⟩ := h
  cases e with
  | add now count =>
      simp only [Limiter.step, tfRateAdd_eq, Limiter.Exact]
      refine ⟨hexact.countAt now count, fun hzero => absurd hzero (Rate.openedAt_ne s.rt admitted.1)⟩
  | check now =>
      rcases tfRateCheck_cases s.rt now with ⟨heq, -⟩ | ⟨htime, -, -, ⟨-, heq⟩ | ⟨-, heq⟩⟩
      · simp only [Limiter.step, heq, Limiter.Exact]
        by_cases hzero : s.rt.time = 0
        · rw [if_pos hzero, hcount, hidle hzero]
          exact ⟨rfl, fun _ => rfl⟩
        · rw [if_neg hzero]
          exact ⟨hcount, hidle⟩
      · simp only [Limiter.step, heq]
        exact ⟨rfl, fun _ => rfl⟩
      · simp only [Limiter.step, heq, if_neg htime]
        exact ⟨hcount, hidle⟩

/-- The limiter is bad since `b` or later. -/
structure Penalized (b : Int) (rt : Rate) : Prop where
  opened : rt.time ≠ 0
  bad : rt.bad ≠ 0
  since : b ≤ rt.bad
  full : rt.total ≤ rt.count

/-- An add that fills the window starts the penalty. -/
theorem Penalized.of_add {s : Limiter} (h : s.Exact) {b : Int} {n : UInt32}
    (admitted : s.Admits (.add b n)) (steady : s.Steady (.add b n)) (hwait : s.rt.wait ≠ 0)
    (full : s.rt.total.toNat ≤ (s.step (.add b n)).events) :
    Penalized b (s.step (.add b n)).rt := by
  have hb : b ≠ 0 := by
    have hpos : 0 < b := admitted.1
    omega
  have hfull : s.rt.total ≤ s.rt.countAt b + n := by
    rw [UInt32.le_iff_toNat_le, h.countAt]
    exact steady.1 hwait full
  simp only [Limiter.step, tfRateAdd_eq]
  refine ⟨Rate.openedAt_ne s.rt admitted.1, ?_, ?_, hfull⟩
  · rwa [if_pos hfull]
  · simp only [if_pos hfull, Int.le_refl]

/-- Nothing that happens before its end stops a penalty. -/
theorem Penalized.step {b : Int} {s : Limiter} (h : Penalized b s.rt) (hs : s.Exact) {e : RateEvent}
    (admitted : s.Admits e) (steady : s.Steady e) (hb : b ≤ e.now)
    (during : e.now < b + s.rt.wait.toNat) : Penalized b (s.step e).rt := by
  obtain ⟨hopened, hbad, hsince, hfull⟩ := h
  cases e with
  | add now count =>
      have during : now < b + s.rt.wait.toNat := during
      have hb : b ≤ now := hb
      have hgrown : s.rt.total ≤ s.rt.countAt now + count := by
        cases hexp : s.rt.expired now with
        | true =>
            rw [Rate.countAt, if_pos hexp, UInt32.zero_add]
            exact steady.2 hbad (by omega) hexp
        | false =>
            have hwait : s.rt.wait ≠ 0 := by
              intro hzero
              rw [hzero] at during
              simp only [UInt32.toNat_zero] at during
              omega
            rw [UInt32.le_iff_toNat_le] at hfull ⊢
            rw [hs.countAt]
            refine steady.1 hwait ?_
            have hle := Nat.mod_le s.events (2 ^ 32)
            rw [Limiter.eventsAt, hexp, if_neg Bool.false_ne_true]
            rw [hs.1] at hfull
            omega
      simp only [Limiter.step, tfRateAdd_eq, if_pos hgrown]
      have hpos : 0 < now := admitted.1
      exact ⟨Rate.openedAt_ne s.rt hpos, Int.ne_of_gt hpos, hb, hgrown⟩
  | check now =>
      have during : now < b + s.rt.wait.toNat := during
      rcases tfRateCheck_cases s.rt now with ⟨heq, -⟩ | ⟨-, -, -, ⟨hover, -⟩ | ⟨-, heq⟩⟩
      · simp only [Limiter.step, heq]
        exact ⟨hopened, hbad, hsince, hfull⟩
      · omega
      · simp only [Limiter.step, heq]
        exact ⟨hopened, hbad, hsince, hfull⟩

theorem Penalized.blocks {b t : Int} {rt : Rate} (h : Penalized b rt)
    (during : t < b + rt.wait.toNat) : (tfRateCheck rt t).2 = false := by
  rcases tfRateCheck_cases rt t with ⟨-, hzero | hlow | hgood⟩ | ⟨-, -, -, ⟨hover, -⟩ | ⟨-, heq⟩⟩
  · exact absurd hzero h.opened
  · exact absurd hlow (UInt32.not_lt.mpr h.full)
  · exact absurd hgood h.bad
  · have := h.since
    omega
  · rw [heq]

theorem now_step (s : Limiter) (e : RateEvent) : (s.step e).now = e.now := by
  cases e with
  | add now count => rfl
  | check now => rfl

theorem now_le_of_runs {s t : Limiter} {es : List RateEvent} (h : limiter.Runs s es t) :
    s.now ≤ t.now := by
  induction h with
  | nil s => exact Int.le_refl _
  | @cons s t e es admitted _ ih =>
      have hstep : (limiter.step s e).now = e.now := now_step s e
      rw [hstep] at ih
      exact Int.le_trans admitted.2 ih

theorem exact_of_runs {s t : Limiter} {es : List RateEvent} (h : s.Exact)
    (hruns : limiter.Runs s es t) : t.Exact := by
  refine hruns.invariant ?_ h
  intro s e hs admitted
  exact hs.step admitted

/-- The penalty over a whole run, by induction on its events. -/
theorem Penalized.runs {b : Int} {s t : Limiter} {es : List RateEvent}
    (hruns : (limiter.restrict Limiter.Steady).Runs s es t) (h : Penalized b s.rt) (hs : s.Exact)
    (hb : b ≤ s.now) (during : t.now < b + s.rt.wait.toNat) :
    Penalized b t.rt ∧ t.rt.wait = s.rt.wait := by
  induction hruns with
  | nil s => exact ⟨h, rfl⟩
  | @cons s t e es admitted hrest ih =>
      obtain ⟨admitted, steady⟩ := admitted
      have hnow : (s.step e).now = e.now := now_step s e
      have hwait : (s.step e).rt.wait = s.rt.wait := congrArg (·.2.2) (params_step s e)
      have hle : (s.step e).now ≤ t.now := now_le_of_runs hrest.of_restrict
      have hbe : b ≤ e.now := Int.le_trans hb admitted.2
      have hstep := h.step hs admitted steady hbe (by omega)
      have hend := ih hstep (hs.step admitted) (hnow ▸ hbe) (hwait ▸ during)
      exact ⟨hend.1, hend.2.trans hwait⟩

/-- From the add that fills the window, every check of the next `wait` seconds blocks. -/
theorem penalty_holds {total seconds wait : UInt32} {s u : Limiter} {pre mid : List RateEvent}
    {b t : Int} {n : UInt32}
    (before : (limiter.restrict Limiter.Steady).Runs (.start total seconds wait) pre s)
    (trip : (limiter.restrict Limiter.Steady).admits s (.add b n))
    (full : total.toNat ≤ (s.step (.add b n)).events)
    (after : (limiter.restrict Limiter.Steady).Runs (s.step (.add b n)) mid u)
    (admitted : u.Admits (.check t)) (during : t < b + wait.toNat) :
    (tfRateCheck u.rt t).2 = false := by
  have hparams := params_of_runs before.of_restrict
  obtain ⟨htotal, hwait⟩ : s.rt.total = total ∧ s.rt.wait = wait := by
    simp only [Rate.params, Limiter.start, Prod.mk.injEq] at hparams
    exact ⟨hparams.1, hparams.2.2⟩
  have hexact : s.Exact := exact_of_runs ⟨rfl, fun _ => rfl⟩ before.of_restrict
  have hut : u.now ≤ t := admitted.2
  have hbu : (s.step (.add b n)).now ≤ u.now := now_le_of_runs after.of_restrict
  have hbt : b ≤ t := Int.le_trans hbu hut
  have hsome : s.rt.wait ≠ 0 := by
    intro hzero
    rw [← hwait, hzero] at during
    simp only [UInt32.toNat_zero] at during
    omega
  have hfull : Penalized b (s.step (.add b n)).rt :=
    .of_add hexact trip.1 trip.2 hsome (htotal ▸ full)
  have hwait' : (s.step (.add b n)).rt.wait = wait :=
    (congrArg (·.2.2) (params_step s (.add b n))).trans hwait
  obtain ⟨hend, hsame⟩ :=
    hfull.runs after (hexact.step trip.1) (Int.le_refl b) (by rw [hwait']; omega)
  refine hend.blocks ?_
  rw [hsame, hwait']
  exact during

/-- Conversely, right after an add that is not steady a check does not block, although the add has
filled the window or came while the limiter was bad. -/
theorem unsteady_unblocks {s : Limiter} (hs : s.Exact) {b : Int} {n : UInt32}
    (h : ¬ s.Steady (.add b n)) :
    (tfRateCheck (s.step (.add b n)).rt b).2 = true ∧
      (s.rt.wait ≠ 0 ∧ s.rt.total.toNat ≤ (s.step (.add b n)).events ∨
        s.rt.bad ≠ 0 ∧ b < s.rt.bad + s.rt.wait.toNat) := by
  have hlow : s.rt.countAt b + n < s.rt.total ∧
      (s.rt.wait ≠ 0 ∧ s.rt.total.toNat ≤ s.eventsAt b n ∨
        s.rt.bad ≠ 0 ∧ b < s.rt.bad + s.rt.wait.toNat) := by
    by_cases hwrap : s.rt.wait ≠ 0 → s.rt.total.toNat ≤ s.eventsAt b n →
        s.rt.total.toNat ≤ s.eventsAt b n % 2 ^ 32
    · by_cases hexp : s.rt.expired b = true
      · by_cases hbad : s.rt.bad ≠ 0 ∧ b < s.rt.bad + s.rt.wait.toNat
        · refine ⟨?_, .inr hbad⟩
          rw [Rate.countAt, if_pos hexp, UInt32.zero_add]
          exact UInt32.not_le.mp fun hle => h ⟨hwrap, fun _ _ _ => hle⟩
        · exact absurd ⟨hwrap, fun hb hd _ => absurd ⟨hb, hd⟩ hbad⟩ h
      · exact absurd ⟨hwrap, fun _ _ hex => absurd hex hexp⟩ h
    · rw [UInt32.lt_iff_toNat_lt, hs.countAt]
      simp only [Classical.not_imp] at hwrap
      exact ⟨Nat.lt_of_not_le hwrap.2.2, .inl ⟨hwrap.1, hwrap.2.1⟩⟩
  refine ⟨tfRateCheck_of_lt ?_ b, hlow.2⟩
  simp only [Limiter.step, tfRateAdd_eq]
  exact hlow.1

/-- Five seconds after the third event the limiter still blocks. -/
theorem penalty_holds_tripped : (tfRateCheck tripped.rt 110).2 = false := by
  have before : (limiter.restrict Limiter.Steady).Runs (.start 3 10 60) [.add 100 2]
      ((Limiter.start 3 10 60).step (.add 100 2)) :=
    .cons ⟨⟨by decide, by decide⟩, by decide, by decide⟩ (.nil _)
  exact penalty_holds before ⟨⟨by decide, by decide⟩, by decide, by decide⟩ (by decide) (.nil _)
    (t := 110) (by decide) (by decide)

/-- One event after the window has expired, and the penalty of sixty seconds is over after six. -/
theorem penalty_forgotten :
    limiter.Runs (.start 3 5 60) [.add 100 3, .add 105 1]
      (((Limiter.start 3 5 60).step (.add 100 3)).step (.add 105 1)) ∧
    3 ≤ ((Limiter.start 3 5 60).step (.add 100 3)).events ∧
    (tfRateCheck (((Limiter.start 3 5 60).step (.add 100 3)).step (.add 105 1)).rt 106).2 = true ∧
    (106 : Int) < 100 + (60 : UInt32).toNat := by
  refine ⟨?_, by decide, by decide, by decide⟩
  exact .cons ⟨by decide, by decide⟩ (.cons ⟨by decide, by decide⟩ (.nil _))

end Tflib.Util
