import Tflib.Core.Observe
import Tflib.Util.Numbers
import Tflib.Util.Rate

/-! # New rate limiters

`rate_new` sets the three parameters and leaves the other fields as `tf_alloc`
returned them. The question is which contents of the memory nobody can tell from
a limiter that was reset. A difference of times that leaves `time_t` is a fault.
-/

namespace Tflib.Util

open Tflib.Core

/-- The fields that `rate_new` does not set, as they lie in the memory. -/
structure RateMem where
  count : UInt32
  time : Int64
  bad : Int64

/-- `rate_new` -/
def rateNew (mem : RateMem) (total seconds wait : UInt32) : Rate :=
  ⟨total, mem.count, seconds, wait, mem.time.toInt, mem.bad.toInt⟩

/-- A call at the time of the event; a check shows its result. -/
def rateCall (rt : Rate) : RateEvent → Option (Rate × Option Bool)
  | .add now count => do
      let _ ← int64 (now - rt.time)
      some (tfRateAdd rt now count, none)
  | .check now => do
      let _ ← if rt.time ≠ 0 ∧ rt.total ≤ rt.count ∧ rt.bad ≠ 0 then int64 (now - rt.bad)
        else some 0
      let (rt, good) := tfRateCheck rt now
      some (rt, some good)

/-- A clock of type `time_t` that is positive and never goes back. -/
def clock : Machine Int RateEvent where
  step _ e := e.now
  admits now e := 0 < e.now ∧ now ≤ e.now ∧ e.now < 2 ^ 63

def RateEvent.IsCheck : RateEvent → Prop
  | .add _ _ => False
  | .check _ => True

/-- Nobody can tell the limiter from one that was reset. -/
structure BehavesReset (rt : Rate) : Prop where
  before : ∀ es now, clock.Runs 0 es now → (∀ e ∈ es, e.IsCheck) →
    ∃ rt' answers, trace rateCall rt es = some (rt', answers) ∧ (∀ o ∈ answers, o = some true) ∧
      tfRateLeft rt' = rt.total.toInt32
  later : ∀ es now, clock.Runs 0 es now →
    ∃ rt' reset answers, trace rateCall rt es = some (rt', answers) ∧
      trace rateCall (tfRateReset rt) es = some (reset, answers)

/-- No difference of times overflows. A time of the last penalty that is not one does not matter
where the next add stores another one before it is looked at. -/
structure Rate.Sane (rt : Rate) : Prop where
  time : 0 ≤ rt.time ∧ rt.time < 2 ^ 63
  bad : (rt.time = 0 ∧ rt.total = 0) ∨ (0 ≤ rt.bad ∧ rt.bad < 2 ^ 63)

/-- What a call does where nothing overflows. -/
def Rate.after (rt : Rate) : RateEvent → Rate × Option Bool
  | .add now count => (tfRateAdd rt now count, none)
  | .check now => ((tfRateCheck rt now).1, some (tfRateCheck rt now).2)

theorem Rate.Sane.call {rt : Rate} (h : rt.Sane) {now : Int} {e : RateEvent}
    (admitted : clock.admits now e) : rateCall rt e = some (rt.after e) := by
  obtain ⟨⟨htime, htop⟩, hbad⟩ := h
  obtain ⟨hpos, -, hlast⟩ := admitted
  cases e with
  | add now count =>
      have hpos : 0 < now := hpos
      have hlast : now < 2 ^ 63 := hlast
      rw [rateCall, int64_eq (by omega)]
      rfl
  | check now =>
      have hpos : 0 < now := hpos
      have hlast : now < 2 ^ 63 := hlast
      rw [rateCall]
      by_cases hcompared : rt.time ≠ 0 ∧ rt.total ≤ rt.count ∧ rt.bad ≠ 0
      · rw [if_pos hcompared, int64_eq (by omega)]
        rfl
      · rw [if_neg hcompared]
        rfl

theorem Rate.Sane.after {rt : Rate} (h : rt.Sane) {now : Int} {e : RateEvent}
    (admitted : clock.admits now e) : (rt.after e).1.Sane := by
  obtain ⟨hpos, -, hlast⟩ := admitted
  have hzero : (0 : Int) ≤ 0 ∧ (0 : Int) < 2 ^ 63 := by decide
  cases e with
  | add now count =>
      have hnow : 0 ≤ now ∧ now < 2 ^ 63 := ⟨Int.le_of_lt hpos, hlast⟩
      simp only [Rate.after, tfRateAdd_eq]
      constructor
      · change 0 ≤ rt.openedAt now ∧ rt.openedAt now < 2 ^ 63
        unfold Rate.openedAt
        split
        · exact hnow
        · exact h.time
      · right
        split
        · exact hnow
        · rename_i hopen
          split
          · exact hzero
          · refine h.bad.resolve_left fun hidle => hopen ?_
            rw [hidle.2]
            exact UInt32.zero_le
  | check now =>
      simp only [Rate.after]
      rcases tfRateCheck_cases rt now with ⟨heq, -⟩ | ⟨-, -, -, ⟨-, heq⟩ | ⟨-, heq⟩⟩
      · rwa [heq]
      · rw [heq]
        exact ⟨hzero, .inr hzero⟩
      · rwa [heq]

/-! ## Limiters that cannot be told apart -/

/-- The time of the penalty that a check looks at; 0 means none. -/
def Rate.penalty (rt : Rate) : Int := if rt.time = 0 then 0 else rt.bad

/-- Two limiters that answer alike from the time `now` on. -/
inductive Alike (now : Int) : Rate → Rate → Prop
  | same (s : Rate) : Alike now s s
  /-- No penalty lasts. -/
  | lenient {s t : Rate} : s.wait = 0 → t.wait = 0 → (∀ x, now ≤ x → 0 < x → s.bad ≤ x ∧ t.bad ≤ x) →
      Alike now s t
  /-- Every count is full. -/
  | closed {s t : Rate} : s.total = 0 → t.total = 0 → s.wait = t.wait → s.penalty = t.penalty →
      Alike now s t
  /-- The first add finds the window expired, or it comes at the time 1. -/
  | early {s : Rate} : s.time = 1 → s.seconds ≤ 1 → s.count = 0 → s.bad = 0 → 0 < s.total →
      Alike now s (tfRateReset s)

theorem check_lenient {rt : Rate} (hwait : rt.wait = 0) {now : Int} (hbad : rt.bad ≤ now) :
    (tfRateCheck rt now).2 = true := by
  rcases tfRateCheck_cases rt now with ⟨heq, -⟩ | ⟨-, -, -, ⟨-, heq⟩ | ⟨hlt, -⟩⟩
  · rw [heq]
  · rw [heq]
  · rw [hwait, UInt32.toNat_zero] at hlt
    omega

/-- The last penalty is never later than the last call. -/
theorem bad_after {rt : Rate} {now : Int} {e : RateEvent} (admitted : clock.admits now e)
    (h : rt.bad ≤ e.now) : (rt.after e).1.bad ≤ e.now := by
  have hpos : 0 < e.now := admitted.1
  cases e with
  | add now count =>
      simp only [Rate.after, tfRateAdd_eq]
      split
      · exact Int.le_refl now
      · split
        · exact Int.le_of_lt hpos
        · exact h
  | check now =>
      simp only [Rate.after]
      rcases tfRateCheck_cases rt now with ⟨heq, -⟩ | ⟨-, -, -, ⟨-, heq⟩ | ⟨-, heq⟩⟩
      · rwa [heq]
      · rw [heq]
        exact Int.le_of_lt hpos
      · rwa [heq]

theorem params_after (rt : Rate) (e : RateEvent) : (rt.after e).1.params = rt.params := by
  cases e with
  | add now count => simp only [Rate.after, tfRateAdd_eq, Rate.params]
  | check now =>
      rcases tfRateCheck_cases rt now with ⟨heq, -⟩ | ⟨-, -, -, ⟨-, heq⟩ | ⟨-, heq⟩⟩
      · simp only [Rate.after, heq]
      · simp only [Rate.after, heq, tfRateReset, Rate.params]
      · simp only [Rate.after, heq]

theorem Alike.lenient_after {s t : Rate} (hs : s.wait = 0) (ht : t.wait = 0) {now : Int}
    {e : RateEvent} (admitted : clock.admits now e) (hbad : s.bad ≤ e.now ∧ t.bad ≤ e.now) :
    (s.after e).2 = (t.after e).2 ∧ Alike e.now (s.after e).1 (t.after e).1 := by
  have hshow : (s.after e).2 = (t.after e).2 := by
    cases e with
    | add now count => rfl
    | check now =>
        have hsgood : (tfRateCheck s now).2 = true := check_lenient hs hbad.1
        have htgood : (tfRateCheck t now).2 = true := check_lenient ht hbad.2
        simp only [Rate.after, hsgood, htgood]
  have hsame : ∀ rt : Rate, (rt.after e).1.wait = rt.wait := fun rt =>
    congrArg (·.2.2) (params_after rt e)
  refine ⟨hshow, .lenient ((hsame s).trans hs) ((hsame t).trans ht) fun x hx _ => ?_⟩
  exact ⟨Int.le_trans (bad_after admitted hbad.1) hx, Int.le_trans (bad_after admitted hbad.2) hx⟩

/-- A limiter with `total = 0` answers by its penalty alone. -/
theorem check_closed {rt : Rate} (htotal : rt.total = 0) (now : Int) :
    (tfRateCheck rt now).2 = decide (rt.penalty = 0 ∨ (rt.wait.toNat : Int) ≤ now - rt.penalty) ∧
      (tfRateCheck rt now).1.penalty =
        if rt.penalty = 0 ∨ (rt.wait.toNat : Int) ≤ now - rt.penalty then 0 else rt.penalty := by
  rcases tfRateCheck_cases rt now with ⟨heq, hidle⟩ | ⟨htime, -, hbad, hover⟩
  · have hnone : rt.penalty = 0 := by
      unfold Rate.penalty
      rcases hidle with htime | hlow | hgood
      · rw [if_pos htime]
      · rw [htotal] at hlow
        exact absurd hlow (UInt32.not_lt.mpr UInt32.zero_le)
      · rw [hgood, ite_self]
    rw [heq, if_pos (.inl hnone), decide_eq_true (.inl hnone)]
    exact ⟨rfl, hnone⟩
  · have hpenalty : rt.penalty = rt.bad := if_neg htime
    rw [hpenalty]
    rcases hover with ⟨hle, heq⟩ | ⟨hlt, heq⟩
    · rw [heq, if_pos (.inr hle), decide_eq_true (.inr hle)]
      exact ⟨rfl, rfl⟩
    · have hneither : ¬ (rt.bad = 0 ∨ (rt.wait.toNat : Int) ≤ now - rt.bad) := by omega
      rw [heq, if_neg hneither, decide_eq_false hneither]
      exact ⟨rfl, hpenalty⟩

theorem add_closed {rt : Rate} (htotal : rt.total = 0) {now : Int} (hpos : 0 < now) (count : UInt32) :
    (tfRateAdd rt now count).penalty = now := by
  have hfull : rt.total ≤ rt.countAt now + count := htotal ▸ UInt32.zero_le
  simp only [tfRateAdd_eq, Rate.penalty, if_neg (Rate.openedAt_ne rt hpos), if_pos hfull]

theorem Alike.closed_after {s t : Rate} (hs : s.total = 0) (ht : t.total = 0)
    (hwait : s.wait = t.wait) (hpenalty : s.penalty = t.penalty) {now : Int} {e : RateEvent}
    (admitted : clock.admits now e) :
    (s.after e).2 = (t.after e).2 ∧ Alike e.now (s.after e).1 (t.after e).1 := by
  have hparams : ∀ rt : Rate, (rt.after e).1.total = rt.total ∧ (rt.after e).1.wait = rt.wait :=
    fun rt => ⟨congrArg (·.1) (params_after rt e), congrArg (·.2.2) (params_after rt e)⟩
  have hrest : (s.after e).2 = (t.after e).2 ∧ (s.after e).1.penalty = (t.after e).1.penalty := by
    cases e with
    | add now count =>
        exact ⟨rfl, (add_closed hs admitted.1 count).trans (add_closed ht admitted.1 count).symm⟩
    | check now =>
        obtain ⟨hsgood, hsnext⟩ := check_closed hs now
        obtain ⟨htgood, htnext⟩ := check_closed ht now
        simp only [Rate.after, hsgood, htgood, hsnext, htnext, hwait, hpenalty, and_self]
  exact ⟨hrest.1, .closed ((hparams s).1.trans hs) ((hparams t).1.trans ht)
    ((hparams s).2.trans (hwait.trans (hparams t).2.symm)) hrest.2⟩

theorem Alike.early_after {s : Rate} (htime : s.time = 1) (hseconds : s.seconds ≤ 1)
    (hcount : s.count = 0) (hbad : s.bad = 0) (htotal : 0 < s.total) {now : Int} {e : RateEvent}
    (admitted : clock.admits now e) :
    (s.after e).2 = ((tfRateReset s).after e).2 ∧
      Alike e.now (s.after e).1 ((tfRateReset s).after e).1 := by
  cases e with
  | add now count =>
      have hpos : 0 < now := admitted.1
      have hcounts : s.countAt now = 0 := by rw [Rate.countAt, hcount, ite_self]
      have hnone : (tfRateReset s).countAt now = 0 := ite_self _
      have hopened : s.openedAt now = now := by
        unfold Rate.openedAt
        split
        · rfl
        · rename_i hopen
          have hlate : ¬ (s.seconds.toNat : Int) ≤ now - s.time :=
            fun hexp => hopen (.inl (Rate.expired_iff.mpr hexp))
          rw [UInt32.le_iff_toNat_le] at hseconds
          change s.seconds.toNat ≤ 1 at hseconds
          omega
      have hreset : (tfRateReset s).openedAt now = now := if_pos (.inr rfl)
      have hsame : tfRateAdd s now count = tfRateAdd (tfRateReset s) now count := by
        have hbads : (if (tfRateReset s).expired now = true then (0 : Int) else (tfRateReset s).bad) = 0 :=
          ite_self _
        rw [tfRateAdd_eq, tfRateAdd_eq, hcounts, hnone, hopened, hreset, hbads, hbad, ite_self]
        rfl
      refine ⟨rfl, ?_⟩
      simp only [Rate.after, hsame]
      exact .same _
  | check now =>
      have hs : tfRateCheck s now = (s, true) := by
        rw [tfRateCheck, if_neg (by omega), if_pos (by rwa [hcount])]
      have hreset : tfRateCheck (tfRateReset s) now = (tfRateReset s, true) := if_pos rfl
      simp only [Rate.after, hs, hreset]
      exact ⟨trivial, .early htime hseconds hcount hbad htotal⟩

theorem Alike.after {now : Int} {s t : Rate} (h : Alike now s t) {e : RateEvent}
    (admitted : clock.admits now e) :
    (s.after e).2 = (t.after e).2 ∧ Alike e.now (s.after e).1 (t.after e).1 := by
  cases h with
  | same => exact ⟨rfl, .same _⟩
  | lenient hs ht hbad => exact Alike.lenient_after hs ht admitted (hbad e.now admitted.2.1 admitted.1)
  | closed hs ht hwait hpenalty => exact Alike.closed_after hs ht hwait hpenalty admitted
  | early htime hseconds hcount hbad htotal =>
      exact Alike.early_after htime hseconds hcount hbad htotal admitted

/-- A run of calls, by the step above. -/
theorem Alike.runs {now : Int} {es : List RateEvent} (h : clock.Runs 0 es now) {s t : Rate}
    (hs : s.Sane) (ht : t.Sane) (alike : Alike 0 s t) :
    ∃ s' t' answers, trace rateCall s es = some (s', answers) ∧
      trace rateCall t es = some (t', answers) := by
  have hmatched : ∀ c (s t : Rate) e, (s.Sane ∧ t.Sane ∧ Alike c s t) → clock.admits c e →
      ∃ s' t' o, rateCall s e = some (s', o) ∧ rateCall t e = some (t', o) ∧
        s'.Sane ∧ t'.Sane ∧ Alike (clock.step c e) s' t' := by
    rintro c s t e ⟨hs, ht, alike⟩ admitted
    obtain ⟨hshow, hnext⟩ := alike.after admitted
    refine ⟨(s.after e).1, (t.after e).1, (s.after e).2, hs.call admitted, ?_, hs.after admitted,
      ht.after admitted, hnext⟩
    rw [hshow]
    exact ht.call admitted
  obtain ⟨s', t', answers, hs', ht', -⟩ := h.observe hmatched ⟨hs, ht, alike⟩
  exact ⟨s', t', answers, hs', ht'⟩

/-! ## Which memory is not noticed -/

theorem rateCall_eq_some {rt rt' : Rate} {e : RateEvent} {o : Option Bool}
    (h : rateCall rt e = some (rt', o)) : (rt', o) = rt.after e := by
  cases e with
  | add now count =>
      rw [rateCall, Option.bind_eq_bind, Option.bind_eq_some_iff] at h
      obtain ⟨_, -, h⟩ := h
      cases h
      rfl
  | check now =>
      rw [rateCall] at h
      split at h
      · rw [Option.bind_eq_bind, Option.bind_eq_some_iff] at h
        obtain ⟨_, -, h⟩ := h
        cases h
        rfl
      · cases h
        rfl

/-- Checks of a limiter that does not track anything. -/
theorem checks_idle {rt rt' : Rate} (htime : rt.time = 0) {es : List RateEvent}
    (checks : ∀ e ∈ es, e.IsCheck) {answers : List (Option Bool)}
    (h : trace rateCall rt es = some (rt', answers)) : ∀ o ∈ answers, o = some true := by
  refine (trace_invariant (P := fun s => s.time = 0) (Q := fun o => o = some true) ?_ h htime).2
  intro e he s s' o hs hcall
  have hafter := rateCall_eq_some hcall
  cases e with
  | add now count => exact (checks _ he).elim
  | check now =>
      have hidle : tfRateCheck s now = (s, true) := if_pos hs
      simp only [Rate.after, hidle] at hafter
      cases hafter
      exact ⟨hs, rfl⟩

/-- A check leaves as many events as before if those were all. -/
theorem checks_left {rt rt' : Rate} (hleft : tfRateLeft rt = rt.total.toInt32) {es : List RateEvent}
    (checks : ∀ e ∈ es, e.IsCheck) {answers : List (Option Bool)}
    (h : trace rateCall rt es = some (rt', answers)) : tfRateLeft rt' = rt.total.toInt32 := by
  refine (trace_invariant (P := fun s => tfRateLeft s = rt.total.toInt32 ∧ s.total = rt.total)
    (Q := fun _ => True) ?_ h ⟨hleft, rfl⟩).1.1
  rintro e he s s' o ⟨hs, htotal⟩ hcall
  have hafter := rateCall_eq_some hcall
  cases e with
  | add now count => exact (checks _ he).elim
  | check now =>
      have hreset : tfRateLeft (tfRateReset s) = rt.total.toInt32 := by
        rw [← htotal]
        exact congrArg UInt32.toInt32 (UInt32.sub_zero s.total)
      rcases tfRateCheck_cases s now with ⟨heq, -⟩ | ⟨-, -, -, ⟨-, heq⟩ | ⟨-, heq⟩⟩
      · simp only [Rate.after, heq] at hafter
        cases hafter
        exact ⟨⟨hs, htotal⟩, trivial⟩
      · simp only [Rate.after, heq] at hafter
        cases hafter
        exact ⟨⟨hreset, htotal⟩, trivial⟩
      · simp only [Rate.after, heq] at hafter
        cases hafter
        exact ⟨⟨hs, htotal⟩, trivial⟩

theorem toInt32_inj {a b : UInt32} : a.toInt32 = b.toInt32 ↔ a = b :=
  ⟨fun h => congrArg Int32.toUInt32 h, fun h => congrArg UInt32.toInt32 h⟩

theorem left_iff (rt : Rate) : tfRateLeft rt = rt.total.toInt32 ↔
    (rt.bad ≠ 0 ∧ rt.total = 0) ∨ (rt.bad = 0 ∧ rt.count = 0) := by
  unfold tfRateLeft
  by_cases hbad : rt.bad = 0
  · have hsub : rt.total - rt.count = rt.total ↔ rt.count = 0 := sub_eq_self
    rw [if_neg (fun h => h hbad), toInt32_inj, hsub]
    simp [hbad]
  · rw [if_pos hbad, show (0 : Int32) = (0 : UInt32).toInt32 from rfl, toInt32_inj]
    simp [hbad, eq_comm]

/-- The contents that nobody can tell from zeros. -/
def Unnoticed (mem : RateMem) (total seconds wait : UInt32) : Prop :=
  0 ≤ mem.time.toInt ∧
    ((mem.bad = 0 ∧ mem.count = 0 ∧
        (total = 0 ∨ wait = 0 ∨ mem.time = 0 ∨ (mem.time = 1 ∧ seconds ≤ 1))) ∨
      (mem.bad ≠ 0 ∧ total = 0 ∧ (mem.time = 0 ∨ (mem.bad = 1 ∧ wait = 0))))

instance (mem : RateMem) (total seconds wait : UInt32) : Decidable (Unnoticed mem total seconds wait) :=
  inferInstanceAs (Decidable (_ ∧ _))

theorem behavesReset_of_alike {rt : Rate} (hs : rt.Sane) (alike : Alike 0 rt (tfRateReset rt))
    (hleft : tfRateLeft rt = rt.total.toInt32) : BehavesReset rt := by
  have hzero : (0 : Int) ≤ 0 ∧ (0 : Int) < 2 ^ 63 := by decide
  have hreset : (tfRateReset rt).Sane := ⟨hzero, .inr hzero⟩
  constructor
  · intro es now hruns checks
    obtain ⟨rt', reset, answers, htrace, hother⟩ := alike.runs hruns hs hreset
    exact ⟨rt', answers, htrace, checks_idle rfl checks hother, checks_left hleft checks htrace⟩
  · intro es now hruns
    exact alike.runs hruns hs hreset

theorem toInt_eq_zero {x : Int64} : x.toInt = 0 ↔ x = 0 := Int64.toInt_inj (y := 0)

theorem toInt_eq_one {x : Int64} : x.toInt = 1 ↔ x = 1 := Int64.toInt_inj (y := 1)

theorem sane_rateNew {mem : RateMem} {total seconds wait : UInt32}
    (h : Unnoticed mem total seconds wait) : (rateNew mem total seconds wait).Sane := by
  obtain ⟨htime, hrest⟩ := h
  refine ⟨⟨htime, mem.time.toInt_lt⟩, ?_⟩
  have hzero : (0 : Int) ≤ 0 ∧ (0 : Int) < 2 ^ 63 := by decide
  have hone : (0 : Int) ≤ 1 ∧ (1 : Int) < 2 ^ 63 := by decide
  change (mem.time.toInt = 0 ∧ total = 0) ∨ 0 ≤ mem.bad.toInt ∧ mem.bad.toInt < 2 ^ 63
  rcases hrest with ⟨hbad, -⟩ | ⟨-, htotal, hidle | ⟨hbad, -⟩⟩
  · rw [toInt_eq_zero.mpr hbad]
    exact .inr hzero
  · exact .inl ⟨toInt_eq_zero.mpr hidle, htotal⟩
  · rw [toInt_eq_one.mpr hbad]
    exact .inr hone

theorem alike_rateNew {mem : RateMem} {total seconds wait : UInt32}
    (h : Unnoticed mem total seconds wait) :
    Alike 0 (rateNew mem total seconds wait) (tfRateReset (rateNew mem total seconds wait)) := by
  obtain ⟨-, hrest⟩ := h
  have hclosed : total = 0 → (mem.time = 0 ∨ mem.bad = 0) →
      Alike 0 (rateNew mem total seconds wait) (tfRateReset (rateNew mem total seconds wait)) := by
    intro htotal hnone
    refine .closed htotal htotal rfl ?_
    change (if mem.time.toInt = 0 then 0 else mem.bad.toInt) = 0
    rcases hnone with htime | hbad
    · rw [if_pos (toInt_eq_zero.mpr htime)]
    · rw [toInt_eq_zero.mpr hbad, ite_self]
  have hlenient : wait = 0 → mem.bad.toInt ≤ 1 →
      Alike 0 (rateNew mem total seconds wait) (tfRateReset (rateNew mem total seconds wait)) := by
    intro hwait hbad
    refine .lenient hwait hwait fun x _ hx => ⟨?_, Int.le_of_lt hx⟩
    change mem.bad.toInt ≤ x
    omega
  rcases hrest with ⟨hbad, hcount, hopen⟩ | ⟨-, htotal, hidle | ⟨hbad, hwait⟩⟩
  · by_cases htotal : total = 0
    · exact hclosed htotal (.inr hbad)
    · rcases hopen with hzero | hwait | htime | ⟨htime, hseconds⟩
      · exact absurd hzero htotal
      · exact hlenient hwait (by rw [toInt_eq_zero.mpr hbad]; decide)
      · have hsame : tfRateReset (rateNew mem total seconds wait) = rateNew mem total seconds wait := by
          rw [rateNew, toInt_eq_zero.mpr htime, toInt_eq_zero.mpr hbad, hcount]
          rfl
        rw [hsame]
        exact .same _
      · exact .early (toInt_eq_one.mpr htime) hseconds hcount (toInt_eq_zero.mpr hbad)
          (UInt32.pos_iff_ne_zero.mpr htotal)
  · exact hclosed htotal (.inl hidle)
  · exact hlenient hwait (by rw [toInt_eq_one.mpr hbad])

/-- A full count at the time `b`, an add of nothing at the time `a`, and a check right then: the
check blocks unless the add found the window expired. -/
def probe (total : UInt32) (b a : Int) : List RateEvent := [.add b total, .add a 0, .check a]

theorem probe_runs (total : UInt32) {b a : Int} (hb : 0 < b) (hle : b ≤ a) (ha : a < 2 ^ 63) :
    clock.Runs 0 (probe total b a) a := by
  refine .cons ⟨hb, Int.le_of_lt hb, Int.lt_of_le_of_lt hle ha⟩
    (.cons ⟨?_, hle, ha⟩ (.cons ⟨?_, ?_, ha⟩ (.nil _)))
  · exact Int.lt_of_lt_of_le hb hle
  · exact Int.lt_of_lt_of_le hb hle
  · exact Int.le_refl a

/-- A full limiter is good again only if its window is over. -/
theorem check_full {rt : Rate} (hfull : rt.count = rt.total) (htotal : rt.total ≠ 0)
    (hwait : rt.wait ≠ 0) {a : Int} (ha : 0 < a) :
    (tfRateCheck (tfRateAdd rt a 0) a).2 = rt.expired a := by
  cases hexp : rt.expired a with
  | true =>
      refine tfRateCheck_of_lt ?_ a
      simp only [tfRateAdd_eq, Rate.countAt, if_pos hexp, UInt32.zero_add]
      exact UInt32.pos_iff_ne_zero.mpr htotal
  | false =>
      have hcount : rt.countAt a + 0 = rt.total := by
        rw [UInt32.add_zero, Rate.countAt, hexp, if_neg Bool.false_ne_true, hfull]
      have hblocked : Penalized a (tfRateAdd rt a 0) := by
        simp only [tfRateAdd_eq, hcount, if_pos UInt32.le_rfl]
        exact ⟨Rate.openedAt_ne rt ha, Int.ne_of_gt ha, Int.le_refl a, UInt32.le_rfl⟩
      have hpos : 0 < (tfRateAdd rt a 0).wait.toNat := by
        rw [tfRateAdd_eq]
        exact Nat.pos_of_ne_zero fun hzero => hwait (UInt32.toNat_inj.mp hzero)
      exact hblocked.blocks (by omega)

/-- What the probe shows. -/
theorem probe_shows {rt rt' : Rate} (hcount : rt.count = 0) (htotal : rt.total ≠ 0)
    (hwait : rt.wait ≠ 0) {b a : Int} (hb : 0 < b) (hle : b ≤ a) {answers : List (Option Bool)}
    (h : trace rateCall rt (probe rt.total b a) = some (rt', answers)) :
    answers = [none, none, some (decide (rt.seconds.toNat ≤ a - rt.openedAt b))] := by
  obtain ⟨s, o, rest, hs, hafter, rfl⟩ := trace_cons_eq_some h
  obtain ⟨t, o', rest', ht, hlast, rfl⟩ := trace_cons_eq_some hafter
  obtain ⟨u, o'', rest'', hu, hend, rfl⟩ := trace_cons_eq_some hlast
  cases hend
  have hnone : rt.countAt b = 0 := by rw [Rate.countAt, hcount, ite_self]
  have hs := rateCall_eq_some hs
  simp only [Rate.after, tfRateAdd_eq, hnone, UInt32.zero_add, if_pos UInt32.le_rfl] at hs
  obtain ⟨rfl, rfl⟩ := Prod.mk.inj hs
  obtain ⟨rfl, rfl⟩ := Prod.mk.inj (rateCall_eq_some ht)
  obtain ⟨-, rfl⟩ := Prod.mk.inj (rateCall_eq_some hu)
  have hlook := @check_full ⟨rt.total, rt.total, rt.seconds, rt.wait, rt.openedAt b, b⟩ rfl htotal hwait
    a (Int.lt_of_lt_of_le hb hle)
  exact congrArg (fun good => [none, none, some good]) hlook

/-- Before a time that is not 0 the window opens elsewhere than in a limiter that was reset. -/
theorem early_of_behavesReset {rt : Rate} (h : BehavesReset rt) (hcount : rt.count = 0)
    (htotal : rt.total ≠ 0) (hwait : rt.wait ≠ 0) (hpos : 0 < rt.time) :
    rt.time = 1 ∧ rt.seconds ≤ 1 := by
  have hseconds := rt.seconds.toNat_lt
  -- whether the window is over at `a`, opened at `b` or by what the memory held
  have hagree : ∀ b a : Int, 0 < b → b ≤ a → a < 2 ^ 63 →
      ((rt.seconds.toNat : Int) ≤ a - rt.openedAt b ↔ (rt.seconds.toNat : Int) ≤ a - b) := by
    intro b a hb hle ha
    obtain ⟨rt', reset, answers, htrace, hother⟩ := h.later _ _ (probe_runs rt.total hb hle ha)
    have hshown := probe_shows hcount htotal hwait hb hle htrace
    have hreset := @probe_shows (tfRateReset rt) _ rfl htotal hwait _ _ hb hle _ hother
    have hopened : (tfRateReset rt).openedAt b = b := if_pos (.inr rfl)
    have hsame : (tfRateReset rt).seconds = rt.seconds := rfl
    rw [hopened, hshown, hsame] at hreset
    simpa using hreset
  by_cases hone : rt.time = 1
  · refine ⟨hone, ?_⟩
    by_contra hlong
    have hlong : 1 < rt.seconds.toNat := by
      rw [UInt32.le_iff_toNat_le] at hlong
      exact Nat.lt_of_not_le hlong
    have hopened : rt.openedAt 2 = 1 := by
      rw [Rate.openedAt, if_neg, hone]
      rw [Rate.expired_iff]
      omega
    have hcontra := hagree 2 (1 + rt.seconds.toNat) (by omega) (by omega) (by omega)
    rw [hopened] at hcontra
    omega
  · have hopened : rt.openedAt 1 = rt.time := by
      rw [Rate.openedAt, if_neg]
      rw [Rate.expired_iff]
      omega
    have hcontra := hagree 1 (1 + rt.seconds.toNat) (by omega) (by omega) (by omega)
    rw [hopened] at hcontra
    omega

/-- A difference that is as long as the clock can be is one of `time_t`. -/
theorem time_of_behavesReset {rt : Rate} (h : BehavesReset rt) : 0 ≤ rt.time := by
  have hruns : clock.Runs 0 [.add (2 ^ 63 - 1) 0] (2 ^ 63 - 1) :=
    .single (M := clock) (e := .add (2 ^ 63 - 1) 0) ⟨by decide, by decide, by decide⟩
  obtain ⟨rt', reset, answers, htrace, -⟩ := h.later _ _ hruns
  obtain ⟨s, o, rest, hs, -, -⟩ := trace_cons_eq_some htrace
  rw [rateCall, Option.bind_eq_bind, Option.bind_eq_some_iff] at hs
  obtain ⟨span, hspan, -⟩ := hs
  unfold int64 at hspan
  split at hspan
  · omega
  · cases hspan

/-- A penalty in a limiter without events is over at once, or it is not looked at. -/
theorem bad_of_behavesReset {rt : Rate} (h : BehavesReset rt) (htotal : rt.total = 0)
    (htime : rt.time ≠ 0) (hbad : rt.bad ≠ 0) : rt.bad = 1 ∧ rt.wait = 0 := by
  have hfull : rt.total ≤ rt.count := htotal ▸ UInt32.zero_le
  have hlast : ∀ now : Int, 0 < now → now < 2 ^ 63 →
      -2 ^ 63 ≤ now - rt.bad ∧ now - rt.bad < 2 ^ 63 ∧ (rt.wait.toNat : Int) ≤ now - rt.bad := by
    intro now hpos htop
    have hruns : clock.Runs 0 [.check now] now :=
      .single (M := clock) (e := .check now) ⟨hpos, Int.le_of_lt hpos, htop⟩
    obtain ⟨rt', answers, htrace, hgood, -⟩ := h.before _ _ hruns fun e he => by
      rw [List.mem_singleton.mp he]
      trivial
    obtain ⟨s, o, rest, hs, -, rfl⟩ := trace_cons_eq_some htrace
    have hshown : (tfRateCheck rt now).2 = true := by
      have hsome := hgood o List.mem_cons_self
      have hafter := (Prod.mk.inj (rateCall_eq_some hs)).2
      exact Option.some.inj (hafter.symm.trans hsome)
    rw [rateCall, if_pos ⟨htime, hfull, hbad⟩, Option.bind_eq_bind, Option.bind_eq_some_iff] at hs
    obtain ⟨span, hspan, -⟩ := hs
    unfold int64 at hspan
    split at hspan
    · rename_i hrange
      refine ⟨hrange.1, hrange.2, ?_⟩
      rcases tfRateCheck_cases rt now with ⟨-, hidle⟩ | ⟨-, -, -, ⟨hover, -⟩ | ⟨-, heq⟩⟩
      · rcases hidle with hzero | hlow | hnone
        · exact absurd hzero htime
        · exact absurd hlow (UInt32.not_lt.mpr hfull)
        · exact absurd hnone hbad
      · exact hover
      · rw [heq] at hshown
        cases hshown
    · cases hspan
  have hfirst := hlast 1 (by decide) (by decide)
  have hend := hlast (2 ^ 63 - 1) (by decide) (by decide)
  refine ⟨by omega, UInt32.toNat_inj.mp ?_⟩
  rw [UInt32.toNat_zero]
  omega

/-- The memory that `rate_new` got goes unnoticed in these cases and no others. -/
theorem rateNew_iff (mem : RateMem) (total seconds wait : UInt32) :
    BehavesReset (rateNew mem total seconds wait) ↔ Unnoticed mem total seconds wait := by
  constructor
  · intro h
    have htime := time_of_behavesReset h
    refine ⟨htime, ?_⟩
    obtain ⟨rt', answers, htrace, -, hleft⟩ := h.before [] 0 (.nil 0) fun e he =>
      absurd he List.not_mem_nil
    cases htrace
    rcases (left_iff _).mp hleft with ⟨hbad, htotal⟩ | ⟨hbad, hcount⟩
    · refine .inr ⟨fun hzero => hbad (toInt_eq_zero.mpr hzero), htotal, ?_⟩
      by_cases hidle : mem.time = 0
      · exact .inl hidle
      · obtain ⟨hone, hwait⟩ := bad_of_behavesReset h htotal
          (fun hzero => hidle (toInt_eq_zero.mp hzero)) hbad
        exact .inr ⟨toInt_eq_one.mp hone, hwait⟩
    · refine .inl ⟨toInt_eq_zero.mp hbad, hcount, ?_⟩
      by_cases htotal : total = 0
      · exact .inl htotal
      · by_cases hwait : wait = 0
        · exact .inr (.inl hwait)
        · by_cases hidle : mem.time = 0
          · exact .inr (.inr (.inl hidle))
          · have hne : mem.time.toInt ≠ 0 := fun hzero => hidle (toInt_eq_zero.mp hzero)
            have hpos : 0 < mem.time.toInt := lt_of_le_of_ne htime (Ne.symm hne)
            obtain ⟨hone, hseconds⟩ := early_of_behavesReset h hcount htotal hwait hpos
            exact .inr (.inr (.inr ⟨toInt_eq_one.mp hone, hseconds⟩))
  · intro h
    refine behavesReset_of_alike (sane_rateNew h) (alike_rateNew h) ((left_iff _).mpr ?_)
    rcases h.2 with ⟨hbad, hcount, -⟩ | ⟨hbad, htotal, -⟩
    · exact .inr ⟨toInt_eq_zero.mpr hbad, hcount⟩
    · exact .inl ⟨fun hzero => hbad (toInt_eq_zero.mp hzero), htotal⟩

/-- Five events that nobody counted. -/
theorem rateNew_dirty : ¬ BehavesReset (rateNew ⟨5, 0, 0⟩ 10 60 60) := by
  intro h
  obtain ⟨rt', answers, htrace, -, hleft⟩ := h.before [] 0 (.nil 0) fun e he =>
    absurd he List.not_mem_nil
  cases htrace
  exact absurd hleft (by decide)

end Tflib.Util
