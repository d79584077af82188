import Tflib.Core.Calls
import Tflib.Nac.State

/-! # The limit of open files

`adjust_peers_limit` of `config.c` raises the soft limit of open files. It asks
for less and less, 128 at a time, until `setrlimit` does not refuse. A number of
type `rlim_t` has 64 bits and no sign.
-/

namespace Tflib.Nac

open Tflib.Core Tflib.Core.Calls

/-- `struct rlimit` -/
structure Rlimit where
  rlimCur : UInt64
  rlimMax : UInt64
  deriving DecidableEq, Repr

/-- What is written to the log: the three messages with their numbers, or nothing. -/
inductive LimitNotice
  | unknown (maxNums : Int32)
  | unable (maxfiles maxNums : Int32)
  | set (maxfiles : Int32)
  | quiet
  deriving DecidableEq, Repr

/-- The program waits for the answer of `setrlimit`; `tried` are the soft limits it has asked for. -/
structure Adjusting where
  old : Rlimit
  f : UInt64
  tried : List UInt64
  deriving DecidableEq, Repr

/-- The limit that the process has in the end. -/
structure Adjusted where
  limit : Rlimit
  tried : List UInt64
  notice : LimitNotice
  deriving DecidableEq, Repr

def maxfiles : UInt64 := .ofNat (maxPeerNums + 32)

/-- `(int) n` -/
def rlimInt (n : UInt64) : Int32 := .ofNat n.toNat

/-- What follows the loop. -/
def conclude (limit : Rlimit) (oldlimit f : UInt64) (tried : List UInt64) : Adjusted :=
  let f := if f < oldlimit then oldlimit else f
  let notice := if f ≠ maxfiles then .unable (rlimInt maxfiles) (rlimInt (f - 32)) else .set (rlimInt maxfiles)
  ⟨limit, tried, notice⟩

/-- `while(f > oldlimit)`, up to the call of `setrlimit`. -/
def whileAbove (old : Rlimit) (f : UInt64) (tried : List UInt64) : Next Adjusting Adjusted :=
  if f > old.rlimCur then .again ⟨old, f, tried ++ [f]⟩ else .done (conclude old old.rlimCur f tried)

/-- `setrlimit` has answered. -/
def limitAnswered (s : Adjusting) (granted : Bool) : Next Adjusting Adjusted :=
  if granted then .done (conclude ⟨s.f, s.f⟩ s.old.rlimCur s.f s.tried)
  else whileAbove s.old (s.f - 128) s.tried

/-- `adjust_peers_limit`, up to its first call of `setrlimit`. -/
def adjustPeersLimit (known : Bool) (current : Rlimit) : Next Adjusting Adjusted :=
  if known then
    if current.rlimCur < maxfiles then whileAbove current maxfiles [] else .done ⟨current, [], .quiet⟩
  else .done ⟨current, [], .unknown (1024 - 32)⟩

/-- Where the function is after `k` answers of `setrlimit`. -/
def limitAfter (known : Bool) (current : Rlimit) (answers : Nat → Bool) (k : Nat) : Next Adjusting Adjusted :=
  after limitAnswered (adjustPeersLimit known current) answers k

def triedLimits : Next Adjusting Adjusted → List UInt64
  | .again s => s.tried
  | .done r => r.tried

/-- What is tried lies between the old limit and the wanted one and falls, the function returns after as many
answers as there are steps down to zero, and the soft limit is not lowered. -/
structure Adjusts (known : Bool) (current : Rlimit) (answers : Nat → Bool) : Prop where
  between : ∀ k, ∀ l ∈ triedLimits (limitAfter known current answers k),
    current.rlimCur < l ∧ l ≤ maxfiles
  falling : ∀ k, (triedLimits (limitAfter known current answers k)).Pairwise fun l l' => l' < l
  ends : (limitAfter known current answers ((maxPeerNums + 32) / 128 + 1)).IsDone
  kept : ∀ k r, limitAfter known current answers k = .done r → current.rlimCur ≤ r.limit.rlimCur

/-! ## The limits in turn -/

/-- The limit that is asked for after `k` refusals. -/
def rung (k : Nat) : UInt64 := .ofNat (maxPeerNums + 32 - 128 * k)

def ladder (k : Nat) : List UInt64 := (List.range k).map rung

theorem rung_toNat (k : Nat) : (rung k).toNat = 10032 - 128 * k :=
  UInt64.toNat_ofNat_of_lt' (Nat.lt_of_le_of_lt (Nat.sub_le _ _) (by decide))

theorem ladder_succ (k : Nat) : ladder (k + 1) = ladder k ++ [rung k] := by
  rw [ladder, List.range_succ, List.map_append]
  rfl

theorem rung_next {k : Nat} (h : k < 78) : rung k - 128 = rung (k + 1) := by
  have hk := rung_toNat k
  have hk' := rung_toNat (k + 1)
  have hle : (128 : UInt64) ≤ rung k := by
    rw [UInt64.le_iff_toNat_le, hk]
    change 128 ≤ _
    omega
  apply UInt64.toNat_inj.mp
  rw [UInt64.toNat_sub_of_le _ _ hle, hk, hk']
  change _ - 128 = _
  omega

theorem rung_lt_iff {k : Nat} {old : UInt64} : old < rung k ↔ old.toNat < 10032 - 128 * k := by
  rw [UInt64.lt_iff_toNat_lt, rung_toNat]

/-- The limits above the old one lie between it and the wanted one and fall. -/
theorem ladder_between {k : Nat} {old : UInt64} (h : ∀ i < k, old < rung i) :
    (∀ l ∈ ladder k, old < l ∧ l ≤ maxfiles) ∧ (ladder k).Pairwise fun l l' => l' < l := by
  refine ⟨fun l hl => ?_, ?_⟩
  · obtain ⟨i, hi, rfl⟩ := List.mem_map.mp hl
    refine ⟨h i (List.mem_range.mp hi), ?_⟩
    change rung i ≤ rung 0
    rw [UInt64.le_iff_toNat_le, rung_toNat, rung_toNat]
    omega
  · rw [ladder, List.pairwise_map, List.pairwise_iff_getElem]
    intro i j hi hj hij
    rw [List.length_range] at hi hj
    have hold := rung_lt_iff.mp (h i hi)
    rw [List.getElem_range, List.getElem_range, UInt64.lt_iff_toNat_lt, rung_toNat, rung_toNat]
    omega

/-! ## The run -/

/-- The state after `k` refusals. -/
def climbing (current : Rlimit) (k : Nat) : Adjusting := ⟨current, rung k, ladder (k + 1)⟩

theorem whileAbove_rung {current : Rlimit} {k : Nat} (h : current.rlimCur < rung k) :
    whileAbove current (rung k) (ladder k) = .again (climbing current k) := by
  rw [whileAbove, if_pos h, climbing, ladder_succ]

/-- A run that has been refused every time. -/
theorem limitAfter_refused {current : Rlimit} {answers : Nat → Bool} {k : Nat} (hk : k ≤ 78)
    (habove : current.rlimCur < rung k) (hrefused : ∀ i < k, answers i = false) :
    limitAfter true current answers k = .again (climbing current k) := by
  induction k with
  | zero =>
      change (if current.rlimCur < rung 0 then whileAbove current (rung 0) (ladder 0) else _) = _
      rw [if_pos habove, whileAbove_rung habove]
  | succ k ih =>
      have hold : current.rlimCur < rung k := by
        rw [rung_lt_iff] at habove ⊢
        omega
      have hprev := ih (Nat.le_of_succ_le hk) hold fun i hi => hrefused i (Nat.lt_succ_of_lt hi)
      rw [limitAfter, after_succ_of_again hprev, hrefused k (Nat.lt_succ_self k)]
      change whileAbove current (rung k - 128) (ladder (k + 1)) = _
      rw [rung_next hk, whileAbove_rung habove]

/-- Refused even the smallest limit, the program asks for nearly all that `rlim_t` can hold. -/
theorem limitAfter_wraps {current : Rlimit} {answers : Nat → Bool} (hlow : current.rlimCur < 48)
    (hrefused : ∀ i < 79, answers i = false) : ∃ s, limitAfter true current answers 79 = .again s := by
  have hrung : rung 78 = 48 := rfl
  have hlast := limitAfter_refused (Nat.le_refl 78) (hrung ▸ hlow) fun i hi => hrefused i (Nat.lt_succ_of_lt hi)
  have habove : rung 78 - 128 > current.rlimCur := by
    rw [UInt64.lt_iff_toNat_lt] at hlow
    change current.rlimCur < rung 78 - 128
    rw [UInt64.lt_iff_toNat_lt]
    exact Nat.lt_trans hlow (by decide)
  refine ⟨⟨current, rung 78 - 128, ladder 79 ++ [rung 78 - 128]⟩, ?_⟩
  rw [limitAfter, after_succ_of_again hlast, hrefused 78 (by decide)]
  change whileAbove current (rung 78 - 128) (ladder 79) = _
  rw [whileAbove, if_pos habove]

/-- Where a run can be: it tries the limits of the ladder, and what it returns does not lower the limit. -/
inductive Climbs (current : Rlimit) (answers : Nat → Bool) (k : Nat) : Next Adjusting Adjusted → Prop
  | again (hk : k ≤ 78) (above : ∀ i ≤ k, current.rlimCur < rung i) (refused : ∀ i < k, answers i = false) :
      Climbs current answers k (.again (climbing current k))
  | done {r : Adjusted} {j : Nat} (kept : current.rlimCur ≤ r.limit.rlimCur) (tried : r.tried = ladder j)
      (above : ∀ i < j, current.rlimCur < rung i) : Climbs current answers k (.done r)

/-- The old limit is out of reach of the subtraction, or one of the limits is granted. -/
def LimitFits (known : Bool) (current : Rlimit) (answers : Nat → Bool) : Prop :=
  known = false ∨ 48 ≤ current.rlimCur ∨ ∃ i < 79, answers i = true

namespace Climbs

variable {current : Rlimit} {answers : Nat → Bool} {k : Nat} {n : Next Adjusting Adjusted}

theorem tried_eq (h : Climbs current answers k n) :
    ∃ j, triedLimits n = ladder j ∧ ∀ i < j, current.rlimCur < rung i := by
  cases h with
  | again hk above refused => exact ⟨k + 1, rfl, fun i hi => above i (Nat.le_of_lt_succ hi)⟩
  | done kept tried above => exact ⟨_, tried, above⟩

theorem isDone (h : Climbs current answers k n) (hk : 78 < k) : n.IsDone := by
  cases h with
  | again hle above refused => exact absurd hle (Nat.not_le.mpr hk)
  | done kept tried above => trivial

theorem kept_le {r : Adjusted} (h : Climbs current answers k (.done r)) :
    current.rlimCur ≤ r.limit.rlimCur := by
  cases h with
  | done kept tried above => exact kept

end Climbs

theorem none_above {current : Rlimit} : ∀ i < 0, current.rlimCur < rung i := fun i hi =>
  absurd hi (Nat.not_lt_zero i)

/-- One more refusal leads to the next limit, or the old one is not below that. -/
theorem climbs_next {current : Rlimit} {answers : Nat → Bool} {k : Nat} (hk : k ≤ 78)
    (habove : ∀ i < k, current.rlimCur < rung i) (hrefused : ∀ i < k, answers i = false) :
    Climbs current answers k (whileAbove current (rung k) (ladder k)) := by
  by_cases hnext : current.rlimCur < rung k
  · rw [whileAbove_rung hnext]
    refine .again hk (fun i hi => ?_) hrefused
    rcases Nat.lt_or_eq_of_le hi with hi | rfl
    · exact habove i hi
    · exact hnext
  · rw [whileAbove, if_neg hnext]
    exact .done (UInt64.le_refl _) rfl habove

theorem climbs_start (known : Bool) (current : Rlimit) (answers : Nat → Bool) :
    Climbs current answers 0 (adjustPeersLimit known current) := by
  cases known with
  | false => exact .done (j := 0) (UInt64.le_refl _) rfl none_above
  | true =>
      change Climbs current answers 0 (if current.rlimCur < rung 0 then whileAbove current (rung 0) (ladder 0)
        else _)
      by_cases habove : current.rlimCur < rung 0
      · rw [if_pos habove]
        exact climbs_next (Nat.zero_le _) none_above fun i hi => absurd hi (Nat.not_lt_zero i)
      · rw [if_neg habove]
        exact .done (j := 0) (UInt64.le_refl _) rfl none_above

/-- A step of the run. -/
theorem climbs_step {current : Rlimit} {answers : Nat → Bool} (hfits : LimitFits true current answers)
    {k : Nat} {s : Adjusting} (h : Climbs current answers k (.again s)) :
    Climbs current answers (k + 1) (limitAnswered s (answers k)) := by
  cases h with
  | again hk habove hrefused =>
      have hladder : ∀ i < k + 1, current.rlimCur < rung i := fun i hi => habove i (Nat.le_of_lt_succ hi)
      cases hanswer : answers k with
      | true => exact .done (UInt64.le_of_lt (habove k (Nat.le_refl k))) rfl hladder
      | false =>
          have hrefused' : ∀ i < k + 1, answers i = false := fun i hi =>
            (Nat.lt_succ_iff_lt_or_eq.mp hi).elim (hrefused i) fun heq => heq ▸ hanswer
          change Climbs current answers (k + 1) (whileAbove current (rung k - 128) (ladder (k + 1)))
          rcases Nat.lt_or_eq_of_le hk with hlt | rfl
          · rw [rung_next hlt]
            exact climbs_next hlt hladder hrefused'
          · -- nothing is left to subtract from
            rcases hfits with hknown | hlow | ⟨i, hi, hgranted⟩
            · cases hknown
            · exact absurd (habove 78 (Nat.le_refl 78)) (UInt64.not_lt.mpr hlow)
            · rw [hrefused' i hi] at hgranted
              cases hgranted

theorem climbs_after {known : Bool} {current : Rlimit} {answers : Nat → Bool}
    (hfits : LimitFits known current answers) (k : Nat) :
    Climbs current answers k (limitAfter known current answers k) := by
  cases known with
  | false =>
      have hdone : limitAfter false current answers k = adjustPeersLimit false current := after_done_start _ _ k
      rw [hdone]
      exact .done (j := 0) (UInt64.le_refl _) rfl none_above
  | true =>
      refine after_invariant (climbs_start true current answers) (fun k s _ h => climbs_step hfits h)
        (fun k r _ h => ?_) k
      cases h with
      | done kept tried above => exact .done kept tried above

/-- The limits that are tried are in order where the soft limit is at least 48, or not all of the first 79
attempts are refused. -/
theorem adjusts_iff (known : Bool) (current : Rlimit) (answers : Nat → Bool) :
    Adjusts known current answers ↔ LimitFits known current answers := by
  constructor
  · intro h
    by_contra hfits
    rw [LimitFits, not_or, not_or] at hfits
    obtain ⟨hknown, hlow, hnone⟩ := hfits
    rw [Bool.not_eq_false] at hknown
    subst hknown
    have hrefused : ∀ i < 79, answers i = false := fun i hi =>
      Bool.not_eq_true _ ▸ fun hgranted => hnone ⟨i, hi, hgranted⟩
    obtain ⟨s, hs⟩ := limitAfter_wraps (UInt64.not_le.mp hlow) hrefused
    have hends := h.ends
    change (limitAfter true current answers 79).IsDone at hends
    rw [hs] at hends
    exact hends
  · intro hfits
    have hclimbs := climbs_after hfits
    refine ⟨fun k => ?_, fun k => ?_, (hclimbs _).isDone (by decide), fun k r hr => ?_⟩
    · obtain ⟨j, hj, habove⟩ := (hclimbs k).tried_eq
      exact hj ▸ (ladder_between habove).1
    · obtain ⟨j, hj, habove⟩ := (hclimbs k).tried_eq
      exact hj ▸ (ladder_between habove).2
    · exact (hr ▸ hclimbs k).kept_le

/-- A process that may open no file and is refused every time never comes back. -/
theorem adjusts_fails_refused : ¬ ∀ known current answers, Adjusts known current answers := by
  intro h
  obtain ⟨s, hs⟩ := @limitAfter_wraps ⟨0, 0⟩ (fun _ => false) (by decide) fun _ _ => rfl
  have hends := (h true ⟨0, 0⟩ fun _ => false).ends
  change (limitAfter true ⟨0, 0⟩ (fun _ => false) 79).IsDone at hends
  rw [hs] at hends
  exact hends

end Tflib.Nac
