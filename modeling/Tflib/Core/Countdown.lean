/-! # Counters that wrap

A counter with `size` values is loaded with a number and decremented until it
shows zero. Loaded with zero it goes once around before it does. The rules below
say what such a counter shows after so many decrements, and when it stops.
-/

namespace Tflib.Core

/-- One decrement: zero wraps to the largest value. -/
def dec (size c : Nat) : Nat := if c = 0 then size - 1 else c - 1

/-- How many decrements take a counter that was loaded with `n` to zero. -/
def period (size n : Nat) : Nat := if n = 0 then size else n

theorem period_cases (size n : Nat) : (n = 0 ∧ period size n = size) ∨ (n ≠ 0 ∧ period size n = n) := by
  unfold period
  split
  · exact .inl ⟨‹_›, rfl⟩
  · exact .inr ⟨‹_›, rfl⟩

/-- A counter that was loaded with `n` shows `c` after `a` decrements, and none of them reached
zero. -/
structure Counts (size n a c : Nat) : Prop where
  running : a < period size n
  shown : c = if a = 0 then n else period size n - a

namespace Counts

variable {size n a c : Nat}

theorem load (hn : n < size) : Counts size n 0 n where
  running := by
    rcases period_cases size n with ⟨hzero, hp⟩ | ⟨hne, hp⟩ <;> omega
  shown := rfl

theorem dec_shown (h : Counts size n a c) : dec size c = period size n - (a + 1) := by
  obtain ⟨hrunning, hshown⟩ := h
  have hcases := period_cases size n
  unfold dec
  split at hshown
  all_goals
    split
    all_goals omega

/-- The decrement that reaches zero is the one that completes the period. -/
theorem dec_eq_zero_iff (h : Counts size n a c) : dec size c = 0 ↔ a + 1 = period size n := by
  have hrunning := h.running
  rw [h.dec_shown]
  omega

theorem next (h : Counts size n a c) (hne : dec size c ≠ 0) :
    Counts size n (a + 1) (dec size c) where
  running := by
    have hrunning := h.running
    have hlast := mt h.dec_eq_zero_iff.mpr hne
    omega
  shown := by rw [h.dec_shown, if_neg (Nat.succ_ne_zero a)]

theorem shown_le (h : Counts size n a c) : c ≤ period size n := by
  obtain ⟨hrunning, hshown⟩ := h
  have hcases := period_cases size n
  split at hshown
  all_goals omega

/-- A counter that was loaded with more than zero never shows zero while it runs. -/
theorem pos (h : Counts size n a c) (hn : n ≠ 0) : 1 ≤ c := by
  obtain ⟨hrunning, hshown⟩ := h
  have hcases := period_cases size n
  split at hshown
  all_goals omega

end Counts

theorem toNat_sub_one (c : UInt16) : (c - 1).toNat = dec 65536 c.toNat := by
  have hc := c.toNat_lt
  rw [UInt16.toNat_sub, dec]
  have hone : (1 : UInt16).toNat = 1 := rfl
  split <;> omega

end Tflib.Core
