import Mathlib.Logic.Function.Basic

/-! # Mixing

A step that loses nothing of its state and nothing of what it takes in. Two runs of
such a step that differ in one place of their input end apart.
-/

namespace Tflib.Core

open Function

variable {w : Nat} {σ κ : Type} {step : σ → κ → σ}

/-- The bits agree from the top down: the shift brings to each place one from above. -/
theorem xorShift_injective {k : Nat} (hk : 0 < k) :
    Injective fun x : BitVec w => x ^^^ x >>> k := fun x y h => by
  have htop : ∀ d i, w ≤ i + d → x.getLsbD i = y.getLsbD i := by
    intro d
    induction d with
    | zero =>
        intro i hi
        rw [BitVec.getLsbD_of_ge x i hi, BitVec.getLsbD_of_ge y i hi]
    | succ d ih =>
        intro i hi
        have hbit := congrArg (fun z => z.getLsbD i) h
        simp only [BitVec.getLsbD_xor, BitVec.getLsbD_ushiftRight] at hbit
        rw [ih (k + i) (by omega)] at hbit
        exact Bool.xor_left_inj.mp hbit
  exact BitVec.eq_of_getLsbD_eq fun i _ => htop w i (Nat.le_add_left w i)

/-- The state after the first `n` inputs. -/
def intake (step : σ → κ → σ) (s : σ) (f : Nat → κ) : Nat → σ
  | 0 => s
  | n + 1 => step (intake step s f n) (f n)

theorem intake_succ (s : σ) (f : Nat → κ) (n : Nat) :
    intake step s f (n + 1) = intake step (step s (f 0)) (fun i => f (i + 1)) n := by
  induction n with
  | zero => rfl
  | succ n ih => rw [intake, ih, intake]

theorem intake_congr {f g : Nat → κ} {n : Nat} (h : ∀ j < n, f j = g j) (s : σ) :
    intake step s f n = intake step s g n := by
  induction n with
  | zero => rfl
  | succ n ih =>
      rw [intake, intake, ih fun j hj => h j (Nat.lt_succ_of_lt hj), h n (Nat.lt_succ_self n)]

theorem intake_injective (hstate : ∀ k, Injective (step · k)) (f : Nat → κ) (n : Nat) :
    Injective (intake step · f n) := by
  induction n with
  | zero => exact injective_id
  | succ n ih => exact (hstate (f n)).comp ih

/-- Inputs that differ in one place at most. -/
theorem intake_eq_iff (hstate : ∀ k, Injective (step · k)) (hinput : ∀ s, Injective (step s))
    {f g : Nat → κ} {n i : Nat} (h : ∀ j < n, j ≠ i → f j = g j) (s : σ) :
    intake step s f n = intake step s g n ↔ ∀ j < n, f j = g j := by
  refine ⟨fun heq => ?_, fun hall => intake_congr hall s⟩
  induction n with
  | zero => exact fun j hj => absurd hj (Nat.not_lt_zero j)
  | succ n ih =>
      have hbelow : ∀ j < n, j ≠ i → f j = g j := fun j hj => h j (Nat.lt_succ_of_lt hj)
      rw [intake, intake] at heq
      intro j hj
      obtain rfl | hlt := Nat.eq_or_lt_of_le (Nat.le_of_lt_succ hj)
      · by_cases hji : j = i
        · rw [intake_congr (fun k hk => hbelow k hk (by omega)) s] at heq
          exact hinput _ heq
        · exact h j hj hji
      · by_cases hni : n = i
        · exact hbelow j hlt (by omega)
        · rw [h n (Nat.lt_succ_self n) hni] at heq
          exact ih hbelow (hstate (g n) heq) j hlt

end Tflib.Core
