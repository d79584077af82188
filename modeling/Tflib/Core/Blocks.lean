import Mathlib.Data.List.Basic

/-! # Input taken in blocks

A machine takes its input in blocks of `n` elements and keeps what does not fill a
block until more comes. What it has done depends only on the concatenation of all
that it was given, not on where one piece ended and the next began.
-/

namespace Tflib.Core

variable {α σ : Type} {n : Nat}

/-- The full blocks of `n` elements. -/
def blocks (n : Nat) (l : List α) : List (List α) :=
  (List.range (l.length / n)).map fun i => (l.drop (n * i)).take n

/-- What is left behind the full blocks. -/
def leftover (n : Nat) (l : List α) : List α := l.drop (n * (l.length / n))

theorem blocks_of_lt {l : List α} (h : l.length < n) : blocks n l = [] := by
  rw [blocks, Nat.div_eq_of_lt h]
  rfl

theorem leftover_of_lt {l : List α} (h : l.length < n) : leftover n l = l := by
  rw [leftover, Nat.div_eq_of_lt h]
  rfl

theorem length_div_of_block (hn : 0 < n) {b : List α} (hb : b.length = n) (l : List α) :
    (b ++ l).length / n = l.length / n + 1 := by
  rw [List.length_append, hb, Nat.add_comm, Nat.add_div_right _ hn]

theorem blocks_block_append (hn : 0 < n) {b : List α} (hb : b.length = n) (l : List α) :
    blocks n (b ++ l) = b :: blocks n l := by
  rw [blocks, length_div_of_block hn hb, List.range_succ_eq_map, List.map_cons, List.map_map]
  congr 1
  · rw [Nat.mul_zero, List.drop_zero, ← hb, List.take_left]
  · refine List.map_congr_left fun i _ => ?_
    have hdrop : (b ++ l).drop (n * (i + 1)) = l.drop (n * i) := by
      rw [Nat.mul_succ, Nat.add_comm, ← List.drop_drop, ← hb, List.drop_left]
    exact congrArg (List.take n) hdrop

theorem leftover_block_append (hn : 0 < n) {b : List α} (hb : b.length = n) (l : List α) :
    leftover n (b ++ l) = leftover n l := by
  have hdrop : (b ++ l).drop n = l := by rw [← hb, List.drop_left]
  rw [leftover, length_div_of_block hn hb, Nat.mul_succ, Nat.add_comm, ← List.drop_drop, hdrop, leftover]

/-- A list is short, or it starts with a block. -/
theorem block_induction (hn : 0 < n) {p : List α → Prop} (short : ∀ l, l.length < n → p l)
    (block : ∀ b l, b.length = n → p l → p (b ++ l)) (l : List α) : p l := by
  induction hk : l.length using Nat.strongRecOn generalizing l with
  | ind k ih =>
      by_cases hlt : l.length < n
      · exact short l hlt
      · rw [← List.take_append_drop n l]
        refine block _ _ (List.length_take_of_le (by omega)) (ih (l.drop n).length ?_ _ rfl)
        rw [List.length_drop]
        omega

theorem length_leftover (l : List α) : (leftover n l).length = l.length % n := by
  rw [leftover, List.length_drop, Nat.mod_eq_sub]

theorem blocks_append (hn : 0 < n) (l l' : List α) :
    blocks n (l ++ l') = blocks n l ++ blocks n (leftover n l ++ l') := by
  induction l using block_induction hn with
  | short l hl => rw [blocks_of_lt hl, leftover_of_lt hl, List.nil_append]
  | block b l hb ih =>
      rw [List.append_assoc, blocks_block_append hn hb, ih, blocks_block_append hn hb,
        leftover_block_append hn hb, List.cons_append]

theorem leftover_append (hn : 0 < n) (l l' : List α) :
    leftover n (l ++ l') = leftover n (leftover n l ++ l') := by
  induction l using block_induction hn with
  | short l hl => rw [leftover_of_lt hl]
  | block b l hb ih =>
      rw [List.append_assoc, leftover_block_append hn hb, ih, leftover_block_append hn hb]

/-! ## Machines -/

/-- What a machine has done with its blocks, and what it keeps. -/
structure Absorbed (α σ : Type) where
  state : σ
  kept : List α

/-- `l` comes after what the machine keeps. -/
def absorb (n : Nat) (step : σ → List α → σ) (s : Absorbed α σ) (l : List α) : Absorbed α σ where
  state := (blocks n (s.kept ++ l)).foldl step s.state
  kept := leftover n (s.kept ++ l)

variable {step : σ → List α → σ} {s : Absorbed α σ}

theorem absorb_short {l : List α} (h : (s.kept ++ l).length < n) :
    absorb n step s l = ⟨s.state, s.kept ++ l⟩ := by
  rw [absorb, blocks_of_lt h, leftover_of_lt h]
  rfl

/-- What is kept is made up to a block first. -/
theorem absorb_fill (hn : 0 < n) {b : List α} (hb : (s.kept ++ b).length = n) (l : List α) :
    absorb n step s (b ++ l) = absorb n step ⟨step s.state (s.kept ++ b), []⟩ l := by
  simp only [absorb]
  rw [← List.append_assoc, blocks_block_append hn hb, leftover_block_append hn hb, List.nil_append,
    List.foldl_cons]

theorem absorb_block (hn : 0 < n) {b : List α} (hb : (s.kept ++ b).length = n) :
    absorb n step s b = ⟨step s.state (s.kept ++ b), []⟩ := by
  have hfill := @absorb_fill _ _ n step s hn b hb []
  have hnone : absorb n step ⟨step s.state (s.kept ++ b), []⟩ [] = ⟨step s.state (s.kept ++ b), []⟩ :=
    absorb_short hn
  rwa [List.append_nil, hnone] at hfill

theorem absorb_absorb (hn : 0 < n) (l l' : List α) :
    absorb n step (absorb n step s l) l' = absorb n step s (l ++ l') := by
  simp only [absorb]
  rw [← List.append_assoc, blocks_append hn (s.kept ++ l) l', leftover_append hn (s.kept ++ l) l',
    List.foldl_append]

end Tflib.Core
