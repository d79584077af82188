import Tflib.Expert.Md5Standard

/-! # The core of MD5

The 64 lines of `MD5Transform` assign to its four variables in turn; round `i` of the
digest finds them in the order that line `i` names them.
-/

namespace Tflib.Expert

open Tflib.Core

/-! ## The functions -/

/-- The optimized form of `F1`. -/
theorem f1_eq (x y z : UInt32) : f1 x y z = Digest.choose x y z := by
  have hbit : ∀ a b c : Bool, (c ^^ (a && (b ^^ c))) = (a && b || !a && c) := by decide
  apply UInt32.toBitVec_inj.mp
  apply BitVec.eq_of_getLsbD_eq
  intro i hi
  simp only [f1, Digest.choose, UInt32.toBitVec_xor, UInt32.toBitVec_and, UInt32.toBitVec_or,
    UInt32.toBitVec_not, BitVec.getLsbD_xor, BitVec.getLsbD_and, BitVec.getLsbD_or, BitVec.getLsbD_not, hi,
    decide_true, Bool.true_and]
  exact hbit _ _ _

/-- `F2` is `F1` with its arguments in another order. -/
theorem f2_eq (x y z : UInt32) : f2 x y z = (x &&& z) ||| (y &&& ~~~z) := by
  rw [f2, f1_eq, Digest.choose, UInt32.and_comm z x, UInt32.and_comm (~~~z) y]

/-- The function of the lines of a pass. -/
def passFun (i : Nat) : Fun :=
  match i / 16 with
  | 0 => .F1
  | 1 => .F2
  | 2 => .F3
  | _ => .F4

theorem passFun_apply (i : Nat) : (passFun i).apply = Digest.function i := by
  funext x y z
  unfold passFun Digest.function
  generalize i / 16 = pass
  match pass with
  | 0 => exact f1_eq x y z
  | 1 => exact f2_eq x y z
  | 2 => rfl
  | _ + 3 => rfl

/-! ## The lines -/

/-- Line `i`. -/
def lineOf (i : Nat) : Step :=
  match i % 4 with
  | 0 => ⟨passFun i, .a, .b, .c, .d, Digest.index i, Digest.sines.getD i 0, Digest.shift i⟩
  | 1 => ⟨passFun i, .d, .a, .b, .c, Digest.index i, Digest.sines.getD i 0, Digest.shift i⟩
  | 2 => ⟨passFun i, .c, .d, .a, .b, Digest.index i, Digest.sines.getD i 0, Digest.shift i⟩
  | _ => ⟨passFun i, .b, .c, .d, .a, Digest.index i, Digest.sines.getD i 0, Digest.shift i⟩

theorem steps_eq : steps = (List.range 64).map lineOf := by
  decide +kernel

/-- What round `i` calls `a`, `b`, `c` and `d`. -/
def view (i : Nat) (v : Chain) : Chain :=
  match i % 4 with
  | 0 => v
  | 1 => ⟨v.d, v.a, v.b, v.c⟩
  | 2 => ⟨v.c, v.d, v.a, v.b⟩
  | _ => ⟨v.b, v.c, v.d, v.a⟩

/-- A line is a round. -/
theorem view_step (inn : Nat → UInt32) (v : Chain) (i : Nat) :
    view (i + 1) (md5Step inn v (lineOf i)) = Digest.round inn (view i v) i := by
  have hcases : i % 4 = 0 ∧ (i + 1) % 4 = 1 ∨ i % 4 = 1 ∧ (i + 1) % 4 = 2 ∨
      i % 4 = 2 ∧ (i + 1) % 4 = 3 ∨ i % 4 = 3 ∧ (i + 1) % 4 = 0 := by omega
  rcases hcases with ⟨h, h'⟩ | ⟨h, h'⟩ | ⟨h, h'⟩ | ⟨h, h'⟩
  all_goals
    simp only [view, lineOf, h, h', md5Step, Chain.get, Chain.set, passFun_apply, Digest.round]
    rw [UInt32.add_comm (rotated _ _), UInt32.add_assoc, UInt32.add_assoc]

theorem view_run (inn : Nat → UInt32) (v : Chain) (n : Nat) :
    view n ((List.range n).foldl (fun v i => md5Step inn v (lineOf i)) v) =
      (List.range n).foldl (Digest.round inn) v := by
  induction n with
  | zero => rfl
  | succ n ih =>
      rw [List.range_succ, List.foldl_append, List.foldl_append, List.foldl_cons, List.foldl_nil,
        List.foldl_cons, List.foldl_nil, view_step, ih]

theorem md5Transform_eq (buf : Chain) (inn : Nat → UInt32) :
    md5Transform buf inn = Digest.compressWords buf inn := by
  have hrun := view_run inn buf 64
  have hview : ∀ v, view 64 v = v := fun _ => rfl
  rw [hview] at hrun
  rw [md5Transform, steps_eq, List.foldl_map, hrun]
  rfl

theorem index_lt (i : Nat) : Digest.index i < 16 := by
  unfold Digest.index
  split
  all_goals exact Nat.mod_lt _ (by decide)

/-- Sixteen words are all that is read. -/
theorem compressWords_congr {words words' : Nat → UInt32} (h : ∀ i < 16, words i = words' i) (s : Chain) :
    Digest.compressWords s words = Digest.compressWords s words' := by
  have hround : Digest.round words = Digest.round words' := by
    funext s i
    rw [Digest.round, Digest.round, h _ (index_lt i)]
  rw [Digest.compressWords, Digest.compressWords, hround]

end Tflib.Expert
