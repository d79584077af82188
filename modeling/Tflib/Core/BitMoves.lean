import Mathlib.Data.List.Induction
import Mathlib.Data.Nat.Bitwise

/-! # Moving bits about

Exchanges of bits between two words by a shift and a mask, selections of bits by
a table, and maps that respect exclusive or, which are known from what they do to
single bits.
-/

namespace Tflib.Core

variable {m n w : Nat}

/-! ## Maps that are known from single bits -/

/-- Two maps that respect a way to put words together agree when they do on single
bits: agreement spreads from the lower bits to all. -/
theorem eq_of_twoPow {op : BitVec m → BitVec m → BitVec m} {op' : BitVec n → BitVec n → BitVec n}
    (hop : ∀ x k, x.getLsbD k = true → op (x ^^^ BitVec.twoPow m k) (BitVec.twoPow m k) = x)
    {f g : BitVec m → BitVec n} (hf : ∀ x y, f (op x y) = op' (f x) (f y))
    (hg : ∀ x y, g (op x y) = op' (g x) (g y)) (hzero : f 0#m = g 0#m)
    (h : ∀ i < m, f (BitVec.twoPow m i) = g (BitVec.twoPow m i)) (x : BitVec m) : f x = g x := by
  have hlow : ∀ k ≤ m, ∀ x : BitVec m, (∀ i ≥ k, x.getLsbD i = false) → f x = g x := by
    intro k
    induction k with
    | zero =>
        intro _ x hx
        have hx0 : x = 0#m := BitVec.eq_of_getLsbD_eq fun i _ => by simp [hx i (Nat.zero_le i)]
        rw [hx0, hzero]
    | succ k ih =>
        intro hk x hx
        cases hbit : x.getLsbD k with
        | false =>
            refine ih (by omega) x fun i hi => ?_
            obtain rfl | hlt := Nat.eq_or_lt_of_le hi
            · exact hbit
            · exact hx i hlt
        | true =>
            have hrest : f (x ^^^ BitVec.twoPow m k) = g (x ^^^ BitVec.twoPow m k) := by
              refine ih (by omega) _ fun i hi => ?_
              rw [BitVec.getLsbD_xor, BitVec.getLsbD_twoPow]
              obtain rfl | hlt := Nat.eq_or_lt_of_le hi
              · simp [hbit, show k < m by omega]
              · have hne : k ≠ i := by omega
                simp [hx i hlt, hne]
            calc f x = op' (f (x ^^^ BitVec.twoPow m k)) (f (BitVec.twoPow m k)) := by
                  rw [← hf, hop x k hbit]
              _ = op' (g (x ^^^ BitVec.twoPow m k)) (g (BitVec.twoPow m k)) := by
                  rw [hrest, h k (by omega)]
              _ = g x := by rw [← hg, hop x k hbit]
  exact hlow m (Nat.le_refl m) x fun i hi => BitVec.getLsbD_of_ge x i hi

theorem eq_of_twoPow_or {f g : BitVec m → BitVec n} (hf : ∀ x y, f (x ||| y) = f x ||| f y)
    (hg : ∀ x y, g (x ||| y) = g x ||| g y) (hzero : f 0#m = g 0#m)
    (h : ∀ i < m, f (BitVec.twoPow m i) = g (BitVec.twoPow m i)) (x : BitVec m) : f x = g x := by
  refine eq_of_twoPow (fun x k hbit => ?_) hf hg hzero h x
  apply BitVec.eq_of_getLsbD_eq
  intro i _
  rw [BitVec.getLsbD_or, BitVec.getLsbD_xor, BitVec.getLsbD_twoPow]
  by_cases hik : k = i
  · subst hik
    simp_all
  · simp [hik]

theorem xor_xor_cancel (x t : BitVec w) : x ^^^ t ^^^ t = x := by
  rw [BitVec.xor_assoc, BitVec.xor_self, BitVec.xor_zero]

/-! ## Maps that respect exclusive or -/

instance xorOpProd {α β : Type} [XorOp α] [XorOp β] : XorOp (α × β) where
  xor a b := (a.1 ^^^ b.1, a.2 ^^^ b.2)

def XorLinear {α β : Type} [XorOp α] [XorOp β] (f : α → β) : Prop :=
  ∀ x y, f (x ^^^ y) = f x ^^^ f y

theorem xor_and (x y z : BitVec w) : (x ^^^ y) &&& z = x &&& z ^^^ y &&& z := by
  apply BitVec.eq_of_getLsbD_eq
  intro i _
  simp only [BitVec.getLsbD_and, BitVec.getLsbD_xor]
  exact Bool.and_xor_distrib_right _ _ _

namespace XorLinear

section

variable {α β γ δ : Type} [XorOp α] [XorOp β] [XorOp γ] [XorOp δ]

theorem comp {g : β → γ} {f : α → β} (hg : XorLinear g) (hf : XorLinear f) :
    XorLinear fun x => g (f x) := fun x y => by
  dsimp only
  rw [hf, hg]

theorem id : XorLinear fun x : α => x := fun _ _ => rfl

theorem map {f : α → β} {g : γ → δ} (hf : XorLinear f) (hg : XorLinear g) :
    XorLinear (Prod.map f g) := fun x y => Prod.ext (hf x.1 y.1) (hg x.2 y.2)

theorem swap : XorLinear (Prod.swap : α × β → β × α) := fun _ _ => rfl

end

theorem extractLsb' (k n : Nat) : XorLinear fun x : BitVec m => x.extractLsb' k n := fun x y => by
  apply BitVec.eq_of_getLsbD_eq
  intro i hi
  simp [hi]

theorem append : XorLinear fun b : BitVec m × BitVec n => b.1 ++ b.2 := fun x y => by
  apply BitVec.eq_of_getLsbD_eq
  intro i hi
  change ((x.1 ^^^ y.1) ++ (x.2 ^^^ y.2)).getLsbD i = ((x.1 ++ x.2) ^^^ (y.1 ++ y.2)).getLsbD i
  simp only [BitVec.getLsbD_xor, BitVec.getLsbD_append]
  split <;> rfl

variable {f g : BitVec m → BitVec n}

theorem map_zero (hf : XorLinear f) : f 0#m = 0#n := by
  have h := hf 0#m 0#m
  rwa [BitVec.xor_self, BitVec.xor_self] at h

theorem ext (hf : XorLinear f) (hg : XorLinear g)
    (h : ∀ i < m, f (BitVec.twoPow m i) = g (BitVec.twoPow m i)) (x : BitVec m) : f x = g x :=
  eq_of_twoPow (fun x _ _ => xor_xor_cancel x _) hf hg (hf.map_zero.trans hg.map_zero.symm) h x

end XorLinear

/-! ## Words that hold a narrower one -/

/-- `x` has no bit from `n` on. -/
def Narrow (n : Nat) (x : BitVec w) : Prop := ∀ i ≥ n, x.getLsbD i = false

namespace Narrow

variable {x y : BitVec w}

theorem xor (hx : Narrow n x) (hy : Narrow n y) : Narrow n (x ^^^ y) := fun i hi => by
  rw [BitVec.getLsbD_xor, hx i hi, hy i hi, Bool.xor_false]

theorem or (hx : Narrow n x) (hy : Narrow n y) : Narrow n (x ||| y) := fun i hi => by
  rw [BitVec.getLsbD_or, hx i hi, hy i hi, Bool.or_false]

theorem and_right (x : BitVec w) (hy : Narrow n y) : Narrow n (x &&& y) := fun i hi => by
  rw [BitVec.getLsbD_and, hy i hi, Bool.and_false]

theorem ofNat {k : Nat} (h : k < 2 ^ n) : Narrow n (BitVec.ofNat w k) := fun i hi => by
  rw [BitVec.getLsbD_ofNat, Nat.testBit_lt_two_pow (h.trans_le (Nat.pow_le_pow_right (by omega) hi)),
    Bool.and_false]

theorem setWidth_shiftRight (hx : Narrow n x) (k : Nat) :
    (x >>> k).setWidth n = x.setWidth n >>> k := by
  apply BitVec.eq_of_getLsbD_eq
  intro i hi
  simp only [BitVec.getLsbD_setWidth, BitVec.getLsbD_ushiftRight]
  by_cases hki : k + i < n
  · simp [hi, hki]
  · simp [hx (k + i) (by omega)]

theorem toNat_setWidth (hx : Narrow n x) : (x.setWidth n).toNat = x.toNat := by
  rw [BitVec.toNat_setWidth, Nat.mod_eq_of_lt (Nat.lt_pow_two_of_testBit x.toNat hx)]

theorem setWidth_setWidth (hx : Narrow n x) : (x.setWidth n).setWidth w = x := by
  apply BitVec.eq_of_getLsbD_eq
  intro i hi
  simp only [BitVec.getLsbD_setWidth]
  by_cases hin : i < n
  · simp [hi, hin]
  · simp [hx i (by omega)]

theorem setWidth (x : BitVec n) (w : Nat) : Narrow n (x.setWidth w) := fun i hi => by
  rw [BitVec.getLsbD_setWidth, BitVec.getLsbD_of_ge x i hi, Bool.and_false]

end Narrow

/-- Bits that are moved down and kept by a mask, where it keeps those from above `n` out. -/
theorem setWidth_shiftRight_and {mask k : Nat} (hn : n ≤ w) (hmask : mask < 2 ^ (n - k))
    (x : BitVec w) : (x >>> k &&& BitVec.ofNat w mask).setWidth n =
      x.setWidth n >>> k &&& BitVec.ofNat n mask := by
  apply BitVec.eq_of_getLsbD_eq
  intro i hi
  have hlow : ¬ k + i < n → mask.testBit i = false := fun hge =>
    Nat.testBit_lt_two_pow (hmask.trans_le (Nat.pow_le_pow_right (by omega) (by omega)))
  simp only [BitVec.getLsbD_setWidth, BitVec.getLsbD_and, BitVec.getLsbD_ushiftRight,
    BitVec.getLsbD_ofNat]
  by_cases hki : k + i < n
  · simp [hi, hki, show i < w by omega]
  · simp [hlow hki]

/-! ## Exchanges -/

/-- The bits of the second word under `mask` change places with those of the first
that lie `k` higher: `t = ((a >> k) ^ b) & mask; b ^= t; a ^= t << k`. -/
def exchange (k : Nat) (mask : BitVec w) (b : BitVec w × BitVec w) : BitVec w × BitVec w :=
  let t := (b.1 >>> k ^^^ b.2) &&& mask
  (b.1 ^^^ t <<< k, b.2 ^^^ t)

/-- A mask whose bits stay in the word when they are moved up by `k`. -/
theorem shiftLeft_shiftRight_and {mask : BitVec w} {k : Nat} (h : mask <<< k >>> k = mask)
    (x : BitVec w) : (x &&& mask) <<< k >>> k = x &&& mask := by
  apply BitVec.eq_of_getLsbD_eq
  intro i hi
  have hbit := congrArg (fun y => y.getLsbD i) h
  simp only [BitVec.getLsbD_ushiftRight, BitVec.getLsbD_shiftLeft, BitVec.getLsbD_and,
    Nat.add_sub_cancel_left] at hbit ⊢
  cases hmask : mask.getLsbD i <;> simp_all

/-- An exchange undoes itself. -/
theorem exchange_exchange {mask : BitVec w} {k : Nat} (h : mask <<< k >>> k = mask)
    (b : BitVec w × BitVec w) : exchange k mask (exchange k mask b) = b := by
  have hsame : ((b.1 ^^^ ((b.1 >>> k ^^^ b.2) &&& mask) <<< k) >>> k ^^^
      (b.2 ^^^ ((b.1 >>> k ^^^ b.2) &&& mask))) &&& mask = (b.1 >>> k ^^^ b.2) &&& mask := by
    rw [BitVec.ushiftRight_xor_distrib, shiftLeft_shiftRight_and h, BitVec.xor_comm b.2,
      ← BitVec.xor_assoc, xor_xor_cancel]
  simp only [exchange]
  rw [hsame, xor_xor_cancel, xor_xor_cancel]

theorem xorLinear_exchange (k : Nat) (mask : BitVec w) : XorLinear (exchange k mask) := fun x y => by
  have ht : ((x.1 ^^^ y.1) >>> k ^^^ (x.2 ^^^ y.2)) &&& mask =
      ((x.1 >>> k ^^^ x.2) &&& mask) ^^^ ((y.1 >>> k ^^^ y.2) &&& mask) := by
    rw [BitVec.ushiftRight_xor_distrib, ← xor_and]
    congr 1
    ac_rfl
  change ((x.1 ^^^ y.1) ^^^ (((x.1 ^^^ y.1) >>> k ^^^ (x.2 ^^^ y.2)) &&& mask) <<< k,
    (x.2 ^^^ y.2) ^^^ (((x.1 ^^^ y.1) >>> k ^^^ (x.2 ^^^ y.2)) &&& mask)) = _
  rw [ht, BitVec.shiftLeft_xor_distrib]
  refine Prod.ext ?_ ?_
  · change _ = (x.1 ^^^ _) ^^^ (y.1 ^^^ _)
    ac_rfl
  · change _ = (x.2 ^^^ _) ^^^ (y.2 ^^^ _)
    ac_rfl

/-- The lower `n` bits of an exchange, where the mask keeps the others out. -/
theorem setWidth_exchange {mask k : Nat} (hn : n ≤ w) (hmask : mask < 2 ^ (n - k))
    (b : BitVec w × BitVec w) :
    Prod.map (BitVec.setWidth n) (BitVec.setWidth n) (exchange k (BitVec.ofNat w mask) b) =
      exchange k (BitVec.ofNat n mask) (Prod.map (BitVec.setWidth n) (BitVec.setWidth n) b) := by
  have ht : ((b.1 >>> k ^^^ b.2) &&& BitVec.ofNat w mask).setWidth n =
      (b.1.setWidth n >>> k ^^^ b.2.setWidth n) &&& BitVec.ofNat n mask := by
    rw [xor_and, BitVec.setWidth_xor, setWidth_shiftRight_and hn hmask, BitVec.setWidth_and,
      BitVec.setWidth_ofNat_of_le hn, xor_and]
  simp only [exchange, Prod.map]
  rw [BitVec.setWidth_xor, BitVec.setWidth_xor, BitVec.setWidth_shiftLeft_of_le hn, ht]

/-- An exchange in place keeps what is narrow. -/
theorem exchange_narrow {mask : Nat} (hmask : mask < 2 ^ n) (b : BitVec w × BitVec w) :
    (Narrow n b.1 → Narrow n (exchange 0 (BitVec.ofNat w mask) b).1) ∧
      (Narrow n b.2 → Narrow n (exchange 0 (BitVec.ofNat w mask) b).2) := by
  have ht : Narrow n ((b.1 >>> 0 ^^^ b.2) &&& BitVec.ofNat w mask) := .and_right _ (.ofNat hmask)
  simp only [exchange, BitVec.shiftLeft_zero]
  exact ⟨fun h => h.xor ht, fun h => h.xor ht⟩

/-! ## Rotations and selections -/

theorem rotateLeft_rotateLeft (x : BitVec w) (a b : Nat) :
    (x.rotateLeft a).rotateLeft b = x.rotateLeft (a + b) := by
  apply BitVec.eq_of_getMsbD_eq
  intro i hi
  have hplace : (a + (b + i) % w) % w = (a + b + i) % w := by
    rw [Nat.add_mod_mod, Nat.add_assoc]
  rw [BitVec.getMsbD_rotateLeft, BitVec.getMsbD_rotateLeft, BitVec.getMsbD_rotateLeft, hplace,
    decide_eq_true (Nat.mod_lt _ (by omega)), Bool.true_and]

theorem xorLinear_rotateLeft (k : Nat) : XorLinear fun x : BitVec w => x.rotateLeft k := fun x y => by
  apply BitVec.eq_of_getMsbD_eq
  intro i _
  rw [BitVec.getMsbD_xor, BitVec.getMsbD_rotateLeft, BitVec.getMsbD_rotateLeft,
    BitVec.getMsbD_rotateLeft, BitVec.getMsbD_xor, Bool.and_xor_distrib_left]

/-- The word whose bits, from the left, are the bits of `x` that `table` names; bit 1
is the leftmost. -/
def select (table : List Nat) (x : BitVec n) : BitVec m :=
  table.foldl (fun acc i => acc <<< 1 ||| (BitVec.ofBool (x.getMsbD (i - 1))).setWidth m) 0#m

theorem getLsbD_select (table : List Nat) (x : BitVec n) (t : Nat) :
    (select table x : BitVec m).getLsbD t =
      (decide (t < m) && (decide (t < table.length) &&
        x.getMsbD (table.getD (table.length - 1 - t) 0 - 1))) := by
  induction table using List.reverseRecOn generalizing t with
  | nil => simp [select]
  | append_singleton table i ih =>
      have hstep : (select (table ++ [i]) x : BitVec m) =
          select table x <<< 1 ||| (BitVec.ofBool (x.getMsbD (i - 1))).setWidth m := by
        rw [select, List.foldl_append]
        rfl
      rw [hstep, BitVec.getLsbD_or, BitVec.getLsbD_shiftLeft, BitVec.getLsbD_setWidth, BitVec.getLsbD_ofBool]
      cases t with
      | zero => simp
      | succ t =>
          have hsub : table.length - 1 - t = (table ++ [i]).length - 1 - (t + 1) := by simp; omega
          rw [Nat.add_sub_cancel, ih, hsub]
          by_cases ht : t < table.length
          · have hget : (table ++ [i]).getD ((table ++ [i]).length - 1 - (t + 1)) 0 =
                table.getD ((table ++ [i]).length - 1 - (t + 1)) 0 :=
              List.getD_append _ _ _ _ (by simp; omega)
            rw [hget]
            by_cases htm : t + 1 < m
            · simp [ht, htm, Nat.lt_of_succ_lt htm]
            · simp [htm]
          · simp [ht]

theorem getMsbD_select {table : List Nat} (hlength : table.length = m) (x : BitVec n) {j : Nat}
    (hj : j < m) : (select table x : BitVec m).getMsbD j = x.getMsbD (table.getD j 0 - 1) := by
  have hsub : table.length - 1 - (m - 1 - j) = j := by omega
  rw [BitVec.getMsbD, getLsbD_select, hsub]
  simp [hj, hlength, show m - 1 - j < m by omega]

theorem xorLinear_select (table : List Nat) :
    XorLinear (select table : BitVec n → BitVec m) := fun x y => by
  apply BitVec.eq_of_getLsbD_eq
  intro t _
  rw [BitVec.getLsbD_xor, getLsbD_select, getLsbD_select, getLsbD_select, BitVec.getMsbD_xor,
    Bool.and_xor_distrib_left, Bool.and_xor_distrib_left]

theorem select_or (table : List Nat) (x y : BitVec n) :
    (select table (x ||| y) : BitVec m) = select table x ||| select table y := by
  apply BitVec.eq_of_getLsbD_eq
  intro t _
  rw [BitVec.getLsbD_or, getLsbD_select, getLsbD_select, getLsbD_select, BitVec.getMsbD_or,
    Bool.and_or_distrib_left, Bool.and_or_distrib_left]

end Tflib.Core
