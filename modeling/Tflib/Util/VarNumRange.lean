import Tflib.Core.Chars
import Tflib.Util.VarNum

/-! # The range of the variable-length numbers

The reader multiplies and shifts an `int`. On what the writer stored, no result
of it leaves the range, and the code of a number says where it ends.
-/

namespace Tflib.Util

open Tflib.Core

/-- A result of `int` arithmetic; there is none outside of the range. -/
def int32 (x : Int) : Option Int := if -2 ^ 31 ≤ x ∧ x < 2 ^ 31 then some x else none

theorem int32_eq {x : Int} (h : -2 ^ 31 ≤ x ∧ x < 2 ^ 31) : int32 x = some x := if_pos h

/-- The loop of `TFREADVNUMBUF` with every `int` result checked. -/
def readVnumChecked : Bytes → Int → Int → Int → Option (Int × Int)
  | [], _, _, _ => none
  | b :: buf, num, base, i =>
      if 0 ≤ charValue true b then do
        let value ← int32 (charValue true b * base)
        let num ← int32 (num + value)
        let step ← int32 (i + 1)
        some (num, step)
      else do
        let value ← int32 (charValue true b + 1)
        let value ← int32 (base * value)
        let value ← int32 (value * -1)
        let num ← int32 (num + value)
        let base ← int32 (base * 2 ^ 7)
        let i ← int32 (i + 1)
        readVnumChecked buf num base i

/-! ## Bytes of a code -/

theorem charValue_last {d : Nat} (h : d < 128) : charValue true (UInt8.ofNat d) = d := by
  revert d
  decide

theorem charValue_more {d : Nat} (h : d < 128) : charValue true (UInt8.ofNat (255 - d)) = -(d : Int) - 1 := by
  revert d
  decide

theorem charValue_neg_iff (b : UInt8) : charValue true b < 0 ↔ ¬ b < 128 := by
  have hlt := b.toNat_lt
  rw [charValue_signed]
  by_cases hlow : b < 128
  · rw [if_pos hlow]
    exact iff_of_false (Int.not_lt.mpr (Int.natCast_nonneg _)) (not_not.mpr hlow)
  · rw [if_neg hlow]
    exact iff_of_true (by omega) hlow

/-- All but the last byte of a code are negative as `signed char`. -/
theorem IsCode.signs {code : Bytes} (h : IsCode code) :
    (∀ b ∈ code.dropLast, charValue true b < 0) ∧
      ∃ last, code.getLast? = some last ∧ 0 ≤ charValue true last := by
  induction h with
  | @last b hb =>
      refine ⟨fun c hc => absurd hc List.not_mem_nil, b, rfl, Int.not_lt.mp fun hneg => ?_⟩
      exact (charValue_neg_iff b).mp hneg hb
  | @more b code hb hcode ih =>
      obtain ⟨hfront, last, hlast, hpos⟩ := ih
      have hne : code ≠ [] := List.ne_nil_of_length_pos hcode.length_pos
      refine ⟨fun c hc => ?_, last, ?_, hpos⟩
      · rw [List.dropLast_cons_of_ne_nil hne] at hc
        rcases List.mem_cons.mp hc with rfl | hc
        · exact (charValue_neg_iff c).mpr hb
        · exact hfront c hc
      · rw [List.getLast?_cons, hlast]
        rfl

/-! ## Reading -/

/-- The last byte. -/
theorem readVnumChecked_last {d : Nat} (hd : d < 128) {num base i : Nat} (hrange : num + base * d < 2 ^ 31)
    (hi : i + 1 < 2 ^ 31) (rest : Bytes) :
    readVnumChecked (UInt8.ofNat d :: rest) num base i =
      some (((num + base * d : Nat) : Int), ((i + 1 : Nat) : Int)) := by
  have hvalue : charValue true (UInt8.ofNat d) * base = (base * d : Nat) := by
    rw [charValue_last hd]
    push_cast
    ring
  have hpos : 0 ≤ charValue true (UInt8.ofNat d) := by
    rw [charValue_last hd]
    exact Int.natCast_nonneg d
  rw [readVnumChecked, if_pos hpos, hvalue, int32_eq (by omega), Option.bind_eq_bind, Option.bind_some,
    int32_eq (by omega), Option.bind_some, int32_eq (by omega), Option.bind_some]
  push_cast
  rfl

/-- A byte with another one behind it. -/
theorem readVnumChecked_more {d : Nat} (hd : d < 128) {num base i : Nat} (hrange : num + base * d < 2 ^ 31)
    (hbase : base * 2 ^ 7 < 2 ^ 31) (hi : i + 1 < 2 ^ 31) (rest : Bytes) :
    readVnumChecked (UInt8.ofNat (255 - d) :: rest) num base i =
      readVnumChecked rest (num + base * d : Nat) (base * 2 ^ 7 : Nat) (i + 1 : Nat) := by
  have hmore := charValue_more hd
  have hneg : ¬ 0 ≤ charValue true (UInt8.ofNat (255 - d)) := by omega
  have hvalue : charValue true (UInt8.ofNat (255 - d)) + 1 = -(d : Int) := by omega
  have hscaled : (base : Int) * -(d : Int) = -((base * d : Nat) : Int) := by
    push_cast
    ring
  have hback : -((base * d : Nat) : Int) * -1 = (base * d : Nat) := by ring
  rw [readVnumChecked, if_neg hneg, hvalue, int32_eq (by omega), Option.bind_eq_bind, Option.bind_some,
    hscaled, int32_eq (by omega), Option.bind_some, hback, int32_eq (by omega), Option.bind_some,
    int32_eq (by omega), Option.bind_some, int32_eq (by omega), Option.bind_some, int32_eq (by omega),
    Option.bind_some]
  push_cast
  rfl

/-- Reading what the loop of the writer stored. As long as there is a digit left, the base is not larger than
the number. -/
theorem readVnumChecked_setVnumLoop {n : Nat} (hpos : 0 < n) (rest : Bytes) {num i : Nat}
    (hrange : num + 128 ^ i * n < 2 ^ 31) :
    readVnumChecked (setVnumLoop n ++ rest) num (128 ^ i : Nat) i =
      some (((num + 128 ^ i * n : Nat) : Int), ((i + (setVnumLoop n).length : Nat) : Int)) := by
  induction n using Nat.strong_induction_on generalizing num i with
  | _ n ih =>
      have hmod := Nat.mod_lt n (by decide : 0 < 128)
      have hsplit : 128 ^ i * n = 128 ^ i * (n % 128) + 128 ^ (i + 1) * (n / 128) := by
        conv_lhs => rw [← Nat.mod_add_div n 128]
        ring
      have hsmall : i + 1 < 2 ^ 31 := by
        have hpow : i < 128 ^ i := Nat.lt_pow_self (by decide)
        have hle : 128 ^ i ≤ 128 ^ i * n := Nat.le_mul_of_pos_right _ hpos
        omega
      rw [setVnumLoop_eq hpos]
      by_cases hmore : 0 < n / 128
      · have hle : 128 ^ (i + 1) ≤ 128 ^ (i + 1) * (n / 128) := Nat.le_mul_of_pos_right _ hmore
        have hbase : 128 ^ i * 2 ^ 7 = 128 ^ (i + 1) := (Nat.pow_succ 128 i).symm
        rw [if_pos hmore, List.cons_append,
          readVnumChecked_more hmod (by omega) (by omega) hsmall, hbase,
          ih (n / 128) (Nat.div_lt_self hpos (by decide)) hmore (by omega), List.length_cons]
        refine congrArg some (Prod.ext (congrArg Nat.cast ?_) (congrArg Nat.cast ?_)) <;> omega
      · have hzero : n / 128 = 0 := Nat.eq_zero_of_not_pos hmore
        rw [if_neg hmore, hzero, setVnumLoop, if_neg (Nat.lt_irrefl 0), List.cons_append,
          readVnumChecked_last hmod (by omega) hsmall]
        rw [hzero, Nat.mul_zero, Nat.add_zero] at hsplit
        rw [hsplit]
        rfl

/-- The code of a number ends where it says, has as many bytes as `TFCALCVNUMSIZE` counts, and is read back
without an overflow. -/
theorem setVnumBuf_delimits {n : Nat} (h : n < 2 ^ 31) :
    (setVnumBuf (.ofNat n)).length = calcVnumSize n ∧
    (∀ b ∈ (setVnumBuf (.ofNat n)).dropLast, charValue true b < 0) ∧
    (∃ last, (setVnumBuf (.ofNat n)).getLast? = some last ∧ 0 ≤ charValue true last) ∧
    (∀ rest, readVnumChecked (setVnumBuf (.ofNat n) ++ rest) 0 1 0 =
      some ((n : Int), ((setVnumBuf (.ofNat n)).length : Int))) ∧
    ∀ m < 2 ^ 31, setVnumBuf (.ofNat m) <+: setVnumBuf (.ofNat n) → m = n := by
  obtain ⟨hcode, hvalue⟩ := setVnumBuf_code h
  obtain ⟨hfront, hlast⟩ := hcode.signs
  refine ⟨setVnumBuf_length h, hfront, hlast, fun rest => ?_, fun m hm hprefix => ?_⟩
  · rcases Nat.eq_zero_or_pos n with rfl | hpos
    · exact @readVnumChecked_last 0 (by decide) 0 1 0 (by decide) (by decide) rest
    · rw [setVnumBuf_pos hpos h]
      have hread := @readVnumChecked_setVnumLoop n hpos rest 0 0 (by omega)
      simpa using hread
  · obtain ⟨hcode', hvalue'⟩ := setVnumBuf_code hm
    obtain ⟨rest, hrest⟩ := hprefix
    have hsame := hcode'.append_inj hcode (hrest.trans (List.append_nil _).symm)
    rw [← hvalue, ← hvalue', hsame.1]

theorem setVnumBuf_delimits_two_bytes : 300 < 2 ^ 31 ∧
    readVnumChecked (setVnumBuf (.ofNat 300) ++ [7]) 0 1 0 = some (300, 2) := by
  obtain ⟨hlength, -, -, hread, -⟩ := @setVnumBuf_delimits 300 (by decide)
  refine ⟨by decide, ?_⟩
  rw [hread, hlength]
  rfl

end Tflib.Util
