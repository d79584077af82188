import Tflib.Core.CString
import Mathlib.Data.Nat.Digits.Defs

/-! # The variable-length numbers of `tf_util.h`

A number is its base-128 digits, the lowest first. A byte with a digit behind it
is the complement of its digit and negative as a `signed char`; the last byte is
its digit.
-/

namespace Tflib.Util

open Tflib.Core

/-! ## The macros -/

/-- The loop of `TFSETVNUMBUF`: the bytes it stores. -/
def setVnumLoop (num : Nat) : Bytes :=
  if 0 < num then
    let rem := num &&& 0x7f
    let next := num >>> 7
    (if 0 < next then (-(Int8.ofNat rem) - 1).toUInt8 else (Int8.ofNat rem).toUInt8) ::
      setVnumLoop next
  else []
termination_by num
decreasing_by
  rw [Nat.shiftRight_eq_div_pow]
  exact Nat.div_lt_self ‹0 < num› (by decide)

/-- `TFSETVNUMBUF`; a negative number takes no byte. -/
def setVnumBuf (num : Int32) : Bytes :=
  if num = 0 then [0] else setVnumLoop num.toInt.toNat

/-- The loop of `TFREADVNUMBUF`; `none` is a read behind the end of the input. -/
def readVnumLoop : Bytes → Int32 → Int32 → Nat → Option (Int32 × Nat)
  | [], _, _, _ => none
  | b :: buf, num, base, i =>
      let c := b.toInt8.toInt32
      if 0 ≤ c then some (num + c * base, i + 1)
      else readVnumLoop buf (num + base * (c + 1) * -1) (base <<< 7) (i + 1)

/-- `TFREADVNUMBUF`: the number, and how many bytes it takes. -/
def readVnumBuf (buf : Bytes) : Option (Int32 × Nat) := readVnumLoop buf 0 1 0

/-- `TFCALCVNUMSIZE` -/
def calcVnumSize (num : Nat) : Nat :=
  if num < 0x80 then 1 else if num < 0x4000 then 2 else if num < 0x200000 then 3
  else if num < 0x10000000 then 4 else 5

/-! ## Length codes -/

/-- The digit that a byte stands for. -/
def digit (b : UInt8) : Nat := if b < 128 then b.toNat else 255 - b.toNat

/-- The bytes of a whole number: all but the last one have another digit behind them. -/
inductive IsCode : Bytes → Prop
  | last {b : UInt8} : b < 128 → IsCode [b]
  | more {b : UInt8} {code : Bytes} : ¬ b < 128 → IsCode code → IsCode (b :: code)

/-- The number before it is narrowed to an `int`. -/
def codeValue (code : Bytes) : Nat := Nat.ofDigits 128 (code.map digit)

@[simp] theorem codeValue_nil : codeValue [] = 0 := rfl

theorem codeValue_cons (b : UInt8) (code : Bytes) :
    codeValue (b :: code) = digit b + 128 * codeValue code := by
  rw [codeValue, List.map_cons, Nat.ofDigits_cons]
  rfl

theorem IsCode.length_pos {code : Bytes} (h : IsCode code) : 0 < code.length := by
  cases h with
  | last _ => exact Nat.zero_lt_one
  | more _ _ => exact Nat.succ_pos _

theorem IsCode.append_ne_nil {code : Bytes} (h : IsCode code) (rest : Bytes) : code ++ rest ≠ [] := by
  intro hnil
  have hpos := h.length_pos
  rw [(List.append_eq_nil_iff.mp hnil).1] at hpos
  exact Nat.lt_irrefl 0 hpos

/-- A whole number ends where it says. -/
theorem IsCode.append_inj {code code' rest rest' : Bytes} (h : IsCode code) (h' : IsCode code')
    (heq : code ++ rest = code' ++ rest') : code = code' ∧ rest = rest' := by
  induction h generalizing code' with
  | @last b hb =>
      cases h' with
      | last hb' =>
          simp only [List.cons_append, List.nil_append, List.cons.injEq] at heq
          exact ⟨by rw [heq.1], heq.2⟩
      | more hb' hcode' =>
          simp only [List.cons_append, List.nil_append, List.cons.injEq] at heq
          exact absurd (heq.1 ▸ hb) hb'
  | @more b code hb hcode ih =>
      cases h' with
      | last hb' =>
          simp only [List.cons_append, List.nil_append, List.cons.injEq] at heq
          exact absurd (heq.1 ▸ hb') hb
      | more hb' hcode' =>
          simp only [List.cons_append, List.cons.injEq] at heq
          obtain ⟨hcodes, hrests⟩ := ih hcode' heq.2
          exact ⟨by rw [heq.1, hcodes], hrests⟩

/-- Every input begins with a whole number or ends inside of one. -/
theorem code_or_truncated (input : Bytes) :
    (∃ code rest, IsCode code ∧ input = code ++ rest) ∨ ∀ b ∈ input, ¬ b < 128 := by
  induction input with
  | nil => exact .inr fun _ hb => absurd hb List.not_mem_nil
  | cons b input ih =>
      by_cases hb : b < 128
      · exact .inl ⟨[b], input, .last hb, rfl⟩
      · rcases ih with ⟨code, rest, hcode, rfl⟩ | htrunc
        · exact .inl ⟨b :: code, rest, .more hb hcode, rfl⟩
        · refine .inr fun x hx => ?_
          rcases List.mem_cons.mp hx with rfl | hx
          · exact hb
          · exact htrunc x hx

/-! ## Reading -/

theorem lt_iff_toNat (b : UInt8) : b < 128 ↔ b.toNat < 128 := UInt8.lt_iff_toNat_lt

/-- A byte as a `signed char` and then as an `int`. -/
theorem toInt_toInt32 (b : UInt8) :
    b.toInt8.toInt32.toInt = if b < 128 then (b.toNat : Int) else b.toNat - 256 := by
  rw [Int8.toInt_toInt32]
  change b.toBitVec.toInt = _
  simp only [BitVec.toInt_eq_toNat_cond, lt_iff_toNat]
  change (if 2 * b.toNat < 2 ^ 8 then (b.toNat : Int) else b.toNat - 2 ^ 8) = _
  split <;> split <;> omega

theorem digit_lt (b : UInt8) : digit b < 128 := by
  have hb := b.toNat_lt
  simp only [digit, lt_iff_toNat]
  split <;> omega

theorem toInt32_of_lt {b : UInt8} (h : b < 128) : b.toInt8.toInt32 = .ofNat (digit b) := by
  have hdigit := digit_lt b
  apply Int32.toInt_inj.mp
  rw [toInt_ofNat (by omega), toInt_toInt32, if_pos h, digit, if_pos h]

theorem negative_of_not_lt {b : UInt8} (h : ¬ b < 128) : ¬ 0 ≤ b.toInt8.toInt32 := by
  have hlt := b.toNat_lt
  rw [Int32.le_iff_toInt_le, toInt_toInt32, if_neg h, Int32.toInt_zero]
  omega

/-- The digit of a byte with another one behind it. -/
theorem toInt32_of_not_lt {b : UInt8} (h : ¬ b < 128) :
    (b.toInt8.toInt32 + 1) * -1 = .ofNat (digit b) := by
  have hdigit := digit_lt b
  have hb := b.toNat_lt
  have hlo : 128 ≤ b.toNat := Nat.le_of_not_lt fun hlt => h ((lt_iff_toNat b).mpr hlt)
  apply Int32.toInt_inj.mp
  rw [toInt_ofNat (by omega), Int32.toInt_mul, Int32.toInt_add, toInt_toInt32, if_neg h, digit,
    if_neg h]
  change Int.bmod (Int.bmod ((b.toNat : Int) - 256 + 1) (2 ^ 32) * -1) (2 ^ 32) = _
  rw [Int.bmod, Int.bmod]
  omega

theorem ofNat_shiftLeft_seven (n : Nat) : Int32.ofNat n <<< (7 : Int32) = .ofNat (n * 128) := by
  have hmul : Int32.ofNat n <<< (7 : Int32) = .ofNat n * .ofNat 128 := by
    apply Int32.toBitVec_inj.mp
    rw [Int32.toBitVec_shiftLeft, Int32.toBitVec_mul]
    change (Int32.ofNat n).toBitVec <<< (7 : Nat) = _
    rw [BitVec.shiftLeft_eq_mul_twoPow]
    rfl
  rw [hmul, Int32.ofNat_mul]

/-- What the loop computes on a whole number: `num` grows by the value of its digits. -/
theorem readVnumLoop_code {code : Bytes} (h : IsCode code) (rest : Bytes) (num base i : Nat) :
    readVnumLoop (code ++ rest) (.ofNat num) (.ofNat base) i =
      some (.ofNat (num + base * codeValue code), i + code.length) := by
  induction h generalizing num base i with
  | @last b hb =>
      have hpos : 0 ≤ b.toInt8.toInt32 := by
        rw [toInt32_of_lt hb]
        exact ofNat_nonneg (Nat.lt_trans (digit_lt b) (by decide))
      simp only [List.cons_append, List.nil_append, readVnumLoop, if_pos hpos]
      rw [toInt32_of_lt hb, ← Int32.ofNat_mul, ← Int32.ofNat_add, codeValue_cons, codeValue_nil,
        Nat.mul_comm base, Nat.mul_zero, Nat.add_zero]
      rfl
  | @more b code hb hcode ih =>
      simp only [List.cons_append, readVnumLoop, if_neg (negative_of_not_lt hb)]
      rw [Int32.mul_assoc, toInt32_of_not_lt hb, ← Int32.ofNat_mul, ← Int32.ofNat_add,
        ofNat_shiftLeft_seven, ih, codeValue_cons, List.length_cons]
      refine congrArg some (Prod.ext (congrArg Int32.ofNat ?_) ?_)
      · ring
      · exact Nat.add_right_comm i 1 code.length

theorem readVnumBuf_code {code : Bytes} (h : IsCode code) (rest : Bytes) :
    readVnumBuf (code ++ rest) = some (.ofNat (codeValue code), code.length) := by
  have hloop := readVnumLoop_code h rest 0 1 0
  rwa [Nat.zero_add, Nat.zero_add, Nat.one_mul] at hloop

theorem readVnumLoop_truncated {input : Bytes} (h : ∀ b ∈ input, ¬ b < 128) (num base : Int32)
    (i : Nat) : readVnumLoop input num base i = none := by
  induction input generalizing num base i with
  | nil => rfl
  | cons b input ih =>
      have hb := h b List.mem_cons_self
      simp only [readVnumLoop, if_neg (negative_of_not_lt hb)]
      exact ih (fun x hx => h x (List.mem_cons_of_mem b hx)) _ _ _

/-- Reading succeeds exactly where a whole number stands. -/
theorem readVnumBuf_eq_some {input : Bytes} {num : Int32} {step : Nat}
    (h : readVnumBuf input = some (num, step)) :
    ∃ code rest, IsCode code ∧ input = code ++ rest ∧ num = .ofNat (codeValue code) ∧
      step = code.length := by
  rcases code_or_truncated input with ⟨code, rest, hcode, rfl⟩ | htrunc
  · rw [readVnumBuf_code hcode] at h
    cases h
    exact ⟨code, rest, hcode, rfl, rfl, rfl⟩
  · rw [readVnumBuf, readVnumLoop_truncated htrunc] at h
    contradiction

/-! ## Writing -/

/-- One round of the loop, on the quotient and the remainder. -/
theorem setVnumLoop_eq {num : Nat} (h : 0 < num) :
    setVnumLoop num =
      (if 0 < num / 128 then UInt8.ofNat (255 - num % 128) else UInt8.ofNat (num % 128)) ::
        setVnumLoop (num / 128) := by
  have hand : num &&& 0x7f = num % 128 := Nat.and_two_pow_sub_one_eq_mod num 7
  have hshift : num >>> 7 = num / 128 := Nat.shiftRight_eq_div_pow num 7
  have hmore : ∀ d < 128, (-(Int8.ofNat d) - 1).toUInt8 = UInt8.ofNat (255 - d) := by decide
  rw [setVnumLoop, if_pos h]
  simp only [hand, hshift, hmore _ (Nat.mod_lt num (by decide : 0 < 128))]
  rfl

theorem digit_ofNat {d : Nat} (h : d < 128) :
    UInt8.ofNat d < 128 ∧ digit (UInt8.ofNat d) = d := by
  revert d
  decide

theorem digit_ofNat_more {d : Nat} (h : d < 128) :
    ¬ UInt8.ofNat (255 - d) < 128 ∧ digit (UInt8.ofNat (255 - d)) = d := by
  revert d
  decide

/-- The loop writes a whole number, by strong induction on what is left of it. -/
theorem setVnumLoop_code {num : Nat} (h : 0 < num) :
    IsCode (setVnumLoop num) ∧ codeValue (setVnumLoop num) = num := by
  induction num using Nat.strong_induction_on with
  | _ num ih =>
      have hmod := Nat.mod_lt num (by decide : 0 < 128)
      have hdiv := Nat.mod_add_div num 128
      rw [setVnumLoop_eq h]
      by_cases hmore : 0 < num / 128
      · obtain ⟨hlast, hdigit⟩ := digit_ofNat_more hmod
        obtain ⟨hcode, hvalue⟩ := ih (num / 128) (Nat.div_lt_self h (by decide)) hmore
        rw [if_pos hmore, codeValue_cons, hdigit, hvalue]
        exact ⟨.more hlast hcode, hdiv⟩
      · obtain ⟨hlast, hdigit⟩ := digit_ofNat hmod
        have hzero : num / 128 = 0 := Nat.eq_zero_of_not_pos hmore
        rw [if_neg hmore, hzero, setVnumLoop, if_neg (Nat.lt_irrefl 0), codeValue_cons, hdigit,
          codeValue_nil]
        exact ⟨.last hlast, by omega⟩

theorem setVnumBuf_pos {n : Nat} (hpos : 0 < n) (h : n < 2 ^ 31) :
    setVnumBuf (.ofNat n) = setVnumLoop n := by
  have hne : ¬ Int32.ofNat n = 0 := by
    intro heq
    have hint := congrArg Int32.toInt heq
    rw [toInt_ofNat h, Int32.toInt_zero] at hint
    omega
  rw [setVnumBuf, if_neg hne, toInt_ofNat h, Int.toNat_natCast]

theorem setVnumBuf_code {n : Nat} (h : n < 2 ^ 31) :
    IsCode (setVnumBuf (.ofNat n)) ∧ codeValue (setVnumBuf (.ofNat n)) = n := by
  rcases Nat.eq_zero_or_pos n with rfl | hpos
  · exact ⟨.last (by decide), rfl⟩
  · rw [setVnumBuf_pos hpos h]
    exact setVnumLoop_code hpos

theorem setVnumLoop_length {k num : Nat} (hlo : 128 ^ k ≤ num) (hhi : num < 128 ^ (k + 1)) :
    (setVnumLoop num).length = k + 1 := by
  have hpos : 0 < num := Nat.lt_of_lt_of_le (Nat.pow_pos (by decide)) hlo
  induction k generalizing num with
  | zero =>
      have hzero : num / 128 = 0 := Nat.div_eq_of_lt hhi
      rw [setVnumLoop_eq hpos, hzero, setVnumLoop]
      rfl
  | succ k ih =>
      have hlo' : 128 ^ k ≤ num / 128 := (Nat.le_div_iff_mul_le (by decide)).mpr hlo
      have hhi' : num / 128 < 128 ^ (k + 1) := (Nat.div_lt_iff_lt_mul (by decide)).mpr hhi
      have hpos' : 0 < num / 128 := Nat.lt_of_lt_of_le (Nat.pow_pos (by decide)) hlo'
      rw [setVnumLoop_eq hpos, List.length_cons, ih hlo' hhi' hpos']

/-- `TFCALCVNUMSIZE` is the number of bytes that are written. -/
theorem setVnumBuf_length {n : Nat} (h : n < 2 ^ 31) :
    (setVnumBuf (.ofNat n)).length = calcVnumSize n := by
  rcases Nat.eq_zero_or_pos n with rfl | hpos
  · rfl
  · rw [setVnumBuf_pos hpos h, calcVnumSize]
    split
    · exact setVnumLoop_length (k := 0) (by omega) (by omega)
    · split
      · exact setVnumLoop_length (k := 1) (by omega) (by omega)
      · split
        · exact setVnumLoop_length (k := 2) (by omega) (by omega)
        · split
          · exact setVnumLoop_length (k := 3) (by omega) (by omega)
          · exact setVnumLoop_length (k := 4) (by omega) (by omega)

end Tflib.Util
