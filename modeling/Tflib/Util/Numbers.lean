import Tflib.Util.Strings
import Mathlib.Data.Nat.Bitwise
import Mathlib.Data.Nat.Digits.Lemmas
import Mathlib.Data.UInt

/-! # Numbers and numerals of `tf_util.c`

Arithmetic on `int64_t` that leaves its range is a fault, and so is reading or
storing outside the memory of a pointer.
-/

namespace Tflib.Util

open Tflib.Core

/-! ## Reading a number -/

/-- A result of `int64_t` arithmetic. -/
def int64 (x : Int) : Option Int := if -2 ^ 63 ≤ x ∧ x < 2 ^ 63 then some x else none

theorem int64_eq {x : Int} (h : -2 ^ 63 ≤ x ∧ x < 2 ^ 63) : int64 x = some x := if_pos h

def skipBlanks : Region UInt8 → Option (Region UInt8)
  | [] => none
  | cell :: str => do
      let c ← cell
      if isBlank c then skipBlanks str else some (cell :: str)

/-- `num * 10 + *str - '0'` is computed from left to right. -/
def atoiLoop : Region UInt8 → Int → Option Int
  | [], _ => none
  | cell :: str, num => do
      let c ← cell
      if c = 0 ∨ c < '0'.toUInt8 ∨ '9'.toUInt8 < c then some num
      else do
        let num ← int64 (num * 10)
        let num ← int64 (num + c.toNat)
        let num ← int64 (num - '0'.toUInt8.toNat)
        atoiLoop str num

/-- `tf_atoi` -/
def tfAtoi (str : Region UInt8) : Option Int := do
  let str ← skipBlanks str
  let c ← str.get 0
  let sign : Int := if c = '-'.toUInt8 then -1 else 1
  let str := if c = '-'.toUInt8 ∨ c = '+'.toUInt8 then str.drop 1 else str
  let num ← atoiLoop str 0
  int64 (num * sign)

/-! ## Binary numerals -/

/-- The loop over the 64 bits: the buffer, `wp` and `zero`. -/
def binLoop : Nat → UInt64 → Region UInt8 → Nat → Bool → Option (Region UInt8 × Nat × Bool)
  | 0, _, buf, wp, zero => some (buf, wp, zero)
  | len + 1, num, buf, wp, zero =>
      if num &&& ((1 : UInt64) <<< 63) ≠ 0 then do
        let buf ← buf.store wp [some '1'.toUInt8]
        binLoop len (num <<< 1) buf (wp + 1) false
      else if !zero then do
        let buf ← buf.store wp [some '0'.toUInt8]
        binLoop len (num <<< 1) buf (wp + 1) zero
      else binLoop len (num <<< 1) buf wp zero

/-- The numeral moves to the right end of its columns, and `fc` fills the others. -/
def binFill (buf : Region UInt8) (wp : Nat) (col : Int32) (fc : UInt8) : Option (Region UInt8 × Nat) :=
  let col := if 64 < sizeT col then 64 else sizeT col
  if wp < col then do
    let len := col - wp
    let cells ← buf.load 0 wp
    let buf ← buf.store len cells
    let buf ← buf.store 0 (List.replicate len (some fc))
    some (buf, wp + len)
  else some (buf, wp)

/-- What follows the loop up to the terminator. -/
def binColumns (buf : Region UInt8) (wp : Nat) (zero : Bool) (col : Int32) (fc : UInt8) :
    Option (Region UInt8 × Nat) :=
  if 0 < col then binFill buf wp col fc
  else if zero then do
    let buf ← buf.store wp [some '0'.toUInt8]
    some (buf, wp + 1)
  else some (buf, wp)

/-- `tf_num2strbin`: the memory behind `buf` and the length. -/
def tfNum2strbin (num : UInt64) (buf : Region UInt8) (col : Int32) (fc : UInt8) :
    Option (Region UInt8 × Int32) := do
  let (buf, wp, zero) ← binLoop 64 num buf 0 true
  let (buf, wp) ← binColumns buf wp zero col fc
  let buf ← buf.store wp [some 0]
  some (buf, .ofNat wp)

/-! ### What is written -/

/-- The binary digits of a number without leading zeros; zero has none. -/
def binaryDigits (n : Nat) : Bytes := (Nat.digits 2 n).reverse.map fun d => '0'.toUInt8 + .ofNat d

theorem binaryDigits_zero : binaryDigits 0 = [] := rfl

theorem binaryDigits_bit {m b : Nat} (hb : b < 2) (h : b ≠ 0 ∨ m ≠ 0) :
    binaryDigits (b + 2 * m) = binaryDigits m ++ ['0'.toUInt8 + .ofNat b] := by
  rw [binaryDigits, Nat.digits_add 2 (by omega) b m hb h, List.reverse_cons, List.map_append]
  rfl

theorem binaryDigits_length_le {n k : Nat} (h : n < 2 ^ k) : (binaryDigits n).length ≤ k := by
  rw [binaryDigits, List.length_map, List.length_reverse]
  exact (Nat.digits_length_le_iff (by omega) n).mpr h

theorem top_bit (num : UInt64) : num &&& ((1 : UInt64) <<< 63) ≠ 0 ↔ 2 ^ 63 ≤ num.toNat := by
  have hlt := num.toNat_lt
  rw [ne_eq, ← UInt64.toNat_inj, UInt64.toNat_and]
  change ¬ num.toNat &&& 2 ^ 63 = 0 ↔ _
  rw [Nat.and_two_pow, Nat.testBit_eq_decide_div_mod_eq]
  have hiff : num.toNat / 2 ^ 63 % 2 = 1 ↔ 2 ^ 63 ≤ num.toNat := by omega
  simpa using hiff

theorem toNat_double (num : UInt64) : (num <<< 1).toNat = 2 * num.toNat % 2 ^ 64 := by
  rw [UInt64.toNat_shiftLeft]
  change num.toNat <<< 1 % 2 ^ 64 = _
  rw [Nat.shiftLeft_eq, Nat.pow_one, Nat.mul_comm]

/-- A step of the loop: the next bit of the number is the top bit of what is left of it. -/
theorem next_bit {v len : Nat} (hlen : len + 1 ≤ 64) {num : UInt64}
    (hnum : num.toNat = v % 2 ^ (len + 1) * 2 ^ (64 - (len + 1))) :
    (num &&& ((1 : UInt64) <<< 63) ≠ 0 ↔ v / 2 ^ len % 2 = 1) ∧
      (num <<< 1).toNat = v % 2 ^ len * 2 ^ (64 - len) := by
  have hpow : 2 ^ len * 2 ^ (64 - (len + 1)) = 2 ^ 63 := by
    rw [← Nat.pow_add]
    congr 1
    omega
  have hdouble : 2 ^ (64 - len) = 2 * 2 ^ (64 - (len + 1)) := by
    rw [← Nat.pow_succ']
    congr 1
    omega
  have hlow : v % 2 ^ len * 2 ^ (64 - (len + 1)) < 2 ^ 63 := by
    rw [← hpow]
    exact Nat.mul_lt_mul_of_pos_right (Nat.mod_lt _ (Nat.two_pow_pos len)) (Nat.two_pow_pos _)
  have hvalue : num.toNat = v % 2 ^ len * 2 ^ (64 - (len + 1)) + 2 ^ 63 * (v / 2 ^ len % 2) := by
    rw [hnum, Nat.pow_succ, Nat.mod_mul, Nat.add_mul, ← hpow]
    ring
  have hbit := Nat.mod_two_eq_zero_or_one (v / 2 ^ len)
  refine ⟨?_, ?_⟩
  · rw [top_bit, hvalue]
    rcases hbit with h | h <;> rw [h] <;> omega
  · rw [toNat_double, hvalue, hdouble, Nat.mul_left_comm]
    rcases hbit with h | h <;> rw [h] <;> omega

/-- The number in front of the next bit, and the bit. -/
theorem shift_next (v len : Nat) : v / 2 ^ len = v / 2 ^ len % 2 + 2 * (v / 2 ^ (len + 1)) := by
  rw [Nat.pow_succ, ← Nat.div_div_eq_div_mul, Nat.mod_add_div]

/-- The digits with the next bit, which are the same as before where it is a leading zero. -/
theorem binaryDigits_next {v len b : Nat} (hb : v / 2 ^ len % 2 = b) :
    binaryDigits (v / 2 ^ len) =
      if b = 0 ∧ v / 2 ^ (len + 1) = 0 then []
      else binaryDigits (v / 2 ^ (len + 1)) ++ ['0'.toUInt8 + .ofNat b] := by
  have hnext := shift_next v len
  rw [hb] at hnext
  rw [hnext]
  split
  · rename_i hzero
    rw [hzero.1, hzero.2]
    rfl
  · exact binaryDigits_bit (by omega) (by omega)

/-- The digits of the bits that are left are appended to those written. -/
theorem binLoop_eq {v len : Nat} (hv : v < 2 ^ 64) (hlen : len ≤ 64) {num : UInt64}
    (hnum : num.toNat = v % 2 ^ len * 2 ^ (64 - len)) {buf : Region UInt8}
    (hbuf : buf.Begins (binaryDigits (v / 2 ^ len))) (room : 64 ≤ buf.length) :
    ∃ buf', binLoop len num buf (binaryDigits (v / 2 ^ len)).length (v / 2 ^ len == 0) =
        some (buf', (binaryDigits v).length, v == 0) ∧
      buf'.Begins (binaryDigits v) ∧ buf'.length = buf.length := by
  induction len generalizing num buf with
  | zero =>
      rw [Nat.pow_zero, Nat.div_one] at hbuf ⊢
      exact ⟨buf, rfl, hbuf, rfl⟩
  | succ len ih =>
      obtain ⟨hbit, hnext⟩ := next_bit hlen hnum
      have hfit : (binaryDigits (v / 2 ^ len)).length ≤ 64 :=
        binaryDigits_length_le (Nat.lt_of_le_of_lt (Nat.div_le_self _ _) hv)
      have hsplit := shift_next v len
      -- storing a digit, whichever it is, and going on
      have hwrite : ∀ {b : Nat}, v / 2 ^ len % 2 = b → v / 2 ^ len ≠ 0 →
          ∃ mid buf', buf.store (binaryDigits (v / 2 ^ (len + 1))).length [some ('0'.toUInt8 + .ofNat b)] = some mid ∧
            binLoop len (num <<< 1) mid ((binaryDigits (v / 2 ^ (len + 1))).length + 1) false =
              some (buf', (binaryDigits v).length, v == 0) ∧
            buf'.Begins (binaryDigits v) ∧ buf'.length = buf.length := by
        intro b hb hpos
        have hdigits := binaryDigits_next hb
        rw [if_neg (by omega)] at hdigits
        rw [hdigits, List.length_append, List.length_singleton] at hfit
        obtain ⟨mid, hstore, hmid, hbegins⟩ := hbuf.store ['0'.toUInt8 + .ofNat b] (hfit.trans room)
        rw [← hdigits] at hbegins
        obtain ⟨buf', hloop, hbegins', hlength⟩ := ih (by omega) hnext hbegins (hmid ▸ room)
        rw [beq_eq_false_iff_ne.mpr hpos, hdigits, List.length_append] at hloop
        exact ⟨mid, buf', hstore, hloop, hbegins', hlength.trans hmid⟩
      rcases Nat.mod_two_eq_zero_or_one (v / 2 ^ len) with hzero | hone
      · have hclear : ¬ num &&& ((1 : UInt64) <<< 63) ≠ 0 := fun h => by
          have hone := hbit.mp h
          omega
        rw [binLoop, if_neg hclear]
        by_cases hlead : v / 2 ^ (len + 1) = 0
        · have hnone : v / 2 ^ len = 0 := by omega
          rw [hlead] at hbuf ⊢
          rw [hnone] at ih
          obtain ⟨buf', hloop, hbegins, hlength⟩ := ih (by omega) hnext hbuf room
          exact ⟨buf', hloop, hbegins, hlength⟩
        · obtain ⟨mid, buf', hstore, hloop, hbegins, hlength⟩ := hwrite hzero (by omega)
          refine ⟨buf', ?_, hbegins, hlength⟩
          rw [beq_eq_false_iff_ne.mpr hlead]
          exact (congrArg (Option.bind · _) hstore).trans hloop
      · obtain ⟨mid, buf', hstore, hloop, hbegins, hlength⟩ := hwrite hone (by omega)
        refine ⟨buf', ?_, hbegins, hlength⟩
        rw [binLoop, if_pos (hbit.mpr hone)]
        exact (congrArg (Option.bind · _) hstore).trans hloop

/-- The text that `tf_num2strbin` writes. -/
def strbin (num : Nat) (col : Int) (fc : UInt8) : Bytes :=
  if 0 < col then List.replicate (min col.toNat 64 - (binaryDigits num).length) fc ++ binaryDigits num
  else if num = 0 then ['0'.toUInt8]
  else binaryDigits num

theorem strbin_length_le {num : Nat} (h : num < 2 ^ 64) (col : Int) (fc : UInt8) :
    (strbin num col fc).length ≤ 64 := by
  have hdigits := binaryDigits_length_le h
  unfold strbin
  split
  · rw [List.length_append, List.length_replicate]
    omega
  · split
    · rw [List.length_singleton]
      omega
    · exact hdigits

theorem binFill_eq {num : Nat} (h : num < 2 ^ 64) {buf : Region UInt8}
    (hbuf : buf.Begins (binaryDigits num))
    (room : 65 ≤ buf.length) {col : Int32} (hcol : 0 < col) (fc : UInt8) :
    ∃ buf', binFill buf (binaryDigits num).length col fc =
        some (buf', (strbin num col.toInt fc).length) ∧
      buf'.Begins (strbin num col.toInt fc) ∧ buf'.length = buf.length := by
  have hdigits := binaryDigits_length_le h
  have hpos := Int32.lt_iff_toInt_lt.mp hcol
  rw [Int32.toInt_zero] at hpos
  have hcols : (if 64 < sizeT col then 64 else sizeT col) = min col.toInt.toNat 64 := by
    have hlt := col.toInt_lt
    have hsize : sizeT col = col.toInt.toNat := by
      unfold sizeT
      omega
    rw [hsize]
    split <;> omega
  rw [binFill, hcols, strbin, if_pos hpos]
  by_cases hfill : (binaryDigits num).length < min col.toInt.toNat 64
  · rw [if_pos hfill]
    have hload : buf.load 0 (binaryDigits num).length = some ((binaryDigits num).map some) := hbuf.load
    obtain ⟨moved, buf', hmove, hput, hlen, hbegins⟩ := Region.store_store_front buf
      (List.replicate (min col.toInt.toNat 64 - (binaryDigits num).length) fc) (binaryDigits num)
      (by rw [List.length_replicate]; omega)
    rw [List.length_replicate] at hmove
    rw [List.map_replicate] at hput
    refine ⟨buf', ?_, hbegins, hlen⟩
    simp only [hload, hmove, hput, Option.bind_eq_bind, Option.bind_some]
    rw [List.length_append, List.length_replicate, Nat.add_comm]
  · have hnone : min col.toInt.toNat 64 - (binaryDigits num).length = 0 := by omega
    rw [if_neg hfill, hnone]
    exact ⟨buf, rfl, hbuf, rfl⟩

theorem binColumns_eq {num : Nat} (h : num < 2 ^ 64) {buf : Region UInt8}
    (hbuf : buf.Begins (binaryDigits num))
    (room : 65 ≤ buf.length) (col : Int32) (fc : UInt8) :
    ∃ buf', binColumns buf (binaryDigits num).length (num == 0) col fc =
        some (buf', (strbin num col.toInt fc).length) ∧
      buf'.Begins (strbin num col.toInt fc) ∧ buf'.length = buf.length := by
  unfold binColumns
  by_cases hcol : 0 < col
  · rw [if_pos hcol]
    exact binFill_eq h hbuf room hcol fc
  · have hneg : ¬ 0 < col.toInt := by rwa [Int32.lt_iff_toInt_lt, Int32.toInt_zero] at hcol
    rw [if_neg hcol, strbin, if_neg hneg]
    by_cases hzero : num = 0
    · subst hzero
      obtain ⟨buf', hstore, hlen, hbegins⟩ := hbuf.store ['0'.toUInt8] (by
        rw [binaryDigits_zero, List.length_singleton, List.length_nil]
        omega)
      refine ⟨buf', ?_, hbegins, hlen⟩
      exact congrArg (Option.bind · fun buf => some (buf, 1)) hstore
    · rw [if_neg hzero, beq_eq_false_iff_ne.mpr hzero]
      exact ⟨buf, rfl, hbuf, rfl⟩

/-- For every number and every number of columns the text and its terminator take at most 65 bytes. -/
theorem tfNum2strbin_eq (num : UInt64) {buf : Region UInt8} (room : 65 ≤ buf.length) (col : Int32)
    (fc : UInt8) :
    ∃ buf', tfNum2strbin num buf col fc =
        some (buf', .ofNat (strbin num.toNat col.toInt fc).length) ∧
      buf'.Begins (strbin num.toNat col.toInt fc ++ [0]) ∧ buf'.length = buf.length := by
  have hlt := num.toNat_lt
  have hshort := strbin_length_le hlt col.toInt fc
  have hstart : num.toNat / 2 ^ 64 = 0 := by omega
  have hnum : num.toNat = num.toNat % 2 ^ 64 * 2 ^ (64 - 64) := by omega
  obtain ⟨digits, hloop, hdigits, hlen⟩ := binLoop_eq hlt (Nat.le_refl 64) hnum
    (show buf.Begins (binaryDigits (num.toNat / 2 ^ 64)) by rw [hstart]; exact Region.begins_nil buf)
    (by omega)
  rw [hstart] at hloop
  obtain ⟨text, hcolumns, htext, hlen'⟩ := binColumns_eq hlt hdigits (hlen ▸ room) col fc
  obtain ⟨buf', hstore, hlen'', hbegins⟩ := htext.store [0] (by
    rw [hlen', hlen, List.length_singleton]
    omega)
  refine ⟨buf', ?_, hbegins, hlen''.trans (hlen'.trans hlen)⟩
  have hrun : binLoop 64 num buf 0 true =
      some (digits, (binaryDigits num.toNat).length, num.toNat == 0) := hloop
  simp only [tfNum2strbin, hrun, hcolumns, Option.bind_eq_bind, Option.bind_some]
  exact congrArg
    (Option.bind · fun buf => some (buf, Int32.ofNat (strbin num.toNat col.toInt fc).length)) hstore

end Tflib.Util
