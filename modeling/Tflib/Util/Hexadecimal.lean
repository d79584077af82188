import Tflib.Util.Nibbles

/-! # Reading a hexadecimal number

`tf_atoih` adds the code of a digit before it takes off what the code is too large by,
so it leaves `int64_t` before the number does. How much earlier is said by the last
digit.
-/

namespace Tflib.Util

open Tflib.Core

/-! ## The code -/

/-- What follows `num * 0x10 + *str` in each of the three cases. -/
def atoihLoop : Region UInt8 → Int → Option Int
  | [], _ => none
  | cell :: str, num => do
      let c ← cell
      if '0'.toUInt8 ≤ c ∧ c ≤ '9'.toUInt8 then do
        let num ← int64 (num * 0x10)
        let num ← int64 (num + c.toNat)
        let num ← int64 (num - '0'.toUInt8.toNat)
        atoihLoop str num
      else if 'a'.toUInt8 ≤ c ∧ c ≤ 'f'.toUInt8 then do
        let num ← int64 (num * 0x10)
        let num ← int64 (num + c.toNat)
        let num ← int64 (num - 'a'.toUInt8.toNat)
        let num ← int64 (num + 10)
        atoihLoop str num
      else if 'A'.toUInt8 ≤ c ∧ c ≤ 'F'.toUInt8 then do
        let num ← int64 (num * 0x10)
        let num ← int64 (num + c.toNat)
        let num ← int64 (num - 'A'.toUInt8.toNat)
        let num ← int64 (num + 10)
        atoihLoop str num
      else some num

/-- `if(str[0] == '0' && (str[1] == 'x' || str[1] == 'X')) str += 2;` -/
def skipHexMark (str : Region UInt8) : Option (Region UInt8) := do
  let c ← str.get 0
  if c = '0'.toUInt8 then do
    let d ← str.get 1
    some (if d = 'x'.toUInt8 ∨ d = 'X'.toUInt8 then str.drop 2 else str)
  else some str

/-- `tf_atoih` -/
def tfAtoih (str : Region UInt8) : Option Int := do
  let str ← skipBlanks str
  let str ← skipHexMark str
  atoihLoop str 0

/-! ## Hexadecimal numbers -/

/-- The number `n` with the digits `ds` behind its own. -/
def hexFrom (n : Nat) (ds : Bytes) : Nat := ds.foldl (fun n c => 16 * n + hexDigitValue c) n

/-- What stands behind `0x`, if there is one. -/
def behindHexMark (t : Bytes) : Bytes :=
  if t.take 2 = ['0'.toUInt8, 'x'.toUInt8] ∨ t.take 2 = ['0'.toUInt8, 'X'.toUInt8] then t.drop 2 else t

/-- The digits at the head of a string, behind blanks and a mark or none. -/
def hexDigits (s : Bytes) : Bytes := (behindHexMark (s.dropWhile isBlank)).takeWhile isHex

def hexValue (s : Bytes) : Nat := hexFrom 0 (hexDigits s)

/-- How far the code of the last digit lies above its value. -/
def codeExcess (ds : Bytes) : Nat := ds.getLast?.elim 0 fun c => c.toNat - hexDigitValue c

@[simp] theorem hexFrom_nil (n : Nat) : hexFrom n [] = n := rfl

@[simp] theorem codeExcess_nil : codeExcess [] = 0 := rfl

theorem hexFrom_cons (n : Nat) (d : UInt8) (ds : Bytes) :
    hexFrom n (d :: ds) = hexFrom (16 * n + hexDigitValue d) ds := by
  rw [hexFrom, List.foldl_cons, ← hexFrom]

theorem hexFrom_le (n : Nat) (ds : Bytes) : n ≤ hexFrom n ds := by
  induction ds generalizing n with
  | nil => exact Nat.le_refl n
  | cons d ds ih =>
      have hrest := ih (16 * n + hexDigitValue d)
      rw [hexFrom_cons]
      omega

/-- The three kinds of digits, and how far their codes lie above their values. -/
theorem isHex_kinds {c : UInt8} (hc : isHex c = true) :
    ('0'.toUInt8 ≤ c ∧ c ≤ '9'.toUInt8 ∧ c.toNat = hexDigitValue c + 48) ∨
      (¬ c ≤ '9'.toUInt8 ∧ 'a'.toUInt8 ≤ c ∧ c ≤ 'f'.toUInt8 ∧ c.toNat = hexDigitValue c + 87) ∨
      (¬ c ≤ '9'.toUInt8 ∧ ¬ 'a'.toUInt8 ≤ c ∧ 'A'.toUInt8 ≤ c ∧ c ≤ 'F'.toUInt8 ∧
        c.toNat = hexDigitValue c + 55) := by
  have h0 : '0'.toUInt8 ≤ c ↔ 48 ≤ c.toNat := UInt8.le_iff_toNat_le
  have h9 : c ≤ '9'.toUInt8 ↔ c.toNat ≤ 57 := UInt8.le_iff_toNat_le
  have hA : 'A'.toUInt8 ≤ c ↔ 65 ≤ c.toNat := UInt8.le_iff_toNat_le
  have hF : c ≤ 'F'.toUInt8 ↔ c.toNat ≤ 70 := UInt8.le_iff_toNat_le
  have ha : 'a'.toUInt8 ≤ c ↔ 97 ≤ c.toNat := UInt8.le_iff_toNat_le
  have hf : c ≤ 'f'.toUInt8 ↔ c.toNat ≤ 102 := UInt8.le_iff_toNat_le
  simp only [isHex, Bool.or_eq_true, Bool.and_eq_true, decide_eq_true_eq] at hc
  rw [hexDigitValue]
  simp only [h0, h9, hA, hF, ha, hf] at hc ⊢
  split
  · omega
  · split <;> omega

theorem code_le {c : UInt8} (hc : isHex c = true) :
    hexDigitValue c + 48 ≤ c.toNat ∧ c.toNat ≤ hexDigitValue c + 87 := by
  have hkinds := isHex_kinds hc
  omega

theorem int64_of_not {x : Int} (h : ¬ x < 2 ^ 63) : int64 x = none := if_neg fun hx => h hx.2

/-- The two sums that a digit of any kind begins with. -/
theorem code_sum (n c : Nat) (f : Int → Option Int) :
    ((int64 (n * 0x10)).bind fun num => (int64 (num + c)).bind f) =
      if 16 * n + c < 2 ^ 63 then f (16 * n + c : Nat) else none := by
  by_cases hfit : 16 * n + c < 2 ^ 63
  · have hsum : (n : Int) * 0x10 + c = (16 * n + c : Nat) := by omega
    rw [if_pos hfit, int64_eq (by omega), Option.bind_some, int64_eq (by omega), Option.bind_some, hsum]
  · rw [if_neg hfit]
    by_cases hproduct : (n : Int) * 0x10 < 2 ^ 63
    · rw [int64_eq (by omega), Option.bind_some, int64_of_not (by omega)]
      rfl
    · rw [int64_of_not hproduct]
      rfl

/-- What a letter takes off again, where `'a'` or `'A'` is `base`. -/
theorem letter_rest {x base v : Nat} (hv : x + 10 = v + base) (hlt : v < 2 ^ 63)
    (f : Int → Option Int) :
    ((int64 ((x : Int) - base)).bind fun num => (int64 (num + 10)).bind f) = f v := by
  have hsum : (x : Int) - base + 10 = v := by omega
  rw [int64_eq (by omega), Option.bind_some, hsum, int64_eq (by omega), Option.bind_some]

theorem atoihLoop_digit {c : UInt8} (hc : isHex c = true) (str : Region UInt8) (n : Nat) :
    atoihLoop (some c :: str) n =
      if 16 * n + c.toNat < 2 ^ 63 then atoihLoop str (16 * n + hexDigitValue c : Nat) else none := by
  have hlower : 'a'.toUInt8.toNat = 97 := rfl
  have hupper : 'A'.toUInt8.toNat = 65 := rfl
  rw [atoihLoop]
  simp only [Option.bind_eq_bind, Option.bind_some]
  obtain ⟨h0, h9, hcode⟩ | ⟨h9, ha, hf, hcode⟩ | ⟨h9, ha, hA, hF, hcode⟩ := isHex_kinds hc
  · have hstep : ((16 * n + c.toNat : Nat) : Int) - '0'.toUInt8.toNat =
        (16 * n + hexDigitValue c : Nat) := by
      change _ - (48 : Int) = _
      omega
    rw [if_pos ⟨h0, h9⟩, code_sum]
    split
    · rw [hstep, int64_eq (by omega), Option.bind_some]
    · rfl
  · rw [if_neg fun h => h9 h.2, if_pos ⟨ha, hf⟩, code_sum]
    split
    · exact letter_rest (by omega) (by omega) _
    · rfl
  · rw [if_neg fun h => h9 h.2, if_neg fun h => ha h.1, if_pos ⟨hA, hF⟩, code_sum]
    split
    · exact letter_rest (by omega) (by omega) _
    · rfl

theorem atoihLoop_other {c : UInt8} (hc : isHex c = false) (str : Region UInt8) (num : Int) :
    atoihLoop (some c :: str) num = some num := by
  simp only [isHex, Bool.or_eq_false_iff, Bool.and_eq_false_iff, decide_eq_false_iff_not] at hc
  obtain ⟨⟨hdigit, hupper⟩, hlower⟩ := hc
  rw [atoihLoop]
  simp only [Option.bind_eq_bind, Option.bind_some]
  rw [if_neg (by tauto), if_neg (by tauto), if_neg (by tauto)]

/-! ## What is read -/

theorem codeExcess_single (c : UInt8) : codeExcess [c] = c.toNat - hexDigitValue c := rfl

theorem codeExcess_cons (d : UInt8) {ds : Bytes} (hds : ds ≠ []) :
    codeExcess (d :: ds) = codeExcess ds := by
  rw [codeExcess, codeExcess, List.getLast?_cons_of_ne_nil hds]

theorem mul_le_hexFrom (n : Nat) {ds : Bytes} (hds : ds ≠ []) : 16 * n ≤ hexFrom n ds := by
  cases ds with
  | nil => exact absurd rfl hds
  | cons d ds =>
      have hrest := hexFrom_le (16 * n + hexDigitValue d) ds
      rw [hexFrom_cons]
      omega

/-- The loop reads the digits where the number stays below the end of `int64_t` by the
excess of the last one: a digit further left has sixteen times the room it needs. -/
theorem atoihLoop_eq (t : Bytes) {n : Nat} (hn : n < 2 ^ 63) :
    atoihLoop ((t ++ [0]).map some) n =
      if hexFrom n (t.takeWhile isHex) + codeExcess (t.takeWhile isHex) < 2 ^ 63 then
        some (hexFrom n (t.takeWhile isHex) : Int)
      else none := by
  induction t generalizing n with
  | nil =>
      rw [List.takeWhile_nil, hexFrom_nil, codeExcess_nil, Nat.add_zero, if_pos hn]
      exact atoihLoop_other (by decide) [] n
  | cons c t ih =>
      cases hc : isHex c with
      | false =>
          rw [List.takeWhile_cons_of_neg (Bool.eq_false_iff.mp hc), hexFrom_nil, codeExcess_nil,
            Nat.add_zero, if_pos hn]
          exact atoihLoop_other hc _ n
      | true =>
          have hcode := code_le hc
          have hloop := atoihLoop_digit hc ((t ++ [0]).map some) n
          rw [List.takeWhile_cons_of_pos hc, hexFrom_cons]
          refine hloop.trans ?_
          generalize hds : t.takeWhile isHex = ds at ih
          by_cases hfit : 16 * n + c.toNat < 2 ^ 63
          · rw [if_pos hfit, ih (by omega)]
            by_cases hnil : ds = []
            · subst hnil
              rw [codeExcess_single, hexFrom_nil, codeExcess_nil, if_pos (by omega), if_pos (by omega)]
            · rw [codeExcess_cons c hnil]
          · rw [if_neg hfit]
            symm
            apply if_neg
            by_cases hnil : ds = []
            · subst hnil
              rw [codeExcess_single, hexFrom_nil]
              omega
            · have hroom := mul_le_hexFrom (16 * n + hexDigitValue c) hnil
              omega

theorem skipHexMark_eq (t : Bytes) :
    skipHexMark ((t ++ [0]).map some) = some ((behindHexMark t ++ [0]).map some) := by
  match t with
  | [] => rfl
  | [c] =>
      have hstay : behindHexMark [c] = [c] := if_neg (by simp)
      rw [hstay]
      change (if c = '0'.toUInt8 then _ else _) = _
      split <;> rfl
  | c :: d :: t =>
      have hmark : (c :: d :: t).take 2 = [c, d] := rfl
      rw [behindHexMark, hmark]
      change (if c = '0'.toUInt8 then
        some (if d = 'x'.toUInt8 ∨ d = 'X'.toUInt8 then (t ++ [0]).map some else _) else _) = _
      by_cases hzero : c = '0'.toUInt8
      · subst hzero
        simp only [if_true, List.cons.injEq, true_and, and_true]
        split <;> rfl
      · simp [hzero]

/-- What `tf_atoih` makes of any string. -/
theorem tfAtoih_eq (s : Bytes) :
    tfAtoih ((s ++ [0]).map some) =
      if hexValue s + codeExcess (hexDigits s) < 2 ^ 63 then some (hexValue s : Int) else none := by
  rw [tfAtoih, skipBlanks_eq]
  simp only [Option.bind_eq_bind, Option.bind_some]
  rw [skipHexMark_eq, Option.bind_some]
  exact atoihLoop_eq _ (by decide)

/-- `tf_atoih` returns the value of a string, with every step in the range of `int64_t`,
exactly where the value lies below the end of that range by the excess of its last digit. -/
theorem tfAtoih_iff (s : CString) :
    tfAtoih s.cells = some (hexValue s.val : Int) ↔
      hexValue s.val + codeExcess (hexDigits s.val) < 2 ^ 63 := by
  rw [CString.cells, tfAtoih_eq]
  split
  · rename_i hfit
    exact iff_of_true rfl hfit
  · rename_i hfit
    exact iff_of_false (Option.some_ne_none _).symm hfit

/-- `INT64_MAX` itself. -/
example : hexValue ("0x7fffffffffffffff".toList.map Char.toUInt8) = 2 ^ 63 - 1 ∧
    tfAtoih (("0x7fffffffffffffff".toList.map Char.toUInt8 ++ [0]).map some) = none := by
  decide +kernel

end Tflib.Util
