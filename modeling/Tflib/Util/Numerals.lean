import Tflib.Core.Trim
import Tflib.Util.Numbers

/-! # What the numerals of `tf_util.c` mean

The binary numeral that `tf_num2strbin` is to write, and the decimal number that
`tf_atoi` is to read. Zero has no digit of its own in columns, and the reader
leaves `int64_t` 48 below its end, because it adds a character before it takes
`'0'` off.
-/

namespace Tflib.Util

open Tflib.Core

/-! ## Binary numerals in columns -/

/-- The shortest binary numeral with at least one digit. -/
def binaryNumeral (num : Nat) : Bytes := if num = 0 then ['0'.toUInt8] else binaryDigits num

/-- The numeral on the right of at most 64 columns, which `fc` fills. -/
def columnNumeral (num : Nat) (col : Int) (fc : UInt8) : Bytes :=
  List.replicate ((min col 64).toNat - (binaryNumeral num).length) fc ++ binaryNumeral num

theorem binaryNumeral_length {num : Nat} (h : num < 2 ^ 64) :
    1 ≤ (binaryNumeral num).length ∧ (binaryNumeral num).length ≤ 64 := by
  have hdigits := binaryDigits_length_le h
  unfold binaryNumeral
  split
  · rw [List.length_singleton]
    omega
  · rename_i hnum
    refine ⟨List.length_pos_iff.mpr ?_, hdigits⟩
    rw [binaryDigits, ne_eq, List.map_eq_nil_iff, List.reverse_eq_nil_iff]
    exact Nat.digits_ne_nil_iff_ne_zero.mpr hnum

theorem columnNumeral_length_le {num : Nat} (h : num < 2 ^ 64) (col : Int) (fc : UInt8) :
    (columnNumeral num col fc).length ≤ 64 := by
  have hnumeral := binaryNumeral_length h
  rw [columnNumeral, List.length_append, List.length_replicate]
  omega

/-- Zero is written without a digit where there are columns. -/
theorem strbin_eq_columnNumeral_iff (num : Nat) (col : Int) (fc : UInt8) :
    strbin num col fc = columnNumeral num col fc ↔ num ≠ 0 ∨ col ≤ 0 ∨ fc = '0'.toUInt8 := by
  have hcols : min col.toNat 64 = (min col 64).toNat := by omega
  rw [strbin, columnNumeral, hcols]
  by_cases hneg : col ≤ 0
  · have hnone : (min col 64).toNat = 0 := by omega
    rw [if_neg (by omega), hnone, Nat.zero_sub]
    exact iff_of_true rfl (.inr (.inl hneg))
  · rw [if_pos (by omega)]
    by_cases hzero : num = 0
    · subst hzero
      obtain ⟨n, hn⟩ : ∃ n, (min col 64).toNat = n + 1 := ⟨(min col 64).toNat - 1, by omega⟩
      rw [binaryNumeral, if_pos rfl, hn, binaryDigits_zero, List.append_nil, List.length_nil,
        Nat.sub_zero, List.length_singleton, Nat.add_sub_cancel, List.replicate_succ']
      constructor
      · intro heq
        exact .inr (.inr (List.head_eq_of_cons_eq (List.append_cancel_left heq)))
      · rintro (hnum | hcol | hfill)
        · exact absurd rfl hnum
        · exact absurd hcol hneg
        · rw [hfill]
    · rw [binaryNumeral, if_neg hzero]
      exact iff_of_true rfl (.inl hzero)

/-- For every buffer that has room for 64 characters and the zero, `tf_num2strbin` writes the numeral
and returns its length exactly where it has a digit to write or no columns to fill. -/
theorem tfNum2strbin_iff (num : UInt64) (col : Int32) (fc : UInt8) {buf : Region UInt8}
    (room : 65 ≤ buf.length) :
    (∃ buf', tfNum2strbin num buf col fc =
        some (buf', .ofNat (columnNumeral num.toNat col.toInt fc).length) ∧
      buf'.Begins (columnNumeral num.toNat col.toInt fc ++ [0]) ∧ buf'.length = buf.length ∧
      (columnNumeral num.toNat col.toInt fc).length ≤ 64) ↔
      num ≠ 0 ∨ col ≤ 0 ∨ fc = '0'.toUInt8 := by
  have hlt := num.toNat_lt
  have hiff := strbin_eq_columnNumeral_iff num.toNat col.toInt fc
  have hnum : num.toNat ≠ 0 ↔ num ≠ 0 := by
    rw [ne_eq, ne_eq, ← UInt64.toNat_inj]
    rfl
  have hcol : col.toInt ≤ 0 ↔ col ≤ 0 := by
    rw [Int32.le_iff_toInt_le]
    rfl
  rw [hnum, hcol] at hiff
  obtain ⟨buf', hrun, hbegins, hlen⟩ := tfNum2strbin_eq num room col fc
  rw [← hiff]
  constructor
  · rintro ⟨buf'', hrun', hbegins', -, hshort⟩
    rw [hrun, Option.some.injEq, Prod.mk.injEq] at hrun'
    obtain ⟨rfl, hlength⟩ := hrun'
    have hsize := congrArg Int32.toInt hlength
    have hshort' := strbin_length_le hlt col.toInt fc
    rw [toInt_ofNat (by omega), toInt_ofNat (by omega)] at hsize
    have hsame : (strbin num.toNat col.toInt fc).length =
        (columnNumeral num.toNat col.toInt fc).length := by omega
    have htake := hbegins.of_append.take
    rw [hsame, hbegins'.of_append.take] at htake
    exact (List.map_injective_iff.mpr (Option.some_injective _) htake).symm
  · intro heq
    rw [heq] at hrun hbegins
    exact ⟨buf', hrun, hbegins, hlen, columnNumeral_length_le hlt _ _⟩

/-- The number 5 in four columns. -/
theorem tfNum2strbin_five : ∃ buf', tfNum2strbin 5 (Region.fresh 65) 4 '_'.toUInt8 =
      some (buf', .ofNat (columnNumeral 5 4 '_'.toUInt8).length) ∧
    buf'.Begins (columnNumeral 5 4 '_'.toUInt8 ++ [0]) ∧ buf'.length = 65 ∧
    (columnNumeral 5 4 '_'.toUInt8).length ≤ 64 :=
  (@tfNum2strbin_iff 5 4 '_'.toUInt8 (Region.fresh 65) (by decide)).mpr (.inl (by decide))

/-- Zero in four columns is four times the character that fills them. -/
theorem tfNum2strbin_zero :
    (tfNum2strbin 0 (Region.fresh 65) 4 '_'.toUInt8).map (fun r => (r.1.take 4, r.2)) =
        some (List.replicate 4 (some '_'.toUInt8), 4) ∧
      columnNumeral 0 4 '_'.toUInt8 =
        ['_'.toUInt8, '_'.toUInt8, '_'.toUInt8, '0'.toUInt8] := by
  decide +kernel

/-! ## Decimal numbers -/

def isDigit (c : UInt8) : Bool := '0'.toUInt8 ≤ c && c ≤ '9'.toUInt8

def digitValue (c : UInt8) : Nat := c.toNat - '0'.toUInt8.toNat

/-- The number `n` with the digits `ds` behind its own. -/
def decimalFrom (n : Nat) (ds : Bytes) : Nat := ds.foldl (fun n c => 10 * n + digitValue c) n

/-- What stands behind the sign, if there is one. -/
def behindSign (t : Bytes) : Bytes :=
  if t.head? = some '-'.toUInt8 ∨ t.head? = some '+'.toUInt8 then t.drop 1 else t

/-- The number at the head of a string: blanks, a sign or none, and digits as far as they go. -/
def decimalValue (s : Bytes) : Int :=
  let t := s.dropWhile isBlank
  let n := decimalFrom 0 ((behindSign t).takeWhile isDigit)
  if t.head? = some '-'.toUInt8 then -n else n

theorem digit_plain {c : UInt8} (hc : isDigit c = true) :
    isBlank c = false ∧ c ≠ '-'.toUInt8 ∧ c ≠ '+'.toUInt8 := by
  have hfrom : '0'.toUInt8 ≤ c := of_decide_eq_true (Bool.and_eq_true_iff.mp hc).1
  refine ⟨?_, ?_, ?_⟩
  · by_contra hblank
    rw [isBlank, Bool.not_eq_false, Bool.and_eq_true, decide_eq_true_eq, decide_eq_true_eq] at hblank
    exact absurd (UInt8.le_trans hfrom hblank.2) (by decide)
  · rintro rfl
    exact absurd hfrom (by decide)
  · rintro rfl
    exact absurd hfrom (by decide)

/-- The value of a string that is given by its parts. Without a sign and digits the rest must not
begin with more of them. -/
theorem decimalValue_parts {blanks sign digits rest : Bytes} (hblanks : ∀ c ∈ blanks, isBlank c = true)
    (hsign : sign = [] ∨ sign = ['-'.toUInt8] ∨ sign = ['+'.toUInt8])
    (hdigits : ∀ c ∈ digits, isDigit c = true) (hrest : ∀ c ∈ rest.head?, isDigit c = false)
    (hbare : sign = [] → digits = [] →
      ∀ c ∈ rest.head?, isBlank c = false ∧ c ≠ '-'.toUInt8 ∧ c ≠ '+'.toUInt8) :
    decimalValue (blanks ++ (sign ++ (digits ++ rest))) =
      if sign = ['-'.toUInt8] then -(decimalFrom 0 digits : Int) else decimalFrom 0 digits := by
  have htake := (run_append hdigits hrest).1
  rw [decimalValue, dropWhile_append_front hblanks]
  rcases hsign with rfl | rfl | rfl
  · have hhead : ∀ c ∈ (digits ++ rest).head?,
        isBlank c = false ∧ c ≠ '-'.toUInt8 ∧ c ≠ '+'.toUInt8 := by
      cases digits with
      | nil => exact hbare rfl rfl
      | cons d digits =>
          intro c hc
          cases hc
          exact digit_plain (hdigits d List.mem_cons_self)
    have hstay := dropWhile_of_head fun c hc => (hhead c hc).1
    have hminus : (digits ++ rest).head? ≠ some '-'.toUInt8 := fun h => (hhead _ h).2.1 rfl
    have hplus : (digits ++ rest).head? ≠ some '+'.toUInt8 := fun h => (hhead _ h).2.2 rfl
    rw [List.nil_append, hstay, behindSign, if_neg (not_or.mpr ⟨hminus, hplus⟩), htake, if_neg hminus,
      if_neg (by decide)]
  · have hstay : (['-'.toUInt8] ++ (digits ++ rest)).dropWhile isBlank =
        ['-'.toUInt8] ++ (digits ++ rest) := rfl
    have hbehind : behindSign (['-'.toUInt8] ++ (digits ++ rest)) = digits ++ rest := if_pos (.inl rfl)
    rw [hstay, hbehind, htake, if_pos rfl]
    exact if_pos rfl
  · have hstay : (['+'.toUInt8] ++ (digits ++ rest)).dropWhile isBlank =
        ['+'.toUInt8] ++ (digits ++ rest) := rfl
    have hbehind : behindSign (['+'.toUInt8] ++ (digits ++ rest)) = digits ++ rest := if_pos (.inr rfl)
    have hminus : (['+'.toUInt8] ++ (digits ++ rest)).head? ≠ some '-'.toUInt8 := by
      rw [List.singleton_append, List.head?_cons]
      decide
    rw [hstay, hbehind, htake, if_neg hminus, if_neg (by decide)]

theorem decimalFrom_cons (n : Nat) (d : UInt8) (ds : Bytes) :
    decimalFrom n (d :: ds) = decimalFrom (10 * n + digitValue d) ds := by
  rw [decimalFrom, List.foldl_cons, ← decimalFrom]

theorem decimalFrom_le (n : Nat) (ds : Bytes) : n ≤ decimalFrom n ds := by
  induction ds generalizing n with
  | nil => exact Nat.le_refl n
  | cons d ds ih =>
      have hrest := ih (10 * n + digitValue d)
      rw [decimalFrom_cons]
      omega

theorem skipBlanks_eq (s : Bytes) :
    skipBlanks ((s ++ [0]).map some) = some ((s.dropWhile isBlank ++ [0]).map some) := by
  induction s with
  | nil => rfl
  | cons c s ih =>
      by_cases hc : isBlank c = true
      · rw [List.dropWhile_cons_of_pos hc, ← ih]
        exact if_pos hc
      · rw [List.dropWhile_cons_of_neg hc]
        exact if_neg hc

theorem isDigit_iff (c : UInt8) :
    isDigit c = true ↔ ¬ (c = 0 ∨ c < '0'.toUInt8 ∨ '9'.toUInt8 < c) := by
  simp only [isDigit, Bool.and_eq_true, decide_eq_true_eq, not_or, UInt8.not_lt]
  constructor
  · rintro ⟨hfrom, hto⟩
    refine ⟨?_, hfrom, hto⟩
    rintro rfl
    exact absurd hfrom (by decide)
  · rintro ⟨-, hfrom, hto⟩
    exact ⟨hfrom, hto⟩

/-- One digit more: the sum with the character's code is the largest number on the way. -/
theorem atoiLoop_digit {c : UInt8} (hc : isDigit c = true) (str : Region UInt8) (n : Nat) :
    atoiLoop (some c :: str) n =
      if 10 * n + digitValue c + 48 < 2 ^ 63 then
        atoiLoop str (10 * n + digitValue c : Nat)
      else none := by
  have hlo : 48 ≤ c.toNat := by
    simp only [isDigit, Bool.and_eq_true, decide_eq_true_eq] at hc
    exact UInt8.le_iff_toNat_le.mp hc.1
  have hstep : atoiLoop (some c :: str) n =
      (int64 (n * 10)).bind fun num => (int64 (num + c.toNat)).bind fun num =>
        (int64 (num - 48)).bind fun num => atoiLoop str num :=
    if_neg ((isDigit_iff c).mp hc)
  have hdigit : digitValue c = c.toNat - 48 := rfl
  rw [hstep]
  by_cases hfit : 10 * n + digitValue c + 48 < 2 ^ 63
  · rw [if_pos hfit, int64_eq (by omega), Option.bind_some, int64_eq (by omega), Option.bind_some,
      int64_eq (by omega), Option.bind_some]
    congr 1
    omega
  · rw [if_neg hfit]
    -- either the product or the sum is too large
    by_cases hten : (n : Int) * 10 < 2 ^ 63
    · rw [int64_eq (by omega), Option.bind_some, int64, if_neg (by omega)]
      rfl
    · rw [int64, if_neg (by omega)]
      rfl

/-- The loop reads the digits if the number stays 48 below the end of `int64_t`. -/
theorem atoiLoop_eq (t : Bytes) (n : Nat) :
    atoiLoop ((t ++ [0]).map some) n =
      if t.takeWhile isDigit = [] ∨ decimalFrom n (t.takeWhile isDigit) + 48 < 2 ^ 63 then
        some (decimalFrom n (t.takeWhile isDigit) : Int)
      else none := by
  induction t generalizing n with
  | nil => rfl
  | cons c t ih =>
      by_cases hc : isDigit c = true
      · rw [List.takeWhile_cons_of_pos hc]
        have hloop := atoiLoop_digit hc ((t ++ [0]).map some) n
        have hle := decimalFrom_le (10 * n + digitValue c) (t.takeWhile isDigit)
        rw [ih] at hloop
        refine hloop.trans ?_
        rw [decimalFrom_cons]
        generalize t.takeWhile isDigit = ds at hle ⊢
        by_cases hfit : decimalFrom (10 * n + digitValue c) ds + 48 < 2 ^ 63
        · rw [if_pos (by omega), if_pos (.inr hfit), if_pos (.inr hfit)]
        · rw [if_neg (not_or.mpr ⟨List.cons_ne_nil c ds, hfit⟩)]
          split
          · rename_i hfirst
            have hmore : ds ≠ [] := by
              rintro rfl
              exact hfit hfirst
            rw [if_neg (not_or.mpr ⟨hmore, hfit⟩)]
          · rfl
      · rw [List.takeWhile_cons_of_neg hc, if_pos (.inl rfl)]
        have hstop : c = 0 ∨ c < '0'.toUInt8 ∨ '9'.toUInt8 < c := by
          by_contra h
          exact hc ((isDigit_iff c).mpr h)
        exact if_pos hstop

/-- The blanks and the sign in front of the digits. -/
theorem tfAtoi_steps (s : Bytes) :
    tfAtoi ((s ++ [0]).map some) =
      (atoiLoop ((behindSign (s.dropWhile isBlank) ++ [0]).map some) 0).bind fun num =>
        int64 (num * if (s.dropWhile isBlank).head? = some '-'.toUInt8 then -1 else 1) := by
  rw [tfAtoi, skipBlanks_eq]
  generalize s.dropWhile isBlank = t
  cases t with
  | nil => rfl
  | cons c t =>
      have hsame : ∀ d, (c :: t).head? = some d ↔ c = d := fun d => by simp
      simp only [behindSign, hsame, Option.bind_eq_bind, Option.bind_some]
      change (atoiLoop (if c = '-'.toUInt8 ∨ c = '+'.toUInt8 then ((t ++ [0]).map some) else
        some c :: ((t ++ [0]).map some)) 0).bind _ = _
      split
      · rfl
      · rfl

/-- What `tf_atoi` makes of any string. -/
theorem tfAtoi_eq (s : Bytes) :
    tfAtoi ((s ++ [0]).map some) =
      if (decimalValue s).natAbs + 48 < 2 ^ 63 then some (decimalValue s) else none := by
  have hloop := atoiLoop_eq (behindSign (s.dropWhile isBlank)) 0
  rw [tfAtoi_steps, decimalValue]
  rw [Nat.cast_zero] at hloop
  rw [hloop]
  generalize (behindSign (s.dropWhile isBlank)).takeWhile isDigit = ds
  have habs : (if (s.dropWhile isBlank).head? = some '-'.toUInt8 then -(decimalFrom 0 ds : Int)
      else decimalFrom 0 ds).natAbs = decimalFrom 0 ds := by
    split <;> omega
  have hsign : (decimalFrom 0 ds : Int) *
      (if (s.dropWhile isBlank).head? = some '-'.toUInt8 then -1 else 1) =
        if (s.dropWhile isBlank).head? = some '-'.toUInt8 then -(decimalFrom 0 ds : Int)
        else decimalFrom 0 ds := by
    split <;> omega
  rw [habs]
  by_cases hfit : decimalFrom 0 ds + 48 < 2 ^ 63
  · rw [if_pos (.inr hfit), if_pos hfit, Option.bind_some, hsign, int64_eq]
    split <;> omega
  · have hmore : ds ≠ [] := by
      rintro rfl
      exact hfit (by decide)
    rw [if_neg (not_or.mpr ⟨hmore, hfit⟩), if_neg hfit]
    rfl

/-- `tf_atoi` returns the value of a string, with every step in the range of `int64_t`, exactly
where the value is 48 away from the ends of that range. -/
theorem tfAtoi_iff (s : CString) :
    tfAtoi s.cells = some (decimalValue s.val) ↔ (decimalValue s.val).natAbs + 48 < 2 ^ 63 := by
  rw [CString.cells, tfAtoi_eq]
  split
  · rename_i hfit
    exact iff_of_true rfl hfit
  · rename_i hfit
    exact iff_of_false (fun h => nomatch h) hfit

/-- `INT64_MAX` itself. -/
theorem tfAtoi_max :
    decimalValue ("9223372036854775807".toList.map Char.toUInt8) = 2 ^ 63 - 1 ∧
      tfAtoi (("9223372036854775807".toList.map Char.toUInt8 ++ [0]).map some) = none := by
  decide +kernel

end Tflib.Util
