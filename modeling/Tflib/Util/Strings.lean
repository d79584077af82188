import Tflib.Core.CString
import Tflib.Core.Chars
import Tflib.Core.Ordering
import Mathlib.Data.List.DropRight

/-! # String comparison and trimming of `tf_util.c`

A pointer to a string is the memory from there on. Where a comparison would read
behind that memory, its result is `none`.
-/

namespace Tflib.Util

open Tflib.Core

/-- A letter of either case as an `unsigned char` of the lower case. -/
def lower (c : UInt8) : UInt8 := if 'A'.toUInt8 ≤ c ∧ c ≤ 'Z'.toUInt8 then c + 32 else c

def tfStricmp : Bytes → Bytes → Option Int
  | [], _ => none
  | _ :: _, [] => none
  | a :: astr, b :: bstr =>
      if a ≠ 0 then
        if b = 0 then some 1
        else if lower a ≠ lower b then some ((lower a).toNat - (lower b).toNat)
        else tfStricmp astr bstr
      else some (if b = 0 then 0 else -1)

/-- `memcmp`, which stops at the first difference. -/
def memcmp : Bytes → Bytes → Nat → Option Int
  | _, _, 0 => some 0
  | a :: as, b :: bs, n + 1 => if a ≠ b then some (a.toNat - b.toNat) else memcmp as bs n
  | [], _, _ + 1 => none
  | _ :: _, [], _ + 1 => none

/-- A space or a control character. -/
def isBlank (c : UInt8) : Bool := 0 < c && c ≤ ' '.toUInt8

/-- The same test with the compiler's `char`. -/
def blankChar (signed : Bool) (c : UInt8) : Bool :=
  0 < charValue signed c && charValue signed c ≤ ' '.toNat

def tfStrtrim (str : CString) : CString :=
  ⟨(str.val.dropWhile isBlank).rdropWhile isBlank, fun h => str.2
    ((List.dropWhile_suffix isBlank).subset ((List.rdropWhile_prefix isBlank _).subset h))⟩

/-- The name of a section without the difference of cases. -/
def folded (str : CString) : Bytes := str.val.map lower

/-- Bytes as unsigned numbers. -/
def byteOrder (a b : UInt8) : Int := a.toNat - b.toNat

theorem byteOrder_consistent : Consistent byteOrder where
  flip a b := by
    unfold byteOrder
    omega
  trans a b d := by
    unfold byteOrder
    omega

theorem byteOrder_eq_zero (a b : UInt8) : byteOrder a b = 0 ↔ a = b := by
  rw [← UInt8.toNat_inj, byteOrder]
  omega

theorem byteOrder_neg (a b : UInt8) : byteOrder a b < 0 ↔ a < b := by
  rw [UInt8.lt_iff_toNat_lt, byteOrder]
  omega

theorem blankChar_eq (signed : Bool) (c : UInt8) : blankChar signed c = isBlank c := by
  have hbetween : (1 : Nat) ≤ charValue signed c ∧ charValue signed c ≤ ' '.toNat ↔
      1 ≤ c.toNat ∧ c.toNat ≤ ' '.toNat := charValue_between signed (by decide)
  have hpos : 0 < c ↔ 0 < c.toNat := UInt8.lt_iff_toNat_lt
  have hle : c ≤ ' '.toUInt8 ↔ c.toNat ≤ 32 := UInt8.le_iff_toNat_le
  rw [Bool.eq_iff_iff, blankChar, isBlank, Bool.and_eq_true, Bool.and_eq_true, decide_eq_true_iff,
    decide_eq_true_iff, decide_eq_true_iff, decide_eq_true_iff, hpos, hle]
  exact hbetween

/-! ## Comparing -/

/-- `tf_stricmp` compares the folded strings byte by byte. -/
theorem tfStricmp_lexical {a b : Bytes} (ha : 0 ∉ a) (hb : 0 ∉ b) (x y : Bytes) :
    tfStricmp (a ++ 0 :: x) (b ++ 0 :: y) = some (lexical byteOrder (a.map lower) (b.map lower)) := by
  induction a generalizing b with
  | nil =>
      cases b with
      | nil => rfl
      | cons d b =>
          have hd : d ≠ 0 := (List.ne_of_not_mem_cons hb).symm
          simp [tfStricmp, lexical, hd]
  | cons c a ih =>
      have hc : c ≠ 0 := (List.ne_of_not_mem_cons ha).symm
      have ha' : 0 ∉ a := List.not_mem_of_not_mem_cons ha
      cases b with
      | nil => simp [tfStricmp, lexical, hc]
      | cons d b =>
          have hd : d ≠ 0 := (List.ne_of_not_mem_cons hb).symm
          have hb' : 0 ∉ b := List.not_mem_of_not_mem_cons hb
          rw [List.cons_append, List.cons_append, tfStricmp, if_pos hc, if_neg hd, ih ha' hb', List.map_cons,
            List.map_cons, lexical_cons]
          by_cases hsame : lower c = lower d
          · rw [if_neg (not_not.mpr hsame), if_pos ((byteOrder_eq_zero _ _).mpr hsame)]
          · rw [if_pos hsame, if_neg (mt (byteOrder_eq_zero _ _).mp hsame), byteOrder]

/-- It tells whether two strings are equal but for the case of their letters. -/
theorem tfStricmp_spec {a b : Bytes} (ha : 0 ∉ a) (hb : 0 ∉ b) (x y : Bytes) :
    ∃ r, tfStricmp (a ++ 0 :: x) (b ++ 0 :: y) = some r ∧ (r = 0 ↔ a.map lower = b.map lower) :=
  ⟨_, tfStricmp_lexical ha hb x y, lexical_eq_zero byteOrder_eq_zero⟩

/-- Comparing two strings over the longer of their lengths tells whether they are equal. -/
theorem memcmp_spec {a b : Bytes} (ha : 0 ∉ a) (hb : 0 ∉ b) (x y : Bytes) :
    ∃ r, memcmp (a ++ 0 :: x) (b ++ 0 :: y) (max a.length b.length) = some r ∧ (r = 0 ↔ a = b) := by
  have hdiffer : ∀ {c d : UInt8}, c ≠ d → (c.toNat : Int) - d.toNat ≠ 0 := by
    intro c d h hzero
    exact h (UInt8.toNat_inj.mp (by omega))
  induction a generalizing b with
  | nil =>
      cases b with
      | nil => exact ⟨0, rfl, by simp⟩
      | cons d b =>
          have hd : 0 ≠ d := List.ne_of_not_mem_cons hb
          refine ⟨((0 : UInt8).toNat : Int) - d.toNat, ?_, ?_⟩
          · simp [memcmp, hd]
          · simpa using hdiffer hd
  | cons c a ih =>
      have ha' : 0 ∉ a := List.not_mem_of_not_mem_cons ha
      cases b with
      | nil =>
          have hc : c ≠ 0 := (List.ne_of_not_mem_cons ha).symm
          refine ⟨(c.toNat : Int) - (0 : UInt8).toNat, ?_, ?_⟩
          · simp [memcmp, hc]
          · simpa using hdiffer hc
      | cons d b =>
          have hb' : 0 ∉ b := List.not_mem_of_not_mem_cons hb
          have hmax : max (c :: a).length (d :: b).length = max a.length b.length + 1 := by
            simp only [List.length_cons]
            omega
          rw [hmax]
          by_cases hsame : c = d
          · obtain ⟨r, hr, hiff⟩ := ih ha' hb'
            refine ⟨r, ?_, ?_⟩
            · simpa [memcmp, hsame] using hr
            · simp [hsame, hiff]
          · refine ⟨(c.toNat : Int) - d.toNat, ?_, ?_⟩
            · simp [memcmp, hsame]
            · simpa [hsame] using hdiffer hsame

end Tflib.Util
