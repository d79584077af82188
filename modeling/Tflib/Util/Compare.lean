import Tflib.Core.Chars
import Tflib.Util.Strings

/-! # The order of `tf_stricmp`

Letters are folded as plain `char`s and everything else is compared as `unsigned
char`. Where the compiler's `char` has a sign the result is the same.
-/

namespace Tflib.Util

open Tflib.Core

/-- A byte as `tf_stricmp` compares it. -/
def foldChar (signed : Bool) (c : UInt8) : Int :=
  if 'A'.toNat ≤ charValue signed c ∧ charValue signed c ≤ 'Z'.toNat then
    charValue signed c + ('a'.toNat - 'A'.toNat)
  else c.toNat

/-- `tf_stricmp` with the compiler's `char`. -/
def tfStricmpChars (signed : Bool) : Bytes → Bytes → Option Int
  | [], _ => none
  | _ :: _, [] => none
  | a :: astr, b :: bstr =>
      if charValue signed a ≠ 0 then
        if charValue signed b = 0 then some 1
        else
          let ac := foldChar signed a
          let bc := foldChar signed b
          if ac ≠ bc then some (ac - bc) else tfStricmpChars signed astr bstr
      else some (if charValue signed b = 0 then 0 else -1)

/-! ## The sign of `char` -/

theorem upper_iff (signed : Bool) (c : UInt8) :
    'A'.toNat ≤ charValue signed c ∧ charValue signed c ≤ 'Z'.toNat ↔
      'A'.toUInt8 ≤ c ∧ c ≤ 'Z'.toUInt8 :=
  charValue_between signed (by decide)

theorem lower_toNat {c : UInt8} (h : 'A'.toUInt8 ≤ c ∧ c ≤ 'Z'.toUInt8) :
    (lower c).toNat = c.toNat + 32 ∧ 65 ≤ c.toNat ∧ c.toNat ≤ 90 := by
  have hlo : 65 ≤ c.toNat := h.1
  have hhi : c.toNat ≤ 90 := h.2
  rw [lower, if_pos h, UInt8.toNat_add]
  change (c.toNat + 32) % 256 = c.toNat + 32 ∧ _
  omega

theorem foldChar_eq (signed : Bool) (c : UInt8) : foldChar signed c = (lower c).toNat := by
  unfold foldChar
  by_cases hupper : 'A'.toUInt8 ≤ c ∧ c ≤ 'Z'.toUInt8
  · have hcases := charValue_cases signed c
    obtain ⟨hlower, hlo, hhi⟩ := lower_toNat hupper
    rw [if_pos ((upper_iff signed c).mpr hupper), hlower]
    change charValue signed c + ((97 : Int) - 65) = (c.toNat + 32 : Nat)
    omega
  · rw [if_neg (mt (upper_iff signed c).mp hupper), lower, if_neg hupper]

/-- Signed or not, `char` gives the same comparison. -/
theorem tfStricmpChars_eq (signed : Bool) (a b : Bytes) : tfStricmpChars signed a b = tfStricmp a b := by
  induction a generalizing b with
  | nil => rfl
  | cons c a ih =>
      cases b with
      | nil => rfl
      | cons d b =>
          simp only [tfStricmpChars, tfStricmp, ne_eq, charValue_eq_zero, foldChar_eq, ih, Int.ofNat_inj,
            UInt8.toNat_inj]

/-! ## The order -/

/-- With either kind of `char`, `tf_stricmp` is a total preorder on strings: the lexicographic order of
their folded bytes. -/
theorem tfStricmpChars_preorder (signed : Bool) : ∃ order : CString → CString → Int,
    (∀ (a b : CString) (x y : Bytes),
      tfStricmpChars signed (a.val ++ 0 :: x) (b.val ++ 0 :: y) = some (order a b)) ∧
    (∀ a b, (order a b).sign = -(order b a).sign) ∧
    (∀ a b c, order a b ≤ 0 → order b c ≤ 0 → order a c ≤ 0) ∧
    (∀ a b, order a b = 0 ↔ folded a = folded b) ∧
    ∀ a b, order a b < 0 ↔ folded a < folded b := by
  have hconsistent := byteOrder_consistent.lexical
  refine ⟨fun a b => lexical byteOrder (folded a) (folded b), fun a b x y => ?_, fun a b => ?_,
    fun a b c => hconsistent.trans _ _ _, fun a b => lexical_eq_zero byteOrder_eq_zero,
    fun a b => lexical_neg byteOrder_eq_zero byteOrder_neg⟩
  · rw [tfStricmpChars_eq, tfStricmp_lexical a.2 b.2]
    rfl
  · have hflip := hconsistent.flip (folded a) (folded b)
    have hback := hconsistent.flip (folded b) (folded a)
    dsimp only
    generalize lexical byteOrder (folded a) (folded b) = r at hflip hback ⊢
    generalize lexical byteOrder (folded b) (folded a) = r' at hflip hback ⊢
    rcases Int.lt_trichotomy r 0 with hneg | rfl | hpos
    · rw [Int.sign_eq_neg_one_of_neg hneg, Int.sign_eq_one_of_pos (hback.mpr hneg)]
    · have hzero : r' = 0 := by omega
      rw [hzero, Int.sign_zero, Int.neg_zero]
    · rw [Int.sign_eq_one_of_pos hpos, Int.sign_eq_neg_one_of_neg (hflip.mp hpos), Int.neg_neg]

end Tflib.Util
