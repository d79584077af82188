import Tflib.Core.Bytes
import Mathlib.Data.UInt

/-! # The `char` of C as an `int`

Whether a `char` has a sign is up to the compiler. A byte below 128 has its own
value either way, and no other byte has a value from 0 to 127.
-/

namespace Tflib.Core

/-- A `char` as an `int`. -/
def charValue (signed : Bool) (c : UInt8) : Int := if signed ∧ 128 ≤ c then c.toNat - 256 else c.toNat

variable (signed : Bool)

theorem charValue_cases (c : UInt8) :
    charValue signed c = c.toNat ∨ 128 ≤ c.toNat ∧ charValue signed c = c.toNat - 256 := by
  unfold charValue
  split
  · rename_i h
    exact .inr ⟨UInt8.le_iff_toNat_le.mp h.2, rfl⟩
  · exact .inl rfl

theorem charValue_signed (c : UInt8) : charValue true c = if c < 128 then (c.toNat : Int) else c.toNat - 256 := by
  unfold charValue
  by_cases hlow : c < 128
  · rw [if_pos hlow, if_neg fun h => absurd h.2 (UInt8.not_le.mpr hlow)]
  · rw [if_neg hlow, if_pos ⟨rfl, UInt8.not_lt.mp hlow⟩]

theorem charValue_inj {c d : UInt8} : charValue signed c = charValue signed d ↔ c = d := by
  have hc := charValue_cases signed c
  have hd := charValue_cases signed d
  have hclt := c.toNat_lt
  have hdlt := d.toNat_lt
  refine ⟨fun h => UInt8.toNat_inj.mp ?_, fun h => by rw [h]⟩
  omega

theorem charValue_eq_zero {c : UInt8} : charValue signed c = 0 ↔ c = 0 := by
  have hzero : charValue signed 0 = 0 := by cases signed <;> rfl
  rw [← hzero, charValue_inj]

/-- The sign does not show in a comparison with two bounds below 128. -/
theorem charValue_between {c : UInt8} {lo hi : Nat} (h : hi < 128) :
    (lo : Int) ≤ charValue signed c ∧ charValue signed c ≤ hi ↔ lo ≤ c.toNat ∧ c.toNat ≤ hi := by
  have hlt := c.toNat_lt
  have hcases := charValue_cases signed c
  omega

end Tflib.Core
