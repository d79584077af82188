import Tflib.Core.Bytes
import Tflib.Core.Region
import Mathlib.Data.UInt

/-! # C strings and `int` sizes

A C string is its bytes before the terminator, none of which is zero. A length
that does not fit in `int` is narrowed as the compiler does it.
-/

namespace Tflib.Core

/-- The bytes of a C string in front of its terminator. -/
abbrev CString := { s : Bytes // 0 ∉ s }

namespace CString

/-- `int size = strlen(str)` -/
def strlen (s : CString) : Int32 := Int32.ofNat s.val.length

/-- The string from byte `n` on. -/
def drop (s : CString) (n : Nat) : CString :=
  ⟨s.val.drop n, fun h => s.2 (List.mem_of_mem_drop h)⟩

/-- The string after a zero was stored at byte `n`. -/
def take (s : CString) (n : Nat) : CString :=
  ⟨s.val.take n, fun h => s.2 (List.mem_of_mem_take h)⟩

/-- The bytes with their terminator. -/
def bytes (s : CString) : Bytes := s.val ++ [0]

/-- The memory that a `char *` points to. -/
def cells (s : CString) : Region UInt8 := (s.val ++ [0]).map some

end CString

/-- The `size_t` that an `int` is converted to. -/
def sizeT (n : Int32) : Nat := (n.toInt % 2 ^ 64).toNat

theorem toInt_ofNat {n : Nat} (h : n < 2 ^ 31) : (Int32.ofNat n).toInt = n :=
  Int32.toInt_ofNat_of_lt h

theorem sizeT_ofNat {n : Nat} (h : n < 2 ^ 31) : sizeT (Int32.ofNat n) = n := by
  rw [sizeT, toInt_ofNat h]
  omega

/-- No negative `int` is converted to a small `size_t`. -/
theorem eq_ofNat_of_sizeT {n : Int32} (h : sizeT n < 2 ^ 31) : n = .ofNat (sizeT n) := by
  apply Int32.toInt_inj.mp
  rw [toInt_ofNat h]
  have hlo := n.le_toInt
  have hhi := n.toInt_lt
  unfold sizeT at h ⊢
  omega

theorem ofNat_add_one (n : Nat) : Int32.ofNat n + 1 = Int32.ofNat (n + 1) :=
  (Int32.ofNat_add n 1).symm

/-- Copying a C string with its terminator. -/
theorem CString.load_cells (s : CString) (h : s.val.length + 1 < 2 ^ 31) :
    s.cells.load 0 (sizeT (s.strlen + 1)) = some ((s.val ++ [0]).map some) := by
  rw [strlen, ofNat_add_one, sizeT_ofNat h]
  have hcells : s.cells.Begins (s.val ++ [0]) := List.prefix_refl _
  have hload := hcells.load
  rwa [List.length_append, List.length_singleton] at hload

theorem ofNat_nonneg {n : Nat} (h : n < 2 ^ 31) : 0 ≤ Int32.ofNat n := by
  rw [Int32.le_iff_toInt_le, toInt_ofNat h]
  exact Int.natCast_nonneg n

theorem toUInt32_ofNat (n : Nat) : (Int32.ofNat n).toUInt32 = UInt32.ofNat n := rfl

theorem toNat_ofNat {n : Nat} (h : n < 2 ^ 32) : (UInt32.ofNat n).toNat = n :=
  UInt32.toNat_ofNat_of_lt h

theorem ofNat_mod (n : Nat) : Int32.ofNat (n % 2 ^ 32) = .ofNat n := by
  apply Int32.toBitVec_inj.mp
  apply BitVec.eq_of_toNat_eq
  change n % 2 ^ 32 % 2 ^ 32 = n % 2 ^ 32
  exact Nat.mod_mod n _

theorem neg_ofNat {n : Nat} (hlo : 2 ^ 31 ≤ n) (hhi : n < 2 ^ 32) : ¬ 0 ≤ Int32.ofNat n := by
  have hint : (Int32.ofNat n).toInt = (n : Int) - 2 ^ 32 := by
    change (BitVec.ofNat 32 n).toInt = _
    rw [BitVec.toInt_ofNat', Int.bmod]
    omega
  rw [Int32.le_iff_toInt_le, hint, Int32.toInt_zero]
  omega

theorem max_ofNat {m n : Nat} (hm : m < 2 ^ 31) (hn : n < 2 ^ 31) :
    max (Int32.ofNat m) (Int32.ofNat n) = Int32.ofNat (max m n) := by
  have hle : Int32.ofNat m ≤ Int32.ofNat n ↔ m ≤ n := by
    rw [Int32.le_iff_toInt_le, toInt_ofNat hm, toInt_ofNat hn]
    exact Int.ofNat_le
  by_cases h : m ≤ n
  · rw [Nat.max_eq_right h]
    exact if_pos (hle.mpr h)
  · rw [Nat.max_eq_left (by omega)]
    exact if_neg (fun hn => h (hle.mp hn))

/-- The result of an `int` computation that does not come below zero; an overflow is a fault. -/
def intOf (n : Nat) : Option Nat := if n < 2 ^ 31 then some n else none

theorem intOf_of_lt {n : Nat} (h : n < 2 ^ 31) : intOf n = some n := if_pos h

theorem intOf_eq_some {n m : Nat} : intOf n = some m ↔ m = n ∧ n < 2 ^ 31 := by
  unfold intOf
  constructor
  · intro h
    split at h
    · cases h
      exact ⟨rfl, by assumption⟩
    · cases h
  · rintro ⟨rfl, h⟩
    exact if_pos h

/-! ## Allocation -/

/-- Allocating an `int` number of cells, which succeeds. A negative number would be converted to a
`size_t` that no allocation can satisfy. -/
def alloc {α : Type*} (n : Int32) : Option (Region α) :=
  if 0 ≤ n then some (Region.fresh (sizeT n)) else none

def realloc {α : Type*} (r : Region α) (n : Int32) : Option (Region α) :=
  if 0 ≤ n then some (r.resize (sizeT n)) else none

theorem alloc_ofNat {α : Type*} {n : Nat} (h : n < 2 ^ 31) :
    (alloc (.ofNat n) : Option (Region α)) = some (Region.fresh n) := by
  rw [alloc, if_pos (ofNat_nonneg h), sizeT_ofNat h]

theorem realloc_ofNat {α : Type*} (r : Region α) {n : Nat} (h : n < 2 ^ 31) :
    realloc r (.ofNat n) = some (r.resize n) := by
  rw [realloc, if_pos (ofNat_nonneg h), sizeT_ofNat h]

end Tflib.Core
