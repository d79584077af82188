import Tflib.Core.Machine
import Mathlib.Data.UInt
import Mathlib.Algebra.BigOperators.Group.Finset.Basic
import Mathlib.Tactic.Abel

/-! # The accounting allocator of `tf_malloc.c`

A 64-bit build without `HAVE_MALLOC_SIZE`: every block has a `size_t` in front
of it. `tf_realloc` accounts the bare sizes and the others the sizes with the
prefix, each of them rounded up to a multiple of `sizeof(long)`.
-/

namespace Tflib.Util

open Tflib.Core

/-- `PREFIX_SIZE` -/
def prefixSize : UInt64 := 8

/-- The rounding of `tf_malloc_stat_alloc`, `tf_malloc_stat_free` and `tf_malloc_size`. -/
def padded (n : UInt64) : UInt64 := if n &&& 7 ≠ 0 then n + (8 - (n &&& 7)) else n

/-- `used_memory` and `tf_malloc_thread_safe`, with the memory that they are about. -/
structure Heap where
  usedMemory : UInt64
  threadSafe : Bool
  /-- the `size_t` in front of each block -/
  sizeWord : Nat → UInt64
  /-- the blocks that the underlying allocator has handed out -/
  live : Finset Nat

def Heap.start : Heap := ⟨0, false, fun _ => 0, ∅⟩

namespace Heap

def tfMallocStatAdd (h : Heap) (n : UInt64) : Heap := { h with usedMemory := h.usedMemory + n }

def tfMallocStatSub (h : Heap) (n : UInt64) : Heap := { h with usedMemory := h.usedMemory - n }

def tfMallocStatAlloc (h : Heap) (n : UInt64) : Heap :=
  if h.threadSafe then h.tfMallocStatAdd (padded n)
  else { h with usedMemory := h.usedMemory + padded n }

def tfMallocStatFree (h : Heap) (n : UInt64) : Heap :=
  if h.threadSafe then h.tfMallocStatSub (padded n)
  else { h with usedMemory := h.usedMemory - padded n }

/-- The underlying allocator hands out `p`, and `size` is stored in front of it. -/
def place (h : Heap) (p : Nat) (size : UInt64) : Heap :=
  { h with sizeWord := Function.update h.sizeWord p size, live := insert p h.live }

def drop (h : Heap) (p : Nat) : Heap := { h with live := h.live.erase p }

/-- `tf_alloc`, where `p` is the block that `malloc` finds. -/
def tfAlloc (h : Heap) (p : Nat) (size : UInt64) : Heap :=
  (h.place p size).tfMallocStatAlloc (size + prefixSize)

def tfCalloc (h : Heap) (p : Nat) (size : UInt64) : Heap :=
  (h.place p size).tfMallocStatAlloc (size + prefixSize)

def tfMallocSize (h : Heap) (p : Nat) : UInt64 := padded (h.sizeWord p) + prefixSize

/-- `tf_realloc`, where `q` is the block that `realloc` finds; `none` is NULL. -/
def tfRealloc (h : Heap) (p : Option Nat) (q : Nat) (size : UInt64) : Heap :=
  match p with
  | none => h.tfAlloc q size
  | some p =>
      let oldsize := h.sizeWord p
      let h := (h.drop p).place q size
      (h.tfMallocStatFree oldsize).tfMallocStatAlloc size

def tfFree (h : Heap) (p : Option Nat) : Heap :=
  match p with
  | none => h
  | some p =>
      let oldsize := h.sizeWord p
      (h.tfMallocStatFree (oldsize + prefixSize)).drop p

def tfMallocUsedMemory (h : Heap) : UInt64 := if h.threadSafe then h.usedMemory + 0 else h.usedMemory

def tfMallocEnableThreadSafeness (h : Heap) : Heap := { h with threadSafe := true }

end Heap

/-! ## Histories -/

inductive HeapEvent
  | alloc (p : Nat) (size : UInt64)
  | calloc (p : Nat) (size : UInt64)
  | realloc (p : Option Nat) (q : Nat) (size : UInt64)
  | free (p : Option Nat)
  | enableThreadSafeness

namespace Heap

def step (h : Heap) : HeapEvent → Heap
  | .alloc p size => h.tfAlloc p size
  | .calloc p size => h.tfCalloc p size
  | .realloc p q size => h.tfRealloc p q size
  | .free p => h.tfFree p
  | .enableThreadSafeness => h.tfMallocEnableThreadSafeness

/-- A new block is none of the live ones, and only live blocks are freed or resized. -/
def Admits (h : Heap) : HeapEvent → Prop
  | .alloc p _ => p ∉ h.live
  | .calloc p _ => p ∉ h.live
  | .realloc none q _ => q ∉ h.live
  | .realloc (some p) q _ => p ∈ h.live ∧ (q = p ∨ q ∉ h.live)
  | .free none => True
  | .free (some p) => p ∈ h.live
  | .enableThreadSafeness => True

end Heap

def allocator : Machine Heap HeapEvent where
  step := Heap.step
  admits := Heap.Admits

/-! ## Rounding -/

theorem and_seven (n : UInt64) : (n &&& 7).toNat = n.toNat % 8 := by
  rw [UInt64.toNat_and]
  exact Nat.and_two_pow_sub_one_eq_mod n.toNat 3

/-- The prefix is a multiple of the padding, so it may be added before or after the rounding. -/
theorem padded_add_prefixSize (n : UInt64) : padded (n + prefixSize) = padded n + prefixSize := by
  have hlow : (n + prefixSize) &&& 7 = n &&& 7 := by
    apply UInt64.toNat_inj.mp
    rw [and_seven, and_seven, UInt64.toNat_add]
    change (n.toNat + 8) % 2 ^ 64 % 8 = _
    omega
  unfold padded
  rw [hlow]
  split
  · exact add_right_comm _ _ _
  · rfl

/-! ## The balance -/

namespace Heap

/-- What is accounted is what `tf_malloc_size` says of the live blocks. -/
def Balanced (h : Heap) : Prop := h.usedMemory = ∑ p ∈ h.live, h.tfMallocSize p

theorem tfMallocStatAlloc_eq (h : Heap) (n : UInt64) :
    h.tfMallocStatAlloc n = { h with usedMemory := h.usedMemory + padded n } := by
  unfold tfMallocStatAlloc tfMallocStatAdd
  split
  · rfl
  · rfl

theorem tfMallocStatFree_eq (h : Heap) (n : UInt64) :
    h.tfMallocStatFree n = { h with usedMemory := h.usedMemory - padded n } := by
  unfold tfMallocStatFree tfMallocStatSub
  split
  · rfl
  · rfl

/-- A new block adds its size to the sum. -/
theorem sum_place {h : Heap} {p : Nat} (fresh : p ∉ h.live) (size : UInt64) :
    ∑ x ∈ (h.place p size).live, (h.place p size).tfMallocSize x =
      (∑ x ∈ h.live, h.tfMallocSize x) + (padded size + prefixSize) := by
  have hself : (h.place p size).tfMallocSize p = padded size + prefixSize := by
    simp only [tfMallocSize, place, Function.update_self]
  have hother : ∀ x ∈ h.live, (h.place p size).tfMallocSize x = h.tfMallocSize x := by
    intro x hx
    have hne : x ≠ p := fun heq => fresh (heq ▸ hx)
    simp only [tfMallocSize, place, Function.update_of_ne hne]
  change ∑ x ∈ insert p h.live, _ = _
  rw [Finset.sum_insert fresh, hself, Finset.sum_congr rfl hother, add_comm]

theorem sum_drop {h : Heap} {p : Nat} (hp : p ∈ h.live) :
    (∑ x ∈ (h.drop p).live, (h.drop p).tfMallocSize x) + h.tfMallocSize p =
      ∑ x ∈ h.live, h.tfMallocSize x := Finset.sum_erase_add h.live h.tfMallocSize hp

theorem Balanced.alloc {h : Heap} (hb : h.Balanced) {p : Nat} (fresh : p ∉ h.live)
    (size : UInt64) : (h.tfAlloc p size).Balanced := by
  have hsum := sum_place fresh size
  unfold Balanced at hb ⊢
  rw [tfAlloc, tfMallocStatAlloc_eq, padded_add_prefixSize]
  refine Eq.trans ?_ hsum.symm
  rw [← hb]
  rfl

/-- Freeing and allocating the bare sizes leaves the prefix of the one block to the other. -/
theorem Balanced.realloc {h : Heap} (hb : h.Balanced) {p q : Nat} (hp : p ∈ h.live)
    (hq : q = p ∨ q ∉ h.live) (size : UInt64) : (h.tfRealloc (some p) q size).Balanced := by
  have hfresh : q ∉ (h.drop p).live := by
    rcases hq with rfl | hq
    · exact Finset.notMem_erase q h.live
    · exact fun hmem => hq (Finset.mem_of_mem_erase hmem)
  have hplace := sum_place hfresh size
  have hdrop := sum_drop hp
  unfold Balanced at hb ⊢
  simp only [tfRealloc, tfMallocStatFree_eq, tfMallocStatAlloc_eq]
  refine Eq.trans ?_ hplace.symm
  change h.usedMemory - padded (h.sizeWord p) + padded size = _
  rw [hb, ← hdrop, tfMallocSize]
  abel

theorem Balanced.free {h : Heap} (hb : h.Balanced) {p : Nat} (hp : p ∈ h.live) :
    (h.tfFree (some p)).Balanced := by
  have hdrop := sum_drop hp
  unfold Balanced at hb ⊢
  simp only [tfFree, tfMallocStatFree_eq]
  change h.usedMemory - padded (h.sizeWord p + prefixSize) = ∑ x ∈ (h.drop p).live, _
  rw [hb, ← hdrop, padded_add_prefixSize, tfMallocSize]
  exact add_sub_cancel_right _ _

theorem Balanced.step {h : Heap} (hb : h.Balanced) {e : HeapEvent} (admitted : h.Admits e) :
    (h.step e).Balanced := by
  cases e with
  | alloc p size => exact hb.alloc admitted size
  | calloc p size => exact hb.alloc admitted size
  | realloc p q size =>
      cases p with
      | none => exact hb.alloc admitted size
      | some p => exact hb.realloc admitted.1 admitted.2 size
  | free p =>
      cases p with
      | none => exact hb
      | some p => exact hb.free admitted
  | enableThreadSafeness => exact hb

theorem tfMallocUsedMemory_eq (h : Heap) : h.tfMallocUsedMemory = h.usedMemory := by
  unfold tfMallocUsedMemory
  split
  · exact UInt64.add_zero _
  · rfl

theorem Balanced.reaches {h : Heap} (hr : allocator.Reaches .start h) : h.Balanced := by
  refine hr.invariant ?_ rfl
  intro h e hb admitted
  exact hb.step admitted

theorem toNat_sum (s : Finset Nat) (f : Nat → UInt64) (h : ∑ p ∈ s, (f p).toNat < 2 ^ 64) :
    (∑ p ∈ s, f p).toNat = ∑ p ∈ s, (f p).toNat := by
  induction s using Finset.induction_on with
  | empty => rfl
  | insert p s hp ih =>
      rw [Finset.sum_insert hp] at h
      rw [Finset.sum_insert hp, Finset.sum_insert hp, UInt64.toNat_add, ih (by omega),
        Nat.mod_eq_of_lt h]

/-- Two blocks, the first of them resized in place after thread safety was switched on. -/
def twoBlocks : List HeapEvent :=
  [.alloc 100 5, .calloc 200 16, .enableThreadSafeness, .realloc (some 100) 100 33]

end Heap

end Tflib.Util
