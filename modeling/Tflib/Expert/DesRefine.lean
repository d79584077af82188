import Tflib.Expert.DesModes
import Tflib.Expert.DesStandard

/-! # The program computes the standard

The program works with halves that are rotated by one bit, with keys whose bits
are spread over two words, and with tables that are made of the S-boxes and the
permutation behind them.
-/

namespace Tflib.Expert

open Tflib.Core

variable {w : Nat}

/-! ## Words and blocks -/

/-- The two words of a block. -/
def halves (x : BitVec 64) : Words 32 := (x.extractLsb' 32 32, x.extractLsb' 0 32)

def block (b : Words 32) : BitVec 64 := b.1 ++ b.2

theorem block_halves (x : BitVec 64) : block (halves x) = x := by
  apply BitVec.eq_of_getLsbD_eq
  intro i hi
  change (x.extractLsb' 32 32 ++ x.extractLsb' 0 32).getLsbD i = _
  rw [BitVec.getLsbD_append, BitVec.getLsbD_extractLsb', BitVec.getLsbD_extractLsb']
  split
  · simp [*]
  · rw [Nat.add_sub_cancel' (by omega), decide_eq_true (by omega), Bool.true_and]

theorem halves_block (b : Words 32) : halves (block b) = b := by
  refine Prod.ext (BitVec.eq_of_getLsbD_eq fun i hi => ?_) (BitVec.eq_of_getLsbD_eq fun i hi => ?_)
  · change ((b.1 ++ b.2).extractLsb' 32 32).getLsbD i = _
    rw [BitVec.getLsbD_extractLsb', BitVec.getLsbD_append]
    simp [hi]
  · change ((b.1 ++ b.2).extractLsb' 0 32).getLsbD i = _
    rw [BitVec.getLsbD_extractLsb', BitVec.getLsbD_append]
    simp [hi]

theorem xorLinear_halves : XorLinear halves := fun x y =>
  Prod.ext (XorLinear.extractLsb' 32 32 x y) (XorLinear.extractLsb' 0 32 x y)

theorem xorLinear_block : XorLinear block := XorLinear.append

/-! ## The permutations -/

theorem xorLinear_rotateUp : XorLinear fun x : BitVec 32 => rotateUp x := fun x y => by
  apply BitVec.eq_of_getLsbD_eq
  intro i hi
  rw [BitVec.getLsbD_xor, getLsbD_rotateUp _ hi, getLsbD_rotateUp _ hi, getLsbD_rotateUp _ hi]
  split <;> rw [BitVec.getLsbD_xor]

theorem xorLinear_rotateDown : XorLinear fun x : BitVec 32 => rotateDown x := fun x y => by
  apply BitVec.eq_of_getLsbD_eq
  intro i hi
  rw [BitVec.getLsbD_xor, getLsbD_rotateDown _ hi, getLsbD_rotateDown _ hi, getLsbD_rotateDown _ hi]
  split <;> rw [BitVec.getLsbD_xor]

theorem xorLinear_desHead : XorLinear fun b : Words 32 => desHead b := by
  simp only [desHead_eq]
  exact (XorLinear.map xorLinear_rotateUp XorLinear.id).comp <| (xorLinear_exchange _ _).comp <|
    (XorLinear.map XorLinear.id xorLinear_rotateUp).comp <| XorLinear.swap.comp <|
    (xorLinear_exchange _ _).comp <| (xorLinear_exchange _ _).comp <| XorLinear.swap.comp <|
    (xorLinear_exchange _ _).comp (xorLinear_exchange _ _)

theorem xorLinear_desTail : XorLinear fun b : Words 32 => desTail b := by
  simp only [desTail_eq]
  exact (xorLinear_exchange _ _).comp <| (xorLinear_exchange _ _).comp <| XorLinear.swap.comp <|
    (xorLinear_exchange _ _).comp <| (xorLinear_exchange _ _).comp <|
    (XorLinear.map xorLinear_rotateDown XorLinear.id).comp <| (xorLinear_exchange _ _).comp <|
    (XorLinear.map XorLinear.id xorLinear_rotateDown)

theorem xorLinear_rotateBoth : XorLinear fun b : Words 32 => Prod.map rotateUp rotateUp b :=
  XorLinear.map xorLinear_rotateUp xorLinear_rotateUp

/-- The program's halves are those of the standard, rotated. -/
theorem desHead_eq_select (b : Words 32) : desHead b =
    Prod.map rotateUp rotateUp (halves (select Standard.initialPermutation (block b))) := by
  have hall : ∀ x, block (desHead (halves x)) =
      block (Prod.map rotateUp rotateUp (halves (select Standard.initialPermutation x))) := by
    refine XorLinear.ext (xorLinear_block.comp (xorLinear_desHead.comp xorLinear_halves))
      (xorLinear_block.comp (xorLinear_rotateBoth.comp (xorLinear_halves.comp (xorLinear_select _)))) ?_
    decide +kernel
  have h := congrArg halves (hall (block b))
  rwa [halves_block, halves_block, halves_block] at h

theorem desTail_eq_select (b : Words 32) : desTail (Prod.map rotateUp rotateUp b) =
    halves (select Standard.inversePermutation (block b.swap)) := by
  have hall : ∀ x, block (desTail (Prod.map rotateUp rotateUp (halves x))) =
      select Standard.inversePermutation (block (halves x).swap) := by
    refine XorLinear.ext
      (xorLinear_block.comp (xorLinear_desTail.comp (xorLinear_rotateBoth.comp xorLinear_halves)))
      ((xorLinear_select _).comp (xorLinear_block.comp (XorLinear.swap.comp xorLinear_halves))) ?_
    decide +kernel
  have h := congrArg halves (hall (block b))
  rwa [halves_block, halves_block] at h

/-! ## A round -/

/-- The right half as it is looked up, without the key. -/
def spreadHalf (half : BitVec 32) : Words 32 := (half <<< 28 ||| half >>> 4, half)

/-- A key of 48 bits as `cookey` lays it out. -/
def spreadKey (k : BitVec 48) : Words 32 :=
  cook ((k.extractLsb' 24 24).setWidth 32, (k.extractLsb' 0 24).setWidth 32)

/-- The index into the table of S-box `i`, the first being 0. -/
def spIndex (i : Nat) (work : Words 32) : BitVec 32 :=
  (if i % 2 = 0 then work.1 else work.2) >>> (24 - 8 * (i / 2)) &&& 0x3f#32

theorem xorLinear_spIndex (i : Nat) : XorLinear (spIndex i) := fun x y => by
  unfold spIndex
  split
  · change ((x.1 ^^^ y.1) >>> _) &&& _ = _
    rw [BitVec.ushiftRight_xor_distrib, xor_and]
  · change ((x.2 ^^^ y.2) >>> _) &&& _ = _
    rw [BitVec.ushiftRight_xor_distrib, xor_and]

theorem xorLinear_setWidth (m n : Nat) : XorLinear fun x : BitVec m => x.setWidth n := fun _ _ =>
  BitVec.setWidth_xor

theorem xorLinear_six (i : Nat) : XorLinear (Standard.six i) := XorLinear.extractLsb' _ 6

theorem xorLinear_spreadHalf : XorLinear spreadHalf := fun x y => by
  refine Prod.ext (BitVec.eq_of_getLsbD_eq fun i hi => ?_) rfl
  change ((x ^^^ y) <<< 28 ||| (x ^^^ y) >>> 4).getLsbD i =
    ((x <<< 28 ||| x >>> 4) ^^^ (y <<< 28 ||| y >>> 4)).getLsbD i
  simp only [BitVec.getLsbD_xor, BitVec.getLsbD_or, BitVec.getLsbD_shiftLeft, BitVec.getLsbD_ushiftRight]
  by_cases h : i < 28
  · simp [h]
  · simp [h, hi, BitVec.getLsbD_of_ge x (4 + i) (by omega), BitVec.getLsbD_of_ge y (4 + i) (by omega)]

theorem spIndex_spreadHalf {i : Nat} (hi : i < 8) (x : BitVec 32) :
    spIndex i (spreadHalf (rotateUp x)) =
      (Standard.six i (select Standard.expansion x)).setWidth 32 := by
  refine XorLinear.ext
    ((xorLinear_spIndex i).comp (xorLinear_spreadHalf.comp xorLinear_rotateUp))
    ((xorLinear_setWidth 6 32).comp ((xorLinear_six i).comp (xorLinear_select _))) ?_ x
  revert i
  decide +kernel

theorem spIndex_spreadKey {i : Nat} (hi : i < 8) (k : BitVec 48) :
    spIndex i (spreadKey k) = (Standard.six i k).setWidth 32 := by
  have hextract : ∀ (x y : BitVec 48) (j n : Nat),
      (x ||| y).extractLsb' j n = x.extractLsb' j n ||| y.extractLsb' j n := fun x y j n => by
    apply BitVec.eq_of_getLsbD_eq
    intro t ht
    simp [ht]
  have hand : ∀ x y z : BitVec 32, (x ||| y) &&& z = x &&& z ||| y &&& z := fun x y z => by
    apply BitVec.eq_of_getLsbD_eq
    intro t _
    simp only [BitVec.getLsbD_and, BitVec.getLsbD_or]
    exact Bool.and_or_distrib_right _ _ _
  refine @eq_of_twoPow_or 48 32 (fun k => spIndex i (spreadKey k))
    (fun k => (Standard.six i k).setWidth 32) (fun x y => ?_) (fun x y => ?_) ?_ ?_ k
  · unfold spIndex
    split
    all_goals
      simp only [spreadKey, cook, hextract, BitVec.setWidth_or, hand, BitVec.shiftLeft_or_distrib,
        BitVec.ushiftRight_or_distrib]
      ac_rfl
  · simp only [Standard.six, hextract, BitVec.setWidth_or]
  · revert i
    decide +kernel
  · revert i
    decide +kernel

/-- The tables are the S-boxes with the permutation behind them. -/
theorem spTables_eq : ∀ i < 8, ∀ n < 64, BitVec.ofNat 32 ((spTables.getD i []).getD n 0) =
    rotateUp (select Standard.permutation
      (Standard.substitute i (BitVec.ofNat 6 n) <<< (28 - 4 * i))) := by
  decide +kernel

theorem rotateUp_or (x y : BitVec 32) : rotateUp (x ||| y) = rotateUp x ||| rotateUp y := by
  apply BitVec.eq_of_getLsbD_eq
  intro i hi
  rw [BitVec.getLsbD_or, getLsbD_rotateUp _ hi, getLsbD_rotateUp _ hi, getLsbD_rotateUp _ hi]
  split <;> rw [BitVec.getLsbD_or]

/-- What S-box `i` adds to the value of the cipher function, as the program has it. -/
def spValue (i : Nat) (b : BitVec 48) : BitVec 32 :=
  rotateUp (select Standard.permutation (Standard.substitute i (Standard.six i b) <<< (28 - 4 * i)))

theorem rotateUp_cipherFunction (k : BitVec 48) (x : BitVec 32) :
    rotateUp (Standard.cipherFunction k x) =
      (List.range 8).foldl (fun out i => out ||| spValue i (select Standard.expansion x ^^^ k)) 0#32 := by
  have hzero : rotateUp (select Standard.permutation 0#32) = 0#32 := by decide
  rw [Standard.cipherFunction, Standard.substitutions, ← hzero]
  refine (List.foldl_hom (fun y => rotateUp (select Standard.permutation y)) fun y i => ?_).symm
  rw [select_or, rotateUp_or]
  rfl

theorem spEntry_eq {i : Nat} (hi : i < 8) (k : BitVec 48) (x : BitVec 32) :
    BitVec.ofNat 32 ((spTables.getD i []).getD
      (spIndex i (spreadHalf (rotateUp x) ^^^ spreadKey k)).toNat 0) =
      spValue i (select Standard.expansion x ^^^ k) := by
  rw [xorLinear_spIndex i, spIndex_spreadHalf hi, spIndex_spreadKey hi, ← BitVec.setWidth_xor,
    ← xorLinear_six i, BitVec.toNat_setWidth_of_le (by decide), spTables_eq i hi _ (BitVec.isLt _),
    BitVec.ofNat_toNat, BitVec.setWidth_eq]
  rfl

/-- A round of the program is a round of the standard. -/
theorem fval_eq (k : BitVec 48) (x : BitVec 32) :
    fval (spreadKey k) (rotateUp x) = rotateUp (Standard.cipherFunction k x) := by
  have hsum : ∀ v : Nat → BitVec 32, (List.range 8).foldl (fun out i => out ||| v i) 0#32 =
      0#32 ||| v 0 ||| v 1 ||| v 2 ||| v 3 ||| v 4 ||| v 5 ||| v 6 ||| v 7 := fun _ => rfl
  have hfirst : ∀ (i : Nat) (sp : List Nat) (s : Nat), i < 8 → spTables.getD i [] = sp → i % 2 = 0 →
      24 - 8 * (i / 2) = s →
      spEntry sp ((rotateUp x <<< 28 ||| rotateUp x >>> 4) ^^^ (spreadKey k).1) s =
        spValue i (select Standard.expansion x ^^^ k) := by
    rintro i sp s hi rfl hodd rfl
    rw [← spEntry_eq hi, spIndex, if_pos hodd]
    rfl
  have hsecond : ∀ (i : Nat) (sp : List Nat) (s : Nat), i < 8 → spTables.getD i [] = sp → ¬ i % 2 = 0 →
      24 - 8 * (i / 2) = s → spEntry sp (rotateUp x ^^^ (spreadKey k).2) s =
        spValue i (select Standard.expansion x ^^^ k) := by
    rintro i sp s hi rfl heven rfl
    rw [← spEntry_eq hi, spIndex, if_neg heven]
    rfl
  rw [rotateUp_cipherFunction, hsum, BitVec.zero_or]
  simp only [fval]
  rw [hfirst 6 sp7 0 (by decide) rfl (by decide) rfl, hfirst 4 sp5 8 (by decide) rfl (by decide) rfl,
    hfirst 2 sp3 16 (by decide) rfl (by decide) rfl, hfirst 0 sp1 24 (by decide) rfl (by decide) rfl,
    hsecond 7 sp8 0 (by decide) rfl (by decide) rfl, hsecond 5 sp6 8 (by decide) rfl (by decide) rfl,
    hsecond 3 sp4 16 (by decide) rfl (by decide) rfl, hsecond 1 sp2 24 (by decide) rfl (by decide) rfl]
  ac_rfl

end Tflib.Expert
