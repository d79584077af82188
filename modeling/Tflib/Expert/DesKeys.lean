import Mathlib.Data.List.Basic
import Tflib.Expert.DesSchedule

/-! # What a key decides

Which keys load the same registers, and which do so in both modes.
-/

namespace Tflib.Expert

open Tflib.Core

variable {w : Nat}

/-! ## Equal registers -/

/-- The entry of `pc1m` that entry `n` of `pcr` is in round `i`. -/
def pcrPlace (i n : Nat) : Nat :=
  let l := n + totrot.getD i 0
  if n < 28 then if l < 28 then l else l - 28
  else if l < 56 then l else l - 28

theorem pcr_eq (f : Nat → Bool) (i n : Nat) : pcr f i n = f (pcrPlace i n) := by
  unfold pcr pcrPlace
  dsimp only
  split
  · split <;> rfl
  · split <;> rfl

theorem spreadKey_injective : Function.Injective spreadKey := by
  intro k k' h
  have hsix : ∀ i < 8, Standard.six i k = Standard.six i k' := fun i hi => by
    have hwide := (spIndex_spreadKey hi k).symm.trans ((congrArg (spIndex i) h).trans (spIndex_spreadKey hi k'))
    have hlow := congrArg (BitVec.setWidth 6) hwide
    rwa [BitVec.setWidth_setWidth_of_le _ (by decide), BitVec.setWidth_setWidth_of_le _ (by decide),
      BitVec.setWidth_eq, BitVec.setWidth_eq] at hlow
  apply BitVec.eq_of_getLsbD_eq
  intro t ht
  have hbit := congrArg (fun b => b.getLsbD (t % 6)) (hsix (7 - t / 6) (by omega))
  simp only [Standard.six, BitVec.getLsbD_extractLsb', decide_eq_true (Nat.mod_lt t (by decide : 6 > 0)),
    Bool.true_and] at hbit
  have hplace : 42 - 6 * (7 - t / 6) + t % 6 = t := by omega
  rwa [hplace] at hbit

/-- Every bit that `pc1` takes is used in some round. -/
theorem exists_place : ∀ n < 56, ∃ i < 16, ∃ j < 48, pcrPlace i (pc2.getD j 0) = n := by
  decide +kernel

theorem pairs_injective : Function.Injective (Register.pairs (w := w)) := by
  intro r r' h
  have hpair : ∀ i, r.pair i = r'.pair i := fun i => List.map_inj_left.mp h i (List.mem_finRange i)
  funext x
  obtain ⟨i, hx | hx⟩ : ∃ i : Fin 16, x.val = 2 * i ∨ x.val = 2 * i + 1 :=
    ⟨⟨x / 2, by omega⟩, by simp only; omega⟩
  · have hfirst := congrArg Prod.fst (hpair i)
    simpa only [Register.pair, ← hx] using hfirst
  · have hsecond := congrArg Prod.snd (hpair i)
    simpa only [Register.pair, ← hx] using hsecond

theorem pc1m_bit (key : Nat → UInt8) (j : Nat) :
    pc1m key j = (key (pc1.getD j 0 / 8)).toBitVec.getLsbD (7 - pc1.getD j 0 % 8) := by
  have hand : pc1.getD j 0 &&& 7 = pc1.getD j 0 % 8 := Nat.and_two_pow_sub_one_eq_mod _ 3
  rw [pc1m, hand, Nat.shiftRight_eq_div_pow]
  exact and_bytebit _ (Nat.mod_lt _ (by decide))

theorem getLsbD_shiftRight_one (c : UInt8) (t : Nat) :
    (c >>> 1).toBitVec.getLsbD t = c.toBitVec.getLsbD (t + 1) := by
  rw [UInt8.toBitVec_shiftRight, Nat.add_comm]
  exact BitVec.getLsbD_ushiftRight c.toBitVec 1 t

/-- `pc1` leaves out no bit but the lowest of each byte, ... -/
theorem shiftRight_eq_of_pc1m {key key' : Nat → UInt8} (h : ∀ j < 56, pc1m key j = pc1m key' j) :
    ∀ i < 8, key i >>> 1 = key' i >>> 1 := by
  intro i hi
  apply UInt8.toBitVec_inj.mp
  apply BitVec.eq_of_getLsbD_eq
  intro t ht
  rw [getLsbD_shiftRight_one, getLsbD_shiftRight_one]
  by_cases hlast : t = 7
  · rw [BitVec.getLsbD_of_ge _ _ (by omega), BitVec.getLsbD_of_ge _ _ (by omega)]
  · have hexists : ∀ i < 8, ∀ t < 7, ∃ j < 56, pc1.getD j 0 = 8 * i + (6 - t) := by decide
    obtain ⟨j, hj56, hj⟩ := hexists i hi t (by omega)
    have hbit := h j hj56
    have hdiv : (8 * i + (6 - t)) / 8 = i := by omega
    have hmod : 7 - (8 * i + (6 - t)) % 8 = t + 1 := by omega
    rwa [pc1m_bit, pc1m_bit, hj, hdiv, hmod] at hbit

/-- ... and these it does leave out. -/
theorem pc1m_congr {key key' : Nat → UInt8} (h : ∀ i < 8, key i >>> 1 = key' i >>> 1) :
    pc1m key = pc1m key' := by
  funext j
  have hsmall : pc1.getD j 0 / 8 < 8 ∧ pc1.getD j 0 % 8 < 7 := by
    by_cases hj : j < 56
    · revert j
      decide
    · rw [List.getD_eq_default _ _ (show pc1.length ≤ j by simpa [pc1] using hj)]
      decide
  have hbit := congrArg (fun c : UInt8 => c.toBitVec.getLsbD (6 - pc1.getD j 0 % 8)) (h _ hsmall.1)
  have hplace : 6 - pc1.getD j 0 % 8 + 1 = 7 - pc1.getD j 0 % 8 := by omega
  rwa [getLsbD_shiftRight_one, getLsbD_shiftRight_one, hplace, ← pc1m_bit, ← pc1m_bit] at hbit

theorem roundKey_low (hw : 32 ≤ w) (key : Nat → UInt8) (i : Fin 16) :
    low (roundKey w key i) = roundKey 32 key i := by
  rw [roundKey, cook_low hw, roundKey]
  exact congrArg cook (Prod.ext (knWord_low hw _ 0) (knWord_low hw _ 24))

/-- The bits that the registers hold. -/
theorem pc1m_of_roundKey {key key' : Nat → UInt8} (h : ∀ i, roundKey 32 key i = roundKey 32 key' i) :
    ∀ j < 56, pc1m key j = pc1m key' j := by
  intro n hn
  obtain ⟨i, hi, j, hj, rfl⟩ := exists_place n hn
  have hkeys := h ⟨i, hi⟩
  rw [roundKey_eq, roundKey_eq] at hkeys
  have hbit := congrArg (fun k => k.getMsbD j) (spreadKey_injective hkeys)
  dsimp only at hbit
  rwa [getMsbD_standardKey key hi hj, getMsbD_standardKey key' hi hj, pcr_eq, pcr_eq] at hbit

/-- Two keys load the same registers if and only if they agree on all bits but the
lowest of each byte. -/
theorem deskey_eq_iff (hw : 32 ≤ w) (key key' : Nat → UInt8) (mode : Mode) (kv : KeyVar w) :
    deskey key mode kv = deskey key' mode kv ↔ ∀ i < 8, key i >>> 1 = key' i >>> 1 := by
  constructor
  · intro h
    have hkeys : ∀ i, roundKey 32 key i = roundKey 32 key' i := fun i => by
      have hpair := deskey_pair key mode kv i
      rw [h, deskey_pair key' mode kv i] at hpair
      rw [← roundKey_low hw, ← roundKey_low hw, hpair]
    exact shiftRight_eq_of_pc1m (pc1m_of_roundKey hkeys)
  · intro h
    rw [deskey, deskey, kn, kn, pc1m_congr h]

theorem deskey_eq_iff_dfKey :
    deskey (fun i => dfKey.getD i 0) .en0 zeroKeyVar = deskey (fun i => dfKey.getD i 0 ^^^ 1) .en0 zeroKeyVar ↔
      ∀ i < 8, dfKey.getD i 0 >>> 1 = (dfKey.getD i 0 ^^^ 1) >>> 1 :=
  deskey_eq_iff (by decide) (fun i => dfKey.getD i 0) (fun i => dfKey.getD i 0 ^^^ 1) .en0 zeroKeyVar

/-! ## The same registers in both modes -/

/-- The four weak keys. -/
def weakKeys : List Bytes :=
  [[0x01, 0x01, 0x01, 0x01, 0x01, 0x01, 0x01, 0x01], [0x1f, 0x1f, 0x1f, 0x1f, 0x0e, 0x0e, 0x0e, 0x0e],
   [0xe0, 0xe0, 0xe0, 0xe0, 0xf1, 0xf1, 0xf1, 0xf1], [0xfe, 0xfe, 0xfe, 0xfe, 0xfe, 0xfe, 0xfe, 0xfe]]

/-- Up to the lowest bit of each byte, `key` is a weak key. -/
def Weak (key : Nat → UInt8) : Prop :=
  ∃ weak ∈ weakKeys, ∀ i < 8, key i >>> 1 = weak.getD i 0 >>> 1

/-- Each half of `pc1m` has equal entries. -/
def Constant (f : Nat → Bool) : Prop := ∀ n < 56, f n = f (if n < 28 then 0 else 28)

/-- A round and its counterpart from the other end take a bit from entry `n` and from
entry `link n`; three links lead to the first entry of the half. -/
def link (n : Nat) : Nat :=
  [0, 0, 1, 0, 1, 0, 3, 0, 1, 0, 1, 0, 1, 0, 5, 0, 3, 0, 1, 0, 1, 2, 1, 0, 1, 0, 1, 0,
   28, 28, 29, 28, 29, 28, 29, 28, 29, 28, 29, 28, 31, 28, 29, 28, 29, 28, 29, 30, 29, 28, 31, 28, 29, 28,
   29, 28].getD n 0

theorem link_place : ∀ n < 56, link n = n ∨ ∃ i : Fin 16, ∃ j < 48,
    pcrPlace i (pc2.getD j 0) = n ∧ pcrPlace i.rev (pc2.getD j 0) = link n := by
  decide +kernel

theorem link_root : ∀ n < 56, link n < 56 ∧ link (link (link n)) = if n < 28 then 0 else 28 := by
  decide

theorem pc1m_link {key : Nat → UInt8} (h : ∀ i : Fin 16, roundKey 32 key i = roundKey 32 key i.rev)
    {n : Nat} (hn : n < 56) : pc1m key n = pc1m key (link n) := by
  obtain hfix | ⟨i, j, hj, hplace, hlink⟩ := link_place n hn
  · rw [hfix]
  · have hkeys := h i
    rw [roundKey_eq, roundKey_eq] at hkeys
    have hbit := congrArg (fun k => BitVec.getMsbD k j) (spreadKey_injective hkeys)
    rwa [getMsbD_standardKey key i.isLt hj, getMsbD_standardKey key i.rev.isLt hj, pcr_eq, pcr_eq, hplace,
      hlink] at hbit

/-- Registers that read the same from both ends need constant halves. -/
theorem constant_of_rounds {key : Nat → UInt8}
    (h : ∀ i : Fin 16, roundKey 32 key i = roundKey 32 key i.rev) : Constant (pc1m key) := by
  intro n hn
  have h₁ := (link_root n hn).1
  have h₂ := (link_root (link n) h₁).1
  rw [pc1m_link h hn, pc1m_link h h₁, pc1m_link h h₂, (link_root n hn).2]

theorem pcrPlace_half : ∀ i : Fin 16, ∀ n < 56, pcrPlace i n < 56 ∧ (pcrPlace i n < 28 ↔ n < 28) := by
  decide +kernel

theorem pc2_lt : ∀ j < 48, pc2.getD j 0 < 56 := by
  decide

theorem pcr_of_constant {f : Nat → Bool} (h : Constant f) (i : Fin 16) {n : Nat} (hn : n < 56) :
    pcr f i n = f (if n < 28 then 0 else 28) := by
  obtain ⟨hlt, hhalf⟩ := pcrPlace_half i n hn
  rw [pcr_eq, h _ hlt]
  simp only [hhalf]

theorem knWord_congr {f g : Nat → Bool} {o : Nat} (ho : o ≤ 24) (h : ∀ n < 56, f n = g n) :
    knWord w f o = knWord w g o := by
  refine List.foldl_ext _ _ _ fun kn j hj => ?_
  have hplace := pc2_lt (j + o) (by have := List.mem_range.mp hj; omega)
  rw [h _ hplace]

theorem roundKey_of_constant {key : Nat → UInt8} (h : Constant (pc1m key)) (i i' : Fin 16) :
    roundKey w key i = roundKey w key i' := by
  have hpcr : ∀ n < 56, pcr (pc1m key) i n = pcr (pc1m key) i' n := fun n hn => by
    rw [pcr_of_constant h i hn, pcr_of_constant h i' hn]
  rw [roundKey, roundKey, knWord_congr (by decide) hpcr, knWord_congr (by decide) hpcr]

theorem exists_weak : ∀ left right : Bool, ∃ weak ∈ weakKeys,
    ∀ n < 56, pc1m (fun i => weak.getD i 0) n = if n < 28 then left else right := by
  decide +kernel

theorem constant_of_weak : ∀ weak ∈ weakKeys, Constant (pc1m fun i => weak.getD i 0) := by
  unfold Constant
  decide +kernel

theorem constant_iff_weak (key : Nat → UInt8) : Constant (pc1m key) ↔ Weak key := by
  constructor
  · intro h
    obtain ⟨weak, hweak, hhalves⟩ := exists_weak (pc1m key 0) (pc1m key 28)
    refine ⟨weak, hweak, shiftRight_eq_of_pc1m fun n hn => ?_⟩
    rw [h n hn, hhalves n hn]
    split <;> rfl
  · rintro ⟨weak, hweak, hsame⟩
    have hbits : pc1m key = pc1m fun i => weak.getD i 0 := pc1m_congr hsame
    rw [hbits]
    exact constant_of_weak weak hweak

theorem knL_modes_eq {key : Nat → UInt8} (h : Weak key) (kv kv' : KeyVar w) :
    (deskey key .en0 kv).knL = (deskey key .de1 kv').knL := by
  apply pairs_injective
  rw [deskey_pairs, deskey_pairs, ← List.map_reverse, List.finRange_reverse, List.map_map]
  exact List.map_congr_left fun i _ => roundKey_of_constant ((constant_iff_weak key).mpr h) i i.rev

/-- The registers of the two modes are the same for the four weak keys and for no other
key; with a weak key `des` undoes itself. -/
theorem deskey_modes_eq_iff (hw : 32 ≤ w) (key : Nat → UInt8) (kv : KeyVar w) :
    (deskey key .en0 kv = deskey key .de1 kv ↔ Weak key) ∧
      (Weak key → ∀ mode m a b c,
        (des (des m a b (deskey key mode kv)) b c (deskey key mode kv)).load c 8 = m.load a 8) := by
  refine ⟨⟨fun h => ?_, fun h => ?_⟩, fun h mode m a b c => des_des hw ?_ m a b c⟩
  · refine (constant_iff_weak key).mp (constant_of_rounds fun i => ?_)
    have hpair : roundKey w key i.rev = roundKey w key i := by
      have hen := deskey_pair key .en0 kv i.rev
      rw [h] at hen
      exact hen.symm.trans (deskey_pair key .de1 kv i)
    rw [← roundKey_low hw, ← roundKey_low hw, hpair]
  · calc deskey key .en0 kv = { kv with knL := (deskey key .en0 kv).knL } := rfl
      _ = { kv with knL := (deskey key .de1 kv).knL } := by rw [knL_modes_eq h kv kv]
      _ = deskey key .de1 kv := rfl
  · have hrev : (deskey key mode kv).knL = (deskey key mode.rev kv).knL := by
      cases mode
      · exact knL_modes_eq h kv kv
      · exact (knL_modes_eq h kv kv).symm
    nth_rewrite 1 [hrev]
    exact deskey_undo hw key mode kv kv

theorem deskey_modes_eq_iff_ones :
    (deskey (fun _ => 0x01) .en0 zeroKeyVar = deskey (fun _ => 0x01) .de1 zeroKeyVar ↔
        Weak fun _ => 0x01) ∧
      (Weak (fun _ => 0x01) → ∀ mode m a b c,
        (des (des m a b (deskey (fun _ => 0x01) mode zeroKeyVar)) b c
          (deskey (fun _ => 0x01) mode zeroKeyVar)).load c 8 = Memory.load m a 8) :=
  deskey_modes_eq_iff (by decide) (fun _ => 0x01) zeroKeyVar

end Tflib.Expert
