import Tflib.Expert.DesSchedule

/-! # Complements

A complemented key turns complemented blocks into complemented blocks: a round
mixes its key with the half it expands, so that the two complements cancel.
-/

namespace Tflib.Expert

open Tflib.Core

variable {w n m : Nat}

/-! ## The standard -/

theorem not_of_xorLinear {f : BitVec n → BitVec m} (h : XorLinear f)
    (hones : f (BitVec.allOnes n) = BitVec.allOnes m) (x : BitVec n) : f (~~~x) = ~~~f x := by
  have hxor : f (x ^^^ BitVec.allOnes n) = f x ^^^ f (BitVec.allOnes n) := h x (BitVec.allOnes n)
  rwa [hones, BitVec.xor_allOnes, BitVec.xor_allOnes] at hxor

theorem select_not {table : List Nat}
    (hones : (select table (BitVec.allOnes n) : BitVec m) = BitVec.allOnes m) (x : BitVec n) :
    (select table (~~~x) : BitVec m) = ~~~select table x :=
  not_of_xorLinear (xorLinear_select table) hones x

theorem cipherFunction_not (k : BitVec 48) (r : BitVec 32) :
    Standard.cipherFunction (~~~k) (~~~r) = Standard.cipherFunction k r := by
  rw [Standard.cipherFunction, select_not (by decide +kernel), ← BitVec.not_xor_left, ← BitVec.not_xor_right,
    BitVec.not_not, Standard.cipherFunction]

theorem rotateLeft_not (x : BitVec 28) (k : Nat) : (~~~x).rotateLeft k = ~~~x.rotateLeft k := by
  refine not_of_xorLinear (xorLinear_rotateLeft k) (BitVec.eq_of_getMsbD_eq fun i hi => ?_) x
  rw [BitVec.getMsbD_rotateLeft, BitVec.getMsbD_allOnes, BitVec.getMsbD_allOnes]
  simp [hi, Nat.mod_lt]

theorem roundKeys_not (shifts : List Nat) (c d : BitVec 28) :
    Standard.roundKeys shifts (~~~c) (~~~d) = (Standard.roundKeys shifts c d).map (~~~·) := by
  induction shifts generalizing c d with
  | nil => rfl
  | cons s shifts ih =>
      rw [Standard.roundKeys, rotateLeft_not, rotateLeft_not, ih, ← BitVec.not_append,
        select_not (by decide +kernel), Standard.roundKeys, List.map_cons]

theorem extractLsb'_not (x : BitVec n) {k : Nat} (hk : k + m ≤ n) :
    (~~~x).extractLsb' k m = ~~~x.extractLsb' k m := by
  apply BitVec.eq_of_getLsbD_eq
  intro i hi
  rw [BitVec.getLsbD_extractLsb', BitVec.getLsbD_not, BitVec.getLsbD_not, BitVec.getLsbD_extractLsb']
  simp [hi, show k + i < n by omega]

def notWords (b : Words 32) : Words 32 := Prod.map (~~~·) (~~~·) b

theorem halves_not (x : BitVec 64) : halves (~~~x) = notWords (halves x) :=
  Prod.ext (extractLsb'_not x (by decide)) (extractLsb'_not x (by decide))

theorem keySchedule_not (key : BitVec 64) :
    Standard.keySchedule (~~~key) = (Standard.keySchedule key).map (~~~·) := by
  rw [Standard.keySchedule, select_not (by decide +kernel), extractLsb'_not _ (by decide),
    extractLsb'_not _ (by decide), roundKeys_not]
  rfl

theorem cipher_not (keys : List (BitVec 48)) (x : BitVec 64) :
    Standard.cipher (keys.map (~~~·)) (~~~x) = ~~~Standard.cipher keys x := by
  have hrounds := @Feistel.run_map _ _ _ _ (· ^^^ ·) Standard.cipherFunction (· ^^^ ·)
    Standard.cipherFunction (fun x : BitVec 32 => ~~~x) (fun k : BitVec 48 => ~~~k) keys
    (fun k _ a x => by rw [cipherFunction_not, BitVec.not_xor_left])
    (halves (select Standard.initialPermutation x))
  have hcipher : ∀ ks y, Standard.cipher ks y = select Standard.inversePermutation
      (let b := Feistel.run (· ^^^ ·) Standard.cipherFunction ks
        (halves (select Standard.initialPermutation y)); b.2 ++ b.1) := fun _ _ => rfl
  rw [hcipher, hcipher, select_not (by decide +kernel), halves_not, notWords, ← hrounds,
    ← select_not (by decide +kernel)]
  exact congrArg _ BitVec.not_append.symm

/-! ## The code -/

theorem desfunc_not {keys keys' : Register 32} {ks : List (BitVec 48)} (h : keys.pairs = ks.map spreadKey)
    (h' : keys'.pairs = (ks.map (~~~·)).map spreadKey) (b : Words 32) :
    desfunc (notWords b) keys' = notWords (desfunc b keys) := by
  have hblock : block (notWords b) = ~~~block b := BitVec.not_append.symm
  rw [desfunc_eq h', desfunc_eq h, hblock, cipher_not, halves_not]

def complement (m : Memory) : Memory := fun i => ~~~m i

theorem keyBlock_complement (key : Nat → UInt8) : keyBlock (complement key) = ~~~keyBlock key := by
  apply BitVec.eq_of_getMsbD_eq
  intro l hl
  rw [BitVec.getMsbD_not, getMsbD_keyBlock _ hl, getMsbD_keyBlock _ hl, complement, UInt8.toBitVec_not,
    BitVec.getLsbD_not]
  simp [hl, show 7 - l % 8 < 8 by omega]

/-- `keys'` maps complements to the complements of what `keys` maps to. -/
def Complements (keys' keys : Register 32) : Prop :=
  ∀ b, desfunc (notWords b) keys' = notWords (desfunc b keys)

theorem deskey_complements (hw : 32 ≤ w) (key : Nat → UInt8) (mode : Mode) (kv kv' : KeyVar w) :
    Complements (deskey (complement key) mode kv').knL.low (deskey key mode kv).knL.low := by
  have hkeys : standardKeys mode (keyBlock (complement key)) =
      (standardKeys mode (keyBlock key)).map (~~~·) := by
    rw [keyBlock_complement]
    cases mode with
    | en0 => exact keySchedule_not _
    | de1 => exact (congrArg List.reverse (keySchedule_not _)).trans List.map_reverse.symm
  rw [deskey_low hw _ _ _ kv.low, deskey_low hw _ _ _ kv.low]
  exact desfunc_not (deskey_pairs_spread key mode kv.low)
    ((deskey_pairs_spread (complement key) mode kv.low).trans (by rw [hkeys]))

structure ComplementsAll (kv' kv : KeyVar 32) : Prop where
  first : Complements kv'.knL kv.knL
  second : Complements kv'.knR kv.knR
  third : Complements kv'.kn3 kv.kn3

theorem des2key_complements (hw : 32 ≤ w) (hexkey : Nat → UInt8) (mode : Mode) (kv kv' : KeyVar w) :
    ComplementsAll (des2key (complement hexkey) mode kv').low (des2key hexkey mode kv).low where
  first := deskey_complements hw hexkey mode kv kv'
  second := deskey_complements hw (keyAt hexkey 8) mode.rev kv kv'
  third := deskey_complements hw hexkey mode kv kv'

theorem des3key_complements (hw : 32 ≤ w) (hexkey : Nat → UInt8) (mode : Mode) (kv kv' : KeyVar w) :
    ComplementsAll (des3key (complement hexkey) mode kv').low (des3key hexkey mode kv).low := by
  cases mode with
  | en0 =>
      exact ⟨deskey_complements hw hexkey .en0 kv kv', deskey_complements hw (keyAt hexkey 8) .de1 kv kv',
        deskey_complements hw (keyAt hexkey 16) .en0 kv kv'⟩
  | de1 =>
      exact ⟨deskey_complements hw (keyAt hexkey 16) .de1 kv kv',
        deskey_complements hw (keyAt hexkey 8) .en0 kv kv', deskey_complements hw hexkey .de1 kv kv'⟩

variable {σ : Type}

theorem threeStages_map {stage : Register 32 → σ → σ} {swap g : σ → σ}
    (hstage : ∀ keys keys', Complements keys' keys → ∀ s, stage keys' (g s) = g (stage keys s))
    (hswap : ∀ s, swap (g s) = g (swap s)) {kv kv' : KeyVar 32} (h : ComplementsAll kv' kv) (s : σ) :
    threeStages stage swap kv' (g s) = g (threeStages stage swap kv s) := by
  simp only [threeStages]
  rw [hstage _ _ h.first, hswap, hstage _ _ h.second, hswap, hstage _ _ h.third]

theorem twoBlocks_map {keys keys' : Register 32} (h : Complements keys' keys) (s : Words 32 × Words 32) :
    twoBlocks keys' (Prod.map notWords notWords s) = Prod.map notWords notWords (twoBlocks keys s) :=
  Prod.ext (h s.1) (h s.2)

theorem threeBlocks_map {keys keys' : Register 32} (h : Complements keys' keys)
    (s : Words 32 × Words 32 × Words 32) :
    threeBlocks keys' (Prod.map notWords (Prod.map notWords notWords) s) =
      Prod.map notWords (Prod.map notWords notWords) (threeBlocks keys s) :=
  Prod.ext (h s.1) (Prod.ext (h s.2.1) (h s.2.2))

/-! ## What is stored -/

theorem complement_store (m : Memory) (p : Nat) (bs : Bytes) :
    complement (m.store p bs) = (complement m).store p (bs.map (~~~·)) := by
  funext x
  simp only [complement, Memory.store, List.length_map]
  split
  · next h =>
      have hlt : x - p < bs.length := by omega
      rw [List.getD_eq_getElem _ _ hlt, List.getD_eq_getElem _ _ (by simpa using hlt), List.getElem_map]
  · rfl

theorem scrunch_complement (m : Memory) (p : Nat) :
    scrunch 32 (complement m) p = notWords (scrunch 32 m p) := by
  have hkey : ∀ m : Memory, scrunch 32 m p = halves (keyBlock (keyAt m p)) := fun m => by
    rw [keyBlock, halves_block]
    rfl
  have hat : keyAt (complement m) p = complement (keyAt m p) := rfl
  rw [hkey, hkey, hat, keyBlock_complement, halves_not]

theorem blockBytes_not (b : Words 32) :
    blockBytes (notWords b) = (blockBytes b).map (~~~·) := by
  have hmap : ∀ m : Memory, (complement m).load 0 8 = (m.load 0 8).map (~~~·) := fun m => rfl
  have hb := scrunch_store b (fun _ => 0) 0
  rw [← hb, ← scrunch_complement, blockBytes_scrunch, blockBytes_scrunch, hmap]

theorem des_complement (hw : 32 ≤ w) {kv kv' : KeyVar w} (h : Complements kv'.knL.low kv.knL.low)
    (m : Memory) (a b : Nat) : des (complement m) a b kv' = complement (des m a b kv) := by
  rw [des_eq hw, des_eq hw, complement_store, ← blockBytes_not, scrunch_complement]
  exact congrArg (fun s => (complement m).store b (blockBytes s)) (h _)

theorem ddes_complement (hw : 32 ≤ w) {kv kv' : KeyVar w} (h : ComplementsAll kv'.low kv.low)
    (m : Memory) (a b : Nat) : ddes (complement m) a b kv' = complement (ddes m a b kv) := by
  have hstages := @threeStages_map _ oneBlock id notWords (fun _ _ hkeys s => hkeys s)
    (fun _ => rfl) kv.low kv'.low h (scrunch 32 m a)
  rw [ddes_eq hw, ddes_eq hw, scrunch_complement, hstages, complement_store, blockBytes_not]

theorem d2des_complement (hw : 32 ≤ w) {kv kv' : KeyVar w} (h : ComplementsAll kv'.low kv.low)
    (m : Memory) (a b : Nat) : d2des (complement m) a b kv' = complement (d2des m a b kv) := by
  have hstages := @threeStages_map _ twoBlocks swapTwo _ (fun _ _ => twoBlocks_map) (fun _ => rfl)
    kv.low kv'.low h (scrunch 32 m a, scrunch 32 m (a + 8))
  rw [Prod.map_apply, ← scrunch_complement, ← scrunch_complement] at hstages
  rw [d2des_eq hw, d2des_eq hw]
  dsimp only
  rw [hstages, complement_store, List.map_append, ← blockBytes_not, ← blockBytes_not, Prod.map_fst,
    Prod.map_snd]

theorem d3des_complement (hw : 32 ≤ w) {kv kv' : KeyVar w} (h : ComplementsAll kv'.low kv.low)
    (m : Memory) (a b : Nat) : d3des (complement m) a b kv' = complement (d3des m a b kv) := by
  have hstages := @threeStages_map _ threeBlocks swapThree _ (fun _ _ => threeBlocks_map) (fun _ => rfl)
    kv.low kv'.low h (scrunch 32 m a, scrunch 32 m (a + 8), scrunch 32 m (a + 16))
  rw [Prod.map_apply, Prod.map_apply, ← scrunch_complement, ← scrunch_complement,
    ← scrunch_complement] at hstages
  rw [d3des_eq hw, d3des_eq hw]
  dsimp only
  rw [hstages, complement_store, List.map_append, List.map_append, ← blockBytes_not, ← blockBytes_not,
    ← blockBytes_not, Prod.map_fst, Prod.map_snd, Prod.map_fst, Prod.map_snd]

/-- With a complemented key, complemented memory becomes the complement of what it
becomes otherwise. -/
theorem complement_des (hw : 32 ≤ w) (hexkey : Nat → UInt8) (mode : Mode) (kv kv' : KeyVar w) (m : Memory)
    (a b : Nat) :
    des (complement m) a b (deskey (complement hexkey) mode kv') =
        complement (des m a b (deskey hexkey mode kv)) ∧
      ∀ setkey, setkey = des2key ∨ setkey = des3key →
        ∀ cipher, cipher = ddes ∨ cipher = d2des ∨ cipher = d3des →
          cipher (complement m) a b (setkey (complement hexkey) mode kv') =
            complement (cipher m a b (setkey hexkey mode kv)) := by
  refine ⟨des_complement hw (deskey_complements hw hexkey mode kv kv') m a b,
    fun setkey hsetkey cipher hcipher => ?_⟩
  have hall : ComplementsAll (setkey (complement hexkey) mode kv').low (setkey hexkey mode kv).low := by
    rcases hsetkey with rfl | rfl
    · exact des2key_complements hw hexkey mode kv kv'
    · exact des3key_complements hw hexkey mode kv kv'
  rcases hcipher with rfl | rfl | rfl
  · exact ddes_complement hw hall m a b
  · exact d2des_complement hw hall m a b
  · exact d3des_complement hw hall m a b

theorem complement_des_zero :
    des (complement fun _ => 0) 0 8 (deskey (complement fun i => dfKey.getD i 0) .en0 zeroKeyVar) =
        complement (des (fun _ => 0) 0 8 (deskey (fun i => dfKey.getD i 0) .en0 zeroKeyVar)) ∧
      ∀ setkey, setkey = des2key ∨ setkey = des3key →
        ∀ cipher, cipher = ddes ∨ cipher = d2des ∨ cipher = d3des →
          cipher (complement fun _ => 0) 0 8
              (setkey (complement fun i => dfKey.getD i 0) .en0 zeroKeyVar) =
            complement (cipher (fun _ => 0) 0 8 (setkey (fun i => dfKey.getD i 0) .en0 zeroKeyVar)) :=
  complement_des (by decide) (fun i => dfKey.getD i 0) .en0 zeroKeyVar zeroKeyVar (fun _ => 0) 0 8

end Tflib.Expert
