import Tflib.Expert.DesRefine

/-! # The key schedule of the standard

`deskey` takes each bit of a round key from where the standard has it after all
the shifts so far.
-/

namespace Tflib.Expert

open Tflib.Core

variable {w : Nat}

/-- The key that a pointer to eight bytes stands for. -/
def keyBlock (key : Nat → UInt8) : BitVec 64 := block (scrunch 32 key 0)

/-! ## Bits of the key -/

theorem and_bytebit (c : UInt8) {m : Nat} (hm : m < 8) :
    decide (c &&& bytebit.getD m 0 ≠ 0) = c.toBitVec.getLsbD (7 - m) := by
  have hbit : (bytebit.getD m 0).toBitVec = BitVec.twoPow 8 (7 - m) := by
    revert m
    decide
  have hnonzero : BitVec.twoPow 8 (7 - m) ≠ 0#8 := by
    revert m
    decide
  have hand : (c &&& bytebit.getD m 0).toBitVec =
      if c.toBitVec.getLsbD (7 - m) then BitVec.twoPow 8 (7 - m) else 0#8 := by
    rw [UInt8.toBitVec_and, hbit, BitVec.and_twoPow]
  have hzero : c &&& bytebit.getD m 0 = 0 ↔ (c &&& bytebit.getD m 0).toBitVec = 0#8 :=
    UInt8.toBitVec_inj.symm
  cases hc : c.toBitVec.getLsbD (7 - m) with
  | false =>
      rw [hc, if_neg (by decide)] at hand
      exact decide_eq_false (not_not.mpr (hzero.mpr hand))
  | true =>
      rw [hc, if_pos rfl] at hand
      exact decide_eq_true fun h => hnonzero (hand.symm.trans (hzero.mp h))

theorem getLsbD_block (b : Words 32) (t : Nat) :
    (block b).getLsbD t = if t < 32 then b.2.getLsbD t else b.1.getLsbD (t - 32) := by
  rw [block, BitVec.getLsbD_append]

theorem getMsbD_keyBlock (key : Nat → UInt8) {l : Nat} (hl : l < 64) :
    (keyBlock key).getMsbD l = (key (l / 8)).toBitVec.getLsbD (7 - l % 8) := by
  obtain ⟨q, r, hq, hr, rfl⟩ : ∃ q r, q < 8 ∧ r < 8 ∧ l = 8 * q + r :=
    ⟨l / 8, l % 8, by omega, by omega, by omega⟩
  have hdiv : (8 * q + r) / 8 = q := by omega
  have hmod : (8 * q + r) % 8 = r := by omega
  rw [hdiv, hmod, BitVec.getMsbD_eq_getLsbD, decide_eq_true hl, Bool.true_and, keyBlock, getLsbD_block,
    scrunch_eq]
  split
  · rw [getLsbD_wordOf _ _ _ _ (by omega)]
    split
    · obtain rfl : q = 7 := by omega
      congr 1
      omega
    split
    · obtain rfl : q = 6 := by omega
      congr 1
      omega
    split
    · obtain rfl : q = 5 := by omega
      congr 1
      omega
    · obtain rfl : q = 4 := by omega
      congr 1
      omega
  · rw [getLsbD_wordOf _ _ _ _ (by omega)]
    split
    · obtain rfl : q = 3 := by omega
      congr 1
      omega
    split
    · obtain rfl : q = 2 := by omega
      congr 1
      omega
    split
    · obtain rfl : q = 1 := by omega
      congr 1
      omega
    · obtain rfl : q = 0 := by omega
      congr 1
      omega

theorem pc1m_eq (key : Nat → UInt8) {j : Nat} (hj : j < 56) :
    pc1m key j = (keyBlock key).getMsbD (pc1.getD j 0) := by
  have hlt : pc1.getD j 0 < 64 := by
    revert j
    decide
  have hand : pc1.getD j 0 &&& 7 = pc1.getD j 0 % 8 := Nat.and_two_pow_sub_one_eq_mod _ 3
  rw [pc1m, hand, Nat.shiftRight_eq_div_pow, getMsbD_keyBlock key hlt]
  exact and_bytebit _ (Nat.mod_lt _ (by decide))

/-! ## Bits of a round key -/

theorem getLsbD_bigbyte : ∀ j < 24, ∀ t < 32,
    (BitVec.ofNat 32 (bigbyte.getD j 0)).getLsbD t = decide (t + j = 23) := by
  decide

theorem getLsbD_knWord (pcr : Nat → Bool) (first t : Nat) :
    (knWord 32 pcr first).getLsbD t = (decide (t < 24) && pcr (pc2.getD (23 - t + first) 0)) := by
  have hfold : ∀ (js : List Nat) (a : BitVec 32), (js.foldl (fun kn j =>
      if pcr (pc2.getD (j + first) 0) then kn ||| BitVec.ofNat 32 (bigbyte.getD j 0) else kn) a).getLsbD t =
      (a.getLsbD t || js.any fun j =>
        pcr (pc2.getD (j + first) 0) && (BitVec.ofNat 32 (bigbyte.getD j 0)).getLsbD t) := by
    intro js
    induction js with
    | nil => exact fun a => (Bool.or_false _).symm
    | cons j js ih =>
        intro a
        rw [List.foldl_cons, ih, List.any_cons, ← Bool.or_assoc]
        congr 1
        cases pcr (pc2.getD (j + first) 0) <;> simp
  by_cases ht : t < 32
  · rw [knWord, hfold, BitVec.getLsbD_zero, Bool.false_or, Bool.eq_iff_iff]
    simp only [List.any_eq_true, List.mem_range, Bool.and_eq_true, decide_eq_true_eq]
    constructor
    · rintro ⟨j, hj, hpcr, hbit⟩
      rw [getLsbD_bigbyte j hj t ht, decide_eq_true_eq] at hbit
      obtain rfl : j = 23 - t := by omega
      exact ⟨by omega, hpcr⟩
    · rintro ⟨ht24, hpcr⟩
      refine ⟨23 - t, by omega, hpcr, ?_⟩
      rw [getLsbD_bigbyte _ (by omega) t ht, decide_eq_true_eq]
      omega
  · rw [BitVec.getLsbD_of_ge _ _ (by omega), decide_eq_false (by omega), Bool.false_and]

/-- Bit `n` of the two halves is what `pc1m` has. -/
theorem getMsbD_choice1 (key : Nat → UInt8) {n : Nat} (hn : n < 56) :
    (select Standard.permutedChoice1 (keyBlock key) : BitVec 56).getMsbD n = pc1m key n := by
  have hplace : Standard.permutedChoice1.getD n 0 - 1 = pc1.getD n 0 := by
    revert n
    decide
  rw [getMsbD_select (by decide) _ hn, pc1m_eq key hn, hplace]

/-- The places of the halves after a shift by `s`. -/
theorem getMsbD_halves (key : Nat → UInt8) {i n : Nat} (hi : i < 16) (hn : n < 56) :
    ((BitVec.extractLsb' 28 28 (select Standard.permutedChoice1 (keyBlock key) : BitVec 56)).rotateLeft
        (totrot.getD i 0) ++
      (BitVec.extractLsb' 0 28 (select Standard.permutedChoice1 (keyBlock key) : BitVec 56)).rotateLeft
        (totrot.getD i 0)).getMsbD n = pcr (pc1m key) i n := by
  have htot : totrot.getD i 0 ≤ 28 := by
    revert i
    decide
  have hfirst : ∀ l < 28, (BitVec.extractLsb' 28 28
      (select Standard.permutedChoice1 (keyBlock key) : BitVec 56)).getMsbD l = pc1m key l := fun l hl => by
    rw [← getMsbD_choice1 key (by omega), BitVec.getMsbD_extractLsb', decide_eq_true hl,
      decide_eq_true (by omega), Bool.true_and, Bool.true_and]
    congr 1
    omega
  have hsecond : ∀ l < 28, (BitVec.extractLsb' 0 28
      (select Standard.permutedChoice1 (keyBlock key) : BitVec 56)).getMsbD l = pc1m key (28 + l) :=
    fun l hl => by
    rw [← getMsbD_choice1 key (by omega), BitVec.getMsbD_extractLsb', decide_eq_true hl,
      decide_eq_true (by omega), Bool.true_and, Bool.true_and]
    congr 1
    omega
  rw [BitVec.getMsbD_append]
  unfold pcr
  dsimp only
  by_cases h28 : n < 28
  · rw [if_neg (by omega), if_pos h28, BitVec.getMsbD_rotateLeft, decide_eq_true h28, Bool.true_and,
      hfirst _ (Nat.mod_lt _ (by decide))]
    split
    · congr 1
      omega
    · congr 1
      omega
  · rw [if_pos (by omega), if_neg h28, BitVec.getMsbD_rotateLeft, decide_eq_true (by omega),
      Bool.true_and, hsecond _ (Nat.mod_lt _ (by decide))]
    split
    · congr 1
      omega
    · congr 1
      omega

/-! ## The keys of the rounds -/

/-- The standard's key of round `i`. -/
def standardKey (key : BitVec 64) (shift : Nat) : BitVec 48 :=
  select Standard.permutedChoice2
    ((BitVec.extractLsb' 28 28 (select Standard.permutedChoice1 key : BitVec 56)).rotateLeft shift ++
      (BitVec.extractLsb' 0 28 (select Standard.permutedChoice1 key : BitVec 56)).rotateLeft shift)

theorem roundKeys_eq (shifts : List Nat) (s : Nat) (c d : BitVec 28) :
    Standard.roundKeys shifts (c.rotateLeft s) (d.rotateLeft s) =
      (shifts.scanl (· + ·) s).tail.map fun t =>
        select Standard.permutedChoice2 (c.rotateLeft t ++ d.rotateLeft t) := by
  induction shifts generalizing s with
  | nil => rfl
  | cons a shifts ih =>
      rw [Standard.roundKeys, rotateLeft_rotateLeft, rotateLeft_rotateLeft, ih]
      cases shifts <;> simp

/-- `totrot` has the sums of the shifts. -/
theorem keySchedule_eq (key : BitVec 64) :
    Standard.keySchedule key = totrot.map (standardKey key) := by
  have hsums : (Standard.leftShifts.scanl (· + ·) 0).tail = totrot := by decide
  have hzero : ∀ c : BitVec 28, c.rotateLeft 0 = c := fun c => by
    apply BitVec.eq_of_getMsbD_eq
    intro i hi
    rw [BitVec.getMsbD_rotateLeft, decide_eq_true hi, Bool.true_and, Nat.zero_add, Nat.mod_eq_of_lt hi]
  have h := roundKeys_eq Standard.leftShifts 0
    (BitVec.extractLsb' 28 28 (select Standard.permutedChoice1 key : BitVec 56))
    (BitVec.extractLsb' 0 28 (select Standard.permutedChoice1 key : BitVec 56))
  rwa [hzero, hzero, hsums] at h

theorem getMsbD_standardKey (key : Nat → UInt8) {i j : Nat} (hi : i < 16) (hj : j < 48) :
    (standardKey (keyBlock key) (totrot.getD i 0)).getMsbD j = pcr (pc1m key) i (pc2.getD j 0) := by
  have hplace : Standard.permutedChoice2.getD j 0 - 1 = pc2.getD j 0 := by
    revert j
    decide
  have hlt : pc2.getD j 0 < 56 := by
    revert j
    decide
  rw [standardKey, getMsbD_select (by decide) _ hj, hplace]
  exact getMsbD_halves key hi hlt

/-- Half of a round key, in the lower bits of a word. -/
theorem knWord_eq (key : Nat → UInt8) {i first : Nat} (hi : i < 16) (hfirst : first ≤ 24) :
    knWord 32 (pcr (pc1m key) i) first =
      ((standardKey (keyBlock key) (totrot.getD i 0)).extractLsb' (24 - first) 24).setWidth 32 := by
  apply BitVec.eq_of_getLsbD_eq
  intro t ht
  rw [getLsbD_knWord, BitVec.getLsbD_setWidth, BitVec.getLsbD_extractLsb', decide_eq_true ht, Bool.true_and]
  by_cases ht24 : t < 24
  · have hplace : 47 - (23 - t + first) = 24 - first + t := by omega
    rw [← getMsbD_standardKey key hi (show 23 - t + first < 48 by omega), BitVec.getMsbD_eq_getLsbD,
      decide_eq_true (show 23 - t + first < 48 by omega), Bool.true_and, hplace]
  · rw [decide_eq_false ht24, Bool.false_and, Bool.false_and]

theorem roundKey_eq (key : Nat → UInt8) (i : Fin 16) :
    roundKey 32 key i = spreadKey (standardKey (keyBlock key) (totrot.getD i 0)) := by
  rw [roundKey, spreadKey, knWord_eq key i.isLt (by decide), knWord_eq key i.isLt (by decide)]

theorem roundKeys_spread (key : Nat → UInt8) :
    (List.finRange 16).map (roundKey 32 key) =
      (Standard.keySchedule (keyBlock key)).map spreadKey := by
  have htot : totrot = (List.finRange 16).map fun i : Fin 16 => totrot.getD i 0 := by decide
  rw [keySchedule_eq, List.map_map, htot, List.map_map]
  exact List.map_congr_left fun i _ => roundKey_eq key i

/-! ## The cipher -/

/-- The round keys of a mode. -/
def standardKeys (mode : Mode) (key : BitVec 64) : List (BitVec 48) :=
  match mode with
  | .en0 => Standard.keySchedule key
  | .de1 => (Standard.keySchedule key).reverse

theorem deskey_pairs_spread (key : Nat → UInt8) (mode : Mode) (kv : KeyVar 32) :
    (deskey key mode kv).knL.pairs = (standardKeys mode (keyBlock key)).map spreadKey := by
  rw [deskey_pairs, roundKeys_spread]
  cases mode with
  | en0 => rfl
  | de1 => exact List.map_reverse.symm

/-- `desfunc` is the cipher of the standard. -/
theorem desfunc_eq {keys : Register 32} {ks : List (BitVec 48)} (h : keys.pairs = ks.map spreadKey)
    (b : Words 32) : desfunc b keys = halves (Standard.cipher ks (block b)) := by
  have hrounds := @Feistel.run_map _ _ _ _ (· ^^^ ·) Standard.cipherFunction (· ^^^ ·) fval
    (fun x : BitVec 32 => rotateUp x) spreadKey ks (fun k _ a x => by
      rw [fval_eq]
      exact xorLinear_rotateUp a _) (halves (select Standard.initialPermutation (block b)))
  rw [desfunc, desHead_eq_select, desRounds_eq, h]
  have htail := desTail_eq_select (Feistel.run (· ^^^ ·) Standard.cipherFunction ks
    (halves (select Standard.initialPermutation (block b))))
  exact (congrArg desTail hrounds.symm).trans htail

/-! ## Bytes -/

theorem extractLsb'_or {m : Nat} (x y : BitVec m) (k n : Nat) :
    (x ||| y).extractLsb' k n = x.extractLsb' k n ||| y.extractLsb' k n := by
  apply BitVec.eq_of_getLsbD_eq
  intro t ht
  simp [ht]

theorem ofBytes_toBytes (x : BitVec 64) : Standard.ofBytes (Standard.toBytes x) = x := by
  have heq : ∀ x, Standard.ofBytes (Standard.toBytes x) =
      (List.range 8).foldl (fun (y : BitVec 64) i =>
        y <<< 8 ||| (x.extractLsb' (56 - 8 * i) 8).setWidth 64) 0#64 := fun _ => by
    rw [Standard.ofBytes, Standard.toBytes, List.foldl_map]
  have hor : ∀ (is : List Nat) (x y a b : BitVec 64),
      is.foldl (fun (z : BitVec 64) i => z <<< 8 ||| ((x ||| y).extractLsb' (56 - 8 * i) 8).setWidth 64) (a ||| b) =
        is.foldl (fun (z : BitVec 64) i => z <<< 8 ||| (x.extractLsb' (56 - 8 * i) 8).setWidth 64) a |||
          is.foldl (fun (z : BitVec 64) i => z <<< 8 ||| (y.extractLsb' (56 - 8 * i) 8).setWidth 64) b := by
    intro is
    induction is with
    | nil => exact fun _ _ _ _ => rfl
    | cons i is ih =>
        intro x y a b
        simp only [List.foldl_cons]
        rw [← ih, extractLsb'_or, BitVec.setWidth_or, BitVec.shiftLeft_or_distrib]
        congr 1
        ac_rfl
  refine @eq_of_twoPow_or 64 64 (fun x => Standard.ofBytes (Standard.toBytes x)) (fun x => x)
    (fun x y => ?_) (fun _ _ => rfl) (by decide +kernel) (by decide +kernel) x
  rw [heq, heq, heq, ← hor, BitVec.or_self]

theorem toBytes_block (b : Words 32) : Standard.toBytes (block b) = blockBytes b := by
  have hbyte : ∀ k t, t < 8 → k + 8 ≤ 32 →
      ((block b).extractLsb' k 8).getLsbD t = (byteAt k b.2).getLsbD t ∧
        ((block b).extractLsb' (32 + k) 8).getLsbD t = (byteAt k b.1).getLsbD t := by
    intro k t ht hk
    rw [BitVec.getLsbD_extractLsb', BitVec.getLsbD_extractLsb', getLsbD_block, getLsbD_block,
      getLsbD_byteAt k _ ht, getLsbD_byteAt k _ ht, if_pos (by omega), if_neg (by omega),
      decide_eq_true ht, Bool.true_and, Bool.true_and]
    exact ⟨rfl, congrArg _ (by omega)⟩
  have hlow : ∀ k, k + 8 ≤ 32 → (block b).extractLsb' k 8 = byteAt k b.2 := fun k hk =>
    BitVec.eq_of_getLsbD_eq fun t ht => (hbyte k t ht hk).1
  have hhigh : ∀ k, k + 8 ≤ 32 → (block b).extractLsb' (32 + k) 8 = byteAt k b.1 := fun k hk =>
    BitVec.eq_of_getLsbD_eq fun t ht => (hbyte k t ht hk).2
  calc Standard.toBytes (block b)
      = [32 + 24, 32 + 16, 32 + 8, 32 + 0, 24, 16, 8, 0].map fun k =>
          UInt8.ofBitVec ((block b).extractLsb' k 8) := rfl
    _ = blockBytes b := by
        simp only [List.map_cons, List.map_nil, blockBytes]
        rw [hhigh 24 (by decide), hhigh 16 (by decide), hhigh 8 (by decide), hhigh 0 (by decide),
          hlow 24 (by decide), hlow 16 (by decide), hlow 8 (by decide), hlow 0 (by decide)]

theorem block_scrunch (m : Memory) (p : Nat) :
    block (scrunch 32 m p) = Standard.ofBytes (m.load p 8) := by
  rw [← blockBytes_scrunch, ← toBytes_block, ofBytes_toBytes]

/-! ## What is stored -/

/-- Key `i` of `hexkey`. -/
def standardHexkey (hexkey : Nat → UInt8) (i : Nat) : BitVec 64 :=
  Standard.ofBytes (Memory.load hexkey (8 * i) 8)

def standardCipher (mode : Mode) (key x : BitVec 64) : BitVec 64 :=
  Standard.cipher (standardKeys mode key) x

/-- One stage with the registers of one key. -/
theorem desfunc_standard (hw : 32 ≤ w) (hexkey : Nat → UInt8) (i : Nat) (mode : Mode) (kv : KeyVar w)
    (x : BitVec 64) : desfunc (halves x) (deskey (keyAt hexkey (8 * i)) mode kv).knL.low =
      halves (standardCipher mode (standardHexkey hexkey i) x) := by
  have hkey : keyBlock (keyAt hexkey (8 * i)) = standardHexkey hexkey i := by
    rw [keyBlock, block_scrunch]
    rfl
  rw [deskey_low hw _ _ _ kv.low, desfunc_eq (deskey_pairs_spread _ mode _), block_halves, hkey]
  rfl

theorem scrunch_eq_halves (m : Memory) (p : Nat) :
    scrunch 32 m p = halves (Standard.ofBytes (m.load p 8)) := by
  rw [← block_scrunch, halves_block]

theorem blockBytes_halves (x : BitVec 64) : blockBytes (halves x) = Standard.toBytes x := by
  rw [← toBytes_block, block_halves]

theorem keyAt_zero (hexkey : Nat → UInt8) : keyAt hexkey (8 * 0) = hexkey := by
  funext i
  rw [keyAt, Nat.mul_zero, Nat.zero_add]

theorem des_standard (hw : 32 ≤ w) (hexkey : Nat → UInt8) (mode : Mode) (kv : KeyVar w) (m : Memory)
    (a b : Nat) : des m a b (deskey hexkey mode kv) = m.store b (Standard.toBytes
      (standardCipher mode (standardHexkey hexkey 0) (Standard.ofBytes (m.load a 8)))) := by
  have hstage := desfunc_standard hw hexkey 0 mode kv (Standard.ofBytes (m.load a 8))
  rw [keyAt_zero] at hstage
  rw [des_eq hw, scrunch_eq_halves, ← blockBytes_halves, ← hstage]
  rfl

/-- Three stages with registers that `deskey` loaded. -/
theorem ddes_standard (hw : 32 ≤ w) (hexkey : Nat → UInt8) {kv kv₁ kv₂ kv₃ : KeyVar w} {i₁ i₂ i₃ : Nat}
    {mode₁ mode₂ mode₃ : Mode} (h₁ : kv.knL = (deskey (keyAt hexkey (8 * i₁)) mode₁ kv₁).knL)
    (h₂ : kv.knR = (deskey (keyAt hexkey (8 * i₂)) mode₂ kv₂).knL)
    (h₃ : kv.kn3 = (deskey (keyAt hexkey (8 * i₃)) mode₃ kv₃).knL) (m : Memory) (a b : Nat) :
    ddes m a b kv = m.store b (Standard.toBytes
      (standardCipher mode₃ (standardHexkey hexkey i₃) (standardCipher mode₂ (standardHexkey hexkey i₂)
        (standardCipher mode₁ (standardHexkey hexkey i₁) (Standard.ofBytes (m.load a 8)))))) := by
  have hstages : ∀ x, threeStages oneBlock id kv.low (halves x) =
      halves (standardCipher mode₃ (standardHexkey hexkey i₃)
        (standardCipher mode₂ (standardHexkey hexkey i₂)
          (standardCipher mode₁ (standardHexkey hexkey i₁) x))) := by
    intro x
    change desfunc (desfunc (desfunc (halves x) kv.knL.low) kv.knR.low) kv.kn3.low = _
    rw [h₁, h₂, h₃, desfunc_standard hw, desfunc_standard hw, desfunc_standard hw]
  rw [ddes_eq hw, scrunch_eq_halves, hstages, blockBytes_halves]

/-- `des` and `Ddes` store what the standard says, for a long of any width and
whatever the registers held before. -/
theorem stores_standard (hw : 32 ≤ w) (hexkey : Nat → UInt8) (kv : KeyVar w) (m : Memory) (a b : Nat) :
    let x := Standard.ofBytes (m.load a 8)
    let key := standardHexkey hexkey
    let stored := fun y => m.store b (Standard.toBytes y)
    des m a b (deskey hexkey .en0 kv) = stored (Standard.encrypt (key 0) x) ∧
      des m a b (deskey hexkey .de1 kv) = stored (Standard.decrypt (key 0) x) ∧
      ddes m a b (des2key hexkey .en0 kv) = stored (Standard.encrypt3 (key 0) (key 1) (key 0) x) ∧
      ddes m a b (des2key hexkey .de1 kv) = stored (Standard.decrypt3 (key 0) (key 1) (key 0) x) ∧
      ddes m a b (des3key hexkey .en0 kv) = stored (Standard.encrypt3 (key 0) (key 1) (key 2) x) ∧
      ddes m a b (des3key hexkey .de1 kv) = stored (Standard.decrypt3 (key 0) (key 1) (key 2) x) := by
  have hzero : ∀ mode, (deskey hexkey mode kv).knL = (deskey (keyAt hexkey (8 * 0)) mode kv).knL :=
    fun mode => by rw [keyAt_zero]
  have htwo : ∀ mode, (des2key hexkey mode kv).knL = (deskey hexkey mode kv).knL ∧
      (des2key hexkey mode kv).knR = (deskey (keyAt hexkey (8 * 1)) mode.rev kv).knL ∧
      (des2key hexkey mode kv).kn3 = (deskey hexkey mode kv).knL := fun mode => ⟨rfl, rfl, rfl⟩
  have hthree : (des3key hexkey .en0 kv).knL = (deskey hexkey .en0 kv).knL ∧
      (des3key hexkey .en0 kv).knR = (deskey (keyAt hexkey (8 * 1)) .de1 kv).knL ∧
      (des3key hexkey .en0 kv).kn3 = (deskey (keyAt hexkey (8 * 2)) .en0 kv).knL := ⟨rfl, rfl, rfl⟩
  have hthree' : (des3key hexkey .de1 kv).knL = (deskey (keyAt hexkey (8 * 2)) .de1 kv).knL ∧
      (des3key hexkey .de1 kv).knR = (deskey (keyAt hexkey (8 * 1)) .en0 kv).knL ∧
      (des3key hexkey .de1 kv).kn3 = (deskey hexkey .de1 kv).knL := ⟨rfl, rfl, rfl⟩
  refine ⟨des_standard hw hexkey .en0 kv m a b, des_standard hw hexkey .de1 kv m a b, ?_, ?_, ?_, ?_⟩
  · exact ddes_standard hw hexkey ((htwo .en0).1.trans (hzero .en0)) (htwo .en0).2.1
      ((htwo .en0).2.2.trans (hzero .en0)) m a b
  · exact ddes_standard hw hexkey ((htwo .de1).1.trans (hzero .de1)) (htwo .de1).2.1
      ((htwo .de1).2.2.trans (hzero .de1)) m a b
  · exact ddes_standard hw hexkey (hthree.1.trans (hzero .en0)) hthree.2.1 hthree.2.2 m a b
  · exact ddes_standard hw hexkey hthree'.1 hthree'.2.1 (hthree'.2.2.trans (hzero .de1)) m a b

/-- The validation sets at the end of the source. -/
example : Standard.encrypt 0x0123456789abcdef 0x0123456789abcde7 = 0xc95744256a5ed31d ∧
    Standard.encrypt3 0x0123456789abcdef 0xfedcba9876543210 0x0123456789abcdef 0x0123456789abcde7 =
      0x7f1d0a77826b8aff ∧
    Standard.encrypt3 0x0123456789abcdef 0xfedcba9876543210 0x89abcdef01234567 0x0123456789abcde7 =
      0xde0b7c06ae5e0ed5 := by decide +kernel

/-- Registers and blocks that are all zero, with longs of 64 bits. -/
theorem stores_standard_zero :
    let x := Standard.ofBytes (Memory.load (fun _ => 0) 0 8)
    let key := standardHexkey fun i => dfKey.getD i 0
    let stored := fun y => Memory.store (fun _ => 0) 8 (Standard.toBytes y)
    des (fun _ => 0) 0 8 (deskey (fun i => dfKey.getD i 0) .en0 zeroKeyVar) =
        stored (Standard.encrypt (key 0) x) ∧
      des (fun _ => 0) 0 8 (deskey (fun i => dfKey.getD i 0) .de1 zeroKeyVar) =
        stored (Standard.decrypt (key 0) x) ∧
      ddes (fun _ => 0) 0 8 (des2key (fun i => dfKey.getD i 0) .en0 zeroKeyVar) =
        stored (Standard.encrypt3 (key 0) (key 1) (key 0) x) ∧
      ddes (fun _ => 0) 0 8 (des2key (fun i => dfKey.getD i 0) .de1 zeroKeyVar) =
        stored (Standard.decrypt3 (key 0) (key 1) (key 0) x) ∧
      ddes (fun _ => 0) 0 8 (des3key (fun i => dfKey.getD i 0) .en0 zeroKeyVar) =
        stored (Standard.encrypt3 (key 0) (key 1) (key 2) x) ∧
      ddes (fun _ => 0) 0 8 (des3key (fun i => dfKey.getD i 0) .de1 zeroKeyVar) =
        stored (Standard.decrypt3 (key 0) (key 1) (key 2) x) :=
  stores_standard (by decide) (fun i => dfKey.getD i 0) zeroKeyVar (fun _ => 0) 0 8

end Tflib.Expert
