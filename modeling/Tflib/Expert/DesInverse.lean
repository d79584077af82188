import Tflib.Expert.DesWidth

/-! # Decryption

The registers for `DE1` hold the pairs of those for `EN0` in reverse, and the
permutations around the loop undo each other, so the two modes do.
-/

namespace Tflib.Expert

open Tflib.Core

variable {w : Nat}

/-! ## The permutations -/

theorem getLsbD_rotateUp (x : BitVec 32) {i : Nat} (hi : i < 32) :
    (rotateUp x).getLsbD i = if i = 0 then x.getLsbD 31 else x.getLsbD (i - 1) := by
  have hones : 0xffffffff#32 = BitVec.allOnes 32 := rfl
  have hone : 1#32 = BitVec.twoPow 32 0 := rfl
  rw [rotateUp, hones, BitVec.and_allOnes, hone, BitVec.getLsbD_or, BitVec.getLsbD_shiftLeft,
    BitVec.getLsbD_and, BitVec.getLsbD_twoPow, BitVec.getLsbD_ushiftRight]
  cases i with
  | zero => simp
  | succ i => simp [hi]

theorem getLsbD_rotateDown (x : BitVec 32) {i : Nat} (hi : i < 32) :
    (rotateDown x).getLsbD i = if i = 31 then x.getLsbD 0 else x.getLsbD (i + 1) := by
  rw [rotateDown, BitVec.getLsbD_or, BitVec.getLsbD_shiftLeft, BitVec.getLsbD_ushiftRight]
  by_cases h : i = 31
  · subst h
    simp
  · simp [h, hi, show i < 31 by omega, Nat.add_comm 1 i]

theorem rotateDown_rotateUp (x : BitVec 32) : rotateDown (rotateUp x) = x := by
  apply BitVec.eq_of_getLsbD_eq
  intro i hi
  rw [getLsbD_rotateDown _ hi]
  split
  · rename_i h
    rw [getLsbD_rotateUp _ (by decide), h]
    rfl
  · rw [getLsbD_rotateUp _ (by omega)]
    rfl

theorem rotateUp_rotateDown (x : BitVec 32) : rotateUp (rotateDown x) = x := by
  apply BitVec.eq_of_getLsbD_eq
  intro i hi
  rw [getLsbD_rotateUp _ hi]
  split
  · rename_i h
    rw [getLsbD_rotateDown _ (by decide), h]
    rfl
  · rename_i h
    rw [getLsbD_rotateDown _ (by omega), if_neg (by omega), Nat.sub_add_cancel (by omega)]

theorem swap_exchange_zero (mask : BitVec w) (b : Words w) :
    (exchange 0 mask b).swap = exchange 0 mask b.swap := by
  obtain ⟨l, r⟩ := b
  simp only [exchange, Prod.swap_prod_mk, BitVec.ushiftRight_zero, BitVec.shiftLeft_zero, BitVec.xor_comm r]

theorem map_rotateUp_rotateDown (b : Words 32) :
    Prod.map id rotateUp (Prod.map id rotateDown b) = b := Prod.ext rfl (rotateUp_rotateDown b.2)

theorem map_rotateDown_rotateUp (b : Words 32) :
    Prod.map id rotateDown (Prod.map id rotateUp b) = b := Prod.ext rfl (rotateDown_rotateUp b.2)

theorem swap_map (f : BitVec 32 → BitVec 32) (b : Words 32) :
    (Prod.map f id b).swap = Prod.map id f b.swap := rfl

/-- Running the head after the tail exchanges the halves. -/
theorem desHead_desTail (b : Words 32) : desHead (desTail b) = b.swap := by
  rw [desTail_eq, desHead_eq, exchange_exchange (by decide), exchange_exchange (by decide),
    Prod.swap_swap, exchange_exchange (by decide), exchange_exchange (by decide), swap_map,
    map_rotateUp_rotateDown, swap_exchange_zero, exchange_exchange (by decide)]
  exact Prod.ext (rotateUp_rotateDown b.2) rfl

theorem desTail_desHead (b : Words 32) : desTail (desHead b).swap = b := by
  rw [desTail_eq, desHead_eq, swap_map, map_rotateDown_rotateUp, swap_exchange_zero,
    exchange_exchange (by decide), ← swap_map, Prod.swap_swap]
  have hdown : ∀ c : Words 32, Prod.map rotateDown id (Prod.map rotateUp id c) = c := fun c =>
    Prod.ext (rotateDown_rotateUp c.1) rfl
  rw [hdown, exchange_exchange (by decide), exchange_exchange (by decide), Prod.swap_swap,
    exchange_exchange (by decide), exchange_exchange (by decide)]

/-! ## The loop -/

/-- A schedule read backwards undoes `desfunc`. -/
theorem desfunc_desfunc {keys keys' : Register 32} (h : keys'.pairs = keys.pairs.reverse)
    (block : Words 32) : desfunc (desfunc block keys) keys' = block := by
  have hundo := @Feistel.run_reverse _ _ (· ^^^ ·) fval xor_xor_cancel keys.pairs (desHead block)
  rw [← h] at hundo
  rw [desfunc, desfunc, desHead_desTail, desRounds_eq, desRounds_eq, hundo, desTail_desHead]

/-! ## The schedules -/

theorem pair_storePair (r : Register w) (i j : Fin 16) (b : Words w) :
    (r.storePair i b).pair j = if j = i then b else r.pair j := by
  by_cases h : j = i
  · subst h
    simp [Register.pair, Register.storePair, Function.update_of_ne, Fin.ext_iff]
  · have hval : j.val ≠ i.val := fun hval => h (Fin.ext hval)
    have hfirst : 2 * j.val ≠ 2 * i.val + 1 ∧ 2 * j.val ≠ 2 * i.val := by omega
    have hsecond : 2 * j.val + 1 ≠ 2 * i.val := by omega
    simp [Register.pair, Register.storePair, Fin.ext_iff, h, hfirst, hsecond]

theorem pair_storePairs {place : Fin 16 → Fin 16} (hplace : Function.Injective place)
    (words : Fin 16 → Words w) (i : Fin 16) : (storePairs place words).pair (place i) = words i := by
  have hfold : ∀ (is : List (Fin 16)) (r : Register w), is.Nodup →
      Register.pair (is.foldl (fun r i => r.storePair (place i) (words i)) r) (place i) =
        if i ∈ is then words i else r.pair (place i) := by
    intro is
    induction is with
    | nil => exact fun _ _ => rfl
    | cons j is ih =>
        intro r hnodup
        obtain ⟨hj, his⟩ := List.nodup_cons.mp hnodup
        rw [List.foldl_cons, ih _ his, pair_storePair]
        by_cases hij : i = j
        · subst hij
          simp [hj]
        · simp [hij, hplace.ne hij]
  exact (hfold _ _ (List.nodup_finRange 16)).trans (if_pos (List.mem_finRange i))

/-- The words of round `i`. -/
def roundKey (w : Nat) (key : Nat → UInt8) (i : Fin 16) : Words w :=
  cook (knWord w (pcr (pc1m key) i) 0, knWord w (pcr (pc1m key) i) 24)

theorem deskey_pair (key : Nat → UInt8) (edf : Mode) (kv : KeyVar w) (i : Fin 16) :
    (deskey key edf kv).knL.pair (if edf = .de1 then i.rev else i) = roundKey w key i := by
  have hplace : Function.Injective fun i : Fin 16 => if edf = .de1 then i.rev else i := by
    cases edf
    · exact Function.injective_id
    · exact Fin.rev_injective
  have hkn : (kn w key edf).pair (if edf = .de1 then i.rev else i) =
      (knWord w (pcr (pc1m key) i) 0, knWord w (pcr (pc1m key) i) 24) := by
    rw [kn]
    exact pair_storePairs hplace (fun i => (knWord w (pcr (pc1m key) i) 0, knWord w (pcr (pc1m key) i) 24)) i
  have hcooked : ∀ j : Fin 16, (deskey key edf kv).knL.pair j = cook ((kn w key edf).pair j) := by
    intro j
    rw [deskey, cookey, usekey]
    exact @pair_storePairs w id Function.injective_id (fun i => cook ((kn w key edf).pair i)) j
  rw [hcooked, hkn, roundKey]

theorem deskey_pairs (key : Nat → UInt8) (mode : Mode) (kv : KeyVar w) :
    (deskey key mode kv).knL.pairs = match mode with
      | .en0 => (List.finRange 16).map (roundKey w key)
      | .de1 => ((List.finRange 16).map (roundKey w key)).reverse := by
  cases mode with
  | en0 => exact List.map_congr_left fun i _ => deskey_pair key .en0 kv i
  | de1 =>
      dsimp only
      rw [← List.map_reverse, List.finRange_reverse, List.map_map]
      refine List.map_congr_left fun i _ => ?_
      have h := deskey_pair key .de1 kv i.rev
      rwa [if_pos rfl, Fin.rev_rev] at h

/-- The registers of one mode are those of the other in reverse. -/
theorem deskey_pairs_rev (key : Nat → UInt8) (mode : Mode) (kv kv' : KeyVar w) :
    (deskey key mode.rev kv).knL.pairs = (deskey key mode kv').knL.pairs.reverse := by
  rw [deskey_pairs, deskey_pairs]
  cases mode with
  | en0 => rfl
  | de1 => exact (List.reverse_reverse _).symm

/-! ## Bytes -/

/-- Eight bits of a word, from bit `k` on. -/
def byteAt (k : Nat) (x : BitVec 32) : BitVec 8 := (x >>> k &&& 0xff#32).setWidth 8

def wordOf (c0 c1 c2 c3 : BitVec 8) : BitVec 32 :=
  (c0.setWidth 32 &&& 0xff#32) <<< 24 ||| (c1.setWidth 32 &&& 0xff#32) <<< 16 |||
    (c2.setWidth 32 &&& 0xff#32) <<< 8 ||| c3.setWidth 32 &&& 0xff#32

theorem getLsbD_ff {i : Nat} (hi : i < 8) : (0xff#32).getLsbD i = true := by
  have hones : 0xff#32 = (BitVec.allOnes 8).setWidth 32 := by decide
  rw [hones, BitVec.getLsbD_setWidth, BitVec.getLsbD_allOnes]
  simp [hi, show i < 32 by omega]

theorem getLsbD_byteAt (k : Nat) (x : BitVec 32) {i : Nat} (hi : i < 8) :
    (byteAt k x).getLsbD i = x.getLsbD (k + i) := by
  rw [byteAt, BitVec.getLsbD_setWidth, BitVec.getLsbD_and, BitVec.getLsbD_ushiftRight, getLsbD_ff hi]
  simp [hi]

theorem getLsbD_byte (c : BitVec 8) (j : Nat) :
    (c.setWidth 32 &&& 0xff#32).getLsbD j = c.getLsbD j := by
  have hones : 0xff#32 = (BitVec.allOnes 8).setWidth 32 := by decide
  rw [hones, ← BitVec.setWidth_and, BitVec.and_allOnes, BitVec.getLsbD_setWidth]
  by_cases hj : j < 8
  · simp [show j < 32 by omega]
  · simp [BitVec.getLsbD_of_ge c j (by omega)]

theorem getLsbD_wordOf (c0 c1 c2 c3 : BitVec 8) {j : Nat} (hj : j < 32) :
    (wordOf c0 c1 c2 c3).getLsbD j =
      if j < 8 then c3.getLsbD j else if j < 16 then c2.getLsbD (j - 8)
      else if j < 24 then c1.getLsbD (j - 16) else c0.getLsbD (j - 24) := by
  simp only [wordOf, BitVec.getLsbD_or, BitVec.getLsbD_shiftLeft, getLsbD_byte]
  split
  · simp [show j < 24 by omega, show j < 16 by omega, *]
  rw [BitVec.getLsbD_of_ge c3 j (by omega)]
  split
  · simp [show j < 24 by omega, *]
  rw [BitVec.getLsbD_of_ge c2 (j - 8) (by omega)]
  split
  · simp [*]
  rw [BitVec.getLsbD_of_ge c1 (j - 16) (by omega)]
  simp [*]

theorem wordOf_byteAt (x : BitVec 32) :
    wordOf (byteAt 24 x) (byteAt 16 x) (byteAt 8 x) (byteAt 0 x) = x := by
  apply BitVec.eq_of_getLsbD_eq
  intro j hj
  rw [getLsbD_wordOf _ _ _ _ hj]
  split
  · rw [getLsbD_byteAt _ _ (by omega), Nat.zero_add]
  split
  · rw [getLsbD_byteAt _ _ (by omega), Nat.add_sub_cancel' (by omega)]
  split
  · rw [getLsbD_byteAt _ _ (by omega), Nat.add_sub_cancel' (by omega)]
  · rw [getLsbD_byteAt _ _ (by omega), Nat.add_sub_cancel' (by omega)]

theorem byteAt_wordOf (c0 c1 c2 c3 : BitVec 8) :
    byteAt 24 (wordOf c0 c1 c2 c3) = c0 ∧ byteAt 16 (wordOf c0 c1 c2 c3) = c1 ∧
      byteAt 8 (wordOf c0 c1 c2 c3) = c2 ∧ byteAt 0 (wordOf c0 c1 c2 c3) = c3 := by
  refine ⟨?_, ?_, ?_, ?_⟩
  all_goals
    apply BitVec.eq_of_getLsbD_eq
    intro i hi
    rw [getLsbD_byteAt _ _ hi, getLsbD_wordOf _ _ _ _ (by omega)]
  · rw [if_neg (by omega), if_neg (by omega), if_neg (by omega), Nat.add_sub_cancel_left]
  · rw [if_neg (by omega), if_neg (by omega), if_pos (by omega), Nat.add_sub_cancel_left]
  · rw [if_neg (by omega), if_pos (by omega), Nat.add_sub_cancel_left]
  · rw [if_pos (by omega), Nat.zero_add]

/-- The bytes that `unscrun` stores. -/
def blockBytes (b : Words 32) : Bytes :=
  [byteAt 24 b.1, byteAt 16 b.1, byteAt 8 b.1, byteAt 0 b.1,
    byteAt 24 b.2, byteAt 16 b.2, byteAt 8 b.2, byteAt 0 b.2].map UInt8.ofBitVec

theorem unscrun_eq (b : Words 32) (m : Memory) (into : Nat) :
    unscrun b m into = m.store into (blockBytes b) := by
  simp [unscrun, blockBytes, byteAt]

theorem scrunch_eq (m : Memory) (p : Nat) : scrunch 32 m p =
    (wordOf (m p).toBitVec (m (p + 1)).toBitVec (m (p + 2)).toBitVec (m (p + 3)).toBitVec,
      wordOf (m (p + 4)).toBitVec (m (p + 5)).toBitVec (m (p + 6)).toBitVec (m (p + 7)).toBitVec) := rfl

/-- `scrunch` reads back what `unscrun` stored. -/
theorem scrunch_store (b : Words 32) (m : Memory) (p : Nat) :
    scrunch 32 (m.store p (blockBytes b)) p = b := by
  have hat : ∀ i < 8, m.store p (blockBytes b) (p + i) = (blockBytes b).getD i 0 := fun i hi => by
    rw [Memory.store, if_pos ⟨by omega, Nat.add_lt_add_left hi p⟩, Nat.add_sub_cancel_left]
  have hfirst : m.store p (blockBytes b) p = (blockBytes b).getD 0 0 := hat 0 (by decide)
  rw [scrunch_eq, hfirst, hat 1 (by decide), hat 2 (by decide), hat 3 (by decide), hat 4 (by decide),
    hat 5 (by decide), hat 6 (by decide), hat 7 (by decide)]
  exact Prod.ext (wordOf_byteAt b.1) (wordOf_byteAt b.2)

theorem blockBytes_scrunch (m : Memory) (p : Nat) : blockBytes (scrunch 32 m p) = m.load p 8 := by
  simp [blockBytes, scrunch_eq, byteAt_wordOf, Memory.load]

end Tflib.Expert
