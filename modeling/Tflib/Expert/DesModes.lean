import Tflib.Expert.DesInverse

/-! # Double and triple length

`Ddes`, `D2des` and `D3des` are three stages on one, two or three blocks, with
halves exchanged between the blocks from stage to stage. The registers that
`des2key` and `des3key` load for one mode undo those for the other.
-/

namespace Tflib.Expert

open Tflib.Core

variable {w : Nat}

def KeyVar.low (kv : KeyVar w) : KeyVar 32 := ⟨kv.knL.low, kv.knR.low, kv.kn3.low⟩

/-! ## Three stages -/

/-- The stages on a tuple of blocks, with what happens between them. -/
def threeStages {σ : Type} (stage : Register 32 → σ → σ) (swap : σ → σ) (kv : KeyVar 32) (s : σ) : σ :=
  stage kv.kn3 (swap (stage kv.knR (swap (stage kv.knL s))))

/-- `kv'` goes back through the registers of `kv`. -/
structure Undoes (kv' kv : KeyVar 32) : Prop where
  first : kv'.knL.pairs = kv.kn3.pairs.reverse
  second : kv'.knR.pairs = kv.knR.pairs.reverse
  third : kv'.kn3.pairs = kv.knL.pairs.reverse

theorem threeStages_undo {σ : Type} {stage : Register 32 → σ → σ} {swap : σ → σ}
    (hstage : ∀ keys keys', keys'.pairs = keys.pairs.reverse → ∀ s, stage keys' (stage keys s) = s)
    (hswap : ∀ s, swap (swap s) = s) {kv kv' : KeyVar 32} (h : Undoes kv' kv) (s : σ) :
    threeStages stage swap kv' (threeStages stage swap kv s) = s := by
  simp only [threeStages]
  rw [hstage _ _ h.first, hswap, hstage _ _ h.second, hswap, hstage _ _ h.third]

def oneBlock (keys : Register 32) (s : Words 32) : Words 32 := desfunc s keys

def twoBlocks (keys : Register 32) (s : Words 32 × Words 32) : Words 32 × Words 32 :=
  (desfunc s.1 keys, desfunc s.2 keys)

def threeBlocks (keys : Register 32) (s : Words 32 × Words 32 × Words 32) :
    Words 32 × Words 32 × Words 32 :=
  (desfunc s.1 keys, desfunc s.2.1 keys, desfunc s.2.2 keys)

def swapTwo (s : Words 32 × Words 32) : Words 32 × Words 32 := ((s.1.1, s.2.1), (s.1.2, s.2.2))

def swapThree (s : Words 32 × Words 32 × Words 32) : Words 32 × Words 32 × Words 32 :=
  ((s.1.1, s.2.1.1), (s.1.2, s.2.2.1), (s.2.1.2, s.2.2.2))

theorem oneBlock_undo {kv kv' : KeyVar 32} (h : Undoes kv' kv) (s : Words 32) :
    threeStages oneBlock id kv' (threeStages oneBlock id kv s) = s :=
  threeStages_undo (fun _ _ => desfunc_desfunc) (fun _ => rfl) h s

theorem twoBlocks_undo {kv kv' : KeyVar 32} (h : Undoes kv' kv) (s : Words 32 × Words 32) :
    threeStages twoBlocks swapTwo kv' (threeStages twoBlocks swapTwo kv s) = s :=
  threeStages_undo (fun _ _ hkeys s => Prod.ext (desfunc_desfunc hkeys s.1) (desfunc_desfunc hkeys s.2))
    (fun _ => rfl) h s

theorem threeBlocks_undo {kv kv' : KeyVar 32} (h : Undoes kv' kv)
    (s : Words 32 × Words 32 × Words 32) :
    threeStages threeBlocks swapThree kv' (threeStages threeBlocks swapThree kv s) = s :=
  threeStages_undo (fun _ _ hkeys s => Prod.ext (desfunc_desfunc hkeys s.1)
    (Prod.ext (desfunc_desfunc hkeys s.2.1) (desfunc_desfunc hkeys s.2.2))) (fun _ => rfl) h s

/-! ## What is stored -/

theorem unscrun_desfunc (hw : 32 ≤ w) (block : Words w) (keys : Register w) (m : Memory) (into : Nat) :
    unscrun (desfunc block keys) m into = m.store into (blockBytes (desfunc (low block) keys.low)) := by
  rw [unscrun_low hw, desfunc_low hw, unscrun_eq]

theorem des_eq (hw : 32 ≤ w) (m : Memory) (inblock outblock : Nat) (kv : KeyVar w) :
    des m inblock outblock kv =
      m.store outblock (blockBytes (oneBlock kv.low.knL (scrunch 32 m inblock))) := by
  rw [des, unscrun_desfunc hw, scrunch_low hw]
  rfl

theorem ddes_eq (hw : 32 ≤ w) (m : Memory) (source into : Nat) (kv : KeyVar w) :
    ddes m source into kv =
      m.store into (blockBytes (threeStages oneBlock id kv.low (scrunch 32 m source))) := by
  simp only [ddes]
  rw [unscrun_desfunc hw, desfunc_low hw, desfunc_low hw, scrunch_low hw]
  rfl

theorem low_mk (a b : BitVec w) : low (a, b) = (a.setWidth 32, b.setWidth 32) := rfl

theorem setWidth_fst (b : Words w) : b.1.setWidth 32 = (low b).1 := rfl

theorem setWidth_snd (b : Words w) : b.2.setWidth 32 = (low b).2 := rfl

theorem d2des_eq (hw : 32 ≤ w) (m : Memory) (source into : Nat) (kv : KeyVar w) :
    d2des m source into kv =
      let s := threeStages twoBlocks swapTwo kv.low (scrunch 32 m source, scrunch 32 m (source + 8))
      m.store into (blockBytes s.1 ++ blockBytes s.2) := by
  simp only [d2des]
  rw [unscrun_desfunc hw, unscrun_desfunc hw]
  simp only [low_mk, setWidth_fst, setWidth_snd, desfunc_low hw, scrunch_low hw]
  exact (Memory.store_append m into (blockBytes _) (blockBytes _)).symm

theorem d3des_eq (hw : 32 ≤ w) (m : Memory) (source into : Nat) (kv : KeyVar w) :
    d3des m source into kv =
      let s := threeStages threeBlocks swapThree kv.low
        (scrunch 32 m source, scrunch 32 m (source + 8), scrunch 32 m (source + 16))
      m.store into (blockBytes s.1 ++ blockBytes s.2.1 ++ blockBytes s.2.2) := by
  simp only [d3des]
  rw [unscrun_desfunc hw, unscrun_desfunc hw, unscrun_desfunc hw]
  simp only [low_mk, setWidth_fst, setWidth_snd, desfunc_low hw, scrunch_low hw]
  rw [Memory.store_append, Memory.store_append]
  rfl

/-! ## The registers of the two modes -/

theorem deskey_undo (hw : 32 ≤ w) (hexkey : Nat → UInt8) (mode : Mode) (kv kv' : KeyVar w) :
    (deskey hexkey mode.rev kv').knL.low.pairs = (deskey hexkey mode kv).knL.low.pairs.reverse := by
  rw [deskey_low hw _ _ _ kv.low, deskey_low hw _ _ _ kv.low]
  exact deskey_pairs_rev hexkey mode _ _

theorem Mode.rev_rev (mode : Mode) : mode.rev.rev = mode := by cases mode <;> rfl

theorem des2key_undo (hw : 32 ≤ w) (hexkey : Nat → UInt8) (mode : Mode) (kv kv' : KeyVar w) :
    Undoes (des2key hexkey mode.rev kv').low (des2key hexkey mode kv).low where
  first := deskey_undo hw hexkey mode kv kv
  second := deskey_undo hw (keyAt hexkey 8) mode.rev kv kv
  third := deskey_undo hw hexkey mode kv kv

theorem des3key_undo (hw : 32 ≤ w) (hexkey : Nat → UInt8) (mode : Mode) (kv kv' : KeyVar w) :
    Undoes (des3key hexkey mode.rev kv').low (des3key hexkey mode kv).low := by
  cases mode with
  | en0 =>
      exact ⟨deskey_undo hw (keyAt hexkey 16) .en0 kv kv, deskey_undo hw (keyAt hexkey 8) .de1 kv kv,
        deskey_undo hw hexkey .en0 kv kv⟩
  | de1 =>
      exact ⟨deskey_undo hw hexkey .de1 kv kv, deskey_undo hw (keyAt hexkey 8) .en0 kv kv,
        deskey_undo hw (keyAt hexkey 16) .de1 kv kv⟩

/-! ## Decryption -/

theorem blockBytes_injective : Function.Injective blockBytes := by
  intro b b' h
  have hscrunch := scrunch_store b (fun _ => 0) 0
  rw [h, scrunch_store] at hscrunch
  exact hscrunch.symm

@[simp] theorem length_blockBytes (b : Words 32) : (blockBytes b).length = 8 := rfl

/-- Block `i` of what has been stored. -/
theorem scrunch_store_of_drop {bs : Bytes} {i : Nat} {b : Words 32} (m : Memory) (p : Nat)
    (hbs : (bs.drop i).take 8 = blockBytes b) : scrunch 32 (m.store p bs) (p + i) = b := by
  apply blockBytes_injective
  have hlen : i + 8 ≤ bs.length := by
    have := congrArg List.length hbs
    rw [List.length_take, List.length_drop, length_blockBytes] at this
    omega
  rw [blockBytes_scrunch, Memory.load_store_inside _ _ _ hlen, hbs]

theorem scrunch_two (s : Words 32 × Words 32) (m : Memory) (p : Nat) :
    (scrunch 32 (m.store p (blockBytes s.1 ++ blockBytes s.2)) p,
      scrunch 32 (m.store p (blockBytes s.1 ++ blockBytes s.2)) (p + 8)) = s :=
  Prod.ext (@scrunch_store_of_drop _ 0 _ m p rfl) (@scrunch_store_of_drop _ 8 _ m p rfl)

theorem scrunch_three (s : Words 32 × Words 32 × Words 32) (m : Memory) (p : Nat) :
    (scrunch 32 (m.store p (blockBytes s.1 ++ blockBytes s.2.1 ++ blockBytes s.2.2)) p,
      scrunch 32 (m.store p (blockBytes s.1 ++ blockBytes s.2.1 ++ blockBytes s.2.2)) (p + 8),
      scrunch 32 (m.store p (blockBytes s.1 ++ blockBytes s.2.1 ++ blockBytes s.2.2)) (p + 16)) = s :=
  Prod.ext (@scrunch_store_of_drop _ 0 _ m p rfl) (Prod.ext (@scrunch_store_of_drop _ 8 _ m p rfl)
    (@scrunch_store_of_drop _ 16 _ m p rfl))

theorem des_des (hw : 32 ≤ w) {kv kv' : KeyVar w}
    (h : kv'.knL.low.pairs = kv.knL.low.pairs.reverse) (m : Memory) (a b c : Nat) :
    (des (des m a b kv) b c kv').load c 8 = m.load a 8 := by
  have hundo : oneBlock kv'.low.knL (oneBlock kv.low.knL (scrunch 32 m a)) = scrunch 32 m a :=
    desfunc_desfunc h _
  rw [des_eq hw, des_eq hw, scrunch_store, hundo, ← blockBytes_scrunch m a]
  exact Memory.load_store_self _ c (blockBytes _)

theorem ddes_ddes (hw : 32 ≤ w) {kv kv' : KeyVar w} (h : Undoes kv'.low kv.low) (m : Memory)
    (a b c : Nat) : (ddes (ddes m a b kv) b c kv').load c 8 = m.load a 8 := by
  rw [ddes_eq hw, ddes_eq hw, scrunch_store, oneBlock_undo h, ← blockBytes_scrunch m a]
  exact Memory.load_store_self _ c (blockBytes _)

theorem d2des_d2des (hw : 32 ≤ w) {kv kv' : KeyVar w} (h : Undoes kv'.low kv.low) (m : Memory)
    (a b c : Nat) : (d2des (d2des m a b kv) b c kv').load c 16 = m.load a 16 := by
  have hload : m.load a 16 = blockBytes (scrunch 32 m a) ++ blockBytes (scrunch 32 m (a + 8)) := by
    rw [blockBytes_scrunch, blockBytes_scrunch, ← Memory.load_add]
  rw [d2des_eq hw, d2des_eq hw]
  dsimp only
  rw [scrunch_two, twoBlocks_undo h, hload]
  exact Memory.load_store_self _ c (blockBytes _ ++ blockBytes _)

theorem d3des_d3des (hw : 32 ≤ w) {kv kv' : KeyVar w} (h : Undoes kv'.low kv.low) (m : Memory)
    (a b c : Nat) : (d3des (d3des m a b kv) b c kv').load c 24 = m.load a 24 := by
  have hload : m.load a 24 = blockBytes (scrunch 32 m a) ++ blockBytes (scrunch 32 m (a + 8)) ++
      blockBytes (scrunch 32 m (a + 16)) := by
    rw [blockBytes_scrunch, blockBytes_scrunch, blockBytes_scrunch, ← Memory.load_add,
      ← Memory.load_add]
  rw [d3des_eq hw, d3des_eq hw]
  dsimp only
  rw [scrunch_three, threeBlocks_undo h, hload]
  exact Memory.load_store_self _ c (blockBytes _ ++ blockBytes _ ++ blockBytes _)

/-- Whatever lies between the blocks, decrypting what was encrypted stores the plain
bytes again: with `des` for `deskey`, and with the other three for both of the longer
keys. -/
theorem decrypt_encrypt (hw : 32 ≤ w) (hexkey : Nat → UInt8) (mode : Mode) (kv kv' : KeyVar w)
    (m : Memory) (a b c : Nat) :
    (des (des m a b (deskey hexkey mode kv)) b c (deskey hexkey mode.rev kv')).load c 8 = m.load a 8 ∧
      ∀ setkey, setkey = des2key ∨ setkey = des3key →
        (ddes (ddes m a b (setkey hexkey mode kv)) b c (setkey hexkey mode.rev kv')).load c 8 =
            m.load a 8 ∧
          (d2des (d2des m a b (setkey hexkey mode kv)) b c (setkey hexkey mode.rev kv')).load c 16 =
            m.load a 16 ∧
          (d3des (d3des m a b (setkey hexkey mode kv)) b c (setkey hexkey mode.rev kv')).load c 24 =
            m.load a 24 := by
  refine ⟨des_des hw (deskey_undo hw hexkey mode kv kv') m a b c, fun setkey hsetkey => ?_⟩
  have hundo : Undoes (setkey hexkey mode.rev kv').low (setkey hexkey mode kv).low := by
    rcases hsetkey with rfl | rfl
    · exact des2key_undo hw hexkey mode kv kv'
    · exact des3key_undo hw hexkey mode kv kv'
  exact ⟨ddes_ddes hw hundo m a b c, d2des_d2des hw hundo m a b c, d3des_d3des hw hundo m a b c⟩

/-- Registers that were never loaded, with longs of 64 bits. -/
def zeroKeyVar : KeyVar 64 := ⟨fun _ => 0, fun _ => 0, fun _ => 0⟩

theorem decrypt_encrypt_zero :
    (des (des (fun _ => 7) 0 8 (deskey (fun i => dfKey.getD i 0) .en0 zeroKeyVar)) 8 16
        (deskey (fun i => dfKey.getD i 0) .de1 zeroKeyVar)).load 16 8 = Memory.load (fun _ => 7) 0 8 ∧
      ∀ setkey, setkey = des2key ∨ setkey = des3key →
        (ddes (ddes (fun _ => 7) 0 8 (setkey (fun i => dfKey.getD i 0) .en0 zeroKeyVar)) 8 16
            (setkey (fun i => dfKey.getD i 0) .de1 zeroKeyVar)).load 16 8 = Memory.load (fun _ => 7) 0 8 ∧
          (d2des (d2des (fun _ => 7) 0 8 (setkey (fun i => dfKey.getD i 0) .en0 zeroKeyVar)) 8 16
            (setkey (fun i => dfKey.getD i 0) .de1 zeroKeyVar)).load 16 16 =
            Memory.load (fun _ => 7) 0 16 ∧
          (d3des (d3des (fun _ => 7) 0 8 (setkey (fun i => dfKey.getD i 0) .en0 zeroKeyVar)) 8 16
            (setkey (fun i => dfKey.getD i 0) .de1 zeroKeyVar)).load 16 24 =
            Memory.load (fun _ => 7) 0 24 :=
  decrypt_encrypt (by decide) (fun i => dfKey.getD i 0) .en0 zeroKeyVar zeroKeyVar (fun _ => 7) 0 8 16

end Tflib.Expert
