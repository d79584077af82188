import Tflib.Core.Feistel
import Tflib.Expert.D3des

/-! # DES and the width of `unsigned long`

What `desfunc` leaves above bit 31 is never looked at: with longs of 64 bits it
computes what it computes with longs of 32.
-/

namespace Tflib.Expert

open Tflib.Core

variable {w : Nat}

/-- The lower halves of two longs of 64 bits. -/
def low (b : Words w) : Words 32 := Prod.map (BitVec.setWidth 32) (BitVec.setWidth 32) b

def Register.low (r : Register w) : Register 32 := fun i => (r i).setWidth 32

theorem Register.low_pair (r : Register w) (i : Fin 16) : r.low.pair i = Expert.low (r.pair i) := rfl

/-! ## The round function -/

def spTables : List (List Nat) := [sp1, sp2, sp3, sp4, sp5, sp6, sp7, sp8]

theorem spTables_lt : ∀ sp ∈ spTables, ∀ n ∈ sp, n < 2 ^ 32 := by decide

theorem spTables_getD_lt {sp : List Nat} (hsp : sp ∈ spTables) (i : Nat) : sp.getD i 0 < 2 ^ 32 := by
  rw [List.getD_eq_getElem?_getD]
  cases h : sp[i]? with
  | none => decide
  | some n => exact spTables_lt sp hsp n (List.mem_of_getElem? h)

theorem spEntry_narrow {sp : List Nat} (hsp : sp ∈ spTables) (work : BitVec w) (k : Nat) :
    Narrow 32 (spEntry sp work k) := .ofNat (spTables_getD_lt hsp _)

/-- The index of an entry lies in the lower 32 bits. -/
theorem spEntry_low (hw : 32 ≤ w) (sp : List Nat) (work : BitVec w) {k : Nat} (hk : k + 6 ≤ 32) :
    (spEntry sp work k).setWidth 32 = spEntry sp (work.setWidth 32) k := by
  have hmask : 0x3f < 2 ^ (32 - k) :=
    calc 0x3f < 2 ^ 6 := by decide
      _ ≤ 2 ^ (32 - k) := Nat.pow_le_pow_right (by decide) (by omega)
  have hnarrow : Narrow 32 (work >>> k &&& 0x3f#w) := .and_right _ (.ofNat (by decide))
  rw [spEntry, spEntry, ← setWidth_shiftRight_and hw hmask, hnarrow.toNat_setWidth,
    BitVec.setWidth_ofNat_of_le hw]

theorem fval_narrow (keys : Words w) (half : BitVec w) : Narrow 32 (fval keys half) :=
  (((((((spEntry_narrow (by decide) _ _).or (spEntry_narrow (by decide) _ _)).or
    (spEntry_narrow (by decide) _ _)).or (spEntry_narrow (by decide) _ _)).or
    (spEntry_narrow (by decide) _ _)).or (spEntry_narrow (by decide) _ _)).or
    (spEntry_narrow (by decide) _ _)).or (spEntry_narrow (by decide) _ _)

theorem fval_low (hw : 32 ≤ w) (keys : Words w) {half : BitVec w} (hhalf : Narrow 32 half) :
    (fval keys half).setWidth 32 = fval (low keys) (half.setWidth 32) := by
  have hfirst : ((half <<< 28 ||| half >>> 4) ^^^ keys.1).setWidth 32 =
      (half.setWidth 32 <<< 28 ||| half.setWidth 32 >>> 4) ^^^ (low keys).1 := by
    rw [BitVec.setWidth_xor, BitVec.setWidth_or, BitVec.setWidth_shiftLeft_of_le hw,
      hhalf.setWidth_shiftRight]
    rfl
  have hsecond : (half ^^^ keys.2).setWidth 32 = half.setWidth 32 ^^^ (low keys).2 := by
    rw [BitVec.setWidth_xor]
    rfl
  simp only [fval, BitVec.setWidth_or]
  rw [spEntry_low hw _ _ (by decide), spEntry_low hw _ _ (by decide), spEntry_low hw _ _ (by decide),
    spEntry_low hw _ _ (by decide), spEntry_low hw _ _ (by decide), spEntry_low hw _ _ (by decide),
    spEntry_low hw _ _ (by decide), spEntry_low hw _ _ (by decide), hfirst, hsecond]

/-! ## The loop -/

/-- The keys of the 16 rounds. -/
def Register.pairs (r : Register w) : List (Words w) := (List.finRange 16).map r.pair

/-- The loop is a Feistel network; its halves change their roles in place. -/
theorem desRounds_eq (keys : Register w) (b : Words w) :
    desRounds keys b = Feistel.run (· ^^^ ·) fval keys.pairs b := rfl

/-- Two words of 32 bits in longs. -/
def wide (w : Nat) (b : Words 32) : Words w := Prod.map (BitVec.setWidth w) (BitVec.setWidth w) b

theorem low_wide (hw : 32 ≤ w) (b : Words 32) : low (wide w b) = b := by
  have hsame : ∀ x : BitVec 32, (x.setWidth w).setWidth 32 = x := fun x => by
    rw [BitVec.setWidth_setWidth_of_le _ hw, BitVec.setWidth_eq]
  exact Prod.ext (hsame b.1) (hsame b.2)

theorem wide_low {b : Words w} (hleft : Narrow 32 b.1) (hright : Narrow 32 b.2) :
    wide w (low b) = b := Prod.ext hleft.setWidth_setWidth hright.setWidth_setWidth

theorem fval_wide (hw : 32 ≤ w) (keys : Words w) (half : BitVec 32) :
    fval keys (half.setWidth w) = (fval (low keys) half).setWidth w := by
  have hlow := fval_low hw keys (.setWidth half w)
  rw [BitVec.setWidth_setWidth_of_le _ hw, BitVec.setWidth_eq] at hlow
  rw [← hlow, (fval_narrow keys _).setWidth_setWidth]

theorem desRounds_wide (hw : 32 ≤ w) (keys : Register w) (b : Words 32) :
    desRounds keys (wide w b) = wide w (desRounds keys.low b) := by
  have hpairs : keys.low.pairs = keys.pairs.map low := by
    rw [Register.pairs, Register.pairs, List.map_map]
    rfl
  have hkeys := @Feistel.run_map _ _ _ _ (· ^^^ ·) (fun k x => fval (low k) x) (· ^^^ ·) fval id low
    keys.pairs (fun _ _ _ _ => rfl) b
  have hhalves := @Feistel.run_map _ _ _ _ (· ^^^ ·) (fun k x => fval (low k) x) (· ^^^ ·) fval
    (BitVec.setWidth w) id keys.pairs (fun k _ a x => by rw [BitVec.setWidth_xor, id, fval_wide hw]) b
  rw [List.map_id] at hhalves
  rw [desRounds_eq, desRounds_eq, hpairs]
  exact hhalves.symm.trans (congrArg (wide w) hkeys)

/-! ## The permutations -/

theorem desHead_eq (block : Words w) : desHead block =
    Prod.map rotateUp id (exchange 0 0xaaaaaaaa#w (Prod.map id rotateUp
      (exchange 8 0x00ff00ff#w (exchange 2 0x33333333#w
        (exchange 16 0x0000ffff#w (exchange 4 0x0f0f0f0f#w block)).swap)).swap)) := rfl

theorem desTail_eq (b : Words w) : desTail b =
    exchange 4 0x0f0f0f0f#w (exchange 16 0x0000ffff#w
      (exchange 2 0x33333333#w (exchange 8 0x00ff00ff#w (Prod.map rotateDown id
        (exchange 0 0xaaaaaaaa#w (Prod.map id rotateDown b))))).swap) := rfl

theorem rotateUp_narrow (x : BitVec w) : Narrow 32 (rotateUp x) := .and_right _ (.ofNat (by decide))

theorem rotateUp_low (hw : 32 ≤ w) (x : BitVec w) :
    (rotateUp x).setWidth 32 = rotateUp (x.setWidth 32) := by
  rw [rotateUp, rotateUp, BitVec.setWidth_and, BitVec.setWidth_or, BitVec.setWidth_shiftLeft_of_le hw,
    setWidth_shiftRight_and hw (by decide), BitVec.setWidth_ofNat_of_le hw]

theorem rotateDown_low (hw : 32 ≤ w) {x : BitVec w} (hx : Narrow 32 x) :
    (rotateDown x).setWidth 32 = rotateDown (x.setWidth 32) := by
  rw [rotateDown, rotateDown, BitVec.setWidth_or, BitVec.setWidth_shiftLeft_of_le hw,
    hx.setWidth_shiftRight]

theorem low_swap (b : Words w) : low b.swap = (low b).swap := rfl

theorem low_exchange (hw : 32 ≤ w) {mask k : Nat} (hmask : mask < 2 ^ (32 - k)) (b : Words w) :
    low (exchange k (BitVec.ofNat w mask) b) = exchange k (BitVec.ofNat 32 mask) (low b) :=
  setWidth_exchange hw hmask b

theorem desHead_low (hw : 32 ≤ w) (block : Words w) :
    low (desHead block) = desHead (low block) ∧
      Narrow 32 (desHead block).1 ∧ Narrow 32 (desHead block).2 := by
  have hup : ∀ b : Words w, low (Prod.map id rotateUp b) = Prod.map id rotateUp (low b) := fun b =>
    Prod.ext rfl (rotateUp_low hw b.2)
  have hup' : ∀ b : Words w, low (Prod.map rotateUp id b) = Prod.map rotateUp id (low b) := fun b =>
    Prod.ext (rotateUp_low hw b.1) rfl
  refine ⟨?_, rotateUp_narrow _, (exchange_narrow (by decide) _).2 (rotateUp_narrow _)⟩
  rw [desHead_eq, desHead_eq, hup', low_exchange hw (by decide), hup, low_swap,
    low_exchange hw (by decide), low_exchange hw (by decide), low_swap, low_exchange hw (by decide),
    low_exchange hw (by decide)]

theorem desTail_low (hw : 32 ≤ w) {b : Words w} (hleft : Narrow 32 b.1) (hright : Narrow 32 b.2) :
    low (desTail b) = desTail (low b) := by
  have hfirst : low (Prod.map id rotateDown b) = Prod.map id rotateDown (low b) :=
    Prod.ext rfl (rotateDown_low hw hright)
  have hsecond : ∀ c : Words w, Narrow 32 c.1 →
      low (Prod.map rotateDown id c) = Prod.map rotateDown id (low c) := fun c hc =>
    Prod.ext (rotateDown_low hw hc) rfl
  rw [desTail_eq, desTail_eq, low_exchange hw (by decide), low_exchange hw (by decide), low_swap,
    low_exchange hw (by decide), low_exchange hw (by decide),
    hsecond _ ((exchange_narrow (by decide) (Prod.map id rotateDown b)).1 hleft),
    low_exchange hw (by decide), hfirst]

theorem desfunc_low (hw : 32 ≤ w) (block : Words w) (keys : Register w) :
    low (desfunc block keys) = desfunc (low block) keys.low := by
  obtain ⟨hhead, hleft, hright⟩ := desHead_low hw block
  have hrounds := desRounds_wide hw keys (low (desHead block))
  rw [wide_low hleft hright, hhead] at hrounds
  rw [desfunc, desfunc, hrounds, desTail_low hw (.setWidth _ _) (.setWidth _ _), low_wide hw]

/-! ## Bytes -/

theorem scrunch_low (hw : 32 ≤ w) (m : Memory) (outof : Nat) :
    low (scrunch w m outof) = scrunch 32 m outof := by
  have hbyte : ∀ c : UInt8, (c.toBitVec.setWidth w &&& 0xff#w).setWidth 32 =
      c.toBitVec.setWidth 32 &&& 0xff#32 := fun c => by
    rw [BitVec.setWidth_and, BitVec.setWidth_setWidth_of_le _ hw, BitVec.setWidth_ofNat_of_le hw]
  simp only [scrunch, low, Prod.map, BitVec.setWidth_or, BitVec.setWidth_shiftLeft_of_le hw, hbyte]

theorem unscrun_low (hw : 32 ≤ w) (outof : Words w) (m : Memory) (into : Nat) :
    unscrun outof m into = unscrun (low outof) m into := by
  have hbyte : ∀ (x : BitVec w) (k : Nat), 0xff < 2 ^ (32 - k) → (x >>> k &&& 0xff#w).setWidth 8 =
      (x.setWidth 32 >>> k &&& 0xff#32).setWidth 8 := fun x k hk => by
    rw [← setWidth_shiftRight_and hw hk, BitVec.setWidth_setWidth_of_le _ (by decide)]
  have hlast : ∀ x : BitVec w, (x &&& 0xff#w).setWidth 8 = (x.setWidth 32 &&& 0xff#32).setWidth 8 :=
    fun x => hbyte x 0 (by decide)
  simp only [unscrun, low, Prod.map]
  rw [hbyte _ 24 (by decide), hbyte _ 16 (by decide), hbyte _ 8 (by decide), hlast,
    hbyte _ 24 (by decide), hbyte _ 16 (by decide), hbyte _ 8 (by decide), hlast]

/-! ## Keys -/

theorem knWord_low (hw : 32 ≤ w) (pcr : Nat → Bool) (first : Nat) :
    (knWord w pcr first).setWidth 32 = knWord 32 pcr first := by
  have hfold : ∀ (js : List Nat) (a : BitVec w), (js.foldl (fun kn j =>
      if pcr (pc2.getD (j + first) 0) then kn ||| BitVec.ofNat w (bigbyte.getD j 0) else kn) a).setWidth 32 =
      js.foldl (fun kn j => if pcr (pc2.getD (j + first) 0) then
        kn ||| BitVec.ofNat 32 (bigbyte.getD j 0) else kn) (a.setWidth 32) := by
    intro js
    induction js with
    | nil => exact fun _ => rfl
    | cons j js ih =>
        intro a
        rw [List.foldl_cons, List.foldl_cons, ih]
        congr 1
        split
        · rw [BitVec.setWidth_or, BitVec.setWidth_ofNat_of_le hw]
        · rfl
  rw [knWord, hfold, BitVec.setWidth_ofNat_of_le hw]
  rfl

theorem cook_low (hw : 32 ≤ w) (raw : Words w) : low (cook raw) = cook (low raw) := by
  have hright : ∀ (x : BitVec w) (mask k : Nat), mask < 2 ^ 32 →
      ((x &&& BitVec.ofNat w mask) >>> k).setWidth 32 =
        (x.setWidth 32 &&& BitVec.ofNat 32 mask) >>> k := fun x mask k hmask => by
    rw [(Narrow.and_right x (.ofNat hmask)).setWidth_shiftRight, BitVec.setWidth_and,
      BitVec.setWidth_ofNat_of_le hw]
  simp only [cook, low, Prod.map, BitVec.setWidth_or, BitVec.setWidth_shiftLeft_of_le hw,
    BitVec.setWidth_and, BitVec.setWidth_ofNat_of_le hw]
  rw [hright _ _ _ (by decide), hright _ _ _ (by decide), hright _ _ _ (by decide)]

theorem storePair_low (r : Register w) (i : Fin 16) (b : Words w) :
    (r.storePair i b).low = r.low.storePair i (low b) := by
  change BitVec.setWidth 32 ∘ r.storePair i b = _
  rw [Register.storePair, Function.comp_update, Function.comp_update]
  rfl

theorem storePairs_low (place : Fin 16 → Fin 16) (words : Fin 16 → Words w) :
    (storePairs place words).low = storePairs place fun i => low (words i) := by
  have hfold : ∀ (is : List (Fin 16)) (r : Register w),
      Register.low (is.foldl (fun r i => r.storePair (place i) (words i)) r) =
        is.foldl (fun r i => r.storePair (place i) (low (words i))) r.low := by
    intro is
    induction is with
    | nil => exact fun _ => rfl
    | cons i is ih =>
        intro r
        rw [List.foldl_cons, List.foldl_cons, ih, storePair_low]
  refine (hfold _ _).trans ?_
  congr 1
  funext i
  simp [Register.low]

theorem deskey_low (hw : 32 ≤ w) (key : Nat → UInt8) (edf : Mode) (kv : KeyVar w) (kv' : KeyVar 32) :
    (deskey key edf kv).knL.low = (deskey key edf kv').knL := by
  have hkn : (kn w key edf).low = kn 32 key edf := by
    rw [kn, storePairs_low]
    simp only [low, Prod.map, knWord_low hw]
    rfl
  change (storePairs id fun i => cook ((kn w key edf).pair i)).low = _
  rw [storePairs_low]
  simp only [cook_low hw, ← Register.low_pair, hkn]
  rfl

end Tflib.Expert
