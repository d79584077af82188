import Tflib.Core.Blocks
import Tflib.Core.CString
import Tflib.Expert.DesModes

/-! # Keys from passwords

`makekey`, `make2key` and `make3key` hash a string into a key of eight, sixteen or
twenty-four bytes, erase the string, and give the registers back as they found them.
-/

namespace Tflib.Expert

open Tflib.Core

variable {w : Nat}

/-! ## The code -/

/-- The loop inside: up to `n` characters are mixed into the key and erased. -/
def mixLoop : Nat → Memory → Nat → Nat → Memory × Nat
  | 0, m, aptr, _ => (m, aptr)
  | i + 1, m, aptr, store =>
      if m aptr ≠ 0 then
        let m := m.store store [m store ^^^ (m aptr &&& 0x7f)]
        let m := m.store aptr [0]
        mixLoop i m (aptr + 1) (store + 1)
      else (m, aptr)

/-- A function such as `Ddes`. -/
abbrev Cipher (w : Nat) := Memory → Nat → Nat → KeyVar w → Memory

/-- The loop of `makekey`, with the size of the key and the cipher of the function. -/
def hashLoop (n : Nat) (cipher : Cipher w) (kv : KeyVar w) (kptr : Nat) :
    Nat → Memory → Nat → Bool → Option Memory
  | 0, _, _, _ => none
  | fuel + 1, m, aptr, first =>
      if m aptr ≠ 0 ∨ first = true then
        let (m, aptr) := mixLoop n m aptr kptr
        hashLoop n cipher kv kptr fuel (cipher m kptr kptr kv) aptr false
      else some m

/-- What `makekey`, `make2key` and `make3key` have in common. -/
def makeLength (n : Nat) (setkey : (Nat → UInt8) → Mode → KeyVar w → KeyVar w) (cipher : Cipher w)
    (fuel : Nat) (m : Memory) (aptr kptr : Nat) (kv : KeyVar w) : Option (Memory × KeyVar w) := do
  let savek := cp3key kv
  let kv := setkey (fun i => dfKey.getD i 0) .en0 kv
  let m := (List.range n).foldl (fun m i => m.store (kptr + i) [dfKey.getD i 0]) m
  let m ← hashLoop n cipher kv kptr fuel m aptr true
  return (m, use3key savek kv)

def makekey (fuel : Nat) (m : Memory) (aptr kptr : Nat) (kv : KeyVar w) : Option (Memory × KeyVar w) :=
  makeLength 8 des2key ddes fuel m aptr kptr kv

def make2key (fuel : Nat) (m : Memory) (aptr kptr : Nat) (kv : KeyVar w) : Option (Memory × KeyVar w) :=
  makeLength 16 des2key d2des fuel m aptr kptr kv

def make3key (fuel : Nat) (m : Memory) (aptr kptr : Nat) (kv : KeyVar w) : Option (Memory × KeyVar w) :=
  makeLength 24 des3key d3des fuel m aptr kptr kv

/-! ## The hash -/

def mixed (key cs : Bytes) : Bytes := List.zipWith (fun k c => k ^^^ (c &&& 0x7f)) key cs

/-- The characters are mixed into the front of the key. -/
def mixFront (key cs : Bytes) : Bytes := mixed key cs ++ key.drop cs.length

/-- The pieces of a string, each of which is followed by the cipher; an empty string has one. -/
def pieces (n : Nat) (first : Bool) (password : Bytes) : List Bytes :=
  blocks n password ++
    if leftover n password ≠ [] ∨ (password = [] ∧ first = true) then [leftover n password] else []

/-- A cipher on a key by itself. -/
def onKey (n : Nat) (cipher : Cipher 32) (kv : KeyVar 32) (key : Bytes) : Bytes :=
  (cipher (fun i => key.getD i 0) 0 0 kv).load 0 n

/-- The hash that starts at the default key. -/
def hash (n : Nat) (cipher : Bytes → Bytes) (password : Bytes) : Bytes :=
  (pieces n true password).foldl (fun key piece => cipher (mixFront key piece)) (dfKey.take n)

theorem mixFront_append {key cs : Bytes} (h : key.length = cs.length) (bs : Bytes) :
    mixFront (key ++ bs) cs = mixed key cs ++ bs := by
  have hzip : mixed (key ++ bs) (cs ++ []) = mixed key cs ++ mixed bs [] := List.zipWith_append h
  rw [List.append_nil, mixed, mixed, mixed, List.zipWith_nil_right, List.append_nil] at hzip
  rw [mixFront, List.drop_left' h, mixed, hzip, mixed]

theorem length_mixed_load (m : Memory) (p : Nat) (cs : Bytes) :
    (mixed (m.load p cs.length) cs).length = cs.length := by
  rw [mixed, List.length_zipWith, Memory.load_length, Nat.min_self]

/-! ## The loops -/

theorem load_cons {m : Memory} {a : Nat} {c : UInt8} {cs : Bytes}
    (h : m.load a (cs.length + 1) = c :: cs) : m a = c ∧ m.load (a + 1) cs.length = cs :=
  ⟨(List.cons.inj h).1, (List.cons.inj h).2⟩

/-- The characters up to the end of the string, or up to the end of the key. -/
theorem mixLoop_eq {cs : Bytes} {i : Nat} {m : Memory} {aptr store : Nat} (hlen : cs.length ≤ i)
    (hzero : 0 ∉ cs) (hload : m.load aptr cs.length = cs) (hend : cs.length = i ∨ m (aptr + cs.length) = 0)
    (hsep : store + i ≤ aptr ∨ aptr + cs.length < store) :
    mixLoop i m aptr store = ((m.store store (mixed (m.load store cs.length) cs)).store aptr
      (List.replicate cs.length 0), aptr + cs.length) := by
  induction cs generalizing i m aptr store with
  | nil =>
      have hstay : mixLoop i m aptr store = (m, aptr) := by
        cases i with
        | zero => rfl
        | succ i =>
            obtain hend | hend := hend
            · exact absurd hend (by simp)
            · exact if_neg (not_not.mpr hend)
      rw [hstay, mixed, List.zipWith_nil_right, Memory.store_nil, List.length_nil, List.replicate_zero,
        Memory.store_nil, Nat.add_zero]
  | cons c cs ih =>
      rw [List.length_cons] at hlen hload hend hsep
      obtain ⟨hfirst, hrest⟩ := load_cons hload
      obtain ⟨hc, hzeros⟩ := not_or.mp (mt List.mem_cons.mpr hzero)
      cases i with
      | zero => exact absurd hlen (Nat.not_succ_le_zero _)
      | succ i =>
          set y := m store ^^^ (c &&& 0x7f)
          have hstep : mixLoop (i + 1) m aptr store =
              mixLoop i ((m.store store [y]).store aptr [0]) (aptr + 1) (store + 1) := by
            rw [mixLoop, if_pos (by rw [hfirst]; exact Ne.symm hc), hfirst]
          have hsame : ∀ x, x ≠ aptr → x ≠ store → ((m.store store [y]).store aptr [0]) x = m x :=
            fun x haptr hstore => (Memory.store_outside (by rw [List.length_singleton]; omega)).trans
              (Memory.store_outside (by rw [List.length_singleton]; omega))
          have hstr := (Memory.load_congr fun x _ _ => hsame x (by omega) (by omega)).trans hrest
          have hkey : ((m.store store [y]).store aptr [0]).load (store + 1) cs.length =
              m.load (store + 1) cs.length :=
            Memory.load_congr fun x _ _ => hsame x (by omega) (by omega)
          have hmixed : mixed (m.load store (cs.length + 1)) (c :: cs) =
              y :: mixed (m.load (store + 1) cs.length) cs := rfl
          have hlength := length_mixed_load m (store + 1) cs
          have hterm : cs.length = i ∨ ((m.store store [y]).store aptr [0]) (aptr + 1 + cs.length) = 0 := by
            refine hend.imp (by omega) fun h => ?_
            rw [hsame _ (by omega) (by omega), ← h]
            congr 1
            omega
          have hput := Memory.store_cons m store y (mixed (m.load (store + 1) cs.length) cs)
          have herase := Memory.store_cons ((m.store store [y]).store (store + 1)
            (mixed (m.load (store + 1) cs.length) cs)) aptr 0 (List.replicate cs.length 0)
          have hcomm := @Memory.store_comm (m.store store [y]) aptr (store + 1) [0]
            (mixed (m.load (store + 1) cs.length) cs) (by rw [List.length_singleton, hlength]; omega)
          rw [hstep, ih (by omega) hzeros hstr hterm (by omega), hkey, List.length_cons, hmixed, hput,
            List.replicate_succ, herase, hcomm, Nat.add_right_comm, Nat.add_assoc]

/-- `cipher` on a key at `kptr` is `f` on its `n` bytes. -/
structure Encrypts (n : Nat) (cipher : Cipher w) (kv : KeyVar w) (f : Bytes → Bytes) : Prop where
  stores : ∀ m p, cipher m p p kv = m.store p (f (m.load p n))
  length : ∀ bs, (f bs).length = n

variable {n : Nat} {cipher : Cipher w} {kv : KeyVar w} {f : Bytes → Bytes}

/-- One round with the piece `cs`. -/
theorem hashLoop_round (hf : Encrypts n cipher kv f) {cs : Bytes} {m : Memory} {aptr kptr : Nat}
    {first : Bool} (hmore : cs ≠ [] ∨ first = true) (hlen : cs.length ≤ n) (hzero : 0 ∉ cs)
    (hload : m.load aptr cs.length = cs) (hend : cs.length = n ∨ m (aptr + cs.length) = 0)
    (hsep : kptr + n ≤ aptr ∨ aptr + cs.length < kptr) (fuel : Nat) :
    hashLoop n cipher kv kptr (fuel + 1) m aptr first = hashLoop n cipher kv kptr fuel
      ((m.store kptr (f (mixFront (m.load kptr n) cs))).store aptr (List.replicate cs.length 0))
      (aptr + cs.length) false := by
  have hgo : m aptr ≠ 0 ∨ first = true := by
    refine hmore.imp (fun hne => ?_) id
    obtain ⟨c, cs', rfl⟩ := List.exists_cons_of_ne_nil hne
    rw [(load_cons hload).1]
    exact fun hc => hzero (hc ▸ List.mem_cons_self ..)
  have hlength := length_mixed_load m kptr cs
  have hkey : ((m.store kptr (mixed (m.load kptr cs.length) cs)).store aptr
      (List.replicate cs.length 0)).load kptr n = mixFront (m.load kptr n) cs := by
    obtain ⟨k, rfl⟩ := Nat.exists_eq_add_of_le hlen
    have hfront := Memory.load_store_self m kptr (mixed (m.load kptr cs.length) cs)
    rw [hlength] at hfront
    rw [Memory.load_store_disjoint (by rw [List.length_replicate]; omega), Memory.load_add, Memory.load_add,
      mixFront_append (Memory.load_length ..), hfront,
      Memory.load_store_disjoint (.inr (Nat.add_le_add_left hlength.le kptr))]
  rw [hashLoop, if_pos hgo, mixLoop_eq hlen hzero hload hend hsep]
  dsimp only
  rw [hf.stores, hkey, Memory.store_comm _ (by rw [hf.length, List.length_replicate]; omega),
    Memory.store_cover _ _ (by rw [hf.length, hlength]; exact hlen)]

theorem hashLoop_end {m : Memory} {aptr : Nat} (h : m aptr = 0) (kptr fuel : Nat) :
    hashLoop n cipher kv kptr (fuel + 1) m aptr false = some m := by
  rw [hashLoop, if_neg]
  rintro (hne | hfirst)
  · exact hne h
  · exact Bool.noConfusion hfirst

theorem pieces_short {l : Bytes} (hl : l.length < n) (first : Bool) :
    pieces n first l = if l ≠ [] ∨ first = true then [l] else [] := by
  rw [pieces, blocks_of_lt hl, leftover_of_lt hl, List.nil_append]
  congr 1
  grind

theorem pieces_block_append (hn : 0 < n) {b : Bytes} (hb : b.length = n) (first : Bool) (l : Bytes) :
    pieces n first (b ++ l) = b :: pieces n false l := by
  have hne : b ++ l ≠ [] := fun h => by
    have := (List.append_eq_nil_iff.mp h).1 ▸ hb
    rw [List.length_nil] at this
    omega
  rw [pieces, pieces, blocks_block_append hn hb, leftover_block_append hn hb, List.cons_append]
  simp [hne]

theorem length_foldl (hf : Encrypts n cipher kv f) (ps : List Bytes) {key : Bytes} (hkey : key.length = n) :
    (ps.foldl (fun key piece => f (mixFront key piece)) key).length = n := by
  induction ps generalizing key with
  | nil => exact hkey
  | cons p ps ih => exact ih (hf.length _)

/-- What a round does not touch. -/
theorem round_same {m : Memory} {aptr kptr k x : Nat} {key : Bytes} (hkey : key.length = n)
    (hk : x < kptr ∨ kptr + n ≤ x) (ha : x < aptr ∨ aptr + k ≤ x) :
    ((m.store kptr key).store aptr (List.replicate k 0)) x = m x := by
  rw [Memory.store_outside (by rwa [List.length_replicate]), Memory.store_outside (by rwa [hkey])]

/-- The loop erases the string and leaves its hash, if it is allowed to go around often enough. -/
theorem hashLoop_eq (hn : 0 < n) (hf : Encrypts n cipher kv f) {kptr : Nat} (password : Bytes)
    {m : Memory} {aptr : Nat} {first : Bool} (hzero : 0 ∉ password)
    (hload : m.load aptr password.length = password) (hend : m (aptr + password.length) = 0)
    (hsep : kptr + n ≤ aptr ∨ aptr + password.length < kptr) {fuel : Nat}
    (hfuel : (pieces n first password).length < fuel) :
    hashLoop n cipher kv kptr fuel m aptr first =
      some ((m.store kptr ((pieces n first password).foldl (fun key piece => f (mixFront key piece))
        (m.load kptr n))).store aptr (List.replicate password.length 0)) := by
  obtain ⟨fuel, rfl⟩ := Nat.exists_eq_add_one.mpr (Nat.zero_lt_of_lt hfuel)
  induction password using block_induction hn generalizing m aptr first fuel with
  | short l hl =>
      rw [pieces_short hl] at hfuel ⊢
      split at hfuel
      · next hmore =>
          obtain ⟨fuel, rfl⟩ := Nat.exists_eq_add_one.mpr (Nat.lt_of_succ_lt_succ hfuel)
          rw [hashLoop_round hf hmore hl.le hzero hload (.inr hend) hsep, hashLoop_end, if_pos hmore]
          · rfl
          · rw [round_same (hf.length _) (by omega) (by omega), hend]
      · next hdone =>
          obtain ⟨hnil, hfirst⟩ := not_or.mp hdone
          obtain rfl := not_not.mp hnil
          obtain rfl := Bool.eq_false_iff.mpr hfirst
          rw [@hashLoop_end _ _ _ _ m aptr hend, if_neg hdone, List.foldl_nil, Memory.store_load, List.length_nil,
            List.replicate_zero, Memory.store_nil]
  | block b l hb ih =>
      rw [pieces_block_append hn hb] at hfuel ⊢
      rw [List.length_append] at hload hend hsep
      obtain ⟨fuel, rfl⟩ := Nat.exists_eq_add_one.mpr (Nat.zero_lt_of_lt (Nat.lt_of_succ_lt_succ hfuel))
      have hzeros := List.mem_append.not.mp hzero
      rw [Memory.load_add] at hload
      obtain ⟨hfirst, hrest⟩ := List.append_inj hload (Memory.load_length ..)
      have hne : b ≠ [] := fun h => by rw [h, List.length_nil] at hb; omega
      rw [hashLoop_round hf (.inl hne) hb.le (not_or.mp hzeros).1 hfirst (.inl hb) (by omega)]
      set key := f (mixFront (m.load kptr n) b)
      have hkey : key.length = n := hf.length _
      have hlater : ∀ x, aptr + b.length ≤ x → x ≤ aptr + (b.length + l.length) →
          ((m.store kptr key).store aptr (List.replicate b.length 0)) x = m x :=
        fun x _ _ => round_same hkey (by omega) (by omega)
      have hload' := (Memory.load_congr fun x _ _ => hlater x (by omega) (by omega)).trans hrest
      have hend' := (hlater (aptr + b.length + l.length) (by omega) (by omega)).trans
        ((congrArg m (Nat.add_assoc ..)).trans hend)
      have hloadkey : ((m.store kptr key).store aptr (List.replicate b.length 0)).load kptr n = key := by
        rw [Memory.load_store_disjoint (by rw [List.length_replicate]; omega), ← hkey]
        exact Memory.load_store_self m kptr key
      rw [ih (not_or.mp hzeros).2 hload' hend' (by omega) _ (Nat.lt_of_succ_lt_succ hfuel), hloadkey,
        List.foldl_cons, List.length_append, ← List.replicate_append_replicate, Memory.store_append,
        List.length_replicate]
      have hhash := length_foldl hf (pieces n false l) hkey
      rw [Memory.store_comm (m.store kptr key) (by rw [List.length_replicate, hhash]; omega),
        Memory.store_cover _ _ (hkey.trans hhash.symm).le]

/-! ## The ciphers -/

theorem des2key_low (hw : 32 ≤ w) (hexkey : Nat → UInt8) (mode : Mode) (kv : KeyVar w) (kv' : KeyVar 32) :
    (des2key hexkey mode kv).low = des2key hexkey mode kv' := by
  have hkey : ∀ key mode, (deskey key mode kv).knL.low = (deskey key mode kv').knL :=
    fun key mode => deskey_low hw key mode kv kv'
  exact congr (congr (congrArg KeyVar.mk (hkey hexkey mode)) (hkey (keyAt hexkey 8) mode.rev))
    (hkey hexkey mode)

theorem des3key_low (hw : 32 ≤ w) (hexkey : Nat → UInt8) (kv : KeyVar w) (kv' : KeyVar 32) :
    (des3key hexkey .en0 kv).low = des3key hexkey .en0 kv' := by
  have hkey : ∀ key mode, (deskey key mode kv).knL.low = (deskey key mode kv').knL :=
    fun key mode => deskey_low hw key mode kv kv'
  exact congr (congr (congrArg KeyVar.mk (hkey hexkey .en0)) (hkey (keyAt hexkey 8) .de1))
    (hkey (keyAt hexkey 16) .en0)

theorem scrunch_load (m : Memory) (p : Nat) {j n : Nat} (h : j + 8 ≤ n) :
    scrunch 32 (fun i => (m.load p n).getD i 0) j = scrunch 32 m (p + j) := by
  apply blockBytes_injective
  rw [blockBytes_scrunch, blockBytes_scrunch, Memory.load_getD m p h]

theorem low_self (kv : KeyVar 32) : kv.low = kv := by
  have hself : ∀ r : Register 32, r.low = r := fun r => funext fun i => BitVec.setWidth_eq (r i)
  rw [KeyVar.low, hself, hself, hself]

theorem ddes_encrypts (hw : 32 ≤ w) (kv : KeyVar w) : Encrypts 8 ddes kv (onKey 8 ddes kv.low) where
  stores m p := by
    rw [ddes_eq hw, onKey, ddes_eq (Nat.le_refl 32), scrunch_load m p (by decide), low_self]
    exact congrArg _ (Memory.load_store_self ..).symm
  length bs := Memory.load_length ..

theorem d2des_encrypts (hw : 32 ≤ w) (kv : KeyVar w) : Encrypts 16 d2des kv (onKey 16 d2des kv.low) where
  stores m p := by
    rw [d2des_eq hw, onKey, d2des_eq (Nat.le_refl 32), scrunch_load m p (by decide),
      scrunch_load m p (by decide), low_self]
    exact congrArg (m.store p) (Memory.load_store_self _ 0 (blockBytes _ ++ blockBytes _)).symm
  length bs := Memory.load_length ..

theorem d3des_encrypts (hw : 32 ≤ w) (kv : KeyVar w) : Encrypts 24 d3des kv (onKey 24 d3des kv.low) where
  stores m p := by
    rw [d3des_eq hw, onKey, d3des_eq (Nat.le_refl 32), scrunch_load m p (by decide),
      scrunch_load m p (by decide), scrunch_load m p (by decide), low_self]
    exact congrArg (m.store p)
      (Memory.load_store_self _ 0 (blockBytes _ ++ blockBytes _ ++ blockBytes _)).symm
  length bs := Memory.load_length ..

theorem use3key_cp3key (kv kv' : KeyVar w) : use3key (cp3key kv) kv' = kv := by
  have hL : (fun i => cp3key kv (Fin.castAdd 32 (Fin.castAdd 32 i))) = kv.knL := funext fun i => by
    rw [cp3key, Fin.append_left, Fin.append_left, cpkey]
  have hR : (fun i => cp3key kv (Fin.castAdd 32 (Fin.natAdd 32 i))) = kv.knR := funext fun i => by
    rw [cp3key, Fin.append_left, Fin.append_right]
  have h3 : (fun i => cp3key kv (Fin.natAdd (32 + 32) i)) = kv.kn3 := funext fun i => by
    rw [cp3key, Fin.append_right]
  simp only [use3key, usekey]
  rw [hL, hR, h3]

/-! ## The functions -/

theorem foldl_store (bs : Bytes) (m : Memory) (p : Nat) {n : Nat} (hn : n ≤ bs.length) :
    (List.range n).foldl (fun m i => m.store (p + i) [bs.getD i 0]) m = m.store p (bs.take n) := by
  induction n with
  | zero => exact (Memory.store_nil m p).symm
  | succ n ih =>
      have hlast : bs.take (n + 1) = bs.take n ++ [bs.getD n 0] := by
        rw [List.take_succ_eq_append_getElem hn, List.getD_eq_getElem bs 0 hn]
      rw [List.range_succ, List.foldl_append, ih (Nat.le_of_succ_le hn), hlast, Memory.store_append,
        List.length_take_of_le (Nat.le_of_succ_le hn)]
      rfl

theorem length_pieces_le (n : Nat) (first : Bool) (l : Bytes) : (pieces n first l).length ≤ l.length + 1 := by
  have hblocks : (blocks n l).length ≤ l.length := by
    rw [blocks, List.length_map, List.length_range]
    exact Nat.div_le_self ..
  rw [pieces, List.length_append]
  split
  · exact Nat.add_le_add_right hblocks 1
  · exact Nat.le_succ_of_le hblocks

/-- Registers that hold nothing. -/
def noKeys : KeyVar 32 := ⟨fun _ => 0, fun _ => 0, fun _ => 0⟩

/-- Memory with the hash at `kptr` and zeros for the password. -/
def hashed (n : Nat) (cipher : Cipher 32) (kv : KeyVar 32) (m : Memory) (aptr kptr : Nat)
    (password : CString) : Memory :=
  (m.store kptr (hash n (onKey n cipher kv) password.val)).store aptr
    (List.replicate password.val.length 0)

theorem makeLength_eq {setkey : (Nat → UInt8) → Mode → KeyVar w → KeyVar w} {kv : KeyVar w} {f : Bytes → Bytes}
    (hf : Encrypts n cipher (setkey (fun i => dfKey.getD i 0) .en0 kv) f) (hpos : 0 < n)
    (hlen : n ≤ dfKey.length) {password : CString} {m : Memory} {aptr kptr : Nat}
    (hload : m.load aptr (password.val.length + 1) = password.bytes)
    (hsep : kptr + n ≤ aptr ∨ aptr + password.val.length < kptr) {fuel : Nat}
    (hfuel : password.val.length + 2 ≤ fuel) :
    makeLength n setkey cipher fuel m aptr kptr kv =
      some ((m.store kptr (hash n f password.val)).store aptr
        (List.replicate password.val.length 0), kv) := by
  have hkey : (dfKey.take n).length = n := List.length_take_of_le hlen
  have hloadkey := Memory.load_store_self m kptr (dfKey.take n)
  rw [Memory.load_add, CString.bytes] at hload
  obtain ⟨hstr, hterm⟩ := List.append_inj hload (Memory.load_length ..)
  have hload' : (m.store kptr (dfKey.take n)).load aptr password.val.length = password.val :=
    (Memory.load_store_disjoint (by rw [hkey]; omega)).trans hstr
  have hend : (m.store kptr (dfKey.take n)) (aptr + password.val.length) = 0 :=
    (Memory.store_outside (by rw [hkey]; omega)).trans (List.head_eq_of_cons_eq hterm)
  have hloop := hashLoop_eq hpos hf password.val password.2 hload' hend hsep
    (Nat.lt_of_le_of_lt (length_pieces_le n true _) hfuel)
  rw [hkey] at hloadkey
  rw [hloadkey] at hloop
  have hhash := length_foldl hf (pieces n true password.val) hkey
  simp only [makeLength]
  rw [foldl_store dfKey m kptr hlen, hloop, Memory.store_cover _ _ (hkey.trans hhash.symm).le]
  exact congrArg (fun kv => some (_, kv)) (use3key_cp3key kv _)

/-- The key depends on the password alone: not on what the registers held, nor on the
width of a long. The password is erased, and the registers are as before. -/
theorem makekey_hashes (hw : 32 ≤ w) (password : CString) {m : Memory} {aptr kptr : Nat}
    (hload : m.load aptr (password.val.length + 1) = password.bytes) (kv : KeyVar w) {fuel : Nat}
    (hfuel : password.val.length + 2 ≤ fuel) :
    let apart := fun n => kptr + n ≤ aptr ∨ aptr + password.val.length < kptr
    let keys2 := des2key (fun i => dfKey.getD i 0) .en0 noKeys
    let keys3 := des3key (fun i => dfKey.getD i 0) .en0 noKeys
    (apart 8 → makekey fuel m aptr kptr kv = some (hashed 8 ddes keys2 m aptr kptr password, kv)) ∧
      (apart 16 → make2key fuel m aptr kptr kv = some (hashed 16 d2des keys2 m aptr kptr password, kv)) ∧
      (apart 24 → make3key fuel m aptr kptr kv = some (hashed 24 d3des keys3 m aptr kptr password, kv)) := by
  have hkeys2 := des2key_low hw (fun i => dfKey.getD i 0) .en0 kv noKeys
  have hkeys3 := des3key_low hw (fun i => dfKey.getD i 0) kv noKeys
  refine ⟨fun hsep => ?_, fun hsep => ?_, fun hsep => ?_⟩
  · exact hkeys2 ▸ makeLength_eq (ddes_encrypts hw _) (by decide) (by decide) hload hsep hfuel
  · exact hkeys2 ▸ makeLength_eq (d2des_encrypts hw _) (by decide) (by decide) hload hsep hfuel
  · exact hkeys3 ▸ makeLength_eq (d3des_encrypts hw _) (by decide) (by decide) hload hsep hfuel

theorem zero_not_mem_abc : (0 : UInt8) ∉ ([0x61, 0x62, 0x63] : Bytes) := by decide

theorem makekey_hashes_abc :
    let password : CString := ⟨[0x61, 0x62, 0x63], zero_not_mem_abc⟩
    let m : Memory := fun i => [0x61, 0x62, 0x63].getD i 0
    let apart := fun n => 8 + n ≤ 0 ∨ 0 + password.val.length < 8
    let keys2 := des2key (fun i => dfKey.getD i 0) .en0 noKeys
    let keys3 := des3key (fun i => dfKey.getD i 0) .en0 noKeys
    (apart 8 → makekey 5 m 0 8 zeroKeyVar = some (hashed 8 ddes keys2 m 0 8 password, zeroKeyVar)) ∧
      (apart 16 → make2key 5 m 0 8 zeroKeyVar =
        some (hashed 16 d2des keys2 m 0 8 password, zeroKeyVar)) ∧
      (apart 24 → make3key 5 m 0 8 zeroKeyVar =
        some (hashed 24 d3des keys3 m 0 8 password, zeroKeyVar)) :=
  @makekey_hashes 64 (by decide) ⟨[0x61, 0x62, 0x63], zero_not_mem_abc⟩
    (fun i => [0x61, 0x62, 0x63].getD i 0) 0 8 rfl zeroKeyVar 5 (by decide)

end Tflib.Expert
