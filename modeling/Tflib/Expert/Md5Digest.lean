import Tflib.Expert.Md5Stream

/-! # The digest

`MD5Final` pads what the context holds and turns the chain into bytes. What it stores
is the digest of all that was given to the context, in whatever pieces.
-/

namespace Tflib.Expert

open Tflib.Core

/-! ## The last block -/

theorem bytes_eq_map (x : UInt32) : Order.little.bytes x =
    [0, 1, 2, 3].map fun i => UInt8.ofNat (x.toNat / 256 ^ i) := by
  have hbyte : ∀ {s : UInt32} {k i : Nat}, s.toNat = k → k < 32 → 2 ^ k = 256 ^ i →
      (x >>> s).toUInt8 = UInt8.ofNat (x.toNat / 256 ^ i) := fun hs hk hpow => by
    apply UInt8.toNat_inj.mp
    rw [toNat_byte_of_word x hs hk, UInt8.toNat_ofNat', hpow]
  have hlow : x.toUInt8 = UInt8.ofNat (x.toNat / 256 ^ 0) := by
    apply UInt8.toNat_inj.mp
    rw [UInt32.toNat_toUInt8, UInt8.toNat_ofNat', Nat.pow_zero, Nat.div_one]
  have h1 : (x >>> 8).toUInt8 = UInt8.ofNat (x.toNat / 256 ^ 1) := hbyte (k := 8) rfl (by decide) rfl
  have h2 : (x >>> 16).toUInt8 = UInt8.ofNat (x.toNat / 256 ^ 2) := hbyte (k := 16) rfl (by decide) rfl
  have h3 : (x >>> 24).toUInt8 = UInt8.ofNat (x.toNat / 256 ^ 3) := hbyte (k := 24) rfl (by decide) rfl
  simp only [Order.bytes, List.map_cons, List.map_nil, hlow, h1, h2, h3]

theorem lengthBytes_eq {bits : UInt32 × UInt32} {n : Nat} (h : bitCount bits = n % 2 ^ 64) :
    Digest.lengthBytes n = Order.little.bytes bits.1 ++ Order.little.bytes bits.2 := by
  have h1 := bits.1.toNat_lt
  have h2 := bits.2.toNat_lt
  rw [bitCount] at h
  have hlow : bits.1.toNat = n % 2 ^ 32 := by omega
  have hhigh : bits.2.toNat = n / 2 ^ 32 % 2 ^ 32 := by omega
  rw [bytes_eq_map, bytes_eq_map, hlow, hhigh]
  have hrange : List.range 8 = [0, 1, 2, 3, 4, 5, 6, 7] := rfl
  simp only [Digest.lengthBytes, hrange, List.map_cons, List.map_nil, List.cons_append, List.nil_append,
    List.cons.injEq, and_true]
  refine ⟨?_, ?_, ?_, ?_, ?_, ?_, ?_, ?_⟩
  all_goals
    apply UInt8.toNat_inj.mp
    rw [UInt8.toNat_ofNat', UInt8.toNat_ofNat']
    omega

/-- `s` and `front` are what is left when the padding lacks nothing but the length. -/
theorem foldl_padded {message front : Bytes} {s : Chain} (hfront : front.length = 56)
    (h : absorb 64 Digest.compress (absorb 64 Digest.compress ⟨Digest.initial, []⟩ message)
      (0x80 :: List.replicate ((119 - message.length % 64) % 64) 0) = ⟨s, front⟩) :
    (blocks 64 (message ++ Digest.padding message.length)).foldl Digest.compress Digest.initial =
      Digest.compress s (front ++ Digest.lengthBytes (8 * message.length)) := by
  have hlast := @absorb_block _ _ 64 Digest.compress ⟨s, front⟩ (by decide)
    (Digest.lengthBytes (8 * message.length)) (by
      rw [List.length_append, hfront, Digest.lengthBytes, List.length_map, List.length_range])
  rw [← h, absorb_absorb (by decide), absorb_absorb (by decide)] at hlast
  exact (congrArg Absorbed.state hlast).trans (by rw [h])

/-- The last block in the context. -/
theorem buf_last (o : Order) {ctx : MD5Context} {s : Chain} {front : Bytes} (h : Keeps ctx ⟨s, front⟩)
    (hfront : front.length = 56) :
    (transformInput o (putInput (4 * 15) (o.bytes ctx.bits.2)
      (putInput (4 * 14) (o.bytes ctx.bits.1) (reverseInput o 14 ctx)))).buf =
      Digest.compress s (front ++ (Order.little.bytes ctx.bits.1 ++ Order.little.bytes ctx.bits.2)) := by
  have hinput : ctx.input.load 0 56 = front := hfront ▸ h.input
  simp only [transformInput, putInput, reverseInput, md5Transform_eq, Digest.compress]
  rw [h.buf]
  refine compressWords_congr (fun i hi => ?_) s
  obtain hi | rfl | rfl : i < 14 ∨ i = 14 ∨ i = 15 := by omega
  · have hread : o.word (((byteReverse o ctx.input 0 14).store (4 * 14) (o.bytes ctx.bits.1)).store (4 * 15)
        (o.bytes ctx.bits.2)) (4 * i) = Order.little.word ctx.input (4 * i) := by
      have hreverse := word_byteReverse o ctx.input 0 hi
      rw [Nat.zero_add] at hreverse
      rw [← hreverse]
      refine word_congr ((Memory.load_store_disjoint (.inl (by omega))).trans
        (Memory.load_store_disjoint (.inl (by omega))))
    have hblock : Memory.load (fun j => (front ++ (Order.little.bytes ctx.bits.1 ++
        Order.little.bytes ctx.bits.2)).getD j 0) (4 * i) 4 = ctx.input.load (4 * i) 4 := by
      rw [Memory.load_list (by rw [List.length_append]; omega), List.drop_append_of_le_length (by omega),
        List.take_append_of_le_length (by rw [List.length_drop]; omega),
        ← Memory.load_list (by omega), ← hinput, Memory.load_getD _ _ (by omega), Nat.zero_add]
    rw [hread, Digest.wordOf, word_congr hblock]
  · have hread : o.word (((byteReverse o ctx.input 0 14).store (4 * 14) (o.bytes ctx.bits.1)).store (4 * 15)
        (o.bytes ctx.bits.2)) (4 * 14) = ctx.bits.1 :=
      (word_congr (Memory.load_store_disjoint (.inl (by omega)))).trans (word_store _ _ _)
    have hblock : Memory.load (fun j => (front ++ (Order.little.bytes ctx.bits.1 ++
        Order.little.bytes ctx.bits.2)).getD j 0) (4 * 14) 4 = Order.little.bytes ctx.bits.1 := by
      rw [Memory.load_list (by simp [hfront]), List.drop_left' hfront, List.take_left' (length_bytes ..)]
    rw [hread, Digest.wordOf, word_of_load hblock]
  · have hread : o.word (((byteReverse o ctx.input 0 14).store (4 * 14) (o.bytes ctx.bits.1)).store (4 * 15)
        (o.bytes ctx.bits.2)) (4 * 15) = ctx.bits.2 := word_store _ _ _
    have hblock : Memory.load (fun j => (front ++ (Order.little.bytes ctx.bits.1 ++
        Order.little.bytes ctx.bits.2)).getD j 0) (4 * 15) 4 = Order.little.bytes ctx.bits.2 := by
      rw [Memory.load_list (by simp [hfront]), ← List.append_assoc,
        List.drop_left' (by rw [List.length_append, hfront, length_bytes])]
      exact List.take_of_length_le (length_bytes ..).le
    rw [hread, Digest.wordOf, word_of_load hblock]

/-! ## `MD5Final` -/

/-- The two ways through the padding. -/
theorem md5Pad_cases (o : Order) (ctx : MD5Context) {k : Nat} (hk : k < 64)
    (hcount : ((ctx.bits.1 >>> 3) &&& 0x3f).toNat = k) :
    (56 ≤ k ∧ md5Pad o ctx = putInput 0 (List.replicate 56 0) (transformInput o (reverseInput o 16
        (putInput (k + 1) (List.replicate (63 - k) 0) (putInput k [0x80] ctx))))) ∨
      (k < 56 ∧ md5Pad o ctx = putInput (k + 1) (List.replicate (55 - k) 0) (putInput k [0x80] ctx)) := by
  obtain ⟨count, hdef⟩ : ∃ count : UInt32, (ctx.bits.1 >>> 3) &&& 0x3f = count := ⟨_, rfl⟩
  rw [hdef] at hcount
  have hle : count ≤ 64 - 1 := UInt32.le_iff_toNat_le.mpr (by rw [hcount]; exact Nat.le_of_lt_succ hk)
  have hsub : (64 - 1 - count).toNat = 63 - k := by
    rw [UInt32.toNat_sub_of_le _ _ hle, hcount]
    rfl
  by_cases hlt : 64 - 1 - count < 8
  · have hlt' : 63 - k < 8 := hsub ▸ UInt32.lt_iff_toNat_lt.mp hlt
    refine .inl ⟨by omega, ?_⟩
    rw [md5Pad, hdef, if_pos hlt, hcount, hsub]
  · have hge := UInt32.not_lt.mp hlt
    have hge' : 8 ≤ 63 - k := hsub ▸ UInt32.le_iff_toNat_le.mp hge
    have hrest : (64 - 1 - count - 8).toNat = 55 - k := by
      rw [UInt32.toNat_sub_of_le _ _ hge, hsub]
      exact Nat.sub_right_comm 63 k 8
    refine .inr ⟨by omega, ?_⟩
    rw [md5Pad, hdef, if_neg hlt, hcount, hrest]

theorem md5Pad_keeps (o : Order) {ctx : MD5Context} {message : Bytes} (h : Holds ctx message) :
    ∃ s front, front.length = 56 ∧ Keeps (md5Pad o ctx) ⟨s, front⟩ ∧ (md5Pad o ctx).bits = ctx.bits ∧
      (∀ x, 64 ≤ x → (md5Pad o ctx).input x = ctx.input x) ∧
      absorb 64 Digest.compress (absorb 64 Digest.compress ⟨Digest.initial, []⟩ message)
        (0x80 :: List.replicate ((119 - message.length % 64) % 64) 0) = ⟨s, front⟩ := by
  have hlength := length_kept message
  have hlt := hlength.trans_lt (Nat.mod_lt _ (by decide))
  have hcount := (toNat_kept h.bits).trans hlength.symm
  have hkeeps := h.keeps
  rw [← hlength]
  generalize absorb 64 Digest.compress ⟨Digest.initial, []⟩ message = s at hcount hlt hkeeps ⊢
  have hmark := keeps_append hkeeps [0x80]
  have hplace : (s.kept ++ [0x80]).length = s.kept.length + 1 := by
    rw [List.length_append, List.length_singleton]
  obtain ⟨hge, heq⟩ | ⟨hshort, heq⟩ := md5Pad_cases o ctx hlt hcount
  · have hfull := keeps_append hmark (List.replicate (63 - s.kept.length) 0)
    simp only [hplace, List.append_assoc, List.singleton_append] at hfull
    set filled := putInput (s.kept.length + 1) (List.replicate (63 - s.kept.length) 0)
      (putInput s.kept.length [0x80] ctx)
    have hblock : (s.kept ++ 0x80 :: List.replicate (63 - s.kept.length) 0).length = 64 := by
      rw [List.length_append, List.length_cons, List.length_replicate]
      omega
    have hbuf : (transformInput o (reverseInput o 16 filled)).buf =
        Digest.compress s.state (s.kept ++ 0x80 :: List.replicate (63 - s.kept.length) 0) := by
      have hinput := hfull.input
      rw [hblock] at hinput
      rw [buf_transformInput, hfull.buf, hinput]
    have hzeros : (119 - s.kept.length) % 64 = 63 - s.kept.length + 56 := by omega
    refine ⟨(transformInput o (reverseInput o 16 filled)).buf, List.replicate 56 0, by decide, ?_, ?_,
      fun x hx => ?_, ?_⟩
    · rw [heq]
      exact keeps_putInput _
    · rw [heq]
      exact bits_transformInput o 16 filled
    · rw [heq, input_putInput _ (by decide) hx, input_transformInput o filled hx]
      exact (input_putInput _ (by rw [List.length_replicate]; omega) hx).trans
        (input_putInput ctx (by rw [List.length_singleton]; omega) hx)
    · rw [hzeros, ← List.replicate_append_replicate, ← List.cons_append, absorb_fill (by decide) hblock,
        absorb_short (by rw [List.nil_append, List.length_replicate]; decide), hbuf, List.nil_append]
  · have hfront := keeps_append hmark (List.replicate (55 - s.kept.length) 0)
    simp only [hplace, List.append_assoc, List.singleton_append] at hfront
    have hlen : (s.kept ++ 0x80 :: List.replicate (55 - s.kept.length) 0).length = 56 := by
      rw [List.length_append, List.length_cons, List.length_replicate]
      omega
    have hzeros : (119 - s.kept.length) % 64 = 55 - s.kept.length := by omega
    refine ⟨s.state, _, hlen, ?_, ?_, fun x hx => ?_, ?_⟩
    · rw [heq]
      exact hfront
    · rw [heq]
      rfl
    · rw [heq, input_putInput _ (by rw [List.length_replicate]; omega) hx]
      exact input_putInput ctx (by rw [List.length_singleton]; omega) hx
    · rw [hzeros, absorb_short (by omega)]

theorem chain_bytes (o : Order) (buf : Chain) :
    buf.bytes o = [buf.a, buf.b, buf.c, buf.d].flatMap o.bytes := by
  simp only [Chain.bytes, List.flatMap_cons, List.flatMap_nil, List.append_nil, List.append_assoc]

theorem length_chain_bytes (o : Order) (buf : Chain) : (buf.bytes o).length = 16 := by
  simp only [Chain.bytes, List.length_append, length_bytes]

/-- The chain as it is stored, the lowest byte of each word first. -/
theorem load_chain (o : Order) (buf : Chain) :
    (byteReverse o (Memory.store (fun _ => 0) 0 (buf.bytes o)) 0 4).load 0 16 = buf.bytes .little := by
  have hstored := Memory.load_store_self (fun _ => 0) 0 (buf.bytes o)
  rw [length_chain_bytes] at hstored
  rw [chain_bytes .little]
  exact load_byteReverse o 0 [buf.a, buf.b, buf.c, buf.d] _ (hstored.trans (chain_bytes o buf))

/-- A chain read from memory. -/
theorem chain_words (o : Order) (m : Memory) :
    (Chain.mk (o.word m 0) (o.word m 4) (o.word m 8) (o.word m 12)).bytes o = m.load 0 16 := by
  simp only [Chain.bytes, bytes_word]
  rfl

theorem load_cleared {m : Memory} {n k : Nat} (hk : k ≤ n) :
    (m.store 0 (List.replicate k 0)).load 0 n = List.replicate k 0 ++ (m.load 0 n).drop k := by
  obtain ⟨j, rfl⟩ := Nat.exists_eq_add_of_le hk
  have hzeros := Memory.load_store_self m 0 (List.replicate k 0)
  rw [List.length_replicate] at hzeros
  rw [Memory.load_add, Memory.load_add, hzeros, List.drop_left' (Memory.load_length ..),
    Memory.load_store_disjoint (.inr (by rw [List.length_replicate]))]

/-- Whatever was in the context before, in whatever pieces the message came, and in
whatever order a word has its bytes: what is stored is the digest. Nothing outside of
`in` is written to, and of the digest in `buf` only the first bytes are erased. -/
theorem md5_digest (o : Order) (sizeofCtx : Nat) (ctx : MD5Context) (calls : List (Memory × UInt32)) :
    let (digest, ctx') := md5Final o sizeofCtx (updates o (md5Init ctx) calls)
    digest = Digest.digest (given calls) ∧ (∀ x, 64 ≤ x → ctx'.input x = ctx.input x) ∧
      (sizeofCtx ≤ 16 → ctx'.buf.bytes o = List.replicate sizeofCtx 0 ++ digest.drop sizeofCtx) := by
  obtain ⟨hholds, hinput⟩ := holds_updates o (holds_init ctx) calls
  rw [List.nil_append] at hholds
  generalize updates o (md5Init ctx) calls = updated at hholds hinput ⊢
  obtain ⟨s, front, hfront, hkeeps, hbits, hinput', habsorb⟩ := md5Pad_keeps o hholds
  have hbuf := buf_last o hkeeps hfront
  have hdigest : Digest.digest (given calls) = Chain.bytes .little (Digest.compress s
      (front ++ (Order.little.bytes updated.bits.1 ++ Order.little.bytes updated.bits.2))) := by
    rw [Digest.digest, foldl_padded hfront habsorb, lengthBytes_eq hholds.bits]
  set last := transformInput o (putInput (4 * 15) (o.bytes (md5Pad o updated).bits.2)
    (putInput (4 * 14) (o.bytes (md5Pad o updated).bits.1) (reverseInput o 14 (md5Pad o updated))))
  rw [hbits] at hbuf
  have hlast : ∀ x, 64 ≤ x → last.input x = ctx.input x := fun x hx => by
    have htransform : ∀ c, (transformInput o c).input = c.input := fun c => by rw [transformInput]
    rw [htransform, input_putInput _ (by rw [length_bytes]) hx,
      input_putInput _ (by rw [length_bytes]; decide) hx]
    exact (byteReverse_outside o 0 14 _ (.inr (by omega))).trans ((hinput' x hx).trans (hinput x hx))
  have hfinal : md5Final o sizeofCtx updated =
      let m := byteReverse o (Memory.store (fun _ => 0) 0 (last.buf.bytes o)) 0 4
      let m' := m.store 0 (List.replicate sizeofCtx 0)
      (m.load 0 16, { last with buf := ⟨o.word m' 0, o.word m' 4, o.word m' 8, o.word m' 12⟩ }) := rfl
  rw [hfinal]
  dsimp only
  rw [load_chain, chain_words]
  refine ⟨(congrArg (Chain.bytes .little) hbuf).trans hdigest.symm, hlast, fun hsize => ?_⟩
  rw [load_cleared hsize, load_chain]

/-- The message `abc`. -/
example : Digest.digest [0x61, 0x62, 0x63] =
    [0x90, 0x01, 0x50, 0x98, 0x3c, 0xd2, 0x4f, 0xb0, 0xd6, 0x96, 0x3f, 0x7d, 0x28, 0xe1, 0x7f, 0x72] := by
  decide +kernel

end Tflib.Expert
