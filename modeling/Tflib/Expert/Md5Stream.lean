import Tflib.Expert.Md5Words

/-! # The context as a machine

`MD5Update` takes its input in blocks of 64 bytes. What the context holds after any
number of calls is what is left of the concatenation of all that they were given.
-/

namespace Tflib.Expert

open Tflib.Core

/-! ## One block -/

theorem buf_transformInput (o : Order) (ctx : MD5Context) :
    (transformInput o (reverseInput o 16 ctx)).buf = Digest.compress ctx.buf (ctx.input.load 0 64) := by
  simp only [transformInput, reverseInput, md5Transform_eq, Digest.compress]
  refine compressWords_congr (fun i hi => ?_) ctx.buf
  have hword := word_byteReverse o ctx.input 0 hi
  rw [Nat.zero_add] at hword
  rw [hword, Digest.wordOf]
  refine word_congr (Eq.symm ?_)
  rw [Memory.load_getD _ _ (by omega), Nat.zero_add]

theorem bits_transformInput (o : Order) (longs : Nat) (ctx : MD5Context) :
    (transformInput o (reverseInput o longs ctx)).bits = ctx.bits := by
  rw [transformInput, reverseInput]

theorem input_transformInput (o : Order) (ctx : MD5Context) {x : Nat} (hx : 64 ≤ x) :
    (transformInput o (reverseInput o 16 ctx)).input x = ctx.input x :=
  byteReverse_outside o 0 16 ctx.input (.inr (by omega))

theorem input_putInput {p : Nat} {bs : Bytes} (ctx : MD5Context) (hfit : p + bs.length ≤ 64) {x : Nat}
    (hx : 64 ≤ x) : (putInput p bs ctx).input x = ctx.input x :=
  Memory.store_outside (by omega)

/-! ## Updates -/

/-- A context that has done what `s` has done. -/
structure Keeps (ctx : MD5Context) (s : Absorbed UInt8 Chain) : Prop where
  buf : ctx.buf = s.state
  input : ctx.input.load 0 s.kept.length = s.kept

theorem keeps_putInput {ctx : MD5Context} (bs : Bytes) : Keeps (putInput 0 bs ctx) ⟨ctx.buf, bs⟩ where
  buf := rfl
  input := Memory.load_store_self ctx.input 0 bs

theorem updateLoop_frame (o : Order) (ctx : MD5Context) (buf : Memory) (off : Nat) (len : UInt32) :
    (updateLoop o ctx buf off len).bits = ctx.bits ∧
      ∀ x, 64 ≤ x → (updateLoop o ctx buf off len).input x = ctx.input x := by
  fun_induction updateLoop o ctx buf off len with
  | case1 ctx off len hlen ctx₁ ctx₂ ih =>
      have hbits : ctx₂.bits = ctx.bits := bits_transformInput o 16 ctx₁
      have hinput : ∀ x, 64 ≤ x → ctx₂.input x = ctx.input x := fun x hx => by
        have hlast : ctx₁.input x = ctx.input x := input_putInput ctx (by rw [Memory.load_length]) hx
        exact (input_transformInput o ctx₁ hx).trans hlast
      exact ⟨ih.1.trans hbits, fun x hx => (ih.2 x hx).trans (hinput x hx)⟩
  | case2 ctx off len hlen =>
      have hlt : len.toNat < 64 := UInt32.lt_iff_toNat_lt.mp (UInt32.not_le.mp hlen)
      exact ⟨rfl, fun x hx => input_putInput ctx (by rw [Memory.load_length]; omega) hx⟩

theorem updateLoop_keeps (o : Order) (ctx : MD5Context) (buf : Memory) (off : Nat) (len : UInt32) :
    Keeps (updateLoop o ctx buf off len)
      (absorb 64 Digest.compress ⟨ctx.buf, []⟩ (buf.load off len.toNat)) := by
  fun_induction updateLoop o ctx buf off len with
  | case1 ctx off len hlen ctx₁ ctx₂ ih =>
      have hle : 64 ≤ len.toNat := UInt32.le_iff_toNat_le.mp hlen
      have hlen' : (len - 64).toNat = len.toNat - 64 := UInt32.toNat_sub_of_le len 64 hlen
      have hsplit : buf.load off len.toNat = buf.load off 64 ++ buf.load (off + 64) (len - 64).toNat := by
        rw [hlen', ← Memory.load_add, Nat.add_sub_cancel' hle]
      have hbuf : ctx₂.buf = Digest.compress ctx.buf (buf.load off 64) := by
        have hblock := Memory.load_store_self ctx.input 0 (buf.load off 64)
        rw [Memory.load_length] at hblock
        exact (buf_transformInput o _).trans (congrArg (Digest.compress ctx.buf) hblock)
      rw [hsplit, absorb_fill (by decide) (by rw [List.nil_append, Memory.load_length]), List.nil_append, ← hbuf]
      exact ih
  | case2 ctx off len hlen =>
      have hlt : len.toNat < 64 := UInt32.lt_iff_toNat_lt.mp (UInt32.not_le.mp hlen)
      rw [absorb_short (by rw [List.nil_append, Memory.load_length]; exact hlt)]
      exact keeps_putInput _

/-- The number that the two words of `bits` make. -/
def bitCount (bits : UInt32 × UInt32) : Nat := bits.1.toNat + 2 ^ 32 * bits.2.toNat

/-- The two words after `len` more bytes. -/
def countedBits (bits : UInt32 × UInt32) (len : UInt32) : UInt32 × UInt32 :=
  let low := bits.1 + (len <<< 3)
  (low, (if low < bits.1 then bits.2 + 1 else bits.2) + (len >>> 29))

/-- The carry is right: a sum that wraps is below both of its terms. -/
theorem bitCount_countedBits (bits : UInt32 × UInt32) (len : UInt32) :
    bitCount (countedBits bits len) = (bitCount bits + 8 * len.toNat) % 2 ^ 64 := by
  have hlow := bits.1.toNat_lt
  have hlen := len.toNat_lt
  have hshift : (len <<< 3).toNat = len.toNat * 2 ^ 3 % 2 ^ 32 := by
    rw [UInt32.toNat_shiftLeft, Nat.shiftLeft_eq]
    rfl
  have hhigh : (len >>> 29).toNat = len.toNat / 2 ^ 29 := by
    rw [UInt32.toNat_shiftRight, Nat.shiftRight_eq_div_pow]
    rfl
  have hsum := UInt32.toNat_add bits.1 (len <<< 3)
  rw [hshift] at hsum
  simp only [bitCount, countedBits]
  split
  · next hcarry =>
      have hlt := UInt32.lt_iff_toNat_lt.mp hcarry
      have hone : (bits.2 + 1).toNat = (bits.2.toNat + 1) % 2 ^ 32 := UInt32.toNat_add bits.2 1
      rw [UInt32.toNat_add (bits.2 + 1), hhigh, hone]
      omega
  · next hcarry =>
      have hle := UInt32.le_iff_toNat_le.mp (UInt32.not_lt.mp hcarry)
      rw [UInt32.toNat_add bits.2, hhigh]
      omega

/-- How many bytes `in` holds. -/
theorem toNat_kept {bits : UInt32 × UInt32} {n : Nat} (h : bitCount bits = 8 * n % 2 ^ 64) :
    ((bits.1 >>> 3) &&& 0x3f).toNat = n % 64 := by
  have hlow := bits.1.toNat_lt
  have hshift : (bits.1 >>> 3).toNat = bits.1.toNat / 2 ^ 3 := by
    rw [UInt32.toNat_shiftRight, Nat.shiftRight_eq_div_pow]
    rfl
  have hand : ((bits.1 >>> 3) &&& 0x3f).toNat = (bits.1 >>> 3).toNat % 2 ^ 6 :=
    (UInt32.toNat_and _ _).trans (Nat.and_two_pow_sub_one_eq_mod _ 6)
  rw [bitCount] at h
  omega

/-- The three ways through `MD5Update`. -/
theorem md5Update_cases (o : Order) (ctx : MD5Context) (buf : Memory) (len : UInt32) {k : Nat} (hk : k < 64)
    (hcount : ((ctx.bits.1 >>> 3) &&& 0x3f).toNat = k) :
    let ctx' := { ctx with bits := countedBits ctx.bits len }
    (k = 0 ∧ md5Update o ctx buf len = updateLoop o ctx' buf 0 len) ∨
      (k ≠ 0 ∧ len.toNat < 64 - k ∧
        md5Update o ctx buf len = putInput k (buf.load 0 len.toNat) ctx') ∨
      (k ≠ 0 ∧ 64 - k ≤ len.toNat ∧ ∃ rest : UInt32, rest.toNat = len.toNat - (64 - k) ∧
        md5Update o ctx buf len = updateLoop o
          (transformInput o (reverseInput o 16 (putInput k (buf.load 0 (64 - k)) ctx'))) buf (64 - k) rest) := by
  intro ctx'
  have hsub : ((64 : UInt32) - ((ctx.bits.1 >>> 3) &&& 0x3f)).toNat = 64 - k := by
    rw [UInt32.toNat_sub_of_le, hcount]
    · rfl
    · exact UInt32.le_iff_toNat_le.mpr (by rw [hcount]; exact hk.le)
  by_cases ht : (ctx.bits.1 >>> 3) &&& 0x3f = 0
  · refine .inl ⟨?_, ?_⟩
    · rw [← hcount, ht]
      rfl
    · rw [md5Update, if_neg (not_not.mpr ht)]
      rfl
  · have hne : k ≠ 0 := fun hzero => ht (UInt32.toNat_inj.mp (hcount.trans hzero))
    by_cases hlt : len < (64 : UInt32) - ((ctx.bits.1 >>> 3) &&& 0x3f)
    · refine .inr (.inl ⟨hne, hsub ▸ UInt32.lt_iff_toNat_lt.mp hlt, ?_⟩)
      rw [md5Update, if_pos ht, if_pos hlt, hcount]
      rfl
    · have hle := UInt32.not_lt.mp hlt
      refine .inr (.inr ⟨hne, hsub ▸ UInt32.le_iff_toNat_le.mp hle,
        len - ((64 : UInt32) - ((ctx.bits.1 >>> 3) &&& 0x3f)), ?_, ?_⟩)
      · rw [UInt32.toNat_sub_of_le _ _ hle, hsub]
      · rw [md5Update, if_pos ht, if_neg hlt, hcount, hsub]
        rfl

theorem keeps_append {ctx : MD5Context} {s : Absorbed UInt8 Chain} (h : Keeps ctx s) (bs : Bytes) :
    Keeps (putInput s.kept.length bs ctx) ⟨s.state, s.kept ++ bs⟩ where
  buf := h.buf
  input := by
    have hfront := h.input
    have hback := Memory.load_store_self ctx.input s.kept.length bs
    rw [List.length_append, Memory.load_add, Nat.zero_add]
    exact congrArg₂ (· ++ ·) ((Memory.load_store_disjoint (.inl (by omega))).trans hfront) hback

theorem md5Update_keeps (o : Order) {ctx : MD5Context} {s : Absorbed UInt8 Chain} (h : Keeps ctx s)
    (hlt : s.kept.length < 64) (hcount : ((ctx.bits.1 >>> 3) &&& 0x3f).toNat = s.kept.length)
    (buf : Memory) (len : UInt32) :
    Keeps (md5Update o ctx buf len) (absorb 64 Digest.compress s (buf.load 0 len.toNat)) ∧
      (md5Update o ctx buf len).bits = countedBits ctx.bits len ∧
      ∀ x, 64 ≤ x → (md5Update o ctx buf len).input x = ctx.input x := by
  have h' : Keeps { ctx with bits := countedBits ctx.bits len } s := ⟨h.buf, h.input⟩
  obtain ⟨hzero, heq⟩ | ⟨-, hshort, heq⟩ | ⟨-, hlong, rest, hrest, heq⟩ :=
    md5Update_cases o ctx buf len hlt hcount
  · have hloop := updateLoop_keeps o { ctx with bits := countedBits ctx.bits len } buf 0 len
    have hframe := updateLoop_frame o { ctx with bits := countedBits ctx.bits len } buf 0 len
    have hs : s = ⟨ctx.buf, []⟩ := by
      obtain ⟨state, kept⟩ := s
      obtain rfl := List.length_eq_zero_iff.mp hzero
      rw [h.buf]
    rw [heq, hs]
    exact ⟨hloop, hframe⟩
  · have hall : (s.kept ++ buf.load 0 len.toNat).length < 64 := by
      rw [List.length_append, Memory.load_length]
      omega
    rw [heq, absorb_short hall]
    exact ⟨keeps_append h' _, rfl, fun x hx => input_putInput _ (by rw [Memory.load_length]; omega) hx⟩
  · set filled := putInput s.kept.length (buf.load 0 (64 - s.kept.length))
      { ctx with bits := countedBits ctx.bits len }
    have hfilled : Keeps filled ⟨s.state, s.kept ++ buf.load 0 (64 - s.kept.length)⟩ := keeps_append h' _
    have hblock : (s.kept ++ buf.load 0 (64 - s.kept.length)).length = 64 := by
      rw [List.length_append, Memory.load_length]
      omega
    have hbuf : (transformInput o (reverseInput o 16 filled)).buf =
        Digest.compress s.state (s.kept ++ buf.load 0 (64 - s.kept.length)) := by
      have hinput := hfilled.input
      rw [hblock] at hinput
      rw [buf_transformInput, hfilled.buf, hinput]
    have hsplit : buf.load 0 len.toNat =
        buf.load 0 (64 - s.kept.length) ++ buf.load (64 - s.kept.length) rest.toNat := by
      have hadd := Memory.load_add buf 0 (64 - s.kept.length) rest.toNat
      rwa [Nat.zero_add, hrest, Nat.add_sub_cancel' hlong, ← hrest] at hadd
    have hframe := updateLoop_frame o (transformInput o (reverseInput o 16 filled)) buf
      (64 - s.kept.length) rest
    rw [heq, hsplit, absorb_fill (by decide) hblock, ← hbuf]
    refine ⟨updateLoop_keeps o _ buf _ rest, hframe.1.trans (bits_transformInput o 16 filled),
      fun x hx => (hframe.2 x hx).trans ?_⟩
    rw [input_transformInput o filled hx]
    exact input_putInput _ (by rw [Memory.load_length]; omega) hx

/-! ## Runs -/

/-- A context that has been given `message`. -/
structure Holds (ctx : MD5Context) (message : Bytes) : Prop where
  keeps : Keeps ctx (absorb 64 Digest.compress ⟨Digest.initial, []⟩ message)
  bits : bitCount ctx.bits = 8 * message.length % 2 ^ 64

theorem length_kept (message : Bytes) :
    (absorb 64 Digest.compress ⟨Digest.initial, []⟩ message).kept.length = message.length % 64 :=
  length_leftover message

theorem holds_init (ctx : MD5Context) : Holds (md5Init ctx) [] where
  keeps := ⟨rfl, rfl⟩
  bits := rfl

theorem holds_update (o : Order) {ctx : MD5Context} {message : Bytes} (h : Holds ctx message)
    (buf : Memory) (len : UInt32) :
    Holds (md5Update o ctx buf len) (message ++ buf.load 0 len.toNat) ∧
      ∀ x, 64 ≤ x → (md5Update o ctx buf len).input x = ctx.input x := by
  have hlength := length_kept message
  have hlt := hlength.trans_lt (Nat.mod_lt _ (by decide))
  have hcount := (toNat_kept h.bits).trans hlength.symm
  obtain ⟨hkeeps, hbits, hinput⟩ := md5Update_keeps o h.keeps hlt hcount buf len
  rw [absorb_absorb (by decide)] at hkeeps
  refine ⟨⟨hkeeps, ?_⟩, hinput⟩
  rw [hbits, bitCount_countedBits, h.bits, List.length_append, Memory.load_length]
  omega

/-- The bytes at which the calls point. -/
def given (calls : List (Memory × UInt32)) : Bytes := calls.flatMap fun c => c.1.load 0 c.2.toNat

def updates (o : Order) (ctx : MD5Context) (calls : List (Memory × UInt32)) : MD5Context :=
  calls.foldl (fun ctx c => md5Update o ctx c.1 c.2) ctx

theorem holds_updates (o : Order) {ctx : MD5Context} {message : Bytes} (h : Holds ctx message)
    (calls : List (Memory × UInt32)) :
    Holds (updates o ctx calls) (message ++ given calls) ∧
      ∀ x, 64 ≤ x → (updates o ctx calls).input x = ctx.input x := by
  induction calls generalizing ctx message with
  | nil =>
      rw [given, List.flatMap_nil, List.append_nil]
      exact ⟨h, fun _ _ => rfl⟩
  | cons c calls ih =>
      obtain ⟨hfirst, hinput⟩ := holds_update o h c.1 c.2
      obtain ⟨hrest, hinput'⟩ := ih hfirst
      rw [given, List.flatMap_cons, ← List.append_assoc]
      exact ⟨hrest, fun x hx => (hinput' x hx).trans (hinput x hx)⟩

end Tflib.Expert
