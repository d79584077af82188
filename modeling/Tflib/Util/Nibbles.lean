import Tflib.Data.Printf
import Tflib.Util.Numerals

/-! # Half bytes as characters

`asc_to_bin` and `bin_to_asc` of `tf_util.c` write a byte as two hexadecimal
digits, `asc_to_bcd` and `bcd_to_asc` as two decimal ones. An index that does not
fit in `int` is a fault.
-/

namespace Tflib.Util

open Tflib.Core Tflib.Data.Printf

/-! ## Writing the halves -/

/-- The loop of `bin_to_asc` and `bcd_to_asc`. The masks leave the bits of the byte itself, whether
`char` has a sign or not. -/
def unpackLoop (digit : UInt8 → UInt8) (src : Region UInt8) : Nat → Nat → Region UInt8 →
    Option (Region UInt8)
  | 0, _, dst => some dst
  | n + 1, i, dst => do
      let c ← src.get i
      let j ← intOf (2 * i)
      let dst ← dst.store j [some (digit ((c &&& 0xf0) >>> 4))]
      let c ← src.get i
      let k ← intOf (2 * i + 1)
      let dst ← dst.store k [some (digit (c &&& 0xf))]
      unpackLoop digit src n (i + 1) dst

def unpack (digit : UInt8 → UInt8) (dst src : Region UInt8) (len : Nat) :
    Option (Region UInt8 × Nat) := do
  let dst ← unpackLoop digit src len 0 dst
  let dstlen ← intOf (len * 2)
  some (dst, dstlen)

/-- `(ch > 9) ? ch + 0x41 - 10 : ch + 0x30` -/
def hexChar (ch : UInt8) : UInt8 := if 9 < ch then ch + 0x41 - 10 else ch + 0x30

def binToAsc (dsp hex : Region UInt8) (count : Nat) : Option (Region UInt8 × Nat) :=
  unpack hexChar dsp hex count

def bcdToAsc (dst src : Region UInt8) (len : Nat) : Option (Region UInt8 × Nat) :=
  unpack (· + 0x30) dst src len

/-- The characters of the halves of one byte, and of all bytes. -/
def halves (digit : UInt8 → UInt8) (c : UInt8) : Bytes :=
  [digit ((c &&& 0xf0) >>> 4), digit (c &&& 0xf)]

theorem high_toNat (c : UInt8) : ((c &&& 0xf0) >>> 4).toNat = c.toNat / 16 := by
  have hlt := c.toNat_lt
  have hand : (c &&& 0xf0) >>> 4 = c >>> 4 &&& 0xf := UInt8.shiftRight_and
  have hshift : (c >>> 4).toNat = c.toNat / 2 ^ 4 := toNat_shiftRight c (k := 4) (by decide)
  calc ((c &&& 0xf0) >>> 4).toNat = (c >>> 4 &&& 0xf).toNat := by rw [hand]
    _ = (c >>> 4).toNat % 2 ^ 4 := toNat_and_low _ (k := 4) (by decide)
    _ = c.toNat / 16 := by omega

theorem low_toNat (c : UInt8) : (c &&& 0xf).toNat = c.toNat % 16 :=
  toNat_and_low c (k := 4) (by decide)

/-- A byte is taken apart into its halves. -/
theorem halves_eq (digit : UInt8 → UInt8) {c x y : UInt8} (hy : y.toNat < 16)
    (hc : c.toNat = 16 * x.toNat + y.toNat) : halves digit c = [digit x, digit y] := by
  have hhigh : (c &&& 0xf0) >>> 4 = x := UInt8.toNat_inj.mp (by rw [high_toNat]; omega)
  have hlow : c &&& 0xf = y := UInt8.toNat_inj.mp (by rw [low_toNat]; omega)
  rw [halves, hhigh, hlow]

theorem halves_length (digit : UInt8 → UInt8) (bs : Bytes) :
    (bs.flatMap (halves digit)).length = 2 * bs.length := by
  induction bs with
  | nil => rfl
  | cons c bs ih =>
      rw [List.flatMap_cons, List.length_append, ih, List.length_cons]
      change 2 + 2 * bs.length = 2 * (bs.length + 1)
      omega

/-- The loop behind bytes that are done. -/
theorem unpackLoop_eq (digit : UInt8 → UInt8) {src dst : Region UInt8} {done bs : Bytes}
    (hsrc : src.Begins (done ++ bs)) (hdst : dst.Begins (done.flatMap (halves digit)))
    (room : 2 * (done ++ bs).length ≤ dst.length) (fits : 2 * (done ++ bs).length ≤ 2 ^ 31) :
    ∃ dst', unpackLoop digit src bs.length done.length dst = some dst' ∧
      dst'.Begins ((done ++ bs).flatMap (halves digit)) ∧ dst'.length = dst.length := by
  induction bs generalizing done dst with
  | nil => exact ⟨dst, rfl, by rwa [List.append_nil], rfl⟩
  | cons c bs ih =>
      have hwritten := halves_length digit done
      rw [List.length_append, List.length_cons] at room fits
      obtain ⟨mid, hhigh, hmid, hbegins⟩ := hdst.store [digit ((c &&& 0xf0) >>> 4)] (by
        rw [List.length_singleton]
        omega)
      obtain ⟨next, hlow, hnext, hbegins'⟩ := hbegins.store [digit (c &&& 0xf)] (by
        rw [List.length_append, List.length_singleton, List.length_singleton]
        omega)
      rw [List.length_append, List.length_singleton, hwritten] at hlow
      rw [hwritten] at hhigh
      have hpair : (done.flatMap (halves digit) ++ [digit ((c &&& 0xf0) >>> 4)]) ++
          [digit (c &&& 0xf)] = (done ++ [c]).flatMap (halves digit) := by
        simp [halves]
      rw [hpair] at hbegins'
      have hsplit : done ++ c :: bs = (done ++ [c]) ++ bs := List.append_cons done c bs
      obtain ⟨dst', hloop, hwhole, hlen⟩ := ih (hsplit ▸ hsrc) hbegins'
        (by rw [← hsplit, List.length_append, List.length_cons]; omega)
        (by rw [← hsplit, List.length_append, List.length_cons]; omega)
      refine ⟨dst', ?_, hsplit ▸ hwhole, hlen.trans (hnext.trans hmid)⟩
      rw [List.length_append, List.length_singleton] at hloop
      simp only [List.length_cons, unpackLoop, hsrc.get_middle,
        intOf_of_lt (show 2 * done.length < 2 ^ 31 by omega),
        intOf_of_lt (show 2 * done.length + 1 < 2 ^ 31 by omega), Option.bind_eq_bind, Option.bind_some]
      rw [List.map_singleton] at hhigh hlow
      rw [hhigh, Option.bind_some, hlow, Option.bind_some]
      exact hloop

theorem unpack_eq (digit : UInt8 → UInt8) {src dst : Region UInt8} {bs : Bytes} (hsrc : src.Begins bs)
    (room : 2 * bs.length ≤ dst.length) (fits : 2 * bs.length < 2 ^ 31) :
    ∃ dst', unpack digit dst src bs.length = some (dst', 2 * bs.length) ∧
      dst'.Begins (bs.flatMap (halves digit)) ∧ dst'.length = dst.length := by
  obtain ⟨dst', hloop, hbegins, hlen⟩ :=
    @unpackLoop_eq digit src dst [] bs hsrc (Region.begins_nil dst) room (Nat.le_of_lt fits)
  refine ⟨dst', ?_, hbegins, hlen⟩
  rw [List.length_nil] at hloop
  simp only [unpack, hloop, Nat.mul_comm bs.length 2, intOf_of_lt fits, Option.bind_eq_bind,
    Option.bind_some]

theorem unpack_fits {digit : UInt8 → UInt8} {src dst : Region UInt8} {len : Nat}
    {r : Region UInt8 × Nat} (h : unpack digit dst src len = some r) : 2 * len < 2 ^ 31 := by
  simp only [unpack, Option.bind_eq_bind, Option.bind_eq_some_iff] at h
  obtain ⟨dst', -, n, hn, -⟩ := h
  have hlt := (intOf_eq_some.mp hn).2
  omega

/-! ## Reading hexadecimal digits -/

/-- `isupper` of the C locale. -/
def isUpper (tmp : Int) : Bool := 0x41 ≤ tmp && tmp ≤ 0x5a

def isAlpha (tmp : Int) : Bool := isUpper tmp || (0x61 ≤ tmp && tmp ≤ 0x7a)

/-- `offset` is left as it was where the character is not a letter. -/
def letterOffset (offset tmp : Int) : Int :=
  if isAlpha tmp then (if isUpper tmp then 0x41 else 0x61) else offset

def hexValueOf (offset tmp : Int) : Int := if tmp ≤ 0x39 then tmp - 0x30 else tmp - offset + 10

/-- The loop of `asc_to_bin`; every assignment to `hex[i]` narrows to `char`. -/
def ascToBinLoop (signed : Bool) (dsp : Region UInt8) : Nat → Nat → Int → Region UInt8 →
    Option (Region UInt8)
  | 0, _, _, hex => some hex
  | n + 1, i, offset, hex => do
      let j ← intOf (2 * i)
      let c ← dsp.get j
      let offset := letterOffset offset (charValue signed c)
      let hex ← hex.store i [some (.ofInt (hexValueOf offset (charValue signed c)))]
      let h ← hex.get i
      let hex ← hex.store i [some (.ofInt (charValue signed h * 16))]
      let k ← intOf (2 * i + 1)
      let c ← dsp.get k
      let offset := letterOffset offset (charValue signed c)
      let h ← hex.get i
      let hex ← hex.store i
        [some (.ofInt (charValue signed h + hexValueOf offset (charValue signed c)))]
      ascToBinLoop signed dsp n (i + 1) offset hex

def ascToBin (signed : Bool) (hex dsp : Region UInt8) (count : Nat) : Option (Region UInt8 × Nat) := do
  let hex ← ascToBinLoop signed dsp count 0 0 hex
  some (hex, count)

def isHex (c : UInt8) : Bool :=
  ('0'.toUInt8 ≤ c && c ≤ '9'.toUInt8) || ('A'.toUInt8 ≤ c && c ≤ 'F'.toUInt8) ||
    ('a'.toUInt8 ≤ c && c ≤ 'f'.toUInt8)

/-- The value of a hexadecimal digit in either case. -/
def hexDigitValue (c : UInt8) : Nat :=
  if c ≤ '9'.toUInt8 then c.toNat - 48 else if c ≤ 'F'.toUInt8 then c.toNat - 55 else c.toNat - 87

def upper (c : UInt8) : UInt8 := if 'a'.toUInt8 ≤ c ∧ c ≤ 'z'.toUInt8 then c - 32 else c

/-- The bytes of a text of hexadecimal digits. -/
def hexBytes : Bytes → Bytes
  | a :: b :: s => .ofNat (16 * hexDigitValue a + hexDigitValue b) :: hexBytes s
  | _ => []

theorem hexBytes_nil : hexBytes [] = [] := rfl

theorem hexBytes_pair (a b : UInt8) (s : Bytes) :
    hexBytes (a :: b :: s) = .ofNat (16 * hexDigitValue a + hexDigitValue b) :: hexBytes s := rfl

/-- A digit has its value, whatever offset an earlier letter has left. -/
theorem hexValueOf_digit {c : UInt8} (hc : isHex c = true) (signed : Bool) (offset : Int) :
    hexValueOf (letterOffset offset (charValue signed c)) (charValue signed c) = hexDigitValue c ∧
      hexDigitValue c < 16 := by
  have hall : ∀ signed : Bool, ∀ c : BitVec 8, isHex ⟨c⟩ = true →
      (isAlpha (charValue signed ⟨c⟩) = true ∨ charValue signed ⟨c⟩ ≤ 0x39) ∧
        hexValueOf (letterOffset 0 (charValue signed ⟨c⟩)) (charValue signed ⟨c⟩) =
          hexDigitValue ⟨c⟩ ∧ hexDigitValue ⟨c⟩ < 16 := by
    decide +kernel
  obtain ⟨hkind, hvalue, hlt⟩ := hall signed c.toBitVec hc
  refine ⟨?_, hlt⟩
  rw [← hvalue]
  rcases hkind with hletter | hdigit
  · have hset : ∀ o, letterOffset o (charValue signed c) =
        if isUpper (charValue signed c) then 0x41 else 0x61 := fun o => if_pos hletter
    rw [hset offset, ← hset 0]
  · have hplain : ∀ o, hexValueOf o (charValue signed c) = charValue signed c - 0x30 :=
      fun o => if_pos hdigit
    rw [hplain, ← hplain (letterOffset 0 (charValue signed c))]

/-- Narrowing loses nothing of two digits. -/
theorem narrow_digits (signed : Bool) {v w : Nat} (hv : v < 16) (hw : w < 16) :
    UInt8.ofInt (charValue signed
        (.ofInt (charValue signed (.ofInt (v : Int)) * 16)) + (w : Int)) =
      .ofNat (16 * v + w) := by
  have hall : ∀ signed : Bool, ∀ v w : Fin 16, UInt8.ofInt (charValue signed
        (.ofInt (charValue signed (.ofInt (v.val : Int)) * 16)) + (w.val : Int)) =
      .ofNat (16 * v.val + w.val) := by
    decide +kernel
  exact hall signed ⟨v, hv⟩ ⟨w, hw⟩

/-- The loop behind digits that are done. -/
theorem ascToBinLoop_eq (signed : Bool) {dsp hex : Region UInt8} {front out : Bytes} {n : Nat}
    {s : Bytes} (hlen : s.length = 2 * n) (hs : ∀ c ∈ s, isHex c = true)
    (hdsp : dsp.Begins (front ++ s)) (hfront : front.length = 2 * out.length) (hhex : hex.Begins out)
    (room : out.length + n ≤ hex.length) (fits : 2 * (out.length + n) ≤ 2 ^ 31) (offset : Int) :
    ∃ hex', ascToBinLoop signed dsp n out.length offset hex = some hex' ∧
      hex'.Begins (out ++ hexBytes s) ∧ hex'.length = hex.length := by
  induction n generalizing front out s hex offset with
  | zero =>
      obtain rfl := List.length_eq_zero_iff.mp hlen
      exact ⟨hex, rfl, by rwa [hexBytes_nil, List.append_nil], rfl⟩
  | succ n ih =>
      match s, hlen with
      | a :: b :: s, hlen =>
          have ha := hs a List.mem_cons_self
          have hb := hs b (List.mem_cons_of_mem a List.mem_cons_self)
          have hrest : ∀ c ∈ s, isHex c = true := fun c hc =>
            hs c (List.mem_cons_of_mem a (List.mem_cons_of_mem b hc))
          obtain ⟨hva, hlta⟩ := hexValueOf_digit ha signed offset
          obtain ⟨hvb, hltb⟩ :=
            hexValueOf_digit hb signed (letterOffset offset (charValue signed a))
          -- the three stores to `hex[i]`
          obtain ⟨hex₁, hstore₁, hlen₁, hbegins₁⟩ :=
            hhex.store [UInt8.ofInt (hexDigitValue a : Int)] (by rw [List.length_singleton]; omega)
          obtain ⟨hex₂, hstore₂, hlen₂, hbegins₂⟩ := hbegins₁.overwrite
            [UInt8.ofInt (charValue signed (.ofInt (hexDigitValue a : Int)) * 16)]
            (by rw [List.length_singleton]; omega)
          obtain ⟨hex₃, hstore₃, hlen₃, hbegins₃⟩ := hbegins₂.overwrite
            [UInt8.ofNat (16 * hexDigitValue a + hexDigitValue b)]
            (by rw [List.length_singleton]; omega)
          have hgeta : dsp.get (2 * out.length) = some a := hfront ▸ hdsp.get_middle
          have hgetb : dsp.get (2 * out.length + 1) = some b := by
            rw [List.append_cons] at hdsp
            have hget := hdsp.get_middle
            rwa [List.length_append, List.length_singleton, hfront] at hget
          have hpair : front ++ a :: b :: s = (front ++ [a, b]) ++ s := by simp
          obtain ⟨hex', hloop, hwhole, hsize⟩ := ih (by simpa [Nat.mul_add] using hlen) hrest
            (hpair ▸ hdsp) (by simp [hfront, Nat.mul_add]) hbegins₃
            (by rw [List.length_append, List.length_singleton]; omega)
            (by rw [List.length_append, List.length_singleton]; omega)
            (letterOffset (letterOffset offset (charValue signed a)) (charValue signed b))
          refine ⟨hex', ?_, ?_, hsize.trans (hlen₃.trans (hlen₂.trans hlen₁))⟩
          · rw [List.map_singleton] at hstore₁ hstore₂ hstore₃
            rw [List.length_append, List.length_singleton] at hloop
            simp only [ascToBinLoop, intOf_of_lt (show 2 * out.length < 2 ^ 31 by omega),
              intOf_of_lt (show 2 * out.length + 1 < 2 ^ 31 by omega), hgeta, hgetb, hva, hvb, hstore₁,
              hbegins₁.get, hstore₂, hbegins₂.get, narrow_digits signed hlta hltb, hstore₃,
              Option.bind_eq_bind, Option.bind_some]
            exact hloop
          · rwa [hexBytes_pair, List.append_cons]

theorem ascToBin_eq (signed : Bool) {hex dsp : Region UInt8} {n : Nat} {s : Bytes}
    (hlen : s.length = 2 * n) (hs : ∀ c ∈ s, isHex c = true) (hdsp : dsp.Begins s)
    (room : n ≤ hex.length) (fits : 2 * n < 2 ^ 31) :
    ∃ hex', ascToBin signed hex dsp n = some (hex', n) ∧ hex'.Begins (hexBytes s) := by
  obtain ⟨hex', hloop, hbegins, -⟩ := @ascToBinLoop_eq signed dsp hex [] [] n s hlen hs hdsp rfl
    (Region.begins_nil hex) (by rwa [List.length_nil, Nat.zero_add])
    (by rw [List.length_nil]; omega) 0
  rw [List.length_nil] at hloop
  refine ⟨hex', ?_, hbegins⟩
  simp only [ascToBin, hloop, Option.bind_eq_bind, Option.bind_some]

/-! ### Both ways -/

/-- The digit of a half is a hexadecimal digit, with the half as its value. -/
theorem hexChar_digit {x : UInt8} (hx : x.toNat < 16) :
    isHex (hexChar x) = true ∧ hexDigitValue (hexChar x) = x.toNat := by
  have hall : ∀ v : Fin 16, isHex (hexChar (.ofNat v.val)) = true ∧
      hexDigitValue (hexChar (.ofNat v.val)) = v.val := by decide
  have hdigit := hall ⟨x.toNat, hx⟩
  rwa [UInt8.ofNat_toNat] at hdigit

theorem high_lt (c : UInt8) : ((c &&& 0xf0) >>> 4).toNat < 16 := by
  have hlt := c.toNat_lt
  rw [high_toNat]
  omega

theorem low_lt (c : UInt8) : (c &&& 0xf).toNat < 16 := by
  rw [low_toNat]
  omega

theorem hexBytes_halves (bs : Bytes) : hexBytes (bs.flatMap (halves hexChar)) = bs := by
  induction bs with
  | nil => rfl
  | cons c bs ih =>
      have hpair : (c :: bs).flatMap (halves hexChar) = hexChar ((c &&& 0xf0) >>> 4) ::
          hexChar (c &&& 0xf) :: bs.flatMap (halves hexChar) := rfl
      rw [hpair, hexBytes_pair, ih, (hexChar_digit (high_lt c)).2, (hexChar_digit (low_lt c)).2,
        high_toNat, low_toNat, Nat.div_add_mod, UInt8.ofNat_toNat]

theorem isHex_halves {bs : Bytes} : ∀ c ∈ bs.flatMap (halves hexChar), isHex c = true := by
  intro x hx
  obtain ⟨c, -, hc⟩ := List.mem_flatMap.mp hx
  rcases List.mem_pair.mp hc with rfl | rfl
  · exact (hexChar_digit (high_lt c)).1
  · exact (hexChar_digit (low_lt c)).1

theorem hexBytes_length {n : Nat} {s : Bytes} (h : s.length = 2 * n) : (hexBytes s).length = n := by
  induction n generalizing s with
  | zero =>
      rw [List.length_eq_zero_iff.mp h]
      rfl
  | succ n ih =>
      match s, h with
      | a :: b :: s, h => rw [hexBytes_pair, List.length_cons, ih (by simpa [Nat.mul_add] using h)]

/-- The digits of two digits are the same in upper case. -/
theorem halves_digits {a b : UInt8} (ha : isHex a = true) (hb : isHex b = true) :
    halves hexChar (.ofNat (16 * hexDigitValue a + hexDigitValue b)) = [upper a, upper b] := by
  have hupper : ∀ c : BitVec 8, isHex ⟨c⟩ = true → hexChar (.ofNat (hexDigitValue ⟨c⟩)) = upper ⟨c⟩ := by
    decide +kernel
  have hlta := (hexValueOf_digit ha true 0).2
  have hltb := (hexValueOf_digit hb true 0).2
  have hva : (UInt8.ofNat (hexDigitValue a)).toNat = hexDigitValue a := toNat_byte (by omega)
  have hvb : (UInt8.ofNat (hexDigitValue b)).toNat = hexDigitValue b := toNat_byte (by omega)
  have hboth : (UInt8.ofNat (16 * hexDigitValue a + hexDigitValue b)).toNat =
      16 * (UInt8.ofNat (hexDigitValue a)).toNat + (UInt8.ofNat (hexDigitValue b)).toNat := by
    rw [hva, hvb, toNat_byte (by omega)]
  rw [halves_eq hexChar (hvb.trans_lt hltb) hboth, hupper a.toBitVec ha, hupper b.toBitVec hb]

theorem halves_hexBytes {n : Nat} {s : Bytes} (h : s.length = 2 * n) (hs : ∀ c ∈ s, isHex c = true) :
    (hexBytes s).flatMap (halves hexChar) = s.map upper := by
  induction n generalizing s with
  | zero =>
      rw [List.length_eq_zero_iff.mp h]
      rfl
  | succ n ih =>
      match s, h with
      | a :: b :: s, h =>
          rw [hexBytes_pair, List.flatMap_cons, halves_digits (hs a List.mem_cons_self)
            (hs b (List.mem_cons_of_mem a List.mem_cons_self)),
            ih (by simpa [Nat.mul_add] using h) fun c hc =>
              hs c (List.mem_cons_of_mem a (List.mem_cons_of_mem b hc))]
          rfl

/-- The bytes come back from their hexadecimal text. -/
def BinComesBack (signed : Bool) (bs : Bytes) : Prop :=
  ∀ dsp hex out : Region UInt8, hex.Begins bs → 2 * bs.length ≤ dsp.length → bs.length ≤ out.length →
    ∃ dsp' out', binToAsc dsp hex bs.length = some (dsp', 2 * bs.length) ∧
      ascToBin signed out dsp' bs.length = some (out', bs.length) ∧ out'.Begins bs

/-- The hexadecimal text of `n` bytes comes back in upper case. -/
def HexComesBack (signed : Bool) (n : Nat) (s : Bytes) : Prop :=
  ∀ hex dsp out : Region UInt8, dsp.Begins s → n ≤ hex.length → 2 * n ≤ out.length →
    ∃ hex' out', ascToBin signed hex dsp n = some (hex', n) ∧
      binToAsc out hex' n = some (out', 2 * n) ∧ out'.Begins (s.map upper)

theorem binComesBack_iff (signed : Bool) (bs : Bytes) :
    BinComesBack signed bs ↔ bs.length < 2 ^ 30 := by
  constructor
  · intro h
    obtain ⟨dsp', out', hwrite, -⟩ := h (.fresh (2 * bs.length)) (bs.map some) (.fresh bs.length)
      (List.prefix_refl _) (Region.fresh_length _).ge (Region.fresh_length _).ge
    have hfits := unpack_fits hwrite
    omega
  · intro fits dsp hex out hhex hdsp hout
    obtain ⟨dsp', hwrite, htext, -⟩ := unpack_eq hexChar hhex hdsp (by omega)
    obtain ⟨out', hread, hbegins⟩ := ascToBin_eq signed (halves_length hexChar bs) isHex_halves htext
      hout (by omega)
    rw [hexBytes_halves] at hbegins
    exact ⟨dsp', out', hwrite, hread, hbegins⟩

theorem hexComesBack_iff (signed : Bool) {n : Nat} {s : Bytes} (hlen : s.length = 2 * n)
    (hs : ∀ c ∈ s, isHex c = true) : HexComesBack signed n s ↔ n < 2 ^ 30 := by
  constructor
  · intro h
    obtain ⟨hex', out', -, hwrite, -⟩ := h (.fresh n) (s.map some) (.fresh (2 * n)) (List.prefix_refl _)
      (Region.fresh_length _).ge (Region.fresh_length _).ge
    have hfits := unpack_fits hwrite
    omega
  · intro fits hex dsp out hdsp hhex hout
    obtain ⟨hex', hread, hbytes⟩ := ascToBin_eq signed hlen hs hdsp hhex (by omega)
    have hcount := hexBytes_length hlen
    obtain ⟨out', hwrite, htext, -⟩ := unpack_eq hexChar hbytes (hcount ▸ hout) (by omega)
    rw [hcount] at hwrite
    rw [halves_hexBytes hlen hs] at htext
    exact ⟨hex', out', hread, hwrite, htext⟩

/-- Bytes and hexadecimal text are turned into each other, with either kind of `char`, exactly where
the length of the text is an `int`. -/
theorem hex_round_trip_iff (signed : Bool) :
    (∀ bs : Bytes, BinComesBack signed bs ↔ bs.length < 2 ^ 30) ∧
      ∀ (n : Nat) (s : Bytes), s.length = 2 * n → (∀ c ∈ s, isHex c = true) →
        (HexComesBack signed n s ↔ n < 2 ^ 30) :=
  ⟨binComesBack_iff signed, fun _ _ hlen hs => hexComesBack_iff signed hlen hs⟩

/-- Two bytes, and digits in both cases. -/
theorem hex_round_trip_two : BinComesBack true [0, 255] ∧
    HexComesBack true 2 ("aF09".toList.map Char.toUInt8) :=
  ⟨((hex_round_trip_iff true).1 [0, 255]).mpr (by decide),
    ((hex_round_trip_iff true).2 2 _ (by decide) (List.all_eq_true.mp (by decide))).mpr (by decide)⟩

/-- The index of the first digit of byte `2 ^ 30` is not an `int`. -/
theorem binComesBack_long : ¬ BinComesBack true (List.replicate (2 ^ 30) 0) := by
  rw [binComesBack_iff, List.length_replicate]
  exact Nat.lt_irrefl _

/-! ## Reading decimal digits -/

/-- One round of the loop of `asc_to_bcd`; in the last one `tmp_in` may have come to `len`. -/
def packRound (src : Region UInt8) (atEnd : Bool) (tmpIn : Nat) (dst : Region UInt8) :
    Option (Region UInt8 × Nat) := do
  let temp ← src.get tmpIn
  let d1 := temp - 0x30
  let tmpIn ← intOf (tmpIn + 1)
  let d2 ← if atEnd then some 0 else (src.get tmpIn).map (· - 0x30)
  let tmpIn ← intOf (tmpIn + 1)
  let dst ← dst.store ((tmpIn - 2) / 2) [some (d1 <<< 4 ||| d2)]
  some (dst, tmpIn)

/-- The loop of `asc_to_bcd`, by what is left of `len` in front of `tmp_in`. -/
def packLoop (src : Region UInt8) : Nat → Nat → Region UInt8 → Option (Region UInt8 × Nat)
  | 0, tmpIn, dst => some (dst, tmpIn)
  | 1, tmpIn, dst => packRound src true tmpIn dst
  | n + 2, tmpIn, dst => do
      let (dst, tmpIn) ← packRound src false tmpIn dst
      packLoop src n tmpIn dst

def ascToBcd (dst src : Region UInt8) (len : Nat) : Option (Region UInt8 × Nat) := do
  let (dst, tmpIn) ← packLoop src len 0 dst
  let n ← intOf (tmpIn + 1)
  some (dst, n / 2)

/-- The bytes of a text of decimal digits; an odd one is followed by a zero. -/
def bcdBytes : Bytes → Bytes
  | [] => []
  | [a] => [(a - 0x30) <<< 4 ||| 0]
  | a :: b :: s => ((a - 0x30) <<< 4 ||| (b - 0x30)) :: bcdBytes s

theorem bcdBytes_length (s : Bytes) : (bcdBytes s).length = (s.length + 1) / 2 := by
  induction s using bcdBytes.induct with
  | case1 => rfl
  | case2 a => rw [bcdBytes, List.length_singleton, List.length_singleton]
  | case3 a b s ih =>
      rw [bcdBytes, List.length_cons, ih, List.length_cons, List.length_cons]
      omega

/-- A round stores one byte and moves on by two characters. -/
theorem packRound_eq {src dst : Region UInt8} {atEnd : Bool} {i : Nat} {a d : UInt8}
    (ha : src.get (2 * i) = some a)
    (hd : (if atEnd then some 0 else (src.get (2 * i + 1)).map (· - 0x30)) = some d)
    {dst' : Region UInt8} (hstore : dst.store i [some ((a - 0x30) <<< 4 ||| d)] = some dst')
    (fits : 2 * i + 2 < 2 ^ 31) :
    packRound src atEnd (2 * i) dst = some (dst', 2 * i + 2) := by
  have hindex : (2 * i + 1 + 1 - 2) / 2 = i := by omega
  have hfirst := intOf_of_lt (show 2 * i + 1 < 2 ^ 31 by omega)
  have hsecond := intOf_of_lt (show 2 * i + 1 + 1 < 2 ^ 31 by omega)
  cases atEnd with
  | true =>
      cases hd
      simp only [packRound, ha, hfirst, hsecond, hindex, hstore, if_true, Option.bind_eq_bind,
        Option.bind_some]
  | false =>
      rw [if_neg Bool.false_ne_true] at hd
      simp only [packRound, ha, hfirst, Bool.false_eq_true, if_false, hd, hsecond, hindex, hstore,
        Option.bind_eq_bind, Option.bind_some]

/-- The loop behind characters that are done. -/
theorem packLoop_eq {src dst : Region UInt8} {front out s : Bytes} (hsrc : src.Begins (front ++ s))
    (hfront : front.length = 2 * out.length) (hdst : dst.Begins out)
    (room : out.length + (s.length + 1) / 2 ≤ dst.length)
    (fits : 2 * (out.length + (s.length + 1) / 2) < 2 ^ 31) :
    ∃ dst', packLoop src s.length (2 * out.length) dst =
        some (dst', 2 * (out.length + (s.length + 1) / 2)) ∧
      dst'.Begins (out ++ bcdBytes s) ∧
      dst'.drop (out.length + (s.length + 1) / 2) = dst.drop (out.length + (s.length + 1) / 2) := by
  induction s using bcdBytes.induct generalizing front out dst with
  | case1 => exact ⟨dst, rfl, by rwa [bcdBytes, List.append_nil], rfl⟩
  | case2 a =>
      rw [List.length_singleton] at room fits ⊢
      obtain ⟨dst', hstore, hlen, hbegins⟩ := hdst.store [(a - 0x30) <<< 4 ||| 0] room
      have hget : src.get (2 * out.length) = some a := hfront ▸ hsrc.get_middle
      refine ⟨dst', ?_, hbegins, Region.store_drop hstore ?_⟩
      · exact packRound_eq hget rfl hstore fits
      · rw [List.length_map]
        rfl
  | case3 a b s ih =>
      have hlength : (a :: b :: s).length = s.length + 2 := rfl
      rw [hlength] at room fits ⊢
      have hcount : (s.length + 2 + 1) / 2 = 1 + (s.length + 1) / 2 := by omega
      rw [hcount] at room fits ⊢
      obtain ⟨mid, hstore, hlen, hbegins⟩ := hdst.store [(a - 0x30) <<< 4 ||| (b - 0x30)]
        (by rw [List.length_singleton]; omega)
      have hgeta : src.get (2 * out.length) = some a := hfront ▸ hsrc.get_middle
      have hgetb : src.get (2 * out.length + 1) = some b := by
        rw [List.append_cons] at hsrc
        have hget := hsrc.get_middle
        rwa [List.length_append, List.length_singleton, hfront] at hget
      have hpair : front ++ a :: b :: s = (front ++ [a, b]) ++ s := by simp
      have hplace : (out ++ [(a - 0x30) <<< 4 ||| (b - 0x30)]).length = out.length + 1 := by
        rw [List.length_append, List.length_singleton]
      obtain ⟨dst', hloop, hwhole, hkept⟩ := ih (hpair ▸ hsrc)
        (by rw [List.length_append, hplace, hfront]; rfl) hbegins
        (by rw [hplace, hlen]; omega) (by rw [hplace]; omega)
      rw [hplace] at hloop hkept
      refine ⟨dst', ?_, ?_, ?_⟩
      · have hnext : (if false = true then some 0 else
            (src.get (2 * out.length + 1)).map (· - 0x30)) = some (b - 0x30) := by
          rw [hgetb]
          rfl
        have hround := packRound_eq hgeta hnext hstore (by omega)
        simp only [packLoop, hround, Option.bind_eq_bind, Option.bind_some]
        rw [← Nat.add_assoc]
        exact hloop
      · rwa [bcdBytes, List.append_cons]
      · rw [← Nat.add_assoc, hkept]
        exact Region.store_drop hstore (by simp only [List.length_map, List.length_singleton]; omega)

theorem ascToBcd_eq {src dst : Region UInt8} {s : Bytes} (hsrc : src.Begins s)
    (room : (s.length + 1) / 2 ≤ dst.length) (fits : s.length < 2 ^ 31 - 1) :
    ∃ dst', ascToBcd dst src s.length = some (dst', (s.length + 1) / 2) ∧ dst'.Begins (bcdBytes s) ∧
      dst'.drop ((s.length + 1) / 2) = dst.drop ((s.length + 1) / 2) := by
  obtain ⟨dst', hloop, hbegins, hkept⟩ := @packLoop_eq src dst [] [] s hsrc rfl (Region.begins_nil dst)
    (by rwa [List.length_nil, Nat.zero_add]) (by rw [List.length_nil]; omega)
  rw [List.length_nil, Nat.zero_add, Nat.mul_zero] at hloop
  rw [List.length_nil, Nat.zero_add] at hkept
  have hhalf : (2 * ((s.length + 1) / 2) + 1) / 2 = (s.length + 1) / 2 := by omega
  refine ⟨dst', ?_, hbegins, hkept⟩
  simp only [ascToBcd, hloop, intOf_of_lt (show 2 * ((s.length + 1) / 2) + 1 < 2 ^ 31 by omega), hhalf,
    Option.bind_eq_bind, Option.bind_some]

theorem packRound_moves {src dst dst' : Region UInt8} {atEnd : Bool} {tmpIn m : Nat}
    (h : packRound src atEnd tmpIn dst = some (dst', m)) : m = tmpIn + 2 := by
  cases atEnd with
  | true =>
      simp only [packRound, if_true, Option.bind_eq_bind, Option.bind_some,
        Option.bind_eq_some_iff] at h
      obtain ⟨temp, -, i, hi, j, hj, dst'', -, h⟩ := h
      cases h
      rw [(intOf_eq_some.mp hj).1, (intOf_eq_some.mp hi).1]
  | false =>
      simp only [packRound, Bool.false_eq_true, if_false, Option.bind_eq_bind,
        Option.bind_eq_some_iff] at h
      obtain ⟨temp, -, i, hi, d, -, j, hj, dst'', -, h⟩ := h
      cases h
      rw [(intOf_eq_some.mp hj).1, (intOf_eq_some.mp hi).1]

/-- `tmp_in` comes to an even number, beyond an odd `len`. -/
theorem packLoop_moves {src dst dst' : Region UInt8} {n tmpIn m : Nat}
    (h : packLoop src n tmpIn dst = some (dst', m)) : m = tmpIn + 2 * ((n + 1) / 2) := by
  induction n using Nat.strong_induction_on generalizing tmpIn dst with
  | _ n ih =>
      match n, ih with
      | 0, _ =>
          cases h
          rfl
      | 1, _ => exact packRound_moves h
      | n + 2, ih =>
          rw [packLoop, Option.bind_eq_bind, Option.bind_eq_some_iff] at h
          obtain ⟨⟨mid, i⟩, hround, h⟩ := h
          have hmoved := packRound_moves hround
          have hrest := ih n (by omega) h
          omega

theorem ascToBcd_fits {src dst : Region UInt8} {len : Nat} {r : Region UInt8 × Nat}
    (h : ascToBcd dst src len = some r) : len < 2 ^ 31 - 1 := by
  simp only [ascToBcd, Option.bind_eq_bind, Option.bind_eq_some_iff] at h
  obtain ⟨⟨dst', m⟩, hloop, n, hn, -⟩ := h
  have hmoved := packLoop_moves hloop
  have hlt := (intOf_eq_some.mp hn).2
  dsimp only at hlt
  omega

/-! ### Both ways -/

theorem join_toNat {x y : UInt8} (hx : x.toNat < 16) (hy : y.toNat < 16) :
    (x <<< 4 ||| y).toNat = 16 * x.toNat + y.toNat :=
  (toNat_shiftLeft_or (k := 4) (by decide) (by omega) hy).trans (by omega)

/-- Two halves put together are taken apart again. -/
theorem halves_join (digit : UInt8 → UInt8) {x y : UInt8} (hx : x.toNat < 16) (hy : y.toNat < 16) :
    halves digit (x <<< 4 ||| y) = [digit x, digit y] :=
  halves_eq digit hy (join_toNat hx hy)

theorem join_halves (c : UInt8) : ((c &&& 0xf0) >>> 4) <<< 4 ||| (c &&& 0xf) = c :=
  UInt8.toNat_inj.mp (by
    rw [join_toNat (high_lt c) (low_lt c), high_toNat, low_toNat, Nat.div_add_mod])

theorem bcdBytes_halves (bs : Bytes) : bcdBytes (bs.flatMap (halves (· + 0x30))) = bs := by
  induction bs with
  | nil => rfl
  | cons c bs ih =>
      have hpair : (c :: bs).flatMap (halves (· + 0x30)) = (((c &&& 0xf0) >>> 4) + 0x30) ::
          ((c &&& 0xf) + 0x30) :: bs.flatMap (halves (· + 0x30)) := rfl
      rw [hpair, bcdBytes, ih, UInt8.add_sub_cancel, UInt8.add_sub_cancel, join_halves]

theorem digit_half {c : UInt8} (hc : isDigit c = true) : (c - 0x30).toNat < 16 := by
  simp only [isDigit, Bool.and_eq_true, decide_eq_true_eq] at hc
  obtain ⟨hfrom, hto⟩ := hc
  have hle : c.toNat ≤ 57 := UInt8.le_iff_toNat_le.mp hto
  rw [UInt8.toNat_sub_of_le c 0x30 hfrom, show (0x30 : UInt8).toNat = 48 from rfl]
  omega

/-- An odd number of digits is followed by a `0`. -/
theorem halves_bcdBytes {s : Bytes} (hs : ∀ c ∈ s, isDigit c = true) :
    (bcdBytes s).flatMap (halves (· + 0x30)) =
      s ++ if s.length % 2 = 1 then ['0'.toUInt8] else [] := by
  induction s using bcdBytes.induct with
  | case1 => rfl
  | case2 a =>
      have ha := digit_half (hs a List.mem_cons_self)
      rw [bcdBytes, List.flatMap_cons, halves_join _ ha (by decide), UInt8.sub_add_cancel]
      rfl
  | case3 a b s ih =>
      have ha := digit_half (hs a List.mem_cons_self)
      have hb := digit_half (hs b (List.mem_cons_of_mem a List.mem_cons_self))
      have hparity : (a :: b :: s).length % 2 = s.length % 2 := Nat.add_mod_right s.length 2
      rw [bcdBytes, List.flatMap_cons, halves_join _ ha hb, UInt8.sub_add_cancel, UInt8.sub_add_cancel,
        ih fun c hc => hs c (List.mem_cons_of_mem a (List.mem_cons_of_mem b hc)), hparity]
      rfl

/-- The bytes come back from the text of their halves. -/
def BcdComesBack (bs : Bytes) : Prop :=
  ∀ asc src out : Region UInt8, src.Begins bs → 2 * bs.length ≤ asc.length → bs.length ≤ out.length →
    ∃ asc' out', bcdToAsc asc src bs.length = some (asc', 2 * bs.length) ∧
      ascToBcd out asc' (2 * bs.length) = some (out', bs.length) ∧ out'.Begins bs

/-- The digits are packed two to a byte, with no access beyond them or their bytes, and come back. -/
def DigitsComeBack (s : Bytes) : Prop :=
  ∀ dst src out : Region UInt8, src.Begins s → (s.length + 1) / 2 ≤ dst.length →
    2 * ((s.length + 1) / 2) ≤ out.length →
      ∃ dst' out', ascToBcd dst src s.length = some (dst', (s.length + 1) / 2) ∧
        dst'.drop ((s.length + 1) / 2) = dst.drop ((s.length + 1) / 2) ∧
        bcdToAsc out dst' ((s.length + 1) / 2) = some (out', 2 * ((s.length + 1) / 2)) ∧
        out'.Begins (s ++ if s.length % 2 = 1 then ['0'.toUInt8] else [])

theorem bcdComesBack_iff (bs : Bytes) : BcdComesBack bs ↔ bs.length < 2 ^ 30 := by
  constructor
  · intro h
    obtain ⟨asc', out', hwrite, -⟩ := h (.fresh (2 * bs.length)) (bs.map some) (.fresh bs.length)
      (List.prefix_refl _) (Region.fresh_length _).ge (Region.fresh_length _).ge
    have hfits := unpack_fits hwrite
    omega
  · intro fits asc src out hsrc hasc hout
    obtain ⟨asc', hwrite, htext, -⟩ := unpack_eq (· + 0x30) hsrc hasc (by omega)
    have hlen := halves_length (· + 0x30) bs
    have hhalf : (2 * bs.length + 1) / 2 = bs.length := by omega
    obtain ⟨out', hread, hbegins, -⟩ := ascToBcd_eq htext (by rwa [hlen, hhalf]) (by omega)
    rw [hlen, hhalf] at hread
    rw [bcdBytes_halves] at hbegins
    exact ⟨asc', out', hwrite, hread, hbegins⟩

theorem digitsComeBack_iff {s : Bytes} (hs : ∀ c ∈ s, isDigit c = true) :
    DigitsComeBack s ↔ s.length < 2 ^ 31 - 1 := by
  constructor
  · intro h
    obtain ⟨dst', out', hread, -⟩ := h (.fresh ((s.length + 1) / 2)) (s.map some)
      (.fresh (2 * ((s.length + 1) / 2))) (List.prefix_refl _) (Region.fresh_length _).ge
      (Region.fresh_length _).ge
    exact ascToBcd_fits hread
  · intro fits dst src out hsrc hdst hout
    obtain ⟨dst', hread, hbytes, hkept⟩ := ascToBcd_eq hsrc hdst fits
    have hlen := bcdBytes_length s
    obtain ⟨out', hwrite, htext, -⟩ := unpack_eq (· + 0x30) hbytes (hlen ▸ hout) (by omega)
    rw [hlen] at hwrite
    rw [halves_bcdBytes hs] at htext
    exact ⟨dst', out', hread, hkept, hwrite, htext⟩

/-- Packed decimal digits and their text are turned into each other exactly where the length of the
text, and the index behind its last byte, are an `int`. -/
theorem bcd_round_trip_iff (bs : Bytes) {s : Bytes} (hs : ∀ c ∈ s, isDigit c = true) :
    (BcdComesBack bs ↔ bs.length < 2 ^ 30) ∧ (DigitsComeBack s ↔ s.length < 2 ^ 31 - 1) :=
  ⟨bcdComesBack_iff bs, digitsComeBack_iff hs⟩

/-- Halves above nine, and an odd number of digits. -/
theorem bcd_round_trip_three : BcdComesBack [0x1f, 0xa0] ∧
    DigitsComeBack ("123".toList.map Char.toUInt8) := by
  have hdigits : ∀ c ∈ "123".toList.map Char.toUInt8, isDigit c = true :=
    List.all_eq_true.mp (by decide)
  obtain ⟨hbytes, htext⟩ := bcd_round_trip_iff [0x1f, 0xa0] hdigits
  exact ⟨hbytes.mpr (by decide), htext.mpr (by decide)⟩

/-- The last index behind `2 ^ 31 - 1` digits is not an `int`. -/
theorem digitsComeBack_long : ¬ DigitsComeBack (List.replicate (2 ^ 31 - 1) '0'.toUInt8) := by
  rw [digitsComeBack_iff fun c hc => by rw [List.eq_of_mem_replicate hc]; decide, List.length_replicate]
  exact Nat.lt_irrefl _

end Tflib.Util
