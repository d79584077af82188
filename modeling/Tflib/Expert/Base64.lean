import Tflib.Core.Base64
import Tflib.Core.Region
import Mathlib.Data.List.TakeWhile

/-! # `expert/base64.c`

The encoder and the decoder work on pointers: reading and storing are checked
against the regions, and an `int` that would overflow is a fault as well.
-/

namespace Tflib.Expert

open Tflib.Core Tflib.Core.Base64

/-! ## The encoder -/

/-- `BIN2BASE64`, with the terminator of the literal. -/
def bin2Base64 : Bytes :=
  "ABCDEFGHIJKLMNOPQRSTUVWXYZabcdefghijklmnopqrstuvwxyz0123456789+/".toList.map
    (fun c => .ofNat c.toNat) ++ [0]

/-- The sum of two numbers as an `int`. -/
def addInt (a b : Nat) : Option Nat := if a + b < 2 ^ 31 then some (a + b) else none

/-- `outputbase64(out + pos, data, ...)`: the memory, `enc_len` and `*nextline`. -/
def outputBase64 (out : Region UInt8) (pos : Nat) (data : Region UInt8) (nextline : Nat) :
    Option (Region UInt8 × Nat × Nat) := do
  let d0 ← data.get 0
  let d1 ← data.get 1
  let d2 ← data.get 2
  let c0 ← bin2Base64[(d0 >>> 2).toNat]?
  let c1 ← bin2Base64[((d0 &&& 3) <<< 4 ||| d1 >>> 4).toNat]?
  let c2 ← bin2Base64[((d1 &&& 15) <<< 2 ||| d2 >>> 6).toNat]?
  let c3 ← bin2Base64[(d2 &&& 0x3f).toNat]?
  let out ← out.store pos [some c0, some c1, some c2, some c3]
  let nextline := nextline + 1
  -- a full line only starts the count anew: the line break is commented out
  let nextline := if nextline > 18 then 0 else nextline
  some (out, 4, nextline)

/-- The `while` loop that fills `save_triple`, with `n` rounds to go. The inner
`none` is its `return`. -/
def saveTriple (data : Region UInt8) (length saveCount : Nat) (triple : Bytes) :
    Nat → Option (Option Bytes)
  | 0 => some (some triple)
  | n + 1 => do
      let c ← data.get saveCount
      let length := length - 1
      if length = 0 then some none
      else saveTriple data length (saveCount + 1) (triple ++ [c]) n

/-- The `for` loop: the memory, `encode_len` and `i`. -/
def encodeLoop (data : Region UInt8) (length : Nat) (dst : Region UInt8) (i encodeLen nextLine : Nat) :
    Option (Region UInt8 × Nat × Nat) :=
  if _h : i + 2 < length then do
    let (dst, n, nextLine) ← outputBase64 dst encodeLen (data.drop i) nextLine
    let encodeLen ← addInt encodeLen n
    encodeLoop data length dst (i + 3) encodeLen nextLine
  else some (dst, encodeLen, i)
termination_by length - i

/-- The two `switch` statements behind the loop. -/
def encodeTail (data : Region UInt8) (length : Nat) (dst : Region UInt8) (i encodeLen : Nat) :
    Option (Region UInt8) :=
  match length - i with
  | 1 => do
      let t0 ← data.get i
      let c0 ← bin2Base64[(t0 >>> 2).toNat]?
      let c1 ← bin2Base64[((t0 &&& 3) <<< 4).toNat]?
      dst.store encodeLen [some c0, some c1, some padChar, some padChar]
  | 2 => do
      let t0 ← data.get i
      let t1 ← data.get (i + 1)
      let c0 ← bin2Base64[(t0 >>> 2).toNat]?
      let c1 ← bin2Base64[((t0 &&& 3) <<< 4 ||| t1 >>> 4).toNat]?
      let c2 ← bin2Base64[((t1 &&& 15) <<< 2).toNat]?
      dst.store encodeLen [some c0, some c1, some c2, some padChar]
  | _ => some dst

/-- `encode_base64`: the memory behind `dst` and the result. -/
def encodeBase64 (dst src : Region UInt8) (length : Nat) : Option (Region UInt8 × Nat) :=
  if length = 0 then some (dst, 0)
  else do
    match ← saveTriple src length 0 [] 3 with
    | none => some (dst, 0)
    | some triple => do
        let length := length - 3
        let data := src.drop 3
        let (dst, encodeLen, nextLine) ← outputBase64 dst 0 (triple.map some) 0
        let (dst, encodeLen, i) ← encodeLoop data length dst 0 encodeLen nextLine
        let dst ← encodeTail data length dst i encodeLen
        let encodeLen ← addInt encodeLen 4
        some (dst, encodeLen)

/-! ### The digits -/

set_option maxRecDepth 4096 in
theorem bin2Base64_get {v : Nat} (h : v < 64) : bin2Base64[v]? = some (letter v) := by
  have hall : ∀ v : Fin 64, bin2Base64[v.val]? = some (letter v) := by decide
  exact hall ⟨v, h⟩

theorem first_digit (a : UInt8) : (a >>> 2).toNat = a.toNat / 4 :=
  toNat_shiftRight a (k := 2) (by decide)

theorem second_digit (a b : UInt8) :
    ((a &&& 3) <<< 4 ||| b >>> 4).toNat = a.toNat % 4 * 16 + b.toNat / 16 := by
  have hlow : (a &&& 3).toNat = a.toNat % 4 := toNat_and_low a (k := 2) (by decide)
  have hhigh : (b >>> 4).toNat = b.toNat / 16 := toNat_shiftRight b (k := 4) (by decide)
  have hb := b.toNat_lt
  have hroom : (a &&& 3).toNat * 2 ^ 4 < 256 := by omega
  have hbelow : (b >>> 4).toNat < 2 ^ 4 := by omega
  rw [← hlow, ← hhigh]
  exact toNat_shiftLeft_or (by decide) hroom hbelow

theorem third_digit (b c : UInt8) :
    ((b &&& 15) <<< 2 ||| c >>> 6).toNat = b.toNat % 16 * 4 + c.toNat / 64 := by
  have hlow : (b &&& 15).toNat = b.toNat % 16 := toNat_and_low b (k := 4) (by decide)
  have hhigh : (c >>> 6).toNat = c.toNat / 64 := toNat_shiftRight c (k := 6) (by decide)
  have hc := c.toNat_lt
  have hroom : (b &&& 15).toNat * 2 ^ 2 < 256 := by omega
  have hbelow : (c >>> 6).toNat < 2 ^ 2 := by omega
  rw [← hlow, ← hhigh]
  exact toNat_shiftLeft_or (by decide) hroom hbelow

theorem fourth_digit (c : UInt8) : (c &&& 0x3f).toNat = c.toNat % 64 :=
  toNat_and_low c (k := 6) (by decide)

/-- Without a byte behind it, a digit's low bits are zero. -/
theorem second_digit_last (a : UInt8) : ((a &&& 3) <<< 4).toNat = a.toNat % 4 * 16 := by
  have hlow : (a &&& 3).toNat = a.toNat % 4 := toNat_and_low a (k := 2) (by decide)
  have hroom : (a &&& 3).toNat * 2 ^ 4 < 256 := by omega
  rw [← hlow]
  exact toNat_shiftLeft (by decide) hroom

theorem third_digit_last (b : UInt8) : ((b &&& 15) <<< 2).toNat = b.toNat % 16 * 4 := by
  have hlow : (b &&& 15).toNat = b.toNat % 16 := toNat_and_low b (k := 4) (by decide)
  have hroom : (b &&& 15).toNat * 2 ^ 2 < 256 := by omega
  rw [← hlow]
  exact toNat_shiftLeft (by decide) hroom

/-! ### The text of three bytes, and of the rest -/

theorem text_three (a b c : UInt8) :
    text [a, b, c] = [letter (a.toNat / 4), letter (a.toNat % 4 * 16 + b.toNat / 16),
      letter (b.toNat % 16 * 4 + c.toNat / 64), letter (c.toNat % 64)] := by
  have hb := b.toNat_lt
  have hc := c.toNat_lt
  have hone : ((a.toNat * 256 + b.toNat) * 256 + c.toNat) / 2 ^ 18 = a.toNat / 4 := by omega
  have htwo : ((a.toNat * 256 + b.toNat) * 256 + c.toNat) / 2 ^ 12 % 64 =
      a.toNat % 4 * 16 + b.toNat / 16 := by omega
  have hthree : ((a.toNat * 256 + b.toNat) * 256 + c.toNat) / 2 ^ 6 % 64 =
      b.toNat % 16 * 4 + c.toNat / 64 := by omega
  have hfour : ((a.toNat * 256 + b.toNat) * 256 + c.toNat) % 64 = c.toNat % 64 := by omega
  simp only [text, letters, digits, padding, List.map_cons, List.map_nil, List.length_cons,
    List.length_nil, hone, htwo, hthree, hfour]
  rfl

theorem text_two (a b : UInt8) :
    text [a, b] = [letter (a.toNat / 4), letter (a.toNat % 4 * 16 + b.toNat / 16),
      letter (b.toNat % 16 * 4), padChar] := by
  have hb := b.toNat_lt
  have hone : (a.toNat * 256 + b.toNat) * 4 / 2 ^ 12 = a.toNat / 4 := by omega
  have htwo : (a.toNat * 256 + b.toNat) * 4 / 2 ^ 6 % 64 = a.toNat % 4 * 16 + b.toNat / 16 := by omega
  have hthree : (a.toNat * 256 + b.toNat) * 4 % 64 = b.toNat % 16 * 4 := by omega
  simp only [text, letters, digits, padding, List.map_cons, List.map_nil, hone, htwo, hthree]
  rfl

theorem text_one (a : UInt8) :
    text [a] = [letter (a.toNat / 4), letter (a.toNat % 4 * 16), padChar, padChar] := by
  have hone : a.toNat * 16 / 2 ^ 6 = a.toNat / 4 := by omega
  have htwo : a.toNat * 16 % 64 = a.toNat % 4 * 16 := by omega
  simp only [text, letters, digits, padding, List.map_cons, List.map_nil, hone, htwo]
  rfl

/-! ### Encoding -/

theorem addInt_eq_some {a b n : Nat} (h : addInt a b = some n) : n = a + b ∧ n < 2 ^ 31 := by
  unfold addInt at h
  split at h
  · cases h
    exact ⟨rfl, by assumption⟩
  · contradiction

theorem outputBase64_eq {data : Region UInt8} {a b c : UInt8} (hdata : data.Begins [a, b, c])
    (done : Bytes) (rest : Region UInt8) (room : 4 ≤ rest.length) (nextline : Nat) :
    ∃ nextline', outputBase64 (done.map some ++ rest) done.length data nextline =
      some ((done ++ text [a, b, c]).map some ++ rest.drop 4, 4, nextline') := by
  have ha' := a.toNat_lt
  have hb' := b.toNat_lt
  have hc' := c.toNat_lt
  have ha : data.get 0 = some a := hdata.get_index (by simp)
  have hb : data.get 1 = some b := hdata.get_index (by simp)
  have hc : data.get 2 = some c := hdata.get_index (by simp)
  rw [text_three]
  have hstore := Region.store_behind done [letter (a.toNat / 4),
    letter (a.toNat % 4 * 16 + b.toNat / 16), letter (b.toNat % 16 * 4 + c.toNat / 64),
    letter (c.toNat % 64)] rest room
  simp only [List.map_cons, List.map_nil] at hstore
  refine ⟨if nextline + 1 > 18 then 0 else nextline + 1, ?_⟩
  simp only [outputBase64, ha, hb, hc, first_digit, second_digit, third_digit, fourth_digit,
    Option.bind_eq_bind, Option.bind_some]
  rw [bin2Base64_get (by omega), bin2Base64_get (by omega), bin2Base64_get (by omega),
    bin2Base64_get (by omega)]
  simp only [Option.bind_some, hstore, List.length_cons, List.length_nil]

/-- The loop writes the text of all whole groups of three bytes. -/
theorem encodeLoop_eq {data : Region UInt8} (bs front : Bytes) (hdata : data.Begins (front ++ bs))
    (done : Bytes) (rest : Region UInt8) (room : 4 * (bs.length / 3) ≤ rest.length)
    (fits : done.length + 4 * (bs.length / 3) < 2 ^ 31) (nextLine : Nat) :
    encodeLoop data (front.length + bs.length) (done.map some ++ rest) front.length done.length nextLine =
      some ((done ++ text (bs.take (3 * (bs.length / 3)))).map some ++ rest.drop (4 * (bs.length / 3)),
        done.length + 4 * (bs.length / 3), front.length + 3 * (bs.length / 3)) := by
  induction bs using digits.induct generalizing front done rest nextLine with
  | case1 a b c bs ih =>
      have hthird : (a :: b :: c :: bs).length / 3 = bs.length / 3 + 1 := by
        simp only [List.length_cons]
        omega
      rw [hthird] at room fits ⊢
      have htake : (a :: b :: c :: bs).take (3 * (bs.length / 3 + 1)) =
          [a, b, c] ++ bs.take (3 * (bs.length / 3)) := by
        rw [Nat.mul_add, Nat.mul_one]
        rfl
      have hsplit : front ++ a :: b :: c :: bs = (front ++ [a, b, c]) ++ bs := by
        rw [List.append_assoc]
        rfl
      have hgroup : Region.Begins (data.drop front.length) [a, b, c] := by
        rw [hsplit, List.append_assoc] at hdata
        exact hdata.drop.of_append
      obtain ⟨nextLine', hout⟩ := outputBase64_eq hgroup done rest (by omega) nextLine
      have hfour : (text [a, b, c]).length = 4 := by rw [text_three]; rfl
      have hplace : (done ++ text [a, b, c]).length = done.length + 4 := by
        rw [List.length_append, hfour]
      have hfront : (front ++ [a, b, c]).length = front.length + 3 := by
        rw [List.length_append]
        rfl
      have hlength :
          front.length + (a :: b :: c :: bs).length = (front ++ [a, b, c]).length + bs.length := by
        simp only [List.length_append, List.length_cons, List.length_nil]
        omega
      have hnext := ih (front ++ [a, b, c]) (hsplit ▸ hdata) (done ++ text [a, b, c]) (rest.drop 4)
        (by rw [List.length_drop]; omega) (by rw [hplace]; omega) nextLine'
      rw [hplace, hfront] at hnext
      rw [encodeLoop, dif_pos (by simp only [List.length_cons]; omega), hout, hlength, hfront]
      have hadd : addInt done.length 4 = some (done.length + 4) := if_pos (by omega)
      simp only [Option.bind_eq_bind, Option.bind_some, hadd]
      rw [hnext, htake, text_append (by simp), List.drop_drop, ← List.append_assoc]
      refine congrArg some (Prod.ext ?_ (Prod.ext ?_ ?_))
      · dsimp only
        congr 2
        omega
      · dsimp only
        omega
      · dsimp only
        omega
  | case2 a b =>
      rw [encodeLoop, dif_neg (by simp)]
      simp [text, letters, digits, padding]
  | case3 a =>
      rw [encodeLoop, dif_neg (by simp)]
      simp [text, letters, digits, padding]
  | case4 =>
      rw [encodeLoop, dif_neg (by simp)]
      simp [text, letters, digits, padding]

/-- The rest of one or two bytes is written as a padded group. -/
theorem encodeTail_eq {data : Region UInt8} (bs front : Bytes) (hdata : data.Begins (front ++ bs))
    (hrest : bs.length < 3) (done : Bytes) (rest : Region UInt8)
    (room : (text bs).length ≤ rest.length) :
    encodeTail data (front.length + bs.length) (done.map some ++ rest) front.length done.length =
      some ((done ++ text bs).map some ++ rest.drop (text bs).length) := by
  have hstore := Region.store_behind done (text bs) rest room
  match bs with
  | [] =>
      rw [encodeTail]
      simp [text, letters, digits, padding]
  | [a] =>
      have ha' := a.toNat_lt
      have ha : data.get front.length = some a := hdata.get
      have hcount : front.length + [a].length - front.length = 1 := Nat.add_sub_cancel_left _ _
      rw [text_one] at hstore ⊢
      simp only [List.map_cons, List.map_nil] at hstore
      rw [encodeTail, hcount]
      simp only [ha, first_digit, second_digit_last, Option.bind_eq_bind, Option.bind_some]
      rw [bin2Base64_get (by omega), bin2Base64_get (by omega)]
      simp only [Option.bind_some, hstore]
  | [a, b] =>
      have ha' := a.toNat_lt
      have hb' := b.toNat_lt
      have ha : data.get front.length = some a := by
        rw [List.append_cons] at hdata
        exact hdata.of_append.get
      have hb : data.get (front.length + 1) = some b := by
        rw [List.append_cons] at hdata
        have hget := hdata.get
        rwa [List.length_append, List.length_singleton] at hget
      have hcount : front.length + [a, b].length - front.length = 2 := Nat.add_sub_cancel_left _ _
      rw [text_two] at hstore ⊢
      simp only [List.map_cons, List.map_nil] at hstore
      rw [encodeTail, hcount]
      simp only [ha, hb, first_digit, second_digit, third_digit_last, Option.bind_eq_bind,
        Option.bind_some]
      rw [bin2Base64_get (by omega), bin2Base64_get (by omega), bin2Base64_get (by omega)]
      simp only [Option.bind_some, hstore]
  | _ :: _ :: _ :: _ =>
      simp only [List.length_cons] at hrest
      omega

/-- The loop and the padded group behind it write the whole text. -/
theorem encodeRest_eq {data : Region UInt8} {bs : Bytes} (hdata : data.Begins bs) (done : Bytes)
    (rest : Region UInt8) (room : (text bs).length ≤ rest.length)
    (fits : done.length + 4 * (bs.length / 3) < 2 ^ 31) (nextLine : Nat) :
    ∃ dst, encodeLoop data bs.length (done.map some ++ rest) 0 done.length nextLine =
        some (dst, done.length + 4 * (bs.length / 3), 3 * (bs.length / 3)) ∧
      encodeTail data bs.length dst (3 * (bs.length / 3)) (done.length + 4 * (bs.length / 3)) =
        some ((done ++ text bs).map some ++ rest.drop (text bs).length) := by
  have hlength := text_length bs
  have hloop := encodeLoop_eq bs [] hdata done rest (by omega) fits nextLine
  rw [List.length_nil, Nat.zero_add, Nat.zero_add] at hloop
  refine ⟨_, hloop, ?_⟩
  have hfront : (bs.take (3 * (bs.length / 3))).length = 3 * (bs.length / 3) := by
    rw [List.length_take]
    omega
  have hwhole : (text (bs.take (3 * (bs.length / 3)))).length = 4 * (bs.length / 3) := by
    rw [text_length, hfront]
    omega
  have hgroups := congrArg List.length (text_groups bs)
  rw [List.length_append, hwhole] at hgroups
  have htail := encodeTail_eq (bs.drop (3 * (bs.length / 3))) (bs.take (3 * (bs.length / 3)))
    (by rw [List.take_append_drop]; exact hdata) (by rw [List.length_drop]; omega)
    (done ++ text (bs.take (3 * (bs.length / 3)))) (rest.drop (4 * (bs.length / 3)))
    (by rw [List.length_drop]; omega)
  rwa [← List.length_append, List.take_append_drop, hfront, List.length_append, hwhole,
    List.append_assoc, text_groups, List.drop_drop, hgroups] at htail

/-- Three bytes are taken in advance, unless the array ends with one of them. -/
theorem saveTriple_eq {src : Region UInt8} {bs : Bytes} (hsrc : src.Begins bs) (hpos : bs ≠ []) :
    saveTriple src bs.length 0 [] 3 =
      if bs.length ≤ 3 then some none else some (some (bs.take 3)) := by
  have hget : ∀ i, i < bs.length → src.get i = bs[i]? := fun i hi => hsrc.get_index hi
  match bs with
  | [] => contradiction
  | [a] => simp [saveTriple, hget 0]
  | [a, b] => simp [saveTriple, hget 0, hget 1]
  | [a, b, c] => simp [saveTriple, hget 0, hget 1, hget 2]
  | a :: b :: c :: d :: bs => simp [saveTriple, hget 0, hget 1, hget 2]

/-- Up to three bytes are taken for the first group, and nothing is written. -/
theorem encodeBase64_short {src : Region UInt8} {bs : Bytes} (hsrc : src.Begins bs)
    (hshort : bs.length ≤ 3) (dst : Region UInt8) : encodeBase64 dst src bs.length = some (dst, 0) := by
  unfold encodeBase64
  split
  · rfl
  · rename_i hne
    have hpos : bs ≠ [] := fun h => hne (by rw [h]; rfl)
    rw [saveTriple_eq hsrc hpos, if_pos hshort]
    rfl

/-- The text of a longer array is written, and four is added to the length of its whole groups. -/
theorem encodeBase64_long {src : Region UInt8} {bs : Bytes} (hsrc : src.Begins bs)
    (hlong : 4 ≤ bs.length) {dst : Region UInt8} (room : (text bs).length ≤ dst.length)
    (fits : 4 * (bs.length / 3) < 2 ^ 31) :
    encodeBase64 dst src bs.length = (addInt (4 * (bs.length / 3)) 4).map fun n =>
      ((text bs).map some ++ dst.drop (text bs).length, n) := by
  obtain ⟨a, b, c, bs, rfl⟩ : ∃ a b c rest, bs = a :: b :: c :: rest := by
    match bs with
    | a :: b :: c :: rest => exact ⟨a, b, c, rest, rfl⟩
    | [] | [_] | [_, _] => simp at hlong
  have hlength : (a :: b :: c :: bs).length = bs.length + 3 := rfl
  have hthird : 4 * ((a :: b :: c :: bs).length / 3) = 4 + 4 * (bs.length / 3) := by omega
  have htext : text (a :: b :: c :: bs) = text [a, b, c] ++ text bs :=
    text_append (show [a, b, c].length % 3 = 0 by simp) bs
  have hthree : (text [a, b, c]).length = 4 := by rw [text_three]; rfl
  rw [htext, List.length_append, hthree] at room
  obtain ⟨nextLine, hfirst⟩ := outputBase64_eq (List.prefix_refl ([a, b, c].map some)) [] dst (by omega) 0
  rw [List.map_nil, List.nil_append, List.length_nil, List.nil_append] at hfirst
  have hdata : Region.Begins (src.drop 3) bs :=
    Region.Begins.drop (show src.Begins ([a, b, c] ++ bs) from hsrc)
  obtain ⟨dst', hloop, htail⟩ := encodeRest_eq hdata (text [a, b, c]) (dst.drop 4)
    (by rw [List.length_drop]; omega) (by omega) nextLine
  rw [hthree] at hloop htail
  rw [List.drop_drop, ← htext] at htail
  have hsize : (text (a :: b :: c :: bs)).length = 4 + (text bs).length := by
    rw [htext, List.length_append, hthree]
  have hmany : ¬ bs.length + 3 ≤ 3 := by omega
  unfold encodeBase64
  rw [if_neg (by omega), saveTriple_eq hsrc (List.cons_ne_nil _ _), hlength, if_neg hmany,
    Nat.add_sub_cancel, hsize]
  rw [hlength] at hthird
  simp only [Option.bind_eq_bind, Option.bind_some, List.take_succ_cons, List.take_zero, hfirst, hloop,
    htail, hthird, Option.map_eq_bind]
  rfl

/-- What is returned is an `int`. -/
theorem encodeBase64_lt {src dst dst' : Region UInt8} {length n : Nat}
    (h : encodeBase64 dst src length = some (dst', n)) : n < 2 ^ 31 := by
  unfold encodeBase64 at h
  split at h
  · cases h
    decide
  · simp only [Option.bind_eq_bind, Option.bind_eq_some_iff] at h
    obtain ⟨taken, -, h⟩ := h
    cases taken with
    | none =>
        cases h
        decide
    | some triple =>
        simp only [Option.bind_eq_some_iff] at h
        obtain ⟨⟨dst₁, size₁, line⟩, -, ⟨dst₂, size₂, i⟩, -, dst₃, -, m, hadd, h⟩ := h
        cases h
        exact (addInt_eq_some hadd).2

/-- The text and its length, exactly where the array is empty, or has four bytes or more and
does not end with a whole group; and the length has to be an `int`. -/
theorem encodeBase64_iff {src dst : Region UInt8} {bs : Bytes} (hsrc : src.Begins bs)
    (room : (text bs).length ≤ dst.length) :
    encodeBase64 dst src bs.length =
        some ((text bs).map some ++ dst.drop (text bs).length, 4 * ((bs.length + 2) / 3)) ↔
      bs.length = 0 ∨ 4 ≤ bs.length ∧ bs.length % 3 ≠ 0 ∧ 4 * ((bs.length + 2) / 3) < 2 ^ 31 := by
  by_cases hshort : bs.length ≤ 3
  · rw [encodeBase64_short hsrc hshort]
    constructor
    · intro h
      have hlength := congrArg Prod.snd (Option.some.inj h)
      dsimp only at hlength
      omega
    · rintro (hempty | ⟨hlong, -⟩)
      · obtain rfl := List.length_eq_zero_iff.mp hempty
        rfl
      · omega
  · have hlong : 4 ≤ bs.length := by omega
    by_cases fits : 4 * (bs.length / 3) + 4 < 2 ^ 31
    · rw [encodeBase64_long hsrc hlong room (by omega), addInt, if_pos fits]
      constructor
      · intro h
        have hlength := congrArg Prod.snd (Option.some.inj h)
        dsimp only at hlength
        omega
      · rintro (hempty | ⟨-, hrest, hfits⟩)
        · omega
        · have hsum : 4 * (bs.length / 3) + 4 = 4 * ((bs.length + 2) / 3) := by omega
          rw [hsum]
          rfl
    · constructor
      · intro h
        have hfits := encodeBase64_lt h
        by_cases hloop : 4 * (bs.length / 3) < 2 ^ 31
        · rw [encodeBase64_long hsrc hlong room hloop, addInt, if_neg fits] at h
          contradiction
        · omega
      · rintro (hempty | ⟨-, hrest, hfits⟩) <;> omega

theorem encodeBase64_four : encodeBase64 (Region.fresh 8) ([77, 97, 110, 0].map some) 4 =
    some ((text [77, 97, 110, 0]).map some, 8) :=
  (encodeBase64_iff (List.prefix_refl ([77, 97, 110, 0].map some)) (by decide)).mpr
    (.inr (by decide))

/-- One byte is taken for a group of three and never written. -/
theorem encodeBase64_one :
    encodeBase64 (Region.fresh 8) ([77].map some) 1 = some (Region.fresh 8, 0) ∧
      text [77] = [84, 81, 61, 61] ∧ 4 * ((1 + 2) / 3) = 4 := by
  refine ⟨rfl, ?_, rfl⟩
  decide

/-! ## The decoder -/

/-- `BASE642BIN`: the digit of a letter, 96 for the terminator, 97 for `=`, 98
for the line break characters and 99 for everything else. -/
def base642Bin : Bytes := [
    96, 99, 99, 99, 99, 99, 99, 99, 99, 99, 98, 99, 99, 98, 99, 99,
    99, 99, 99, 99, 99, 99, 99, 99, 99, 99, 99, 99, 99, 99, 99, 99,
    99, 99, 99, 99, 99, 99, 99, 99, 99, 99, 99, 62, 99, 99, 99, 63,
    52, 53, 54, 55, 56, 57, 58, 59, 60, 61, 99, 99, 99, 97, 99, 99,
    99, 0, 1, 2, 3, 4, 5, 6, 7, 8, 9, 10, 11, 12, 13, 14,
    15, 16, 17, 18, 19, 20, 21, 22, 23, 24, 25, 99, 99, 99, 99, 99,
    99, 26, 27, 28, 29, 30, 31, 32, 33, 34, 35, 36, 37, 38, 39, 40,
    41, 42, 43, 44, 45, 46, 47, 48, 49, 50, 51, 99, 99, 99, 99, 99,
    99, 99, 99, 99, 99, 99, 99, 99, 99, 99, 99, 99, 99, 99, 99, 99,
    99, 99, 99, 99, 99, 99, 99, 99, 99, 99, 99, 99, 99, 99, 99, 99,
    99, 99, 99, 99, 99, 99, 99, 99, 99, 99, 99, 99, 99, 99, 99, 99,
    99, 99, 99, 99, 99, 99, 99, 99, 99, 99, 99, 99, 99, 99, 99, 99,
    99, 99, 99, 99, 99, 99, 99, 99, 99, 99, 99, 99, 99, 99, 99, 99,
    99, 99, 99, 99, 99, 99, 99, 99, 99, 99, 99, 99, 99, 99, 99, 99,
    99, 99, 99, 99, 99, 99, 99, 99, 99, 99, 99, 99, 99, 99, 99, 99,
    99, 99, 99, 99, 99, 99, 99, 99, 99, 99, 99, 99, 99, 99, 99, 99]

/-- The variables of `decode_base64`. -/
structure DecodeState where
  out : Region UInt8
  decodeSize : Nat
  quadPosition : Nat

/-- `*p |= x` for cell `i`. -/
def orStore (r : Region UInt8) (i : Nat) (x : UInt8) : Option (Region UInt8) := do
  let old ← r.get i
  r.store i [some (old ||| x)]

/-- The `switch` on `quad_position` and the assignment behind it. -/
def decodeLetter (s : DecodeState) (value : UInt8) : Option DecodeState := do
  let quad := (s.quadPosition + 1) % 4
  match s.quadPosition with
  | 0 =>
      let out ← s.out.store s.decodeSize [some (value <<< 2)]
      some ⟨out, s.decodeSize, quad⟩
  | 1 =>
      let out ← orStore s.out s.decodeSize (value >>> 4)
      let out ← out.store (s.decodeSize + 1) [some ((value &&& 15) <<< 4)]
      some ⟨out, s.decodeSize + 1, quad⟩
  | 2 =>
      let out ← orStore s.out s.decodeSize (value >>> 2)
      let out ← out.store (s.decodeSize + 1) [some ((value &&& 3) <<< 6)]
      some ⟨out, s.decodeSize + 1, quad⟩
  | 3 =>
      let out ← orStore s.out s.decodeSize value
      some ⟨out, s.decodeSize + 1, quad⟩
  | _ => some { s with quadPosition := quad }

/-- The endless loop; `cstr` is the memory from the pointer on, and the loop
faults where that memory ends. -/
def decodeLoop : Region UInt8 → DecodeState → Option (Region UInt8 × Nat)
  | [], _ => none
  | cell :: cstr, s => do
      let c ← cell
      let value ← base642Bin[c.toNat]?
      if value = 96 then some (s.out, s.decodeSize)
      else if value = 97 then
        if s.quadPosition = 3 then some (s.out, s.decodeSize)
        else if s.quadPosition = 2 then do
          let next ← Region.get cstr 0
          if next = padChar then some (s.out, s.decodeSize) else decodeLoop cstr s
        else decodeLoop cstr s
      else if value = 98 ∨ value = 99 then decodeLoop cstr s
      else do
        let s ← decodeLetter s value
        decodeLoop cstr s

/-- `decode_base64`: the memory behind `dst` and the result. The texts that an
`int` can measure are too short for `decode_size` to overflow. -/
def decodeBase64 (dst src : Region UInt8) (_len : Int) : Option (Region UInt8 × Nat) :=
  decodeLoop src ⟨dst, 0, 0⟩

/-! ### The table -/

theorem base642Bin_letter {v : Nat} (h : v < 64) :
    base642Bin[(letter v).toNat]? = some (.ofNat v) := by
  have hall : ∀ v : Fin 64, base642Bin[(letter v).toNat]? = some (.ofNat v) := by decide +kernel
  exact hall ⟨v, h⟩

set_option maxRecDepth 4096 in
/-- What the loop finds under a character. -/
theorem base642Bin_cases (c : UInt8) :
    (c = 0 ∧ base642Bin[c.toNat]? = some 96) ∨ (c = padChar ∧ base642Bin[c.toNat]? = some 97) ∨
      (∃ v < 64, c = letter v ∧ base642Bin[c.toNat]? = some (.ofNat v)) ∨
      (c ≠ 0 ∧ c ≠ padChar ∧ isLetter c = false ∧
        (base642Bin[c.toNat]? = some 98 ∨ base642Bin[c.toNat]? = some 99)) := by
  have hother : ∀ p ∈ base642Bin.zipIdx, isLetter (.ofNat p.2) = false →
      p = (96, 0) ∨ p = (97, padChar.toNat) ∨
        p.2 ≠ 0 ∧ p.2 ≠ padChar.toNat ∧ (p.1 = 98 ∨ p.1 = 99) := forall_mem_of_all (by decide)
  cases hletter : isLetter c with
  | true =>
      obtain ⟨v, hv, rfl⟩ := exists_letter hletter
      exact .inr (.inr (.inl ⟨v, hv, rfl, base642Bin_letter hv⟩))
  | false =>
      have hlen : c.toNat < base642Bin.length := c.toNat_lt
      obtain ⟨value, hvalue⟩ : ∃ value, base642Bin[c.toNat]? = some value :=
        ⟨_, List.getElem?_eq_getElem hlen⟩
      have hmem : (value, c.toNat) ∈ base642Bin.zipIdx := List.mem_zipIdx_iff_getElem?.mpr hvalue
      rw [hvalue]
      rcases hother _ hmem (by rwa [UInt8.ofNat_toNat]) with h | h | ⟨hzero, hpad, h⟩
      · obtain ⟨rfl, hc⟩ := Prod.mk.inj h
        exact .inl ⟨UInt8.toNat_inj.mp hc, rfl⟩
      · obtain ⟨rfl, hc⟩ := Prod.mk.inj h
        exact .inr (.inl ⟨UInt8.toNat_inj.mp hc, rfl⟩)
      · have hne : c ≠ 0 ∧ c ≠ padChar := ⟨fun hc => hzero (congrArg UInt8.toNat hc),
          fun hc => hpad (congrArg UInt8.toNat hc)⟩
        exact .inr (.inr (.inr ⟨hne.1, hne.2, rfl, h.imp (congrArg some) (congrArg some)⟩))

theorem decodeLoop_zero (cstr : Region UInt8) (s : DecodeState) :
    decodeLoop (some 0 :: cstr) s = some (s.out, s.decodeSize) := rfl

theorem decodeLoop_pad (cstr : Region UInt8) (s : DecodeState) :
    decodeLoop (some padChar :: cstr) s =
      if s.quadPosition = 3 then some (s.out, s.decodeSize)
      else if s.quadPosition = 2 then
        (Region.get cstr 0).bind fun next =>
          if next = padChar then some (s.out, s.decodeSize) else decodeLoop cstr s
      else decodeLoop cstr s := rfl

theorem decodeLoop_other {c : UInt8} (hzero : c ≠ 0) (hpad : c ≠ padChar) (hletter : isLetter c = false)
    (cstr : Region UInt8) (s : DecodeState) : decodeLoop (some c :: cstr) s = decodeLoop cstr s := by
  rcases base642Bin_cases c with ⟨h, -⟩ | ⟨h, -⟩ | ⟨v, hv, rfl, -⟩ | ⟨-, -, -, h | h⟩
  · exact absurd h hzero
  · exact absurd h hpad
  · rw [isLetter_letter hv] at hletter
    contradiction
  · simp [decodeLoop, h]
  · simp [decodeLoop, h]

theorem decodeLoop_letter {v : Nat} (hv : v < 64) (cstr : Region UInt8) (s : DecodeState) :
    decodeLoop (some (letter v) :: cstr) s = (decodeLetter s (.ofNat v)).bind (decodeLoop cstr) := by
  have hall : ∀ v : Fin 64, UInt8.ofNat v ≠ 96 ∧ UInt8.ofNat v ≠ 97 ∧ UInt8.ofNat v ≠ 98 ∧
      UInt8.ofNat v ≠ 99 := by decide
  obtain ⟨hend, hpad, hbreak, hother⟩ := hall ⟨v, hv⟩
  simp [decodeLoop, base642Bin_letter hv, hend, hpad, hbreak, hother]

/-! ### One digit -/

/-- The parts of a digit that go into one byte and the next. -/
theorem parts_of_digit {v : Nat} (hv : v < 64) :
    UInt8.ofNat v <<< 2 = .ofNat (v * 4) ∧ UInt8.ofNat v >>> 4 = .ofNat (v / 16) ∧
      (UInt8.ofNat v &&& 15) <<< 4 = .ofNat (v % 16 * 16) ∧ UInt8.ofNat v >>> 2 = .ofNat (v / 4) ∧
      (UInt8.ofNat v &&& 3) <<< 6 = .ofNat (v % 4 * 64) := by
  have hval : (UInt8.ofNat v).toNat = v := toNat_byte (by omega)
  have hlow : (UInt8.ofNat v &&& 15).toNat = v % 16 :=
    (toNat_and_low _ (k := 4) (by decide)).trans (by omega)
  have hlowest : (UInt8.ofNat v &&& 3).toNat = v % 4 :=
    (toNat_and_low _ (k := 2) (by decide)).trans (by omega)
  refine ⟨?_, ?_, ?_, ?_, ?_⟩ <;> apply UInt8.toNat_inj.mp
  · rw [toNat_byte (by omega)]
    exact (toNat_shiftLeft (k := 2) (by decide) (by omega)).trans (by omega)
  · rw [toNat_byte (by omega)]
    exact (toNat_shiftRight _ (k := 4) (by decide)).trans (by omega)
  · rw [toNat_byte (by omega)]
    exact (toNat_shiftLeft (k := 4) (by decide) (by omega)).trans (by omega)
  · rw [toNat_byte (by omega)]
    exact (toNat_shiftRight _ (k := 2) (by decide)).trans (by omega)
  · rw [toNat_byte (by omega)]
    exact (toNat_shiftLeft (k := 6) (by decide) (by omega)).trans (by omega)

theorem or_ofNat {m b : Nat} (k : Nat) (hm : m % 2 ^ k = 0) (hb : b < 2 ^ k) :
    UInt8.ofNat m ||| UInt8.ofNat b = .ofNat (m + b) := by
  obtain ⟨a, rfl⟩ := Nat.dvd_of_mod_eq_zero hm
  apply UInt8.toNat_inj.mp
  rw [UInt8.toNat_or, UInt8.toNat_ofNat', UInt8.toNat_ofNat', UInt8.toNat_ofNat',
    Nat.two_pow_add_eq_or_of_lt hb, Nat.or_mod_two_pow]

/-- What a step may change in the memory: nothing from cell `k` on, nor the number of cells. -/
def KeepsFrom (k : Nat) (out out' : Region UInt8) : Prop :=
  out'.length = out.length ∧ ∀ m, k ≤ m → out'.drop m = out.drop m

theorem KeepsFrom.refl (k : Nat) (out : Region UInt8) : KeepsFrom k out out := ⟨rfl, fun _ _ => rfl⟩

theorem KeepsFrom.trans {k : Nat} {out mid out' : Region UInt8} (h : KeepsFrom k out mid)
    (h' : KeepsFrom k mid out') : KeepsFrom k out out' :=
  ⟨h'.1.trans h.1, fun m hm => (h'.2 m hm).trans (h.2 m hm)⟩

theorem KeepsFrom.mono {k m : Nat} {out out' : Region UInt8} (h : KeepsFrom k out out') (hkm : k ≤ m) :
    KeepsFrom m out out' := ⟨h.1, fun i hi => h.2 i (by omega)⟩

theorem keepsFrom_store {out out' : Region UInt8} {i k : Nat} {x : UInt8}
    (h : out.store i [some x] = some out') (hk : i + 1 ≤ k) : KeepsFrom k out out' :=
  ⟨Region.store_length h, fun _ hm => Region.store_drop h (Nat.le_trans hk hm)⟩

theorem orStore_eq {out : Region UInt8} {front : Bytes} {old : UInt8}
    (hout : out.Begins (front ++ [old])) (x : UInt8) :
    ∃ out', orStore out front.length x = some out' ∧ out'.Begins (front ++ [old ||| x]) ∧
      KeepsFrom (front.length + 1) out out' := by
  have hroom := hout.length_le
  rw [List.length_append, List.length_singleton] at hroom
  obtain ⟨out', hstore, -, hbegins⟩ := hout.overwrite [old ||| x] hroom
  refine ⟨out', ?_, hbegins, keepsFrom_store hstore (Nat.le_refl _)⟩
  rw [orStore, hout.get]
  exact hstore

/-- The open byte is completed and the next one begun. -/
theorem orStore_store {out : Region UInt8} {front : Bytes} {old : UInt8}
    (hout : out.Begins (front ++ [old])) (x y : UInt8) (room : front.length + 2 ≤ out.length) :
    ∃ mid out', orStore out front.length x = some mid ∧
      mid.store (front.length + 1) [some y] = some out' ∧ out'.Begins (front ++ [old ||| x, y]) ∧
      KeepsFrom (front.length + 2) out out' := by
  obtain ⟨mid, hor, hmid, hkept⟩ := orStore_eq hout x
  obtain ⟨out', hstore, -, hbegins⟩ := hmid.store [y]
    (by rw [List.length_append, List.length_singleton, List.length_singleton, hkept.1]; exact room)
  rw [List.length_append, List.length_singleton] at hstore
  rw [List.append_assoc] at hbegins
  exact ⟨mid, out', hor, hstore, hbegins,
    (hkept.mono (by omega)).trans (keepsFrom_store hstore (Nat.le_refl _))⟩

section Letter

variable {out : Region UInt8} {front : Bytes} {v : Nat}

theorem decodeLetter_first (hout : out.Begins front) (hv : v < 64)
    (room : front.length + 1 ≤ out.length) :
    ∃ out', decodeLetter ⟨out, front.length, 0⟩ (.ofNat v) = some ⟨out', front.length, 1⟩ ∧
      out'.Begins (front ++ [.ofNat (v * 4)]) ∧ KeepsFrom (front.length + 1) out out' := by
  obtain ⟨hshift, -⟩ := parts_of_digit hv
  obtain ⟨out', hstore, -, hbegins⟩ := hout.store [UInt8.ofNat v <<< 2] room
  refine ⟨out', ?_, hshift ▸ hbegins, keepsFrom_store hstore (Nat.le_refl _)⟩
  change (out.store front.length [some (UInt8.ofNat v <<< 2)]).bind _ = _
  rw [show out.store front.length [some (UInt8.ofNat v <<< 2)] = some out' from hstore]
  rfl

theorem decodeLetter_second {a : Nat} (hout : out.Begins (front ++ [.ofNat (a * 4)])) (hv : v < 64)
    (room : front.length + 2 ≤ out.length) :
    ∃ out', decodeLetter ⟨out, front.length, 1⟩ (.ofNat v) = some ⟨out', front.length + 1, 2⟩ ∧
      out'.Begins (front ++ [.ofNat (a * 4 + v / 16), .ofNat (v % 16 * 16)]) ∧
      KeepsFrom (front.length + 2) out out' := by
  obtain ⟨-, hhigh, hlow, -⟩ := parts_of_digit hv
  obtain ⟨mid, out', hor, hstore, hbegins, hkept⟩ := orStore_store hout (UInt8.ofNat v >>> 4)
    ((UInt8.ofNat v &&& 15) <<< 4) room
  refine ⟨out', ?_, ?_, hkept⟩
  · simp only [decodeLetter, hor, hstore, Option.bind_eq_bind, Option.bind_some]
  · rwa [hhigh, hlow, or_ofNat 2 (show a * 4 % 2 ^ 2 = 0 by omega) (show v / 16 < 2 ^ 2 by omega)] at hbegins

theorem decodeLetter_third {b : Nat} (hout : out.Begins (front ++ [.ofNat (b % 16 * 16)])) (hv : v < 64)
    (room : front.length + 2 ≤ out.length) :
    ∃ out', decodeLetter ⟨out, front.length, 2⟩ (.ofNat v) = some ⟨out', front.length + 1, 3⟩ ∧
      out'.Begins (front ++ [.ofNat (b % 16 * 16 + v / 4), .ofNat (v % 4 * 64)]) ∧
      KeepsFrom (front.length + 2) out out' := by
  obtain ⟨-, -, -, hhigh, hlow⟩ := parts_of_digit hv
  obtain ⟨mid, out', hor, hstore, hbegins, hkept⟩ := orStore_store hout (UInt8.ofNat v >>> 2)
    ((UInt8.ofNat v &&& 3) <<< 6) room
  refine ⟨out', ?_, ?_, hkept⟩
  · simp only [decodeLetter, hor, hstore, Option.bind_eq_bind, Option.bind_some]
  · rwa [hhigh, hlow, or_ofNat 4 (show b % 16 * 16 % 2 ^ 4 = 0 by omega)
      (show v / 4 < 2 ^ 4 by omega)] at hbegins

theorem decodeLetter_fourth {c : Nat} (hout : out.Begins (front ++ [.ofNat (c % 4 * 64)])) (hv : v < 64) :
    ∃ out', decodeLetter ⟨out, front.length, 3⟩ (.ofNat v) = some ⟨out', front.length + 1, 0⟩ ∧
      out'.Begins (front ++ [.ofNat (c % 4 * 64 + v)]) ∧ KeepsFrom (front.length + 1) out out' := by
  obtain ⟨out', hor, hbegins, hkept⟩ := orStore_eq hout (UInt8.ofNat v)
  refine ⟨out', ?_, ?_, hkept⟩
  · simp only [decodeLetter, hor, Option.bind_eq_bind, Option.bind_some]
  · rwa [or_ofNat 6 (show c % 4 * 64 % 2 ^ 6 = 0 by omega) (show v < 2 ^ 6 by omega)] at hbegins

end Letter

/-- The memory holds what the digits so far stand for. -/
structure DecodeState.Holds (s : DecodeState) (r : Reader) : Prop where
  out : s.out.Begins r.bytes
  size : s.decodeSize = r.size
  quad : s.quadPosition = r.group.length

theorem DecodeState.Holds.decodeLetter {s : DecodeState} {r : Reader} (h : s.Holds r) (hopen : r.Open)
    {v : Nat} (hv : v < 64) (room : (r.push v).bytes.length ≤ s.out.length) :
    ∃ s', decodeLetter s (.ofNat v) = some s' ∧ s'.Holds (r.push v) ∧
      KeepsFrom (r.push v).bytes.length s.out s'.out := by
  obtain ⟨out, decodeSize, quadPosition⟩ := s
  obtain ⟨whole, group⟩ := r
  obtain ⟨hout, hsize, hquad⟩ := h
  rcases hopen.cases with hg | ⟨a, hg⟩ | ⟨a, b, hg⟩ | ⟨a, b, c, hg⟩
  all_goals
    dsimp only at hg hout hsize hquad room ⊢
    subst hg hquad
    simp only [Reader.bytes, Reader.opened, Reader.size, Reader.push, List.length_append,
      List.length_cons, List.length_nil, List.append_nil, List.nil_append, List.cons_append] at hout hsize room
  · obtain rfl : decodeSize = whole.length := by omega
    obtain ⟨out', hrun, hbegins, hkept⟩ := decodeLetter_first hout hv room
    refine ⟨_, hrun, ⟨hbegins, ?_, rfl⟩, ?_⟩
    · simp [Reader.push, Reader.size]
    · simpa [Reader.push, Reader.bytes, Reader.opened] using hkept
  · obtain rfl : decodeSize = whole.length := by omega
    obtain ⟨out', hrun, hbegins, hkept⟩ := decodeLetter_second hout hv room
    refine ⟨_, hrun, ⟨hbegins, ?_, rfl⟩, ?_⟩
    · simp [Reader.push, Reader.size]
    · simpa [Reader.push, Reader.bytes, Reader.opened] using hkept
  · obtain rfl : decodeSize = (whole ++ [UInt8.ofNat (a * 4 + b / 16)]).length := by
      rw [List.length_append, List.length_singleton]
      omega
    rw [List.append_cons] at hout
    obtain ⟨out', hrun, hbegins, hkept⟩ := decodeLetter_third hout hv
      (by rw [List.length_append, List.length_singleton]; omega)
    rw [List.append_assoc] at hbegins
    refine ⟨_, hrun, ⟨hbegins, ?_, rfl⟩, ?_⟩
    · simp [Reader.push, Reader.size]
    · simpa [Reader.push, Reader.bytes, Reader.opened] using hkept
  · obtain rfl : decodeSize = (whole ++ [UInt8.ofNat (a * 4 + b / 16),
        UInt8.ofNat (b % 16 * 16 + c / 4)]).length := by
      rw [List.length_append, List.length_cons, List.length_singleton]
      omega
    have hout' : out.Begins ((whole ++ [UInt8.ofNat (a * 4 + b / 16),
        UInt8.ofNat (b % 16 * 16 + c / 4)]) ++ [UInt8.ofNat (c % 4 * 64)]) := by
      rw [List.append_assoc]
      exact hout
    obtain ⟨out', hrun, hbegins, hkept⟩ := decodeLetter_fourth hout' hv
    rw [List.append_assoc] at hbegins
    refine ⟨_, hrun, ⟨?_, ?_, rfl⟩, ?_⟩
    · simpa [Reader.push, Reader.bytes, Reader.opened] using hbegins
    · simp [Reader.push, Reader.size]
    · simpa [Reader.push, Reader.bytes, Reader.opened] using hkept

/-! ### Decoding -/

/-- Letters are read one by one, and what stands between them is skipped. -/
theorem decodeLoop_run {t : Bytes} (hplain : ∀ c ∈ t, c ≠ 0 ∧ c ≠ padChar) {vs : List Nat}
    (hvs : ∀ v ∈ vs, v < 64) (hletters : t.filter isLetter = vs.map letter) {s : DecodeState}
    {r : Reader} {n : Nat} (h : s.Holds r) (hfits : r.Fits n)
    (room : (3 * (n + vs.length) + 3) / 4 ≤ s.out.length) :
    ∃ s', (∀ rest, decodeLoop (t.map some ++ rest) s = decodeLoop rest s') ∧
      s'.Holds (vs.foldl Reader.push r) ∧ KeepsFrom ((3 * (n + vs.length) + 3) / 4) s.out s'.out := by
  induction t generalizing vs s r n with
  | nil =>
      obtain rfl : vs = [] := by simpa using hletters.symm
      exact ⟨s, fun _ => rfl, h, .refl _ _⟩
  | cons c t ih =>
      have hrest : ∀ c ∈ t, c ≠ 0 ∧ c ≠ padChar := fun x hx => hplain x (List.mem_cons_of_mem c hx)
      by_cases hc : isLetter c = true
      · rw [List.filter_cons_of_pos hc] at hletters
        cases vs with
        | nil => contradiction
        | cons v vs =>
            rw [List.map_cons, List.cons.injEq] at hletters
            obtain ⟨rfl, htail⟩ := hletters
            have hpush := hfits.push v
            have hlen := hpush.bytes_length
            rw [List.length_cons] at room ⊢
            obtain ⟨mid, hmid, hholds, hkept⟩ := h.decodeLetter hfits.isOpen
              (hvs v List.mem_cons_self) (by omega)
            obtain ⟨s', hrun, hholds', hkept'⟩ := ih hrest
              (fun x hx => hvs x (List.mem_cons_of_mem v hx)) htail hholds hpush
              (by rw [hkept.1]; omega)
            refine ⟨s', fun rest => ?_, hholds', ?_⟩
            · rw [List.map_cons, List.cons_append, decodeLoop_letter (hvs v List.mem_cons_self), hmid]
              exact hrun rest
            · rw [Nat.add_right_comm] at hkept'
              exact (hkept.mono (by omega)).trans (hkept'.mono (by omega))
      · obtain ⟨hzero, hpad⟩ := hplain c List.mem_cons_self
        rw [List.filter_cons_of_neg hc] at hletters
        obtain ⟨s', hrun, hholds, hkept⟩ := ih hrest hvs hletters h hfits room
        refine ⟨s', fun rest => ?_, hholds, hkept⟩
        rw [List.map_cons, List.cons_append, decodeLoop_other hzero hpad (by simpa using hc)]
        exact hrun rest

/-- Without letters the rest of the text changes nothing, whether a pad character ends the loop or
the terminator does. -/
theorem decodeLoop_end {t : Bytes} (h : ∀ c ∈ t, c ≠ 0 ∧ isLetter c = false) (more : Region UInt8)
    (s : DecodeState) : decodeLoop ((t ++ [0]).map some ++ more) s = some (s.out, s.decodeSize) := by
  induction t with
  | nil => exact decodeLoop_zero more s
  | cons c t ih =>
      have hrest := ih fun x hx => h x (List.mem_cons_of_mem c hx)
      obtain ⟨hzero, hletter⟩ := h c List.mem_cons_self
      rw [List.cons_append, List.map_cons, List.cons_append]
      by_cases hpad : c = padChar
      · obtain ⟨d, hd⟩ : ∃ d, Region.get ((t ++ [0]).map some ++ more) 0 = some d := by
          cases t with
          | nil => exact ⟨0, rfl⟩
          | cons d t => exact ⟨d, rfl⟩
        rw [hpad, decodeLoop_pad, hd, hrest]
        simp
      · rw [decodeLoop_other hzero hpad hletter, hrest]

/-! ### Texts with other characters in between -/

/-- A letter or a pad character. -/
def isCode (c : UInt8) : Bool := isLetter c || c == padChar

/-- `t` is made from `code` by inserting characters that are neither letters nor pad characters. -/
def MadeFrom (t code : Bytes) : Prop := t.filter isCode = code

theorem isLetter_padChar : isLetter padChar = false := by decide

theorem isLetter_of_mem_letters {bs : Bytes} : ∀ c ∈ letters bs, isLetter c = true := by
  intro c hc
  obtain ⟨v, hv, rfl⟩ := List.mem_map.mp hc
  exact isLetter_letter (digits_lt bs v hv)

/-- The text up to its first pad character has all the letters. -/
theorem MadeFrom.split {t ls : Bytes} {k : Nat} (h : MadeFrom t (ls ++ List.replicate k padChar))
    (hls : ∀ c ∈ ls, isLetter c = true) :
    (t.takeWhile (· ≠ padChar)).filter isLetter = ls ∧
      ∀ c ∈ t.dropWhile (· ≠ padChar), isLetter c = false := by
  unfold MadeFrom at h
  induction t generalizing ls with
  | nil =>
      have hnil := List.append_eq_nil_iff.mp h.symm
      exact ⟨hnil.1.symm, fun c hc => absurd hc List.not_mem_nil⟩
  | cons c t ih =>
      by_cases hpad : c = padChar
      · cases ls with
        | nil =>
            -- from here on every character that is kept is a pad character
            rw [List.takeWhile_cons_of_neg (by simp [hpad]), List.dropWhile_cons_of_neg (by simp [hpad])]
            refine ⟨rfl, fun d hd => ?_⟩
            by_contra hletter
            have hmem : d ∈ (c :: t).filter isCode :=
              List.mem_filter.mpr ⟨hd, by simp [isCode, Bool.not_eq_false _ ▸ hletter]⟩
            rw [h, List.nil_append] at hmem
            rw [List.eq_of_mem_replicate hmem] at hletter
            exact hletter isLetter_padChar
        | cons l ls =>
            rw [List.filter_cons_of_pos (by simp [isCode, hpad]), List.cons_append, List.cons.injEq] at h
            have hl := hls l List.mem_cons_self
            rw [← h.1, hpad] at hl
            exact absurd hl (by decide)
      · rw [List.takeWhile_cons_of_pos (by simpa using hpad), List.dropWhile_cons_of_pos (by simpa using hpad)]
        by_cases hc : isLetter c = true
        · rw [List.filter_cons_of_pos (by simp [isCode, hc])] at h
          cases ls with
          | nil =>
              have hmem : c ∈ List.replicate k padChar := by
                rw [List.nil_append] at h
                rw [← h]
                exact List.mem_cons_self
              exact absurd (List.eq_of_mem_replicate hmem) hpad
          | cons l ls =>
              rw [List.cons_append, List.cons.injEq] at h
              obtain ⟨rfl, htail⟩ := h
              obtain ⟨hfront, hbehind⟩ := ih htail fun x hx => hls x (List.mem_cons_of_mem c hx)
              rw [List.filter_cons_of_pos hc, hfront]
              exact ⟨rfl, hbehind⟩
        · rw [List.filter_cons_of_neg (by simp [isCode, hc, hpad])] at h
          rw [List.filter_cons_of_neg hc]
          exact ih h hls

/-- The loop ends at `c` when `n` letters stand in front: `c` is the terminator, or a pad character
that follows three letters of a group, or two of them and has another pad character behind it. -/
def EndsAt (n : Nat) (c : UInt8) (behind : Bytes) : Prop :=
  c = 0 ∨ c = padChar ∧ (n % 4 = 3 ∨ n % 4 = 2 ∧ behind.head? = some padChar)

/-- The loop ends within `bs` when it comes there with `n` letters. -/
def Terminated (n : Nat) (bs : Bytes) : Prop :=
  ∃ front c behind, bs = front ++ c :: behind ∧ EndsAt (n + front.countP isLetter) c behind

theorem not_terminated_nil (n : Nat) : ¬ Terminated n [] := by
  rintro ⟨front, c, behind, h, -⟩
  exact absurd h.symm (List.append_ne_nil_of_right_ne_nil front (List.cons_ne_nil c behind))

theorem terminated_cons (n : Nat) (c : UInt8) (bs : Bytes) :
    Terminated n (c :: bs) ↔ EndsAt n c bs ∨ Terminated (n + [c].countP isLetter) bs := by
  constructor
  · rintro ⟨front, d, behind, h, hends⟩
    cases front with
    | nil =>
        rw [List.nil_append, List.cons.injEq] at h
        obtain ⟨rfl, rfl⟩ := h
        exact .inl hends
    | cons e front =>
        rw [List.cons_append, List.cons.injEq] at h
        obtain ⟨rfl, rfl⟩ := h
        rw [← List.singleton_append, List.countP_append, ← Nat.add_assoc] at hends
        exact .inr ⟨front, d, behind, rfl, hends⟩
  · rintro (hends | ⟨front, d, behind, rfl, hends⟩)
    · exact ⟨[], c, bs, rfl, hends⟩
    · refine ⟨c :: front, d, behind, rfl, ?_⟩
      rwa [← List.singleton_append, List.countP_append, ← Nat.add_assoc]

theorem terminated_other {n : Nat} {c : UInt8} (hzero : c ≠ 0) (hpad : c ≠ padChar) (bs : Bytes) :
    Terminated n (c :: bs) ↔ Terminated (n + [c].countP isLetter) bs := by
  rw [terminated_cons]
  exact or_iff_right fun h => h.elim hzero fun h => hpad h.1

theorem letter_ne {v : Nat} (hv : v < 64) : letter v ≠ 0 ∧ letter v ≠ padChar := by
  have hall : ∀ v : Fin 64, letter v ≠ 0 ∧ letter v ≠ padChar := by decide
  exact hall ⟨v, hv⟩

section Pad

variable {s : DecodeState} {n : Nat} {bs : Bytes}

theorem decodeLoop_pad_ends (hquad : s.quadPosition = n % 4) (h : EndsAt n padChar bs)
    (rest : Region UInt8) :
    decodeLoop (some padChar :: (bs.map some ++ rest)) s = some (s.out, s.decodeSize) := by
  rw [decodeLoop_pad, hquad]
  rcases h with hzero | ⟨-, hthree | ⟨htwo, hhead⟩⟩
  · exact absurd hzero (by decide)
  · exact if_pos hthree
  · obtain ⟨more, rfl⟩ := List.head?_eq_some_iff.mp hhead
    rw [if_neg (by omega), if_pos htwo]
    rfl

theorem decodeLoop_pad_skips (hquad : s.quadPosition = n % 4) (h : ¬ EndsAt n padChar bs) (hbs : bs ≠ [])
    (rest : Region UInt8) :
    decodeLoop (some padChar :: (bs.map some ++ rest)) s = decodeLoop (bs.map some ++ rest) s := by
  have hthree : n % 4 ≠ 3 := fun hthree => h (.inr ⟨rfl, .inl hthree⟩)
  rw [decodeLoop_pad, hquad, if_neg hthree]
  by_cases htwo : n % 4 = 2
  · cases bs with
    | nil => contradiction
    | cons d bs =>
        have hd : d ≠ padChar := fun hd => h (.inr ⟨rfl, .inr ⟨htwo, congrArg some hd⟩⟩)
        rw [if_pos htwo]
        exact if_neg hd
  · exact if_neg htwo

end Pad

/-- Where the loop ends within `bs`, what stands behind `bs` is not read. -/
theorem decodeLoop_terminated {bs : Bytes} {s : DecodeState} {r : Reader} {n : Nat} (h : s.Holds r)
    (hfits : r.Fits n) (hend : Terminated n bs)
    (room : (3 * (n + bs.countP isLetter) + 3) / 4 ≤ s.out.length) :
    ∃ out, ∀ rest, decodeLoop (bs.map some ++ rest) s = some out := by
  induction bs generalizing s r n with
  | nil => exact absurd hend (not_terminated_nil n)
  | cons c bs ih =>
      have hquad : s.quadPosition = n % 4 := h.quad.trans hfits.group
      rw [← List.singleton_append, List.countP_append] at room
      rcases base642Bin_cases c with ⟨rfl, -⟩ | ⟨rfl, -⟩ | ⟨v, hv, rfl, -⟩ | ⟨hzero, hpad, hletter, -⟩
      · exact ⟨_, fun rest => decodeLoop_zero _ s⟩
      · have hcount : [padChar].countP isLetter = 0 := by decide
        rw [hcount, Nat.zero_add] at room
        rw [terminated_cons, hcount, Nat.add_zero] at hend
        by_cases hends : EndsAt n padChar bs
        · exact ⟨_, fun rest => decodeLoop_pad_ends hquad hends rest⟩
        · have hrest := hend.resolve_left hends
          have hbs : bs ≠ [] := fun hnil => not_terminated_nil n (hnil ▸ hrest)
          obtain ⟨out, hout⟩ := ih h hfits hrest room
          exact ⟨out, fun rest => (decodeLoop_pad_skips hquad hends hbs rest).trans (hout rest)⟩
      · have hcount : [letter v].countP isLetter = 1 := by simp [isLetter_letter hv]
        rw [hcount, ← Nat.add_assoc] at room
        rw [terminated_other (letter_ne hv).1 (letter_ne hv).2, hcount] at hend
        have hpush := hfits.push v
        have hlen := hpush.bytes_length
        obtain ⟨mid, hmid, hholds, hkept⟩ := h.decodeLetter hfits.isOpen hv (by omega)
        obtain ⟨out, hout⟩ := ih hholds hpush hend (by rw [hkept.1]; exact room)
        refine ⟨out, fun rest => ?_⟩
        rw [List.map_cons, List.cons_append, decodeLoop_letter hv, hmid]
        exact hout rest
      · have hcount : [c].countP isLetter = 0 := by simp [hletter]
        rw [hcount, Nat.zero_add] at room
        rw [terminated_other hzero hpad, hcount, Nat.add_zero] at hend
        obtain ⟨out, hout⟩ := ih h hfits hend room
        refine ⟨out, fun rest => ?_⟩
        rw [List.map_cons, List.cons_append, decodeLoop_other hzero hpad hletter]
        exact hout rest

theorem decodeLetter_quad {s s' : DecodeState} {value : UInt8} (h : decodeLetter s value = some s') :
    s'.quadPosition = (s.quadPosition + 1) % 4 := by
  unfold decodeLetter at h
  split at h
  all_goals simp only [Option.bind_eq_bind, Option.bind_eq_some_iff, Option.some.injEq] at h
  · obtain ⟨out, -, rfl⟩ := h
    rfl
  · obtain ⟨mid, -, out, -, rfl⟩ := h
    rfl
  · obtain ⟨mid, -, out, -, rfl⟩ := h
    rfl
  · obtain ⟨out, -, rfl⟩ := h
    rfl
  · rw [← h]

/-- A loop that has only `bs` to read and does not leave it ends within `bs`. -/
theorem terminated_of_decodeLoop {bs : Bytes} {s : DecodeState} {out : Region UInt8 × Nat} {n : Nat}
    (hquad : s.quadPosition = n % 4) (h : decodeLoop (bs.map some) s = some out) : Terminated n bs := by
  induction bs generalizing s n with
  | nil => contradiction
  | cons c bs ih =>
      rw [List.map_cons] at h
      rcases base642Bin_cases c with ⟨rfl, -⟩ | ⟨rfl, -⟩ | ⟨v, hv, rfl, -⟩ | ⟨hzero, hpad, hletter, -⟩
      · exact (terminated_cons n 0 bs).mpr (.inl (.inl rfl))
      · rw [terminated_cons, show [padChar].countP isLetter = 0 by decide, Nat.add_zero]
        rw [decodeLoop_pad, hquad] at h
        split at h
        next hthree => exact .inl (.inr ⟨rfl, .inl hthree⟩)
        next =>
          split at h
          next htwo =>
            obtain ⟨next, hnext, h⟩ := Option.bind_eq_some_iff.mp h
            split at h
            next hpad =>
              refine .inl (.inr ⟨rfl, .inr ⟨htwo, ?_⟩⟩)
              cases bs with
              | nil => contradiction
              | cons d bs =>
                  rw [← hpad, ← hnext]
                  rfl
            next => exact .inr (ih hquad h)
          next => exact .inr (ih hquad h)
      · rw [decodeLoop_letter hv] at h
        obtain ⟨mid, hmid, h⟩ := Option.bind_eq_some_iff.mp h
        rw [terminated_other (letter_ne hv).1 (letter_ne hv).2,
          show [letter v].countP isLetter = 1 by simp [isLetter_letter hv]]
        refine ih ?_ h
        rw [decodeLetter_quad hmid, hquad]
        omega
      · rw [terminated_other hzero hpad, show [c].countP isLetter = 0 by simp [hletter], Nat.add_zero]
        rw [decodeLoop_other hzero hpad hletter] at h
        exact ih hquad h

/-- `len` is never looked at: its bytes decide the call exactly where they end the loop themselves. -/
theorem decodeBase64_within_iff {src dst : Region UInt8} {bs : Bytes} {len : Int}
    (hsrc : src.take len.toNat = bs.map some) (room : (3 * bs.countP isLetter + 3) / 4 ≤ dst.length) :
    (∃ out, ∀ src', src'.take len.toNat = src.take len.toNat → decodeBase64 dst src' len = some out) ↔
      Terminated 0 bs := by
  constructor
  · rintro ⟨out, hout⟩
    have hshort : (bs.map some).length ≤ len.toNat := by
      rw [← hsrc, List.length_take]
      omega
    exact terminated_of_decodeLoop rfl (hout (bs.map some) (by rw [List.take_of_length_le hshort, hsrc]))
  · intro hend
    have hstart : DecodeState.Holds ⟨dst, 0, 0⟩ ⟨[], []⟩ := ⟨Region.begins_nil dst, rfl, rfl⟩
    obtain ⟨out, hout⟩ := decodeLoop_terminated hstart Reader.fits_nil hend (by rwa [Nat.zero_add])
    refine ⟨out, fun src' hsame => ?_⟩
    rw [decodeBase64, ← List.take_append_drop len.toNat src', hsame, hsrc]
    exact hout _

/-- The text of an array of two bytes in memory that ends behind it. -/
theorem decodeBase64_within_two : ∃ out, ∀ src',
    src'.take (4 : Int).toNat = (([84, 87, 69, 61] : Bytes).map some).take (4 : Int).toNat →
      decodeBase64 (Region.fresh 3) src' 4 = some out := by
  have hend : Terminated 0 [84, 87, 69, 61] :=
    ⟨[84, 87, 69], padChar, [], rfl, .inr ⟨rfl, .inl (by decide)⟩⟩
  exact (decodeBase64_within_iff (by rfl) (by decide)).mpr hend

/-- Four letters are a whole text, but the loop reads on: it fails where the memory ends, and takes
what follows for more of the text. -/
theorem decodeBase64_beyond :
    decodeBase64 (Region.fresh 6) (([81, 85, 74, 68] : Bytes).map some) 4 = none ∧
      (decodeBase64 (Region.fresh 6) (([81, 85, 74, 68, 0] : Bytes).map some) 4).map Prod.snd = some 3 ∧
      (decodeBase64 (Region.fresh 6) (([81, 85, 74, 68, 82, 69, 86, 71, 0] : Bytes).map some) 4).map
        Prod.snd = some 6 ∧
      ([81, 85, 74, 68] : Bytes) = text [65, 66, 67] := by
  refine ⟨rfl, rfl, rfl, ?_⟩
  decide

/-- The texts whose last group is padded end the loop themselves. -/
theorem terminated_text (bs : Bytes) : Terminated 0 (text bs) ↔ bs.length % 3 ≠ 0 := by
  have hlength := text_length bs
  have hcount : (letters bs).countP isLetter = (letters bs).length :=
    List.countP_eq_length.mpr isLetter_of_mem_letters
  rw [text, List.length_append] at hlength
  constructor
  · rintro ⟨front, c, behind, h, hends⟩ hwhole
    have hpadding : padding bs = [] := by rw [padding, hwhole]; rfl
    have hmem : c ∈ letters bs := by
      rw [← List.append_nil (letters bs), ← hpadding, ← text, h]
      exact List.mem_append_right front List.mem_cons_self
    have hletter := isLetter_of_mem_letters c hmem
    rcases hends with rfl | ⟨rfl, -⟩ <;> contradiction
  · intro hrest
    rcases (by omega : bs.length % 3 = 1 ∨ bs.length % 3 = 2) with hone | htwo
    · have hpadding : padding bs = [padChar, padChar] := by rw [padding, hone]; rfl
      rw [hpadding, List.length_cons, List.length_singleton] at hlength
      refine ⟨letters bs, padChar, [padChar], by rw [text, hpadding], .inr ⟨rfl, .inr ⟨?_, rfl⟩⟩⟩
      omega
    · have hpadding : padding bs = [padChar] := by rw [padding, htwo]; rfl
      rw [hpadding, List.length_singleton] at hlength
      refine ⟨letters bs, padChar, [], by rw [text, hpadding], .inr ⟨rfl, .inl ?_⟩⟩
      omega

end Tflib.Expert
