import Tflib.Expert.Md5Transform

/-! # Words and bytes

Turning the bytes of a word around before it is read makes the number that is read
the same in both orders: the one whose lowest byte stands first.
-/

namespace Tflib.Expert

open Tflib.Core

/-! ## Numbers -/

theorem toNat_shiftLeft_or_uint32 {a b s : UInt32} {k : Nat} (hs : s.toNat = k) (hk : k < 32)
    (ha : a.toNat * 2 ^ k < 2 ^ 32) (hb : b.toNat < 2 ^ k) :
    (a <<< s ||| b).toNat = a.toNat * 2 ^ k + b.toNat := by
  rw [UInt32.toNat_or, UInt32.toNat_shiftLeft, hs, Nat.mod_eq_of_lt hk, Nat.shiftLeft_eq, Nat.mod_eq_of_lt ha,
    Nat.mul_comm, Nat.two_pow_add_eq_or_of_lt hb]

/-- The word with these bytes, the highest first. -/
def four (a b c d : UInt8) : UInt32 :=
  a.toUInt32 <<< 24 ||| b.toUInt32 <<< 16 ||| c.toUInt32 <<< 8 ||| d.toUInt32

theorem toNat_four (a b c d : UInt8) :
    (four a b c d).toNat = a.toNat * 2 ^ 24 + (b.toNat * 2 ^ 16 + (c.toNat * 2 ^ 8 + d.toNat)) := by
  have ha := a.toNat_lt
  have hb := b.toNat_lt
  have hc := c.toNat_lt
  have hd := d.toNat_lt
  rw [four, UInt32.or_assoc, UInt32.or_assoc]
  have h₁ : (c.toUInt32 <<< 8 ||| d.toUInt32).toNat = c.toNat * 2 ^ 8 + d.toNat :=
    toNat_shiftLeft_or_uint32 rfl (by decide) (by rw [UInt8.toNat_toUInt32]; omega)
      (by rw [UInt8.toNat_toUInt32]; omega)
  have h₂ : (b.toUInt32 <<< 16 ||| (c.toUInt32 <<< 8 ||| d.toUInt32)).toNat =
      b.toNat * 2 ^ 16 + (c.toNat * 2 ^ 8 + d.toNat) := by
    rw [← h₁]
    exact toNat_shiftLeft_or_uint32 rfl (by decide) (by rw [UInt8.toNat_toUInt32]; omega) (by omega)
  rw [← h₂]
  exact toNat_shiftLeft_or_uint32 rfl (by decide) (by rw [UInt8.toNat_toUInt32]; omega) (by omega)

/-- The word that `byteReverse` makes. -/
theorem pairs_eq_four (a b c d : UInt8) :
    (a.toUInt32 <<< 8 ||| b.toUInt32) <<< 16 ||| (c.toUInt32 <<< 8 ||| d.toUInt32) = four a b c d := by
  have hpair : ∀ x y : UInt8, (x.toUInt32 <<< 8 ||| y.toUInt32).toNat = x.toNat * 2 ^ 8 + y.toNat :=
    fun x y => by
      have hx := x.toNat_lt
      have hy := y.toNat_lt
      exact toNat_shiftLeft_or_uint32 rfl (by decide) (by rw [UInt8.toNat_toUInt32]; omega)
        (by rw [UInt8.toNat_toUInt32]; omega)
  have ha := a.toNat_lt
  have hb := b.toNat_lt
  have hc := c.toNat_lt
  have hd := d.toNat_lt
  have hall := @toNat_shiftLeft_or_uint32 (a.toUInt32 <<< 8 ||| b.toUInt32)
    (c.toUInt32 <<< 8 ||| d.toUInt32) 16 16 rfl (by decide) (by rw [hpair]; omega) (by rw [hpair]; omega)
  apply UInt32.toNat_inj.mp
  rw [hall, hpair, hpair, toNat_four]
  omega

/-- Byte `k / 8` of a word, counted from the lowest. -/
theorem toNat_byte_of_word (x : UInt32) {s : UInt32} {k : Nat} (hs : s.toNat = k) (hk : k < 32) :
    (x >>> s).toUInt8.toNat = x.toNat / 2 ^ k % 2 ^ 8 := by
  rw [UInt32.toNat_toUInt8, UInt32.toNat_shiftRight, hs, Nat.mod_eq_of_lt hk, Nat.shiftRight_eq_div_pow]

theorem toUInt8_shiftRight_four {a b c d : UInt8} {s : UInt32} {k : Nat} (hs : s.toNat = k) (hk : k < 32)
    {x : UInt8} (hx : (a.toNat * 2 ^ 24 + (b.toNat * 2 ^ 16 + (c.toNat * 2 ^ 8 + d.toNat))) / 2 ^ k % 2 ^ 8 =
      x.toNat) : (four a b c d >>> s).toUInt8 = x := by
  apply UInt8.toNat_inj.mp
  rw [toNat_byte_of_word _ hs hk, toNat_four, hx]

theorem bytes_four (a b c d : UInt8) : Order.little.bytes (four a b c d) = [d, c, b, a] := by
  have ha := a.toNat_lt
  have hb := b.toNat_lt
  have hc := c.toNat_lt
  have hd := d.toNat_lt
  have hlow : (four a b c d).toUInt8 = d := by
    apply UInt8.toNat_inj.mp
    rw [UInt32.toNat_toUInt8, toNat_four]
    omega
  simp only [Order.bytes, List.cons.injEq, and_true]
  exact ⟨hlow, toUInt8_shiftRight_four (k := 8) rfl (by decide) (by omega),
    toUInt8_shiftRight_four (k := 16) rfl (by decide) (by omega),
    toUInt8_shiftRight_four (k := 24) rfl (by decide) (by omega)⟩

theorem four_bytes (x : UInt32) :
    four (x >>> 24).toUInt8 (x >>> 16).toUInt8 (x >>> 8).toUInt8 x.toUInt8 = x := by
  have hx := x.toNat_lt
  apply UInt32.toNat_inj.mp
  rw [toNat_four, toNat_byte_of_word x (k := 24) rfl (by decide),
    toNat_byte_of_word x (k := 16) rfl (by decide), toNat_byte_of_word x (k := 8) rfl (by decide),
    UInt32.toNat_toUInt8]
  omega

/-! ## Memory -/

variable {o : Order} {m m' : Memory} {p : Nat}

theorem load_four (m : Memory) (p : Nat) : m.load p 4 = [m p, m (p + 1), m (p + 2), m (p + 3)] := rfl

theorem little_word (m : Memory) (p : Nat) :
    Order.little.word m p = four (m (p + 3)) (m (p + 2)) (m (p + 1)) (m p) := rfl

theorem big_word (m : Memory) (p : Nat) :
    Order.big.word m p = four (m p) (m (p + 1)) (m (p + 2)) (m (p + 3)) := rfl

/-- A word is read as it was stored. -/
theorem word_of_load {x : UInt32} (h : m.load p 4 = o.bytes x) : o.word m p = x := by
  cases o with
  | little =>
      rw [load_four] at h
      injection h with h0 h
      injection h with h1 h
      injection h with h2 h
      injection h with h3
      rw [little_word, h0, h1, h2, h3, four_bytes]
  | big =>
      rw [load_four] at h
      injection h with h0 h
      injection h with h1 h
      injection h with h2 h
      injection h with h3
      rw [big_word, h0, h1, h2, h3, four_bytes]

/-- A word is stored as it was read. -/
theorem bytes_word (o : Order) (m : Memory) (p : Nat) : o.bytes (o.word m p) = m.load p 4 := by
  cases o with
  | little => exact bytes_four ..
  | big => exact congrArg List.reverse (bytes_four ..)

@[simp] theorem length_bytes (o : Order) (x : UInt32) : (o.bytes x).length = 4 := by
  cases o <;> rfl

theorem word_congr (h : m.load p 4 = m'.load p 4) : o.word m p = o.word m' p :=
  word_of_load (h.trans (bytes_word o m' p).symm)

theorem word_store (m : Memory) (p : Nat) (x : UInt32) : o.word (m.store p (o.bytes x)) p = x := by
  apply word_of_load
  have hstore := Memory.load_store_self m p (o.bytes x)
  rwa [length_bytes] at hstore

/-! ## `byteReverse` -/

theorem byteReverse_succ (o : Order) (m : Memory) (buf longs : Nat) : byteReverse o m buf (longs + 1) =
    byteReverse o (m.store buf (o.bytes (Order.little.word m buf))) (buf + 4) longs := by
  rw [byteReverse, little_word]
  exact congrArg (fun t => byteReverse o (m.store buf (o.bytes t)) (buf + 4) longs) (pairs_eq_four ..)

theorem byteReverse_outside (o : Order) {x : Nat} (buf longs : Nat) (m : Memory)
    (hx : x < buf ∨ buf + 4 * longs ≤ x) : byteReverse o m buf longs x = m x := by
  induction longs generalizing m buf with
  | zero => rfl
  | succ longs ih =>
      rw [byteReverse_succ, ih _ _ (by omega), Memory.store_outside (by rw [length_bytes]; omega)]

/-- What is read afterwards does not depend on the order. -/
theorem word_byteReverse (o : Order) (m : Memory) (buf : Nat) {longs j : Nat} (hj : j < longs) :
    o.word (byteReverse o m buf longs) (buf + 4 * j) = Order.little.word m (buf + 4 * j) := by
  induction longs generalizing m buf j with
  | zero => exact absurd hj (Nat.not_lt_zero j)
  | succ longs ih =>
      rw [byteReverse_succ]
      cases j with
      | zero =>
          have hlater : (byteReverse o (m.store buf (o.bytes (Order.little.word m buf))) (buf + 4) longs).load
              buf 4 = (m.store buf (o.bytes (Order.little.word m buf))).load buf 4 :=
            Memory.load_congr fun x _ hx => byteReverse_outside o _ _ _ (.inl hx)
          exact (word_congr hlater).trans (word_store m buf _)
      | succ j =>
          have hplace : buf + 4 * (j + 1) = buf + 4 + 4 * j := by omega
          have hbefore : (m.store buf (o.bytes (Order.little.word m buf))).load (buf + 4 + 4 * j) 4 =
              m.load (buf + 4 + 4 * j) 4 :=
            Memory.load_store_disjoint (by rw [length_bytes]; omega)
          rw [hplace, ih _ _ (Nat.lt_of_succ_lt_succ hj), word_congr hbefore]

theorem bytes_reverse (x : UInt32) : Order.big.bytes x = (Order.little.bytes x).reverse := rfl

/-- A word in memory becomes its bytes, the lowest first. -/
theorem bytes_little_word {x : UInt32} (h : m.load p 4 = o.bytes x) :
    o.bytes (Order.little.word m p) = Order.little.bytes x := by
  have hlittle := bytes_word .little m p
  cases o with
  | little => exact hlittle.trans h
  | big => rw [bytes_reverse, hlittle, h, bytes_reverse, List.reverse_reverse]

theorem load_byteReverse (o : Order) (buf : Nat) (xs : List UInt32) (m : Memory)
    (h : m.load buf (4 * xs.length) = xs.flatMap o.bytes) :
    (byteReverse o m buf xs.length).load buf (4 * xs.length) = xs.flatMap Order.little.bytes := by
  induction xs generalizing m buf with
  | nil => rfl
  | cons x xs ih =>
      have hlen : 4 * (x :: xs).length = 4 + 4 * xs.length := by rw [List.length_cons]; omega
      rw [hlen, Memory.load_add, List.flatMap_cons] at h
      obtain ⟨hfirst, hrest⟩ := List.append_inj h (by rw [Memory.load_length, length_bytes])
      have hword := bytes_little_word hfirst
      have hlength := length_bytes o (Order.little.word m buf)
      have hnext : (m.store buf (o.bytes (Order.little.word m buf))).load (buf + 4) (4 * xs.length) =
          xs.flatMap o.bytes := by
        rw [Memory.load_store_disjoint (.inr (by rw [hlength])), hrest]
      have hstored := Memory.load_store_self m buf (o.bytes (Order.little.word m buf))
      have hkept : (byteReverse o (m.store buf (o.bytes (Order.little.word m buf))) (buf + 4) xs.length).load
          buf 4 = Order.little.bytes x := by
        rw [Memory.load_congr fun y _ hy => byteReverse_outside o _ _ _ (.inl hy), ← hword]
        rwa [hlength] at hstored
      rw [hlen, List.length_cons, byteReverse_succ, Memory.load_add, hkept, ih _ _ hnext, List.flatMap_cons]

end Tflib.Expert
