import Mathlib.Data.List.GetD
import Mathlib.Tactic.Ring

/-! # Bytes, their memory and network byte order

Memory is a total map from addresses to bytes: a store past the end of one
object lands at the addresses that follow it, exactly as it does in C. Numerals
have a fixed width and their most significant byte first.
-/

namespace Tflib.Core

abbrev Bytes := List UInt8

/-- A property of given elements, one after the other. -/
theorem forall_mem_of_all {α : Type} {r : α → Prop} [DecidablePred r] {xs : List α}
    (h : xs.all (fun x => decide (r x)) = true) : ∀ x ∈ xs, r x :=
  fun x hx => of_decide_eq_true (List.all_eq_true.mp h x hx)

/-! ## Memory -/

abbrev Memory := Nat → UInt8

namespace Memory

/-- The bytes at addresses `a`, ..., `a + n - 1`. -/
def load (m : Memory) (a : Nat) : Nat → Bytes
  | 0 => []
  | n + 1 => m a :: load m (a + 1) n

/-- `memcpy(a, bs)`. -/
def store (m : Memory) (a : Nat) (bs : Bytes) : Memory := fun x =>
  if a ≤ x ∧ x < a + bs.length then bs.getD (x - a) 0 else m x

@[simp] theorem load_length (m : Memory) (a n : Nat) : (m.load a n).length = n := by
  induction n generalizing a with
  | zero => rfl
  | succ n ih => simp [load, ih]

theorem load_getElem? (m : Memory) (a n i : Nat) (h : i < n) :
    (m.load a n)[i]? = some (m (a + i)) := by
  induction n generalizing a i with
  | zero => omega
  | succ n ih =>
      cases i with
      | zero => simp [load]
      | succ i =>
          have hi := ih (a + 1) i (by omega)
          simpa [load, Nat.add_assoc, Nat.add_comm 1 i] using hi

theorem load_add (m : Memory) (a k n : Nat) :
    m.load a (k + n) = m.load a k ++ m.load (a + k) n := by
  induction k generalizing a with
  | zero => simp [load]
  | succ k ih =>
      have h : k + 1 + n = (k + n) + 1 := by omega
      simp [h, load, ih, Nat.add_assoc, Nat.add_comm 1 k]

theorem load_congr {m m' : Memory} {a n : Nat} (h : ∀ x, a ≤ x → x < a + n → m x = m' x) :
    m.load a n = m'.load a n := by
  induction n generalizing a with
  | zero => rfl
  | succ n ih =>
      simp only [load]
      rw [h a (Nat.le_refl _) (by omega), ih (fun x hx hn => h x (by omega) (by omega))]

theorem store_outside {m : Memory} {a x : Nat} {bs : Bytes} (h : x < a ∨ a + bs.length ≤ x) :
    m.store a bs x = m x := by
  unfold store
  rw [if_neg (by omega)]

/-- Reading back exactly what was stored. -/
theorem load_store_self (m : Memory) (a : Nat) (bs : Bytes) :
    (m.store a bs).load a bs.length = bs := by
  apply List.ext_getElem?
  intro i
  by_cases h : i < bs.length
  · rw [load_getElem? _ _ _ _ h, List.getElem?_eq_getElem h]
    simp [store, h]
  · rw [List.getElem?_eq_none (by simpa using h), List.getElem?_eq_none (by simpa using h)]

/-- A store changes no range that it does not meet. -/
theorem load_store_disjoint {m : Memory} {a b n : Nat} {bs : Bytes}
    (h : b + n ≤ a ∨ a + bs.length ≤ b) : (m.store a bs).load b n = m.load b n :=
  load_congr fun x _ _ => store_outside (by omega)

/-- A stored prefix read back at its own length. -/
theorem load_store_prefix (m : Memory) (a : Nat) (bs : Bytes) {n : Nat} (h : n ≤ bs.length) :
    (m.store a bs).load a n = bs.take n := by
  have hs := load_store_self m a bs
  obtain ⟨k, hk⟩ := Nat.exists_eq_add_of_le h
  rw [hk, load_add] at hs
  have ht := congrArg (List.take n) hs
  rw [List.take_left' (load_length _ _ _)] at ht
  exact ht

theorem load_store_inside (m : Memory) (a : Nat) (bs : Bytes) {i n : Nat}
    (h : i + n ≤ bs.length) : (m.store a bs).load (a + i) n = (bs.drop i).take n := by
  have hs := load_store_prefix m a bs h
  rw [load_add] at hs
  have ht := congrArg (List.drop i) hs
  rw [List.drop_left' (load_length _ _ _)] at ht
  rw [ht, List.drop_take]
  congr 1
  omega

/-- Two stores side by side are one store. -/
theorem store_append (m : Memory) (a : Nat) (bs cs : Bytes) :
    m.store a (bs ++ cs) = (m.store a bs).store (a + bs.length) cs := by
  funext x
  simp only [store, List.length_append]
  by_cases hx : a + bs.length ≤ x
  · have hsub : x - a - bs.length = x - (a + bs.length) := by omega
    by_cases hend : x < a + bs.length + cs.length
    · rw [if_pos (by omega), if_pos ⟨hx, hend⟩, List.getD_append_right _ _ _ _ (by omega), hsub]
    · rw [if_neg (by omega), if_neg (by omega), if_neg (by omega)]
  · by_cases ha : a ≤ x
    · rw [if_pos (by omega), if_neg (by omega), if_pos (by omega),
        List.getD_append _ _ _ _ (by omega)]
    · rw [if_neg (by omega), if_neg (by omega), if_neg (by omega)]

theorem store_cons (m : Memory) (a : Nat) (c : UInt8) (cs : Bytes) :
    m.store a (c :: cs) = (m.store a [c]).store (a + 1) cs := store_append m a [c] cs

theorem store_nil (m : Memory) (a : Nat) : m.store a [] = m := by
  funext x
  exact if_neg fun h => by rw [List.length_nil] at h; omega

/-- Stores that do not meet can be exchanged. -/
theorem store_comm (m : Memory) {a b : Nat} {bs cs : Bytes}
    (h : a + bs.length ≤ b ∨ b + cs.length ≤ a) :
    (m.store a bs).store b cs = (m.store b cs).store a bs := by
  funext x
  simp only [store]
  by_cases ha : a ≤ x ∧ x < a + bs.length
  · rw [if_neg (by omega), if_pos ha, if_pos ha]
  · rw [if_neg ha, if_neg ha]

/-- A store covers what was stored at its place before. -/
theorem store_cover (m : Memory) (a : Nat) {bs cs : Bytes} (h : bs.length ≤ cs.length) :
    (m.store a bs).store a cs = m.store a cs := by
  funext x
  simp only [store]
  by_cases ha : a ≤ x ∧ x < a + cs.length
  · rw [if_pos ha, if_pos ha]
  · rw [if_neg ha, if_neg ha, if_neg (by omega)]

/-- Storing what is there changes nothing. -/
theorem store_load (m : Memory) (a n : Nat) : m.store a (m.load a n) = m := by
  funext x
  simp only [store, load_length]
  split
  · next h =>
      rw [List.getD_eq_getElem?_getD, load_getElem? _ _ _ _ (by omega), Option.getD_some,
        Nat.add_sub_cancel' h.1]
  · rfl

/-- Bytes by themselves, read as memory. -/
theorem load_list {l : Bytes} {j k : Nat} (h : j + k ≤ l.length) :
    load (fun i => l.getD i 0) j k = (l.drop j).take k := by
  rw [← load_store_inside (fun _ => 0) 0 l h, Nat.zero_add]
  refine load_congr fun x _ _ => ?_
  rw [store, if_pos (by omega), Nat.sub_zero]

/-- Bytes that were read, read once more. -/
theorem load_getD (m : Memory) (a : Nat) {j n k : Nat} (h : j + k ≤ n) :
    load (fun i => (m.load a n).getD i 0) j k = m.load (a + j) k := by
  apply List.ext_getElem?
  intro i
  by_cases hi : i < k
  · rw [load_getElem? _ _ _ _ hi, load_getElem? _ _ _ _ hi, List.getD_eq_getElem?_getD,
      load_getElem? _ _ _ _ (by omega), Option.getD_some, Nat.add_assoc]
  · rw [List.getElem?_eq_none (by rw [load_length]; omega),
      List.getElem?_eq_none (by rw [load_length]; omega)]

end Memory

/-! ## Network byte order -/

/-- The number a byte string denotes in network byte order. -/
def netValue : Bytes → Nat
  | [] => 0
  | b :: bs => b.toNat * 256 ^ bs.length + netValue bs

/-- `n` in `width` bytes, in network byte order; higher digits are cut off. -/
def netBytes : Nat → Nat → Bytes
  | 0, _ => []
  | width + 1, n => UInt8.ofNat (n / 256 ^ width) :: netBytes width n

@[simp] theorem netBytes_length (width n : Nat) : (netBytes width n).length = width := by
  induction width with
  | zero => rfl
  | succ width ih => simp [netBytes, ih]

theorem netValue_lt (bs : Bytes) : netValue bs < 256 ^ bs.length := by
  induction bs with
  | nil => simp [netValue]
  | cons b bs ih =>
      have hb : b.toNat + 1 ≤ 256 := b.toNat_lt
      calc netValue (b :: bs) < b.toNat * 256 ^ bs.length + 256 ^ bs.length := by
            rw [netValue]; omega
        _ = (b.toNat + 1) * 256 ^ bs.length := by ring
        _ ≤ 256 * 256 ^ bs.length := Nat.mul_le_mul_right _ hb
        _ = 256 ^ (b :: bs).length := by rw [List.length_cons, Nat.pow_succ, Nat.mul_comm]

theorem netValue_netBytes (width n : Nat) : netValue (netBytes width n) = n % 256 ^ width := by
  induction width with
  | zero => simp [netBytes, netValue, Nat.mod_one]
  | succ width ih =>
      rw [netBytes, netValue, ih, netBytes_length, Nat.pow_succ, Nat.mod_mul]
      have digit : (UInt8.ofNat (n / 256 ^ width)).toNat = n / 256 ^ width % 256 := by simp
      rw [digit, Nat.mul_comm, Nat.add_comm]

theorem netValue_netBytes_of_lt {width n : Nat} (h : n < 256 ^ width) :
    netValue (netBytes width n) = n := by
  rw [netValue_netBytes, Nat.mod_eq_of_lt h]

/-- Digits above the width do not matter. -/
theorem netBytes_add_mul (width n m : Nat) :
    netBytes width (m * 256 ^ width + n) = netBytes width n := by
  induction width generalizing m with
  | zero => rfl
  | succ width ih =>
      have split : m * 256 ^ (width + 1) + n = (m * 256) * 256 ^ width + n := by ring
      have digit : ((m * 256) * 256 ^ width + n) / 256 ^ width = n / 256 ^ width + m * 256 := by
        rw [Nat.add_comm, Nat.add_mul_div_right _ _ (Nat.pow_pos (by omega))]
      rw [netBytes, netBytes, split, digit, ih]
      congr 1
      apply UInt8.toNat_inj.mp
      simp

theorem netBytes_netValue (bs : Bytes) : netBytes bs.length (netValue bs) = bs := by
  induction bs with
  | nil => rfl
  | cons b bs ih =>
      have digit : (b.toNat * 256 ^ bs.length + netValue bs) / 256 ^ bs.length = b.toNat := by
        rw [Nat.add_comm, Nat.add_mul_div_right _ _ (Nat.pow_pos (by omega)),
          Nat.div_eq_of_lt (netValue_lt bs), Nat.zero_add]
      rw [List.length_cons, netBytes, netValue, digit, netBytes_add_mul, ih]
      simp

theorem netValue_append (bs cs : Bytes) :
    netValue (bs ++ cs) = netValue bs * 256 ^ cs.length + netValue cs := by
  induction bs with
  | nil => rw [List.nil_append, netValue, Nat.zero_mul, Nat.zero_add]
  | cons b bs ih =>
      rw [List.cons_append, netValue, netValue, ih, List.length_append, Nat.pow_add]
      ring

theorem netValue_zeros (k : Nat) : netValue (List.replicate k 0) = 0 := by
  induction k with
  | zero => rfl
  | succ k ih =>
      rw [List.replicate_succ, netValue, ih]
      exact Nat.zero_mul _

/-! ## The bits of a byte -/

theorem toNat_byte {n : Nat} (h : n < 2 ^ 8) : (UInt8.ofNat n).toNat = n := UInt8.toNat_ofNat_of_lt h

/-- The bits of `a` stand above those of `b`. -/
theorem toNat_shiftLeft_or {a b : UInt8} {k : Nat} (hk : k < 8) (ha : a.toNat * 2 ^ k < 256)
    (hb : b.toNat < 2 ^ k) : (a <<< UInt8.ofNat k ||| b).toNat = a.toNat * 2 ^ k + b.toNat := by
  have hmod : k % 2 ^ 8 % 8 = k := by omega
  rw [UInt8.toNat_or, UInt8.toNat_shiftLeft, UInt8.toNat_ofNat', hmod, Nat.shiftLeft_eq,
    Nat.mod_eq_of_lt ha, Nat.mul_comm, Nat.two_pow_add_eq_or_of_lt hb]

theorem toNat_shiftLeft {a : UInt8} {k : Nat} (hk : k < 8) (ha : a.toNat * 2 ^ k < 256) :
    (a <<< UInt8.ofNat k).toNat = a.toNat * 2 ^ k := by
  have hmod : k % 2 ^ 8 % 8 = k := by omega
  rw [UInt8.toNat_shiftLeft, UInt8.toNat_ofNat', hmod, Nat.shiftLeft_eq, Nat.mod_eq_of_lt ha]

theorem toNat_and_low (a : UInt8) {k : Nat} (hk : k ≤ 8) :
    (a &&& UInt8.ofNat (2 ^ k - 1)).toNat = a.toNat % 2 ^ k := by
  have hle : 2 ^ k ≤ 2 ^ 8 := Nat.pow_le_pow_right (by decide) hk
  have hpos := Nat.two_pow_pos k
  rw [UInt8.toNat_and, UInt8.toNat_ofNat', Nat.mod_eq_of_lt (by omega),
    Nat.and_two_pow_sub_one_eq_mod]

theorem toNat_shiftRight (a : UInt8) {k : Nat} (hk : k < 8) :
    (a >>> UInt8.ofNat k).toNat = a.toNat / 2 ^ k := by
  have hmod : k % 2 ^ 8 % 8 = k := by omega
  rw [UInt8.toNat_shiftRight, UInt8.toNat_ofNat', hmod, Nat.shiftRight_eq_div_pow]

end Tflib.Core
