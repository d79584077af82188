import Tflib.Core.Mixing
import Tflib.Expert.Md5Words

/-! # The hash functions

`tf_murmur32_hash` and `tf_murmur64_hash` of `tf_hash.c`. No step of them loses
anything: keys of one length that differ in a single group of four bytes have
different hashes, and so has one key under different seeds.
-/

namespace Tflib.Expert

open Tflib.Core Function

/-! ## The code -/

/-- `0x5bd1e995`, which is `m` in `tf_murmur64_hash`. -/
def murmurM : UInt32 := 0x5bd1e995

/-- `k *= m; k ^= k >> 24; k *= m; h *= m; h ^= k` -/
def mixWord (h k : UInt32) : UInt32 :=
  let k := k * murmurM
  let k := k ^^^ k >>> 24
  let k := k * murmurM
  h * murmurM ^^^ k

/-- The `switch`, which falls through its cases. -/
def mixTail (m : Memory) (data : Nat) (h : UInt32) : Nat → UInt32
  | 3 => (h ^^^ (m (data + 2)).toUInt32 <<< 16 ^^^ (m (data + 1)).toUInt32 <<< 8 ^^^
      (m data).toUInt32) * murmurM
  | 2 => (h ^^^ (m (data + 1)).toUInt32 <<< 8 ^^^ (m data).toUInt32) * murmurM
  | 1 => (h ^^^ (m data).toUInt32) * murmurM
  | _ => h

/-- `k` in `tf_murmur32_hash`. -/
def wordOfBytes (m : Memory) (data : Nat) : UInt32 :=
  (m data).toUInt32 ||| (m (data + 1)).toUInt32 <<< 8 ||| (m (data + 2)).toUInt32 <<< 16 |||
    (m (data + 3)).toUInt32 <<< 24

/-- The loop and the `switch`. -/
def murmur32Loop (m : Memory) (data : Nat) (h : UInt32) : Nat → UInt32
  | len + 4 => murmur32Loop m (data + 4) (mixWord h (wordOfBytes m data)) len
  | len => mixTail m data h len

def finish32 (h : UInt32) : UInt32 :=
  let h := h ^^^ h >>> 13
  let h := h * murmurM
  h ^^^ h >>> 15

def tfMurmur32Hash (m : Memory) (data len : Nat) : UInt32 :=
  finish32 (murmur32Loop m data (0 ^^^ UInt32.ofNat len) len)

/-- `h1` and `h2` -/
structure Lanes where
  h1 : UInt32
  h2 : UInt32
  deriving DecidableEq

/-- The loop, the `if` behind it and the `switch`; `data` is read by a cast. -/
def murmur64Loop (o : Order) (m : Memory) (data : Nat) (l : Lanes) : Nat → Lanes
  | len + 8 => murmur64Loop o m (data + 8)
      ⟨mixWord l.h1 (o.word m data), mixWord l.h2 (o.word m (data + 4))⟩ len
  | len + 4 => ⟨mixWord l.h1 (o.word m data), mixTail m (data + 4) l.h2 len⟩
  | len => ⟨l.h1, mixTail m data l.h2 len⟩

def finish64 (l : Lanes) : Lanes :=
  let h1 := (l.h1 ^^^ l.h2 >>> 18) * murmurM
  let h2 := (l.h2 ^^^ h1 >>> 22) * murmurM
  let h1 := (h1 ^^^ h2 >>> 17) * murmurM
  let h2 := (h2 ^^^ h1 >>> 19) * murmurM
  ⟨h1, h2⟩

/-- `h = (h << 32) | h2` -/
def Lanes.joined (l : Lanes) : UInt64 := l.h1.toUInt64 <<< 32 ||| l.h2.toUInt64

/-- A negative `len` goes through neither the loop nor a case of the `switch`. -/
def tfMurmur64Hash (o : Order) (m : Memory) (key : Nat) (len : Int) (seed : UInt32) : UInt64 :=
  (finish64 (murmur64Loop o m key ⟨seed ^^^ UInt32.ofInt len, 0⟩ len.toNat)).joined

/-! ## Steps that lose nothing -/

theorem mul_murmurM_injective : Injective fun x : UInt32 => x * murmurM :=
  LeftInverse.injective (g := fun x => x * 0xe59b19bd) fun x => by
    have hone : murmurM * 0xe59b19bd = 1 := by decide
    dsimp only
    rw [UInt32.mul_assoc, hone, UInt32.mul_one]

theorem xorShift_injective_uint32 {k : UInt32} (hk : 0 < k.toNat % 32) :
    Injective fun x : UInt32 => x ^^^ x >>> k := fun x y h => by
  refine UInt32.toBitVec_inj.mp (Core.xorShift_injective hk ?_)
  simpa using congrArg UInt32.toBitVec h

theorem mixWord_injective (h : UInt32) : Injective (mixWord h) := fun k k' heq => by
  refine mul_murmurM_injective
    (xorShift_injective_uint32 (k := 24) (by decide) (mul_murmurM_injective ?_))
  exact (UInt32.xor_right_inj _).mp heq

theorem mixWord_injective_state (k : UInt32) : Injective (mixWord · k) := fun _ _ heq =>
  mul_murmurM_injective ((UInt32.xor_left_inj _).mp heq)

theorem finish32_injective : Injective finish32 := fun _ _ heq =>
  xorShift_injective_uint32 (k := 13) (by decide)
    (mul_murmurM_injective (xorShift_injective_uint32 (k := 15) (by decide) heq))

/-- Each of the four steps changes one half by the other, so they are undone one by one. -/
theorem finish64_injective : Injective finish64 := fun l l' h => by
  have hcancel : ∀ {x y z : UInt32}, (x ^^^ z) * murmurM = (y ^^^ z) * murmurM → x = y := fun heq =>
    (UInt32.xor_left_inj _).mp (mul_murmurM_injective heq)
  simp only [finish64, Lanes.mk.injEq] at h
  obtain ⟨hc, hd⟩ := h
  rw [hc] at hd
  have hb := hcancel hd
  rw [hb] at hc
  have ha := hcancel hc
  rw [ha] at hb
  have h2 := hcancel hb
  rw [h2] at ha
  cases l
  cases l'
  exact congrArg₂ Lanes.mk (hcancel ha) h2

theorem toNat_joined (l : Lanes) : l.joined.toNat = l.h1.toNat * 2 ^ 32 + l.h2.toNat := by
  have h1 := l.h1.toNat_lt
  have h2 := l.h2.toNat_lt
  have hs : (32 : UInt64).toNat = 32 := rfl
  rw [Lanes.joined, UInt64.toNat_or, UInt64.toNat_shiftLeft, UInt32.toNat_toUInt64, UInt32.toNat_toUInt64,
    hs, show 32 % 64 = 32 from rfl, Nat.shiftLeft_eq, Nat.mod_eq_of_lt (by omega),
    Nat.mul_comm, Nat.two_pow_add_eq_or_of_lt h2]

theorem joined_injective : Injective Lanes.joined := fun l l' h => by
  have hnat := congrArg UInt64.toNat h
  rw [toNat_joined, toNat_joined] at hnat
  have h2 := l.h2.toNat_lt
  have h2' := l'.h2.toNat_lt
  cases l
  cases l'
  simp only [Lanes.mk.injEq, ← UInt32.toNat_inj]
  dsimp only at hnat h2 h2'
  omega

/-! ## Bytes -/

theorem four_inj {a b c d a' b' c' d' : UInt8} :
    four a b c d = four a' b' c' d' ↔ a = a' ∧ b = b' ∧ c = c' ∧ d = d' := by
  constructor
  · intro h
    have hnat := congrArg UInt32.toNat h
    rw [toNat_four, toNat_four] at hnat
    have hb := b.toNat_lt
    have hc := c.toNat_lt
    have hd := d.toNat_lt
    have hb' := b'.toNat_lt
    have hc' := c'.toNat_lt
    have hd' := d'.toNat_lt
    simp only [← UInt8.toNat_inj]
    omega
  · rintro ⟨rfl, rfl, rfl, rfl⟩
    rfl

/-- Bytes in places of their own are put together by an exclusive or as well. -/
theorem xor_eq_four (a b c : UInt8) :
    a.toUInt32 <<< 16 ^^^ b.toUInt32 <<< 8 ^^^ c.toUInt32 = four 0 a b c := by
  apply UInt32.toBitVec_inj.mp
  apply BitVec.eq_of_getLsbD_eq
  intro i _
  by_cases h8 : i < 8
  · simp [four, h8, show i < 16 by omega]
  · by_cases h16 : i < 16
    · simp [four, h8, h16, BitVec.getLsbD_of_ge c.toBitVec i (by omega)]
    · simp [four, h8, h16, BitVec.getLsbD_of_ge c.toBitVec i (by omega),
        BitVec.getLsbD_of_ge b.toBitVec (i - 8) (by omega)]

/-- Where two words are the same, so are their bytes. -/
def Tells (word : Memory → Nat → UInt32) : Prop :=
  ∀ m m' p p', word m p = word m' p' ↔ ∀ i < 4, m (p + i) = m' (p' + i)

theorem forall_lt_four (P : Nat → Prop) : (∀ i < 4, P i) ↔ P 0 ∧ P 1 ∧ P 2 ∧ P 3 := by
  simp only [Nat.forall_lt_succ_right, Nat.not_lt_zero, false_implies, implies_true, true_and,
    and_assoc]

theorem four_eq_iff (m m' : Memory) (p p' : Nat) :
    four (m (p + 3)) (m (p + 2)) (m (p + 1)) (m p) =
        four (m' (p' + 3)) (m' (p' + 2)) (m' (p' + 1)) (m' p') ↔
      ∀ i < 4, m (p + i) = m' (p' + i) := by
  rw [four_inj, forall_lt_four]
  exact ⟨fun ⟨h3, h2, h1, h0⟩ => ⟨h0, h1, h2, h3⟩, fun ⟨h0, h1, h2, h3⟩ => ⟨h3, h2, h1, h0⟩⟩

theorem or_four_rev (a b c d : UInt32) : a ||| b ||| c ||| d = d ||| c ||| b ||| a := by
  rw [UInt32.or_comm (a ||| b ||| c) d, UInt32.or_comm (a ||| b) c, UInt32.or_comm a b,
    ← UInt32.or_assoc, ← UInt32.or_assoc]

theorem wordOfBytes_eq (m : Memory) (p : Nat) :
    wordOfBytes m p = four (m (p + 3)) (m (p + 2)) (m (p + 1)) (m p) := or_four_rev _ _ _ _

theorem tells_wordOfBytes : Tells wordOfBytes := fun m m' p p' => by
  rw [wordOfBytes_eq, wordOfBytes_eq]
  exact four_eq_iff m m' p p'

theorem tells_word (o : Order) : Tells o.word := fun m m' p p' => by
  cases o with
  | little => exact four_eq_iff m m' p p'
  | big => exact four_inj.trans (forall_lt_four (fun i => m (p + i) = m' (p' + i))).symm

/-- The bytes behind the last group, as one word. -/
def tailWord (m : Memory) (p : Nat) : Nat → UInt32
  | 3 => four 0 (m (p + 2)) (m (p + 1)) (m p)
  | 2 => four 0 0 (m (p + 1)) (m p)
  | 1 => four 0 0 0 (m p)
  | _ => 0

theorem mixTail_eq (m : Memory) (p : Nat) (h : UInt32) {n : Nat} (hn : n < 4) :
    mixTail m p h n = if n = 0 then h else (h ^^^ tailWord m p n) * murmurM := by
  have hzero : ∀ s : UInt32, (0 : UInt8).toUInt32 <<< s = 0 := by
    intro s
    simp
  match n, hn with
  | 0, _ => rfl
  | 1, _ => 
    rw [mixTail, tailWord, ← xor_eq_four]
    simp
  | 2, _ => 
    rw [mixTail, tailWord, ← xor_eq_four]
    simp [UInt32.xor_assoc]
  | 3, _ => 
    rw [mixTail, tailWord, ← xor_eq_four]
    simp [UInt32.xor_assoc]

theorem mixTail_injective (m : Memory) (p : Nat) {n : Nat} (hn : n < 4) :
    Injective (mixTail m p · n) := fun h h' heq => by
  simp only [mixTail_eq m p _ hn] at heq
  split at heq
  · exact heq
  · exact (UInt32.xor_left_inj _).mp (mul_murmurM_injective heq)

theorem tailWord_eq_iff {m m' : Memory} {p p' n : Nat} (hn : n < 4) :
    tailWord m p n = tailWord m' p' n ↔ ∀ i < n, m (p + i) = m' (p' + i) := by
  match n, hn with
  | 0, _ => exact iff_of_true rfl fun i hi => absurd hi (Nat.not_lt_zero i)
  | 1, _ | 2, _ | 3, _ =>
      simp only [tailWord, four_inj, Nat.forall_lt_succ_right, Nat.not_lt_zero, false_implies,
        implies_true, true_and, Nat.add_zero, and_comm]

/-! ## Loops -/

theorem murmur32Loop_eq (m : Memory) (data : Nat) (h : UInt32) (n : Nat) {r : Nat} (hr : r < 4) :
    murmur32Loop m data h (4 * n + r) =
      mixTail m (data + 4 * n) (intake mixWord h (fun j => wordOfBytes m (data + 4 * j)) n) r := by
  induction n generalizing data h with
  | zero =>
      match r, hr with
      | 0, _ | 1, _ | 2, _ | 3, _ => rfl
  | succ n ih =>
      have hlen : 4 * (n + 1) + r = (4 * n + r) + 4 := by omega
      have hend : data + 4 + 4 * n = data + 4 * (n + 1) := by omega
      have hword : (fun j => wordOfBytes m (data + 4 + 4 * j)) =
          fun j => wordOfBytes m (data + 4 * (j + 1)) := by
        funext j
        congr 1
        omega
      rw [hlen, murmur32Loop, ih, hword, hend, intake_succ]
      rfl

theorem murmur64Loop_rounds (o : Order) (m : Memory) (data : Nat) (l : Lanes) (n r : Nat) :
    murmur64Loop o m data l (8 * n + r) = murmur64Loop o m (data + 8 * n)
      ⟨intake mixWord l.h1 (fun j => o.word m (data + 8 * j)) n,
        intake mixWord l.h2 (fun j => o.word m (data + 8 * j + 4)) n⟩ r := by
  induction n generalizing data l with
  | zero =>
      rw [Nat.mul_zero, Nat.zero_add]
      rfl
  | succ n ih =>
      have hlen : 8 * (n + 1) + r = (8 * n + r) + 8 := by omega
      have hend : data + 8 + 8 * n = data + 8 * (n + 1) := by omega
      have hfirst : (fun j => o.word m (data + 8 + 8 * j)) = fun j => o.word m (data + 8 * (j + 1)) := by
        funext j
        congr 1
        omega
      have hsecond : (fun j => o.word m (data + 8 + 8 * j + 4)) =
          fun j => o.word m (data + 8 * (j + 1) + 4) := by
        funext j
        congr 1
        omega
      rw [hlen, murmur64Loop, ih, hfirst, hsecond, hend, intake_succ, intake_succ]
      rfl

/-- The groups of four go to the lanes in turn, and what is left behind them goes to
the second. -/
theorem murmur64Loop_eq (o : Order) (m : Memory) (data : Nat) (l : Lanes) (len : Nat) :
    murmur64Loop o m data l len =
      ⟨intake mixWord l.h1 (fun j => o.word m (data + 8 * j)) ((len + 4) / 8),
        mixTail m (data + 4 * (len / 4))
          (intake mixWord l.h2 (fun j => o.word m (data + 8 * j + 4)) (len / 8)) (len % 4)⟩ := by
  obtain ⟨n, r, hr, rfl⟩ : ∃ n r, r < 8 ∧ len = 8 * n + r :=
    ⟨len / 8, len % 8, Nat.mod_lt _ (by decide), (Nat.div_add_mod len 8).symm⟩
  have hodd : (8 * n + r) / 8 = n := by omega
  rw [murmur64Loop_rounds, hodd]
  by_cases hhalf : r < 4
  · have heven : (8 * n + r + 4) / 8 = n := by omega
    have hend : 4 * ((8 * n + r) / 4) = 8 * n := by omega
    have hmod : (8 * n + r) % 4 = r := by omega
    rw [heven, hend, hmod]
    match r, hhalf with
    | 0, _ | 1, _ | 2, _ | 3, _ => rfl
  · have heven : (8 * n + r + 4) / 8 = n + 1 := by omega
    have hend : data + 4 * ((8 * n + r) / 4) = data + 8 * n + 4 := by omega
    have hmod : (8 * n + r) % 4 = r - 4 := by omega
    rw [heven, hend, hmod]
    match r, hr, hhalf with
    | 4, _, _ | 5, _, _ | 6, _, _ | 7, _, _ => rfl

/-! ## Keys -/

variable {m m' : Memory} {p p' : Nat}

theorem lane_eq_iff {f g : Nat → UInt32} {n r i : Nat} (hr : r < 4)
    (hwords : ∀ j < n, j ≠ i → f j = g j) (htail : i < n → ∀ x < r, m (p + x) = m' (p' + x))
    (h : UInt32) :
    mixTail m p (intake mixWord h f n) r = mixTail m' p' (intake mixWord h g n) r ↔
      (∀ j < n, f j = g j) ∧ ∀ x < r, m (p + x) = m' (p' + x) := by
  have hcongr : ∀ s, (∀ x < r, m (p + x) = m' (p' + x)) → mixTail m p s r = mixTail m' p' s r := by
    intro s hx
    rw [mixTail_eq m p s hr, mixTail_eq m' p' s hr, (tailWord_eq_iff hr).mpr hx]
  constructor
  · intro heq
    by_cases hi : i < n
    · rw [hcongr _ (htail hi)] at heq
      exact ⟨(intake_eq_iff mixWord_injective_state mixWord_injective hwords h).mp
        (mixTail_injective m' p' hr heq), htail hi⟩
    · have hall : ∀ j < n, f j = g j := fun j hj => hwords j hj (by omega)
      rw [intake_congr hall h, mixTail_eq m p _ hr, mixTail_eq m' p' _ hr] at heq
      refine ⟨hall, ?_⟩
      split at heq
      · rename_i hzero
        subst hzero
        exact fun x hx => absurd hx (Nat.not_lt_zero x)
      · exact (tailWord_eq_iff hr).mp ((UInt32.xor_right_inj _).mp (mul_murmurM_injective heq))
  · rintro ⟨hall, hx⟩
    rw [intake_congr hall h, hcongr _ hx]

theorem Tells.group {word : Memory → Nat → UInt32} (hword : Tells word) (g : Nat) :
    word m (p + 4 * g) = word m' (p' + 4 * g) ↔ ∀ x, x / 4 = g → m (p + x) = m' (p' + x) := by
  rw [hword]
  constructor
  · intro h x hx
    have hplace : 4 * g + x % 4 = x := by omega
    have hbyte := h (x % 4) (Nat.mod_lt _ (by decide))
    rwa [Nat.add_assoc, Nat.add_assoc, hplace] at hbyte
  · intro h i hi
    rw [Nat.add_assoc, Nat.add_assoc]
    exact h (4 * g + i) (by omega)

/-- The bytes behind the last group of a key of `n` bytes. -/
theorem tail_iff (n : Nat) :
    (∀ x < n % 4, m (p + 4 * (n / 4) + x) = m' (p' + 4 * (n / 4) + x)) ↔
      ∀ x < n, x / 4 = n / 4 → m (p + x) = m' (p' + x) := by
  constructor
  · intro h x hx hgroup
    have hplace : 4 * (n / 4) + x % 4 = x := by omega
    have hbyte := h (x % 4) (by omega)
    rwa [Nat.add_assoc, Nat.add_assoc, hplace] at hbyte
  · intro h x hx
    rw [Nat.add_assoc, Nat.add_assoc]
    exact h (4 * (n / 4) + x) (by omega) (by omega)

/-- One group of four bytes may differ, or what is left behind the last one. -/
theorem murmur32_separates {len i : Nat} (h : ∀ x < len, x / 4 ≠ i → m (p + x) = m' (p' + x)) :
    tfMurmur32Hash m p len = tfMurmur32Hash m' p' len ↔ ∀ x < len, m (p + x) = m' (p' + x) := by
  have hr : len % 4 < 4 := Nat.mod_lt _ (by decide)
  have hloop : ∀ m p, murmur32Loop m p (0 ^^^ UInt32.ofNat len) len =
      mixTail m (p + 4 * (len / 4)) (intake mixWord (0 ^^^ UInt32.ofNat len)
        (fun j => wordOfBytes m (p + 4 * j)) (len / 4)) (len % 4) := fun m p => by
    rw [← murmur32Loop_eq m p _ _ hr, Nat.div_add_mod]
  have hwords : ∀ j < len / 4, j ≠ i → wordOfBytes m (p + 4 * j) = wordOfBytes m' (p' + 4 * j) :=
    fun j hj hji => (tells_wordOfBytes.group j).mpr fun x hx => h x (by omega) (by omega)
  have htail : i < len / 4 → ∀ x < len % 4, m (p + 4 * (len / 4) + x) = m' (p' + 4 * (len / 4) + x) :=
    fun hi => (tail_iff len).mpr fun x hx hgroup => h x hx (by omega)
  rw [tfMurmur32Hash, tfMurmur32Hash, finish32_injective.eq_iff, hloop, hloop,
    lane_eq_iff hr hwords htail, tail_iff]
  constructor
  · rintro ⟨hall, hrest⟩ x hx
    by_cases hgroup : x / 4 < len / 4
    · exact (tells_wordOfBytes.group _).mp (hall _ hgroup) x rfl
    · exact hrest x hx (by omega)
  · intro hall
    exact ⟨fun j hj => (tells_wordOfBytes.group j).mpr fun x hx => hall x (by omega),
      fun x hx _ => hall x hx⟩

theorem murmur32_separates_seven :
    tfMurmur32Hash (fun x => UInt8.ofNat x) 0 7 ≠
      tfMurmur32Hash (fun x => UInt8.ofNat (if x < 4 then x else 0)) 0 7 := by
  intro heq
  exact absurd ((murmur32_separates (i := 1) (by decide)).mp heq 4 (by decide)) (by decide)

/-! ## Lanes -/

theorem tfMurmur64Hash_eq_iff (o : Order) (len len' : Int) (seed seed' : UInt32) :
    tfMurmur64Hash o m p len seed = tfMurmur64Hash o m' p' len' seed' ↔
      murmur64Loop o m p ⟨seed ^^^ UInt32.ofInt len, 0⟩ len.toNat =
        murmur64Loop o m' p' ⟨seed' ^^^ UInt32.ofInt len', 0⟩ len'.toNat := by
  rw [tfMurmur64Hash, tfMurmur64Hash, joined_injective.eq_iff, finish64_injective.eq_iff]

/-- The groups of a key of `n` bytes that go to `h1`. -/
def InFirst (n g : Nat) : Prop := g % 2 = 0 ∧ g < n / 4

instance decidableInFirst (n g : Nat) : Decidable (InFirst n g) := inferInstanceAs (Decidable (_ ∧ _))

theorem evenWord_eq_iff (o : Order) (j : Nat) :
    o.word m (p + 8 * j) = o.word m' (p' + 8 * j) ↔ ∀ x, x / 4 = 2 * j → m (p + x) = m' (p' + x) := by
  have hgroup : 8 * j = 4 * (2 * j) := by omega
  rw [hgroup, (tells_word o).group]

theorem oddWord_eq_iff (o : Order) (j : Nat) :
    o.word m (p + 8 * j + 4) = o.word m' (p' + 8 * j + 4) ↔
      ∀ x, x / 4 = 2 * j + 1 → m (p + x) = m' (p' + x) := by
  have hgroup : 8 * j + 4 = 4 * (2 * j + 1) := by omega
  rw [Nat.add_assoc, Nat.add_assoc, hgroup, (tells_word o).group]

theorem firstWords_iff (o : Order) (n : Nat) :
    (∀ j < (n + 4) / 8, o.word m (p + 8 * j) = o.word m' (p' + 8 * j)) ↔
      ∀ x < n, InFirst n (x / 4) → m (p + x) = m' (p' + x) := by
  simp only [evenWord_eq_iff]
  constructor
  · rintro h x hx ⟨heven, hfull⟩
    exact h (x / 8) (by omega) x (by omega)
  · intro h j hj x hx
    exact h x (by omega) ⟨by omega, by omega⟩

theorem secondWords_iff (o : Order) (n : Nat) :
    ((∀ j < n / 8, o.word m (p + 8 * j + 4) = o.word m' (p' + 8 * j + 4)) ∧
      ∀ x < n % 4, m (p + 4 * (n / 4) + x) = m' (p' + 4 * (n / 4) + x)) ↔
      ∀ x < n, ¬ InFirst n (x / 4) → m (p + x) = m' (p' + x) := by
  simp only [oddWord_eq_iff, tail_iff, InFirst]
  constructor
  · rintro ⟨hwords, htail⟩ x hx hin
    by_cases hlast : x / 4 = n / 4
    · exact htail x hx hlast
    · exact hwords (x / 8) (by omega) x (by omega)
  · intro h
    exact ⟨fun j hj x hx => h x (by omega) (by omega), fun x hx hlast => h x hx (by omega)⟩

theorem firstLane_eq_iff (o : Order) {n a : Nat} (s : UInt32)
    (h : ∀ x < n, InFirst n (x / 4) → x / 4 ≠ a → m (p + x) = m' (p' + x)) :
    intake mixWord s (fun j => o.word m (p + 8 * j)) ((n + 4) / 8) =
        intake mixWord s (fun j => o.word m' (p' + 8 * j)) ((n + 4) / 8) ↔
      ∀ x < n, InFirst n (x / 4) → m (p + x) = m' (p' + x) := by
  have hwords : ∀ j < (n + 4) / 8, j ≠ a / 2 → o.word m (p + 8 * j) = o.word m' (p' + 8 * j) := by
    intro j hj hja
    refine (evenWord_eq_iff o j).mpr fun x hx => ?_
    exact h x (by omega) ⟨by omega, by omega⟩ (by omega)
  rw [intake_eq_iff mixWord_injective_state mixWord_injective hwords, firstWords_iff]

theorem secondLane_eq_iff (o : Order) {n b : Nat} (s : UInt32)
    (h : ∀ x < n, ¬ InFirst n (x / 4) → x / 4 ≠ b → m (p + x) = m' (p' + x)) :
    mixTail m (p + 4 * (n / 4))
          (intake mixWord s (fun j => o.word m (p + 8 * j + 4)) (n / 8)) (n % 4) =
        mixTail m' (p' + 4 * (n / 4))
          (intake mixWord s (fun j => o.word m' (p' + 8 * j + 4)) (n / 8)) (n % 4) ↔
      ∀ x < n, ¬ InFirst n (x / 4) → m (p + x) = m' (p' + x) := by
  have hodd : ∀ x j, x / 4 = 2 * j + 1 → ¬ InFirst n (x / 4) := by
    rintro x j hx ⟨heven, -⟩
    omega
  have hlast : ∀ x, x / 4 = n / 4 → ¬ InFirst n (x / 4) := by
    rintro x hx ⟨-, hfull⟩
    omega
  have hwords : ∀ j < n / 8, j ≠ b / 2 →
      o.word m (p + 8 * j + 4) = o.word m' (p' + 8 * j + 4) := by
    intro j hj hjb
    refine (oddWord_eq_iff o j).mpr fun x hx => ?_
    exact h x (by omega) (hodd x j hx) (by omega)
  have htail : b / 2 < n / 8 →
      ∀ x < n % 4, m (p + 4 * (n / 4) + x) = m' (p' + 4 * (n / 4) + x) := by
    intro hb
    exact (tail_iff n).mpr fun x hx hend => h x hx (hlast x hend) (by omega)
  rw [lane_eq_iff (Nat.mod_lt _ (by decide)) hwords htail, secondWords_iff]

theorem forall_lanes (n : Nat) (P Q : Nat → Prop) :
    (∀ x < n, P x → Q x) ∧ (∀ x < n, ¬ P x → Q x) ↔ ∀ x < n, Q x := by
  constructor
  · rintro ⟨h, h'⟩ x hx
    by_cases hP : P x
    · exact h x hx hP
    · exact h' x hx hP
  · exact fun h => ⟨fun x hx _ => h x hx, fun x hx _ => h x hx⟩

/-- One group of each lane may differ. -/
theorem murmur64_separates (o : Order) {len : Int} {a b : Nat} (seed : UInt32)
    (hfirst : ∀ x < len.toNat, InFirst len.toNat (x / 4) → x / 4 ≠ a → m (p + x) = m' (p' + x))
    (hsecond : ∀ x < len.toNat, ¬ InFirst len.toNat (x / 4) → x / 4 ≠ b →
      m (p + x) = m' (p' + x)) :
    tfMurmur64Hash o m p len seed = tfMurmur64Hash o m' p' len seed ↔
      ∀ x < len.toNat, m (p + x) = m' (p' + x) := by
  rw [tfMurmur64Hash_eq_iff, murmur64Loop_eq, murmur64Loop_eq, Lanes.mk.injEq,
    firstLane_eq_iff o _ hfirst, secondLane_eq_iff o _ hsecond, forall_lanes]

theorem murmur64_separates_sixteen :
    tfMurmur64Hash .little (fun x => UInt8.ofNat x) 0 16 5 ≠
      tfMurmur64Hash .little (fun x => UInt8.ofNat (if x < 8 then x else x + 1)) 0 16 5 := by
  intro heq
  have hsame := (murmur64_separates .little (a := 2) (b := 3) 5 (by decide) (by decide)).mp heq
  exact absurd (hsame 8 (by decide)) (by decide)

/-- The seed is taken in by the first lane alone. -/
theorem murmur64_seeds (o : Order) {len : Int} {b : Nat} (seed seed' : UInt32)
    (hfirst : ∀ x < len.toNat, InFirst len.toNat (x / 4) → m (p + x) = m' (p' + x))
    (hsecond : ∀ x < len.toNat, ¬ InFirst len.toNat (x / 4) → x / 4 ≠ b →
      m (p + x) = m' (p' + x)) :
    tfMurmur64Hash o m p len seed = tfMurmur64Hash o m' p' len seed' ↔
      seed = seed' ∧ ∀ x < len.toNat, m (p + x) = m' (p' + x) := by
  have hwords : ∀ s, intake mixWord s (fun j => o.word m (p + 8 * j)) ((len.toNat + 4) / 8) =
      intake mixWord s (fun j => o.word m' (p' + 8 * j)) ((len.toNat + 4) / 8) :=
    intake_congr ((firstWords_iff o len.toNat).mpr hfirst)
  have hall := forall_lanes len.toNat (fun x => InFirst len.toNat (x / 4))
    fun x => m (p + x) = m' (p' + x)
  rw [tfMurmur64Hash_eq_iff, murmur64Loop_eq, murmur64Loop_eq, Lanes.mk.injEq,
    secondLane_eq_iff o _ hsecond, hwords,
    (intake_injective mixWord_injective_state _ _).eq_iff, UInt32.xor_left_inj]
  constructor
  · rintro ⟨hseed, hrest⟩
    exact ⟨hseed, hall.mp ⟨hfirst, hrest⟩⟩
  · rintro ⟨hseed, h⟩
    exact ⟨hseed, (hall.mpr h).2⟩

theorem murmur64_seeds_sixteen :
    tfMurmur64Hash .big (fun x => UInt8.ofNat x) 0 16 1 ≠
      tfMurmur64Hash .big (fun x => UInt8.ofNat (if x < 12 then x else 0)) 0 16 2 := by
  intro heq
  exact absurd ((murmur64_seeds .big (b := 3) 1 2 (by decide) (by decide)).mp heq).1 (by decide)

end Tflib.Expert
