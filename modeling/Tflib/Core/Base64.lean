import Tflib.Core.Bytes
import Mathlib.Data.UInt

/-! # The base64 text of a byte string

Three bytes are four digits of six bits. A rest of one byte takes two digits and
a rest of two bytes three, and pad characters fill up the last group. Reading
goes digit by digit: bytes come out whole after every fourth one, and in between
the last of them is still open.
-/

namespace Tflib.Core.Base64

/-- The character of a digit. -/
def letter (v : Nat) : UInt8 :=
  if v < 26 then .ofNat (65 + v)
  else if v < 52 then .ofNat (97 + (v - 26))
  else if v < 62 then .ofNat (48 + (v - 52))
  else if v = 62 then 43
  else 47

def isLetter (c : UInt8) : Bool :=
  65 ≤ c && c ≤ 90 || 97 ≤ c && c ≤ 122 || 48 ≤ c && c ≤ 57 || c == 43 || c == 47

/-- The character `=`. -/
def padChar : UInt8 := 61

/-- The digits of a byte string, all of them below 64. -/
def digits : Bytes → List Nat
  | a :: b :: c :: rest =>
      let n := (a.toNat * 256 + b.toNat) * 256 + c.toNat
      n / 2 ^ 18 :: n / 2 ^ 12 % 64 :: n / 2 ^ 6 % 64 :: n % 64 :: digits rest
  | [a, b] =>
      let n := (a.toNat * 256 + b.toNat) * 4
      [n / 2 ^ 12, n / 2 ^ 6 % 64, n % 64]
  | [a] =>
      let n := a.toNat * 16
      [n / 2 ^ 6, n % 64]
  | [] => []

/-- The text without its padding. -/
def letters (bs : Bytes) : Bytes := (digits bs).map letter

def padding (bs : Bytes) : Bytes := List.replicate ((3 - bs.length % 3) % 3) padChar

def text (bs : Bytes) : Bytes := letters bs ++ padding bs

theorem digits_lt (bs : Bytes) : ∀ v ∈ digits bs, v < 64 := by
  fun_induction digits bs with
  | case1 a b c rest n ih =>
      have ha := a.toNat_lt
      have hb := b.toNat_lt
      have hc := c.toNat_lt
      intro v hv
      simp only [List.mem_cons] at hv
      rcases hv with rfl | rfl | rfl | rfl | hv
      · omega
      · omega
      · omega
      · omega
      · exact ih v hv
  | case2 a b n =>
      have ha := a.toNat_lt
      have hb := b.toNat_lt
      intro v hv
      simp only [List.mem_cons, List.not_mem_nil, or_false] at hv
      omega
  | case3 a n =>
      have ha := a.toNat_lt
      intro v hv
      simp only [List.mem_cons, List.not_mem_nil, or_false] at hv
      omega
  | case4 => exact fun v hv => absurd hv List.not_mem_nil

theorem text_length (bs : Bytes) : (text bs).length = 4 * ((bs.length + 2) / 3) := by
  have hdigits : (digits bs).length + (3 - bs.length % 3) % 3 = 4 * ((bs.length + 2) / 3) := by
    fun_induction digits bs with
    | case1 a b c rest n ih =>
        simp only [List.length_cons] at ih ⊢
        omega
    | case2 => simp
    | case3 => simp
    | case4 => rfl
  rw [text, letters, padding, List.length_append, List.length_map, List.length_replicate, hdigits]

theorem digits_append {xs : Bytes} (h : xs.length % 3 = 0) (ys : Bytes) :
    digits (xs ++ ys) = digits xs ++ digits ys := by
  fun_induction digits xs with
  | case1 a b c rest n ih =>
      have hrest : rest.length % 3 = 0 := by
        simp only [List.length_cons] at h
        omega
      rw [List.cons_append, List.cons_append, List.cons_append, digits, ih hrest]
      rfl
  | case2 => contradiction
  | case3 => contradiction
  | case4 => rfl

theorem text_append {xs : Bytes} (h : xs.length % 3 = 0) (ys : Bytes) :
    text (xs ++ ys) = text xs ++ text ys := by
  have hpad : padding xs = [] := by rw [padding, h]; rfl
  have hpad' : padding (xs ++ ys) = padding ys := by
    rw [padding, padding, List.length_append]
    congr 1
    omega
  rw [text, letters, digits_append h, List.map_append, hpad', text, hpad, text, letters, letters,
    List.append_nil, List.append_assoc]

/-- Whole groups and the rest of at most two bytes. -/
theorem text_groups (bs : Bytes) :
    text (bs.take (3 * (bs.length / 3))) ++ text (bs.drop (3 * (bs.length / 3))) = text bs := by
  have hwhole : (bs.take (3 * (bs.length / 3))).length % 3 = 0 := by
    rw [List.length_take]
    omega
  rw [← text_append hwhole, List.take_append_drop]

theorem isLetter_letter {v : Nat} (h : v < 64) : isLetter (letter v) = true := by
  have hall : ∀ v : Fin 64, isLetter (letter v) = true := by decide
  exact hall ⟨v, h⟩

theorem exists_letter {c : UInt8} (h : isLetter c = true) : ∃ v < 64, letter v = c := by
  simp only [isLetter, Bool.or_eq_true, Bool.and_eq_true, decide_eq_true_eq, beq_iff_eq,
    UInt8.le_iff_toNat_le, UInt8.reduceToNat] at h
  rcases h with (((⟨hlo, hhi⟩ | ⟨hlo, hhi⟩) | ⟨hlo, hhi⟩) | rfl) | rfl
  · refine ⟨c.toNat - 65, by omega, ?_⟩
    rw [letter, if_pos (by omega), Nat.add_sub_cancel' hlo, UInt8.ofNat_toNat]
  · refine ⟨c.toNat - 71, by omega, ?_⟩
    rw [letter, if_neg (by omega), if_pos (by omega), Nat.sub_sub, Nat.add_sub_cancel' hlo,
      UInt8.ofNat_toNat]
  · refine ⟨c.toNat + 4, by omega, ?_⟩
    rw [letter, if_neg (by omega), if_neg (by omega), if_pos (by omega),
      show 48 + (c.toNat + 4 - 52) = c.toNat by omega, UInt8.ofNat_toNat]
  · exact ⟨62, by decide, rfl⟩
  · exact ⟨63, by decide, rfl⟩

/-! ## Reading digit by digit -/

/-- The bytes of the groups read so far, and the digits of the open group. -/
structure Reader where
  whole : Bytes
  group : List Nat

namespace Reader

/-- The bytes that the digits of an open group begin, the last of which is not complete. -/
def opened : List Nat → Bytes
  | [u] => [.ofNat (u * 4)]
  | [u, v] => [.ofNat (u * 4 + v / 16), .ofNat (v % 16 * 16)]
  | [u, v, w] => [.ofNat (u * 4 + v / 16), .ofNat (v % 16 * 16 + w / 4), .ofNat (w % 4 * 64)]
  | _ => []

/-- One more digit; the fourth one closes the group. -/
def push (r : Reader) (x : Nat) : Reader :=
  match r.group with
  | [u, v, w] =>
      ⟨r.whole ++ [.ofNat (u * 4 + v / 16), .ofNat (v % 16 * 16 + w / 4), .ofNat (w % 4 * 64 + x)], []⟩
  | group => ⟨r.whole, group ++ [x]⟩

def bytes (r : Reader) : Bytes := r.whole ++ opened r.group

/-- The number of complete bytes. -/
def size (r : Reader) : Nat := r.whole.length + r.group.length * 3 / 4

/-- The open group has room for a digit. -/
def Open (r : Reader) : Prop := r.group.length < 4

/-- What an open group can be. -/
theorem Open.cases {r : Reader} (h : r.Open) :
    r.group = [] ∨ (∃ u, r.group = [u]) ∨ (∃ u v, r.group = [u, v]) ∨
      ∃ u v w, r.group = [u, v, w] := by
  obtain ⟨whole, group⟩ := r
  unfold Open at h
  match group with
  | [] => exact .inl rfl
  | [u] => exact .inr (.inl ⟨u, rfl⟩)
  | [u, v] => exact .inr (.inr (.inl ⟨u, v, rfl⟩))
  | [u, v, w] => exact .inr (.inr (.inr ⟨u, v, w, rfl⟩))
  | _ :: _ :: _ :: _ :: _ =>
      simp only [List.length_cons] at h
      omega

/-- Whole groups stand for three bytes each, and the open one for as many as it has digits. -/
structure Fits (r : Reader) (n : Nat) : Prop where
  whole : r.whole.length = 3 * (n / 4)
  group : r.group.length = n % 4

theorem fits_nil : Fits ⟨[], []⟩ 0 := ⟨rfl, rfl⟩

theorem Fits.isOpen {r : Reader} {n : Nat} (h : r.Fits n) : r.Open := by
  rw [Open, h.group]
  omega

theorem Fits.bytes_length {r : Reader} {n : Nat} (h : r.Fits n) : r.bytes.length = (3 * n + 3) / 4 := by
  obtain ⟨whole, group⟩ := r
  obtain ⟨hwhole, hgroup⟩ := h
  have hopen : Open ⟨whole, group⟩ := Fits.isOpen ⟨hwhole, hgroup⟩
  dsimp only at hwhole hgroup
  rcases hopen.cases with hg | ⟨u, hg⟩ | ⟨u, v, hg⟩ | ⟨u, v, w, hg⟩
  all_goals
    dsimp only at hg
    subst hg
    simp only [List.length_nil, List.length_cons] at hgroup
    simp only [Reader.bytes, opened, List.length_append, List.length_nil, List.length_cons]
    omega

theorem Fits.push {r : Reader} {n : Nat} (h : r.Fits n) (x : Nat) : (r.push x).Fits (n + 1) := by
  obtain ⟨whole, group⟩ := r
  obtain ⟨hwhole, hgroup⟩ := h
  have hopen : Open ⟨whole, group⟩ := Fits.isOpen ⟨hwhole, hgroup⟩
  dsimp only at hwhole hgroup
  rcases hopen.cases with hg | ⟨u, hg⟩ | ⟨u, v, hg⟩ | ⟨u, v, w, hg⟩
  all_goals
    dsimp only at hg
    subst hg
    simp only [List.length_nil, List.length_cons] at hgroup
    refine ⟨?_, ?_⟩
    · simp only [Reader.push, List.length_append, List.length_cons, List.length_nil]
      omega
    · simp only [Reader.push, List.nil_append, List.cons_append, List.length_cons, List.length_nil]
      omega

theorem push_three (whole : Bytes) (a b c : UInt8) :
    let n := (a.toNat * 256 + b.toNat) * 256 + c.toNat
    [n / 2 ^ 18, n / 2 ^ 12 % 64, n / 2 ^ 6 % 64, n % 64].foldl push ⟨whole, []⟩ =
      ⟨whole ++ [a, b, c], []⟩ := by
  intro n
  have ha := a.toNat_lt
  have hb := b.toNat_lt
  have hc := c.toNat_lt
  have hn : n = (a.toNat * 256 + b.toNat) * 256 + c.toNat := rfl
  have hone : n / 2 ^ 18 * 4 + n / 2 ^ 12 % 64 / 16 = a.toNat := by omega
  have htwo : n / 2 ^ 12 % 64 % 16 * 16 + n / 2 ^ 6 % 64 / 4 = b.toNat := by omega
  have hthree : n / 2 ^ 6 % 64 % 4 * 64 + n % 64 = c.toNat := by omega
  simp only [List.foldl_cons, List.foldl_nil, push, List.nil_append, List.cons_append, hone, htwo,
    hthree, UInt8.ofNat_toNat]

/-- The digits of a byte string give it back, followed at most by a byte that is not complete. -/
theorem foldl_digits (whole bs : Bytes) :
    ((digits bs).foldl push ⟨whole, []⟩).size = whole.length + bs.length ∧
      whole ++ bs <+: ((digits bs).foldl push ⟨whole, []⟩).bytes := by
  fun_induction digits bs generalizing whole with
  | case1 a b c rest n ih =>
      have hfold : (n / 2 ^ 18 :: n / 2 ^ 12 % 64 :: n / 2 ^ 6 % 64 :: n % 64 :: digits rest).foldl push
          ⟨whole, []⟩ = (digits rest).foldl push ⟨whole ++ [a, b, c], []⟩ := by
        rw [← push_three whole a b c]
        rfl
      obtain ⟨hsize, hbytes⟩ := ih (whole ++ [a, b, c])
      rw [hfold]
      refine ⟨?_, ?_⟩
      · rw [hsize]
        simp only [List.length_append, List.length_cons, List.length_nil]
        omega
      · rwa [List.append_assoc] at hbytes
  | case2 a b n =>
      have ha := a.toNat_lt
      have hb := b.toNat_lt
      have hn : n = (a.toNat * 256 + b.toNat) * 4 := rfl
      have hone : n / 2 ^ 12 * 4 + n / 2 ^ 6 % 64 / 16 = a.toNat := by omega
      have htwo : n / 2 ^ 6 % 64 % 16 * 16 + n % 64 / 4 = b.toNat := by omega
      simp only [List.foldl_cons, List.foldl_nil, push, List.nil_append, List.cons_append, size, bytes,
        opened, hone, htwo, UInt8.ofNat_toNat]
      refine ⟨by simp, [.ofNat (n % 64 % 4 * 64)], ?_⟩
      rw [List.append_assoc]
      rfl
  | case3 a n =>
      have ha := a.toNat_lt
      have hn : n = a.toNat * 16 := rfl
      have hone : n / 2 ^ 6 * 4 + n % 64 / 16 = a.toNat := by omega
      simp only [List.foldl_cons, List.foldl_nil, push, List.nil_append, List.cons_append, size, bytes,
        opened, hone, UInt8.ofNat_toNat]
      refine ⟨by simp, [.ofNat (n % 64 % 16 * 16)], ?_⟩
      rw [List.append_assoc]
      rfl
  | case4 => simp [size, bytes, opened]

end Reader

end Tflib.Core.Base64
