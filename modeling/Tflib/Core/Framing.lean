import Mathlib.Data.List.Basic

/-! # Length-prefixed frames

A frame is a header of fixed width that announces a length, followed by that
many letters. Cutting a stream stops at the first truncated frame; the tail is
never skipped over.
-/

namespace Tflib.Core

universe u

/-- A header code: every length below `limit` is announced by `width` letters. -/
structure Framing (α : Type u) where
  width : Nat
  limit : Nat
  header : Nat → List α
  size : List α → Nat
  width_pos : 0 < width
  header_length : ∀ n, (header n).length = width
  size_header : ∀ n, n < limit → size (header n) = n

namespace Framing

variable {α : Type u} (F : Framing α)

/-- The frame that carries `body`. -/
def encode (body : List α) : List α := F.header body.length ++ body

/-- The first frame's body and what follows it, if the frame is complete. -/
def next? (s : List α) : Option (List α × List α) :=
  if F.width ≤ s.length then
    let rest := s.drop F.width
    let n := F.size (s.take F.width)
    if n ≤ rest.length then some (rest.take n, rest.drop n) else none
  else none

def cutFuel : Nat → List α → List (List α)
  | 0, _ => []
  | fuel + 1, s =>
      match F.next? s with
      | none => []
      | some (body, rest) => body :: cutFuel fuel rest

/-- The bodies of the complete frames that `s` starts with. -/
def cut (s : List α) : List (List α) := F.cutFuel s.length s

@[simp] theorem encode_length (body : List α) :
    (F.encode body).length = F.width + body.length := by
  simp [encode, F.header_length]

theorem next?_rest_length {s body rest : List α} (h : F.next? s = some (body, rest)) :
    rest.length < s.length := by
  have hw := F.width_pos
  unfold next? at h
  split at h
  · dsimp only at h
    split at h
    · cases h
      simp only [List.length_drop]
      omega
    · contradiction
  · contradiction

theorem next?_eq_some {s body rest : List α} :
    F.next? s = some (body, rest) ↔
      F.width ≤ s.length ∧ F.size (s.take F.width) = body.length ∧ s.drop F.width = body ++ rest := by
  unfold next?
  by_cases hw : F.width ≤ s.length
  · rw [if_pos hw]
    dsimp only
    constructor
    · intro h
      split at h
      · cases h
        exact ⟨hw, by rw [List.length_take, Nat.min_eq_left (by assumption)],
          (List.take_append_drop _ _).symm⟩
      · contradiction
    · intro h
      obtain ⟨-, hsize, hdrop⟩ := h
      rw [hsize, hdrop, if_pos (by rw [List.length_append]; omega), List.take_left, List.drop_left]
  · rw [if_neg hw]
    constructor
    · intro h
      contradiction
    · intro h
      exact absurd h.1 hw

theorem next?_eq_none {s : List α} :
    F.next? s = none ↔
      s.length < F.width ∨ (s.drop F.width).length < F.size (s.take F.width) := by
  unfold next?
  by_cases hw : F.width ≤ s.length
  · rw [if_pos hw]
    dsimp only
    split
    · simp only [reduceCtorEq, false_iff]
      omega
    · simp only [true_iff]
      omega
  · rw [if_neg hw]
    simp only [true_iff]
    omega

theorem next?_append {s rest : List α} (hs : s.length = F.width)
    (hr : F.size s ≤ rest.length) :
    F.next? (s ++ rest) = some (rest.take (F.size s), rest.drop (F.size s)) := by
  unfold next?
  rw [if_pos (by rw [List.length_append]; omega), ← hs, List.drop_left, List.take_left]
  exact if_pos hr

theorem next?_encode {body : List α} (h : body.length < F.limit) (rest : List α) :
    F.next? (F.encode body ++ rest) = some (body, rest) := by
  have hsize := F.size_header _ h
  rw [encode, List.append_assoc, next?_append F (F.header_length _)
    (by rw [hsize, List.length_append]; omega), hsize, List.take_left, List.drop_left]

/-- A frame that is not complete yet cannot be taken. -/
theorem next?_eq_none_of_prefix {s body : List α} (h : body.length < F.limit)
    (hs : s <+: F.encode body) (hlt : s.length < (F.encode body).length) : F.next? s = none := by
  rw [encode_length] at hlt
  obtain ⟨tail, htail⟩ := hs
  rw [next?_eq_none]
  by_cases hw : s.length < F.width
  · exact .inl hw
  · right
    have htake : s.take F.width = F.header body.length := by
      have hhead := congrArg (List.take F.width) htail
      rwa [List.take_append_of_le_length (by omega), encode,
        List.take_left' (F.header_length _)] at hhead
    rw [htake, F.size_header _ h, List.length_drop]
    omega

/-- What a stream of whole frames starts with is its first frame. -/
theorem head_of_frames {m rest tail : List α} {G : List (List α)} (hm : m.length < F.limit)
    (hG : ∀ g ∈ G, g.length < F.limit) (htail : F.next? tail = none)
    (h : F.encode m ++ rest = (G.map F.encode).flatten ++ tail) :
    ∃ G', G = m :: G' ∧ rest = (G'.map F.encode).flatten ++ tail := by
  have hnext := F.next?_encode hm rest
  rw [h] at hnext
  cases G with
  | nil =>
      rw [List.map_nil, List.flatten_nil, List.nil_append, htail] at hnext
      contradiction
  | cons g G' =>
      rw [List.map_cons, List.flatten_cons, List.append_assoc,
        F.next?_encode (hG g List.mem_cons_self)] at hnext
      cases hnext
      exact ⟨G', rfl, rfl⟩

/-- A shorter stream than the fuel is cut completely. -/
theorem cutFuel_eq_cut {fuel : Nat} {s : List α} (h : s.length ≤ fuel) :
    F.cutFuel fuel s = F.cut s := by
  suffices hs : ∀ k, ∀ s : List α, s.length ≤ k → ∀ fuel, s.length ≤ fuel →
      F.cutFuel fuel s = F.cutFuel k s from hs _ s (Nat.le_refl _) fuel h
  intro k
  induction k with
  | zero =>
      intro s hs fuel _
      have hn : F.next? s = none := by
        have hw := F.width_pos
        rw [next?, if_neg (by omega)]
      cases fuel <;> simp [cutFuel, hn]
  | succ k ih =>
      intro s hs fuel hf
      cases fuel with
      | zero =>
          have hn : F.next? s = none := by
            have hw := F.width_pos
            rw [next?, if_neg (by omega)]
          simp [cutFuel, hn]
      | succ fuel =>
          simp only [cutFuel]
          cases hn : F.next? s with
          | none => rfl
          | some p =>
              obtain ⟨body, rest⟩ := p
              have hl := F.next?_rest_length hn
              dsimp only
              rw [ih rest (by omega) fuel (by omega)]

theorem cut_of_next?_none {s : List α} (h : F.next? s = none) : F.cut s = [] := by
  cases s with
  | nil => rfl
  | cons a s => simp [cut, cutFuel, h]

theorem cut_of_next?_some {s body rest : List α} (h : F.next? s = some (body, rest)) :
    F.cut s = body :: F.cut rest := by
  have hl := F.next?_rest_length h
  obtain ⟨n, hn⟩ : ∃ n, s.length = n + 1 := ⟨s.length - 1, by omega⟩
  rw [cut, hn, cutFuel, h]
  dsimp only
  rw [F.cutFuel_eq_cut (by omega)]

end Framing

end Tflib.Core
