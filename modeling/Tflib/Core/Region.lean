import Mathlib.Data.List.Basic

/-! # Allocated regions

A region is what one allocation holds, cell by cell; a cell that nobody has
written yet is `none`. Every access is checked: `none` as the result of an
access means that it left the region.
-/

namespace Tflib.Core

universe u

abbrev Region (α : Type u) := List (Option α)

namespace Region

variable {α : Type u}

/-- A new region of `n` cells. -/
def fresh (n : Nat) : Region α := List.replicate n none

/-- `realloc`: the cells that still fit are kept. -/
def resize (r : Region α) (n : Nat) : Region α := r.take n ++ fresh (n - r.length)

def load (r : Region α) (i n : Nat) : Option (List (Option α)) :=
  if i + n ≤ r.length then some ((r.drop i).take n) else none

/-- `memcpy` to cell `i`. -/
def store (r : Region α) (i : Nat) (cells : List (Option α)) : Option (Region α) :=
  if i + cells.length ≤ r.length then some (r.take i ++ cells ++ r.drop (i + cells.length)) else none

/-- The value in cell `i`; an unwritten cell has none. -/
def get (r : Region α) (i : Nat) : Option α := r[i]?.join

/-- The region begins with the values `xs`. -/
def Begins (r : Region α) (xs : List α) : Prop := xs.map some <+: r

@[simp] theorem fresh_length (n : Nat) : (fresh n : Region α).length = n := List.length_replicate

theorem resize_length (r : Region α) (n : Nat) : (r.resize n).length = n := by
  simp only [resize, List.length_append, List.length_take, fresh_length]
  omega

theorem load_of_le {r : Region α} {i n : Nat} (h : i + n ≤ r.length) :
    r.load i n = some ((r.drop i).take n) := if_pos h

theorem store_of_le {r : Region α} {i : Nat} {cells : List (Option α)}
    (h : i + cells.length ≤ r.length) :
    r.store i cells = some (r.take i ++ cells ++ r.drop (i + cells.length)) := if_pos h

theorem le_of_store {r r' : Region α} {i : Nat} {cells : List (Option α)}
    (h : r.store i cells = some r') : i + cells.length ≤ r.length := by
  unfold store at h
  split at h
  · assumption
  · contradiction

theorem store_length {r r' : Region α} {i : Nat} {cells : List (Option α)}
    (h : r.store i cells = some r') : r'.length = r.length := by
  unfold store at h
  split at h
  · cases h
    simp only [List.length_append, List.length_take, List.length_drop]
    omega
  · contradiction

/-- The cells behind those that are stored stay. -/
theorem store_drop {r r' : Region α} {i : Nat} {cells : List (Option α)}
    (h : r.store i cells = some r') {k : Nat} (hk : i + cells.length ≤ k) : r'.drop k = r.drop k := by
  have hle := le_of_store h
  rw [store_of_le hle] at h
  cases h
  have hfront : (r.take i ++ cells).length = i + cells.length := by
    rw [List.length_append, List.length_take, Nat.min_eq_left (by omega)]
  obtain ⟨d, rfl⟩ := Nat.exists_eq_add_of_le hk
  rw [← List.drop_drop, ← hfront, List.drop_left, List.drop_drop]

theorem Begins.length_le {r : Region α} {xs : List α} (h : r.Begins xs) :
    xs.length ≤ r.length := by
  have hlen := List.IsPrefix.length_le h
  rwa [List.length_map] at hlen

theorem Begins.of_append {r : Region α} {xs ys : List α} (h : r.Begins (xs ++ ys)) :
    r.Begins xs := by
  refine List.IsPrefix.trans ?_ h
  rw [List.map_append]
  exact List.prefix_append _ _

theorem Begins.drop {r : Region α} {xs ys : List α} (h : r.Begins (xs ++ ys)) :
    Begins (r.drop xs.length) ys := by
  obtain ⟨rest, rfl⟩ := h
  rw [List.map_append, List.append_assoc, List.drop_left' (List.length_map _)]
  exact List.prefix_append _ _

theorem Begins.take {r : Region α} {xs : List α} (h : r.Begins xs) :
    r.take xs.length = xs.map some := by
  have hpre := List.prefix_iff_eq_take.mp h
  rw [List.length_map] at hpre
  exact hpre.symm

theorem Begins.get {r : Region α} {xs : List α} {x : α} (h : r.Begins (xs ++ [x])) :
    r.get xs.length = some x := by
  obtain ⟨rest, rfl⟩ := h
  simp [Region.get]

/-- The value behind some others, with more behind it. -/
theorem Begins.get_middle {r : Region α} {xs ys : List α} {x : α} (h : r.Begins (xs ++ x :: ys)) :
    r.get xs.length = some x := by
  rw [List.append_cons] at h
  exact h.of_append.get

theorem Begins.load {r : Region α} {xs : List α} (h : r.Begins xs) :
    r.load 0 xs.length = some (xs.map some) := by
  rw [load_of_le (by rw [Nat.zero_add]; exact h.length_le), List.drop_zero, h.take]

theorem Begins.resize {r : Region α} {xs : List α} (h : r.Begins xs) {n : Nat}
    (hn : xs.length ≤ n) : (r.resize n).Begins xs := by
  obtain ⟨rest, rfl⟩ := h
  rw [Region.resize, List.take_append, List.take_of_length_le (by rw [List.length_map]; exact hn)]
  rw [List.append_assoc]
  exact List.prefix_append _ _

theorem Begins.get_index {r : Region α} {xs : List α} (h : r.Begins xs) {i : Nat}
    (hi : i < xs.length) : r.get i = xs[i]? := by
  obtain ⟨rest, rfl⟩ := h
  rw [Region.get, List.getElem?_append_left (by rwa [List.length_map]), List.getElem?_map,
    List.getElem?_eq_getElem hi]
  rfl

/-- A part of what the region begins with. -/
theorem Begins.load_part {r : Region α} {xs ys zs : List α} (h : r.Begins (xs ++ (ys ++ zs))) :
    r.load xs.length ys.length = some (ys.map some) := by
  have hlen := h.length_le
  rw [List.length_append, List.length_append] at hlen
  obtain ⟨rest, rfl⟩ := h
  rw [load_of_le (by omega), List.map_append, List.append_assoc, List.drop_left' (List.length_map _),
    List.map_append, List.append_assoc, List.take_left' (List.length_map _)]

/-- Values stored over a part of what the region begins with, or behind it. -/
theorem Begins.overwrite {r : Region α} {xs ys : List α} (h : r.Begins (xs ++ ys)) (zs : List α)
    (room : xs.length + zs.length ≤ r.length) :
    ∃ r', r.store xs.length (zs.map some) = some r' ∧ r'.length = r.length ∧
      r'.Begins (xs ++ zs) := by
  have hroom : xs.length + (zs.map some).length ≤ r.length := by rwa [List.length_map]
  have hstore := store_of_le hroom
  refine ⟨_, hstore, store_length hstore, ?_⟩
  rw [h.of_append.take, Begins, List.map_append]
  exact List.prefix_append _ _

/-- Values stored behind what the region begins with. -/
theorem Begins.store {r : Region α} {xs : List α} (h : r.Begins xs) (ys : List α)
    (room : xs.length + ys.length ≤ r.length) :
    ∃ r', r.store xs.length (ys.map some) = some r' ∧ r'.length = r.length ∧
      r'.Begins (xs ++ ys) := by
  rw [← List.append_nil xs] at h
  exact h.overwrite ys room

/-- Storing cells over as many others changes nothing in front of them or behind. -/
theorem store_middle (front old cells behind : Region α) (h : old.length = cells.length) :
    Region.store (front ++ (old ++ behind)) front.length cells =
      some (front ++ (cells ++ behind)) := by
  have hroom : front.length + cells.length ≤ (front ++ (old ++ behind)).length := by
    simp only [List.length_append]
    omega
  rw [store_of_le hroom, List.take_left, List.append_assoc, ← List.drop_drop, List.drop_left,
    List.drop_left' h]

/-- Values stored behind others, over the first cells of what follows them. -/
theorem store_behind (xs ys : List α) (rest : Region α) (h : ys.length ≤ rest.length) :
    Region.store (xs.map some ++ rest) xs.length (ys.map some) =
      some ((xs ++ ys).map some ++ rest.drop ys.length) := by
  have hold : (rest.take ys.length).length = (ys.map some).length := by
    rw [List.length_take, List.length_map]
    omega
  have hstore := store_middle (xs.map some) (rest.take ys.length) (ys.map some) (rest.drop ys.length) hold
  rw [List.take_append_drop, List.length_map] at hstore
  rw [hstore, List.map_append, List.append_assoc]

/-- Values stored at a place, and then others over everything in front of them. -/
theorem store_store_front (r : Region α) (ys xs : List α) (room : ys.length + xs.length ≤ r.length) :
    ∃ moved r', r.store ys.length (xs.map some) = some moved ∧ moved.store 0 (ys.map some) = some r' ∧
      r'.length = r.length ∧ r'.Begins (ys ++ xs) := by
  have hroom : ys.length + (xs.map some).length ≤ r.length := by rwa [List.length_map]
  have hstore := store_of_le hroom
  rw [List.append_assoc] at hstore
  have hfront : (r.take ys.length).length = (ys.map some).length := by
    rw [List.length_take, List.length_map]
    omega
  have hput := store_middle [] (r.take ys.length) (ys.map some)
    (xs.map some ++ r.drop (ys.length + (xs.map some).length)) hfront
  rw [List.nil_append, List.length_nil] at hput
  refine ⟨_, _, hstore, hput, (store_length hput).trans (store_length hstore), ?_⟩
  rw [List.nil_append, ← List.append_assoc, Begins, List.map_append]
  exact List.prefix_append _ _

/-- What stands behind a replaced value stays. -/
theorem Begins.replace {r : Region α} {xs ys : List α} {x : α} (h : r.Begins (xs ++ x :: ys))
    (y : α) : ∃ r', r.store xs.length [some y] = some r' ∧ r'.length = r.length ∧
      r'.Begins (xs ++ y :: ys) := by
  obtain ⟨rest, rfl⟩ := h
  have hstore := store_middle (xs.map some) [some x] [some y] (ys.map some ++ rest) rfl
  refine ⟨xs.map some ++ ([some y] ++ (ys.map some ++ rest)), ?_, ?_, rest, ?_⟩
  · simpa using hstore
  · simp
  · simp

/-- Moving the values from a place on by one cell leaves room for a new one. -/
theorem Begins.insert {r : Region α} {xs ys : List α} (h : r.Begins (xs ++ ys))
    (room : xs.length + ys.length < r.length) (x : α) :
    ∃ moved r', r.store (xs.length + 1) (ys.map some) = some moved ∧
      moved.store xs.length [some x] = some r' ∧ r'.length = r.length ∧
      r'.Begins (xs ++ x :: ys) := by
  obtain ⟨rest, rfl⟩ := h
  have hrest : ys.length < (ys.map some ++ rest).length := by
    simp only [List.length_append, List.length_map] at room ⊢
    omega
  obtain ⟨cell, tail, htail⟩ := List.exists_cons_of_length_pos (Nat.zero_lt_of_lt hrest)
  rw [htail, List.length_cons] at hrest
  have hold : (tail.take ys.length).length = (ys.map some).length := by
    rw [List.length_take, List.length_map]
    omega
  have hmove := store_middle (xs.map some ++ [cell]) (tail.take ys.length) (ys.map some)
    (tail.drop ys.length) hold
  have hput := store_middle (xs.map some) [cell] [some x] (ys.map some ++ tail.drop ys.length) rfl
  have hcells : (xs ++ ys).map some ++ rest =
      xs.map some ++ [cell] ++ (tail.take ys.length ++ tail.drop ys.length) := by
    rw [List.map_append, List.append_assoc, htail, List.take_append_drop, List.append_assoc]
    rfl
  have hplace : (xs.map some ++ [cell]).length = xs.length + 1 := by
    rw [List.length_append, List.length_map, List.length_singleton]
  rw [hplace] at hmove
  rw [List.length_map, ← List.append_assoc] at hput
  refine ⟨_, _, hcells ▸ hmove, hput, ?_, tail.drop ys.length, ?_⟩
  · rw [store_length hput, store_length hmove, hcells]
  · simp

/-- Moving the values behind a place back by one cell drops the value at that place. -/
theorem Begins.remove {r : Region α} {xs ys : List α} {x : α} (h : r.Begins (xs ++ x :: ys)) :
    r.load (xs.length + 1) ys.length = some (ys.map some) ∧
      ∃ r', r.store xs.length (ys.map some) = some r' ∧ r'.length = r.length ∧
        r'.Begins (xs ++ ys) := by
  have hlen := h.length_le
  rw [List.length_append, List.length_cons] at hlen
  refine ⟨?_, h.overwrite ys (by omega)⟩
  have hpart : r.Begins ((xs ++ [x]) ++ (ys ++ [])) := by
    rwa [List.append_nil, List.append_assoc]
  have hload := hpart.load_part
  rwa [List.length_append, List.length_singleton] at hload

theorem begins_nil (r : Region α) : r.Begins [] := List.nil_prefix

end Region

end Tflib.Core
