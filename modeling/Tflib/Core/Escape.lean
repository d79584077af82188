import Mathlib.Data.List.Basic

/-! # Escaped texts

Each value of a text is written as a piece of its own, and reading takes the
pieces off again. A value may also be left out.
-/

namespace Tflib.Core.Escape

universe u v

variable {α : Type u} {β : Type v}

/-- `read` takes the piece of a value off, whatever text follows it; the values that are not kept have
no piece. -/
structure Reads (write : α → List β) (keep : α → Bool) (read : List β → List α) : Prop where
  nil : read [] = []
  kept : ∀ a, keep a = true → ∀ rest, read (write a ++ rest) = a :: read rest
  dropped : ∀ a, keep a = false → write a = []

section Reads

variable {write : α → List β} {keep : α → Bool} {read : List β → List α}

theorem Reads.flatMap (h : Reads write keep read) (xs : List α) :
    read (xs.flatMap write) = xs.filter keep := by
  induction xs with
  | nil => exact h.nil
  | cons a xs ih =>
      rw [List.flatMap_cons]
      cases hk : keep a with
      | true => rw [h.kept a hk, ih, List.filter_cons_of_pos hk]
      | false => rw [h.dropped a hk, List.nil_append, ih, List.filter_cons_of_neg (by simp [hk])]

/-- Texts that are written alike agree in the values that are kept. -/
theorem Reads.injective (h : Reads write keep read) {xs ys : List α}
    (heq : xs.flatMap write = ys.flatMap write) : xs.filter keep = ys.filter keep := by
  rw [← h.flatMap, heq, h.flatMap]

end Reads

/-! ## Marks -/

/-- Where `m` stands only at the head of a piece, every `m` of a text begins the piece of one of its
values. -/
theorem mark_begins {write : α → List β} {m : β} (hmark : ∀ a, m ∉ (write a).tail) {xs : List α}
    {front behind : List β} (h : xs.flatMap write = front ++ m :: behind) :
    ∃ a ∈ xs, write a <+: m :: behind ∧ (write a).head? = some m := by
  induction xs generalizing front with
  | nil =>
      rw [List.flatMap_nil] at h
      exact absurd h.symm (List.append_ne_nil_of_right_ne_nil front (List.cons_ne_nil m behind))
  | cons a xs ih =>
      rw [List.flatMap_cons] at h
      rcases List.append_eq_append_iff.mp h with ⟨mid, hfront, hrest⟩ | ⟨mid, hpiece, hrest⟩
      · obtain ⟨b, hb, hbegins⟩ := ih hrest
        exact ⟨b, List.mem_cons_of_mem a hb, hbegins⟩
      · cases mid with
        | nil =>
            obtain ⟨b, hb, hbegins⟩ := @ih [] (by simpa using hrest.symm)
            exact ⟨b, List.mem_cons_of_mem a hb, hbegins⟩
        | cons d mid =>
            rw [List.cons_append, List.cons.injEq] at hrest
            obtain ⟨rfl, hbehind⟩ := hrest
            cases front with
            | nil =>
                refine ⟨a, List.mem_cons_self, ⟨xs.flatMap write, ?_⟩, ?_⟩
                · rw [hpiece, hbehind]
                  rfl
                · rw [hpiece]
                  rfl
            | cons e front =>
                refine absurd ?_ (hmark a)
                rw [hpiece, List.cons_append, List.tail_cons]
                exact List.mem_append_right front List.mem_cons_self

/-! ## Replacing codes -/

section Codes

variable [BEq α] (table : List (List α × α))

/-- Every code of the table is replaced by its value, from left to right. -/
def unescape : List α → List α
  | [] => []
  | c :: text =>
      match table.find? fun e => e.1.isPrefixOf (c :: text) with
      | some e => e.2 :: unescape (text.drop (e.1.length - 1))
      | none => c :: unescape text
termination_by text => text.length
decreasing_by
  · simp only [List.length_drop, List.length_cons]
    omega
  · simp

/-- No code begins another one. -/
def PrefixFree : Prop := ∀ e ∈ table, ∀ e' ∈ table, e.1 <+: e'.1 → e = e'

variable {table}

theorem find_code [LawfulBEq α] (hfree : PrefixFree table) {e : List α × α} (h : e ∈ table)
    (rest : List α) :
    (table.find? fun e' => e'.1.isPrefixOf (e.1 ++ rest)) = some e := by
  have hself : e.1.isPrefixOf (e.1 ++ rest) = true :=
    List.isPrefixOf_iff_prefix.mpr (List.prefix_append _ _)
  cases hfind : table.find? fun e' => e'.1.isPrefixOf (e.1 ++ rest) with
  | none =>
      have hnone := List.find?_eq_none.mp hfind e h
      exact absurd hself hnone
  | some e' =>
      have hmem := List.mem_of_find?_eq_some hfind
      have hprefix : e'.1 <+: e.1 ++ rest := by
        have hfound := List.find?_some hfind
        exact List.isPrefixOf_iff_prefix.mp hfound
      rcases List.prefix_or_prefix_of_prefix hprefix (List.prefix_append e.1 rest) with hle | hle
      · rw [hfree e' hmem e h hle]
      · rw [hfree e h e' hmem hle]

theorem unescape_code [LawfulBEq α] (hfree : PrefixFree table) {code : List α} {a : α}
    (h : (code, a) ∈ table) (hcode : code ≠ []) (rest : List α) :
    unescape table (code ++ rest) = a :: unescape table rest := by
  have hfind := find_code hfree h rest
  cases code with
  | nil => contradiction
  | cons c code =>
      dsimp only at hfind
      rw [List.cons_append] at hfind ⊢
      rw [unescape, hfind]
      simp

theorem unescape_plain [LawfulBEq α] {c : α} (h : ∀ e ∈ table, e.1 ≠ [] ∧ e.1.head? ≠ some c)
    (rest : List α) :
    unescape table (c :: rest) = c :: unescape table rest := by
  have hfind : (table.find? fun e => e.1.isPrefixOf (c :: rest)) = none := by
    refine List.find?_eq_none.mpr fun e he hprefix => ?_
    obtain ⟨hne, hhead⟩ := h e he
    obtain ⟨more, hmore⟩ := List.isPrefixOf_iff_prefix.mp hprefix
    cases hcode : e.1 with
    | nil => exact hne hcode
    | cons d code =>
        rw [hcode, List.cons_append, List.cons.injEq] at hmore
        rw [hcode, hmore.1] at hhead
        exact hhead rfl
  rw [unescape, hfind]

end Codes

end Tflib.Core.Escape
