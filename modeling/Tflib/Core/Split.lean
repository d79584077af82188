import Mathlib.Algebra.Ring.Nat
import Mathlib.Data.List.Basic

/-! # Pieces of a list

What a list is cut into at the elements that satisfy a predicate, and what it is
joined from again.
-/

namespace Tflib.Core

universe u

variable {α : Type u} {p : α → Bool}

theorem splitOnP_length (xs : List α) : (xs.splitOnP p).length = xs.countP p + 1 := by
  induction xs with
  | nil => rfl
  | cons x xs ih =>
      rw [List.splitOnP_cons_eq_if_modifyHead, List.countP_cons]
      by_cases hx : p x = true
      · rw [if_pos hx, if_pos hx, List.length_cons, ih]
      · rw [if_neg hx, if_neg hx, List.length_modifyHead, ih]

/-- No piece has an element that the list was cut at. -/
theorem splitOnP_free {xs piece : List α} (h : piece ∈ xs.splitOnP p) : ∀ x ∈ piece, p x = false := by
  induction xs generalizing piece with
  | nil =>
      rw [List.splitOnP_nil, List.mem_singleton] at h
      rw [h]
      exact fun x hx => absurd hx List.not_mem_nil
  | cons y xs ih =>
      rw [List.splitOnP_cons_eq_if_modifyHead] at h
      obtain ⟨first, rest, hpieces⟩ := List.exists_cons_of_ne_nil (List.splitOnP_ne_nil p xs)
      by_cases hy : p y = true
      · rw [if_pos hy] at h
        rcases List.mem_cons.mp h with rfl | hmem
        · exact fun x hx => absurd hx List.not_mem_nil
        · exact ih hmem
      · rw [if_neg hy, hpieces, List.modifyHead_cons] at h
        rw [hpieces] at ih
        rcases List.mem_cons.mp h with rfl | hmem
        · intro x hx
          rcases List.mem_cons.mp hx with rfl | hx
          · simpa using hy
          · exact ih List.mem_cons_self x hx
        · exact ih (List.mem_cons_of_mem first hmem)

theorem prefix_first {xs first : List α} {rest : List (List α)} (h : xs.splitOnP p = first :: rest) :
    first <+: xs := by
  induction xs generalizing first rest with
  | nil =>
      rw [List.splitOnP_nil, List.cons.injEq] at h
      exact h.1.symm ▸ List.prefix_rfl
  | cons x xs ih =>
      rw [List.splitOnP_cons_eq_if_modifyHead] at h
      obtain ⟨front, behind, hpieces⟩ := List.exists_cons_of_ne_nil (List.splitOnP_ne_nil p xs)
      by_cases hx : p x = true
      · rw [if_pos hx, List.cons.injEq] at h
        rw [← h.1]
        exact List.nil_prefix
      · rw [if_neg hx, hpieces, List.modifyHead_cons, List.cons.injEq] at h
        rw [← h.1]
        exact List.cons_prefix_cons.mpr ⟨rfl, ih hpieces⟩

theorem infix_of_splitOnP {xs piece : List α} (h : piece ∈ xs.splitOnP p) : piece <:+: xs := by
  induction xs generalizing piece with
  | nil =>
      rw [List.splitOnP_nil, List.mem_singleton] at h
      exact h ▸ List.infix_rfl
  | cons x xs ih =>
      obtain ⟨first, rest, hpieces⟩ := List.exists_cons_of_ne_nil (List.splitOnP_ne_nil p (x :: xs))
      have hcut := List.splitOnP_cons_eq_if_modifyHead (p := p) x xs
      rw [hpieces] at h hcut
      rcases List.mem_cons.mp h with rfl | hrest
      · exact (prefix_first hpieces).isInfix
      · obtain ⟨front, behind, hxs⟩ := List.exists_cons_of_ne_nil (List.splitOnP_ne_nil p xs)
        refine List.infix_cons (ih ?_)
        rw [hxs] at hcut ⊢
        by_cases hx : p x = true
        · rw [if_pos hx, List.cons.injEq] at hcut
          rwa [← hcut.2]
        · rw [if_neg hx, List.modifyHead_cons, List.cons.injEq] at hcut
          rw [hcut.2] at hrest
          exact List.mem_cons_of_mem front hrest

/-- What is not cut lies in the first piece if it lies in front. -/
theorem prefix_piece {xs run : List α} (h : run <+: xs) (free : ∀ x ∈ run, p x = false) :
    ∃ first rest, xs.splitOnP p = first :: rest ∧ run <+: first := by
  induction xs generalizing run with
  | nil => exact ⟨[], [], List.splitOnP_nil, h⟩
  | cons x xs ih =>
      obtain ⟨first, rest, hpieces⟩ := List.exists_cons_of_ne_nil (List.splitOnP_ne_nil p (x :: xs))
      cases run with
      | nil => exact ⟨first, rest, hpieces, List.nil_prefix⟩
      | cons y run =>
          obtain ⟨rfl, hrun⟩ := List.cons_prefix_cons.mp h
          obtain ⟨front, behind, hxs, hfront⟩ := ih hrun fun z hz => free z (List.mem_cons_of_mem y hz)
          refine ⟨y :: front, behind, ?_, List.cons_prefix_cons.mpr ⟨rfl, hfront⟩⟩
          rw [List.splitOnP_cons_eq_if_modifyHead, if_neg (by simp [free y List.mem_cons_self]), hxs,
            List.modifyHead_cons]

/-- What is not cut lies in one piece. -/
theorem infix_piece {xs run : List α} (h : run <:+: xs) (free : ∀ x ∈ run, p x = false) :
    ∃ piece ∈ xs.splitOnP p, run <:+: piece := by
  induction xs with
  | nil =>
      refine ⟨[], ?_, h⟩
      rw [List.splitOnP_nil]
      exact List.mem_singleton_self []
  | cons x xs ih =>
      rcases List.infix_cons_iff.mp h with hfront | hbehind
      · obtain ⟨first, rest, hpieces, hrun⟩ := prefix_piece hfront free
        exact ⟨first, hpieces ▸ List.mem_cons_self, hrun.isInfix⟩
      · obtain ⟨piece, hpiece, hrun⟩ := ih hbehind
        obtain ⟨first, rest, hpieces⟩ := List.exists_cons_of_ne_nil (List.splitOnP_ne_nil p xs)
        rw [List.splitOnP_cons_eq_if_modifyHead]
        by_cases hx : p x = true
        · rw [if_pos hx]
          exact ⟨piece, List.mem_cons_of_mem [] hpiece, hrun⟩
        · rw [if_neg hx, hpieces, List.modifyHead_cons]
          rw [hpieces] at hpiece
          rcases List.mem_cons.mp hpiece with rfl | hrest
          · exact ⟨x :: piece, List.mem_cons_self, List.infix_cons hrun⟩
          · exact ⟨piece, List.mem_cons_of_mem _ hrest, hrun⟩

/-- There is only one way to cut a list into pieces without the elements that it is cut at. -/
theorem splitOnP_unique {xss : List (List α)} {ds : List α} (hcount : xss.length = ds.length + 1)
    (free : ∀ xs ∈ xss, ∀ x ∈ xs, p x = false) (cut : ∀ d ∈ ds, p d = true) :
    (List.zipWith (· ++ ·) xss (ds.map (fun d => [d]) ++ [[]])).flatten.splitOnP p = xss := by
  induction ds generalizing xss with
  | nil =>
      obtain ⟨xs, rfl⟩ := List.length_eq_one_iff.mp hcount
      rw [List.map_nil, List.nil_append, List.zipWith_cons_cons, List.append_nil]
      exact (congrArg (List.splitOnP p) (List.append_nil xs)).trans
        (List.splitOnP_eq_singleton (free xs (List.mem_singleton_self xs)))
  | cons d ds ih =>
      cases xss with
      | nil => cases hcount
      | cons xs xss =>
          rw [List.map_cons, List.cons_append, List.zipWith_cons_cons, List.flatten_cons,
            List.append_assoc, List.singleton_append,
            List.splitOnP_append_cons _ _ (cut d List.mem_cons_self),
            List.splitOnP_eq_singleton (free xs List.mem_cons_self),
            ih (Nat.succ.inj hcount) (fun ys hys => free ys (List.mem_cons_of_mem xs hys))
              (fun y hy => cut y (List.mem_cons_of_mem d hy))]
          rfl

/-- Joining one piece more. -/
theorem intercalate_concat (sep : List α) (xss : List (List α)) (ys : List α) :
    sep.intercalate (xss ++ [ys]) = if xss = [] then ys else sep.intercalate xss ++ (sep ++ ys) := by
  induction xss with
  | nil => exact List.intercalate_singleton
  | cons xs xss ih =>
      rw [if_neg (List.cons_ne_nil xs xss), List.cons_append,
        List.intercalate_cons_of_ne_nil (by simp), ih]
      split
      · rename_i hnil
        rw [hnil, List.intercalate_singleton, List.append_assoc]
      · rename_i hmore
        rw [List.intercalate_cons_of_ne_nil hmore]
        simp only [List.append_assoc]

theorem length_intercalate (sep : α) {xss : List (List α)} (h : xss ≠ []) :
    ([sep].intercalate xss).length + 1 = (xss.map List.length).sum + xss.length := by
  induction xss with
  | nil => exact absurd rfl h
  | cons xs xss ih =>
      by_cases hmore : xss = []
      · rw [hmore, List.intercalate_singleton]
        simp
      · rw [List.intercalate_cons_of_ne_nil hmore]
        have hrest := ih hmore
        simp only [List.length_append, List.map_cons, List.sum_cons, List.length_cons,
          List.length_nil] at hrest ⊢
        omega

theorem mem_intercalate {sep : α} {xss : List (List α)} {x : α} (h : x ∈ [sep].intercalate xss) :
    x = sep ∨ ∃ xs ∈ xss, x ∈ xs := by
  induction xss with
  | nil => exact absurd h List.not_mem_nil
  | cons xs xss ih =>
      by_cases hmore : xss = []
      · rw [hmore, List.intercalate_singleton] at h
        exact .inr ⟨xs, List.mem_cons_self, h⟩
      · rw [List.intercalate_cons_of_ne_nil hmore, List.mem_append, List.mem_append,
          List.mem_singleton] at h
        rcases h with (hx | rfl) | hx
        · exact .inr ⟨xs, List.mem_cons_self, hx⟩
        · exact .inl rfl
        · rcases ih hx with rfl | ⟨ys, hys, hx⟩
          · exact .inl rfl
          · exact .inr ⟨ys, List.mem_cons_of_mem xs hys, hx⟩

end Tflib.Core
