import Mathlib.Data.List.Forall2
import Mathlib.Data.List.Basic

/-! # Pools of objects

A pool holds the objects that a program has made, and an operation names the
object it works on by its place. Two pools correspond when their objects do,
place by place.
-/

namespace Tflib.Core.Pool

universe u v

variable {α : Type u} {β : Type v} {R : α → β → Prop}

/-- A pool with one more object. -/
def create (pool : List α) (make : Option α) : Option (List α) := do
  let x ← make
  some (pool ++ [x])

/-- The object at place `i` after `op`. -/
def update (pool : List α) (i : Nat) (op : α → Option α) : Option (List α) := do
  let x ← pool[i]?
  let y ← op x
  some (pool.set i y)

theorem related_get {xs : List α} {ys : List β} (h : List.Forall₂ R xs ys) {i : Nat} {y : β}
    (hy : ys[i]? = some y) : ∃ x, xs[i]? = some x ∧ R x y := by
  induction h generalizing i with
  | nil => simp at hy
  | cons hab hrest ih =>
      cases i with
      | zero =>
          simp only [List.getElem?_cons_zero, Option.some.injEq] at hy
          subst hy
          exact ⟨_, rfl, hab⟩
      | succ i =>
          simp only [List.getElem?_cons_succ] at hy ⊢
          exact ih hy

theorem related_set {xs : List α} {ys : List β} (h : List.Forall₂ R xs ys) (i : Nat) {x : α} {y : β}
    (hxy : R x y) : List.Forall₂ R (xs.set i x) (ys.set i y) := by
  induction h generalizing i with
  | nil => exact .nil
  | cons hab hrest ih =>
      cases i with
      | zero => exact .cons hxy hrest
      | succ i => exact .cons hab (ih i)

theorem related_create {xs : List α} {ys : List β} (h : List.Forall₂ R xs ys) {make : Option α}
    {y : β} (made : ∃ x, make = some x ∧ R x y) :
    ∃ zs, create xs make = some zs ∧ List.Forall₂ R zs (ys ++ [y]) := by
  obtain ⟨x, rfl, hxy⟩ := made
  exact ⟨xs ++ [x], rfl, List.rel_append h (.cons hxy .nil)⟩

theorem related_update {xs : List α} {ys : List β} (h : List.Forall₂ R xs ys) {i : Nat}
    {op : α → Option α} {y z : β} (hy : ys[i]? = some y)
    (updated : ∀ x, R x y → ∃ x', op x = some x' ∧ R x' z) :
    ∃ zs, update xs i op = some zs ∧ List.Forall₂ R zs (ys.set i z) := by
  obtain ⟨x, hx, hxy⟩ := related_get h hy
  obtain ⟨x', hop, hz⟩ := updated x hxy
  refine ⟨xs.set i x', ?_, related_set h i hz⟩
  rw [update, hx]
  change (op x >>= fun y => some (xs.set i y)) = _
  rw [hop]
  rfl

end Tflib.Core.Pool
