import Mathlib.Data.Prod.Basic

/-! # Feistel networks

A round exchanges two halves and mixes into one of them what the round function
makes of the other. Nothing is asked of the round function: a network undoes
itself when its keys are taken in reverse.
-/

namespace Tflib.Core.Feistel

variable {α β κ ι : Type} {mix : α → α → α} {f : κ → α → α} {mix' : β → β → β} {g : ι → β → β}

/-- One round with the key `k`. -/
def round (mix : α → α → α) (f : κ → α → α) (b : α × α) (k : κ) : α × α :=
  (b.2, mix b.1 (f k b.2))

def run (mix : α → α → α) (f : κ → α → α) (ks : List κ) (b : α × α) : α × α :=
  ks.foldl (round mix f) b

@[simp] theorem run_nil (b : α × α) : run mix f [] b = b := rfl

@[simp] theorem run_cons (k : κ) (ks : List κ) (b : α × α) :
    run mix f (k :: ks) b = run mix f ks (round mix f b k) := rfl

theorem run_append (ks ks' : List κ) (b : α × α) :
    run mix f (ks ++ ks') b = run mix f ks' (run mix f ks b) := List.foldl_append

theorem round_swap_round (undo : ∀ a c, mix (mix a c) c = a) (b : α × α) (k : κ) :
    round mix f (round mix f b k).swap k = b.swap := by
  obtain ⟨l, r⟩ := b
  simp only [round, Prod.swap_prod_mk]
  rw [undo]

/-- The keys in reverse undo a network, up to the order of the halves. -/
theorem run_reverse (undo : ∀ a c, mix (mix a c) c = a) (ks : List κ) (b : α × α) :
    run mix f ks.reverse (run mix f ks b).swap = b.swap := by
  induction ks generalizing b with
  | nil => rfl
  | cons k ks ih =>
      rw [List.reverse_cons, run_append, run_cons, run_nil, run_cons, ih]
      exact round_swap_round undo b k

/-- A map of halves and one of keys that carry rounds to rounds carry networks to
networks. -/
theorem run_map {h : α → β} {c : κ → ι} {ks : List κ}
    (hround : ∀ k ∈ ks, ∀ a x, h (mix a (f k x)) = mix' (h a) (g (c k) (h x))) (b : α × α) :
    Prod.map h h (run mix f ks b) = run mix' g (ks.map c) (Prod.map h h b) := by
  induction ks generalizing b with
  | nil => rfl
  | cons k ks ih =>
      have hstep : Prod.map h h (round mix f b k) = round mix' g (Prod.map h h b) (c k) := by
        simp only [round, Prod.map]
        rw [hround k (List.mem_cons_self ..)]
      rw [run_cons, ih (fun k' hk' => hround k' (List.mem_cons_of_mem _ hk')), hstep]
      rfl

end Tflib.Core.Feistel
