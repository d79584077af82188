import Mathlib.Logic.Relation

/-! # Labelled transition machines

A machine is a step function together with the events the environment may offer
in a state. Runs keep their event list, so a fact about every interleaving is
a fact about every run. The rules below are the only inductions over runs that
the later modules use.
-/

namespace Tflib.Core

universe u v

/-- `step s e` is the state after event `e`; `admits s e` says that the
environment may offer `e` in `s`. -/
structure Machine (σ : Type u) (ε : Type v) where
  step : σ → ε → σ
  admits : σ → ε → Prop

namespace Machine

variable {σ : Type u} {ε : Type v}

/-- `Runs M s es t`: the admitted events `es`, in order, lead from `s` to `t`. -/
inductive Runs (M : Machine σ ε) : σ → List ε → σ → Prop
  | nil (s : σ) : Runs M s [] s
  | cons {s t : σ} {e : ε} {es : List ε} :
      M.admits s e → Runs M (M.step s e) es t → Runs M s (e :: es) t

/-- Some run leads from `s` to `t`. -/
def Reaches (M : Machine σ ε) (s t : σ) : Prop := ∃ es, M.Runs s es t

theorem Runs.append {M : Machine σ ε} {s t u : σ} {es fs : List ε}
    (h : M.Runs s es t) (k : M.Runs t fs u) : M.Runs s (es ++ fs) u := by
  induction h with
  | nil s => exact k
  | cons admitted _ ih => exact .cons admitted (ih k)

theorem Runs.single {M : Machine σ ε} {s : σ} {e : ε} (h : M.admits s e) :
    M.Runs s [e] (M.step s e) := .cons h (.nil _)

theorem Reaches.refl (M : Machine σ ε) (s : σ) : M.Reaches s s := ⟨[], .nil s⟩

theorem Reaches.step {M : Machine σ ε} {s t : σ} {e : ε} (h : M.Reaches s t)
    (admitted : M.admits t e) : M.Reaches s (M.step t e) := by
  obtain ⟨es, h⟩ := h
  exact ⟨es ++ [e], h.append (.single admitted)⟩

theorem Reaches.trans {M : Machine σ ε} {s t u : σ} (h : M.Reaches s t) (k : M.Reaches t u) :
    M.Reaches s u := by
  obtain ⟨es, h⟩ := h
  obtain ⟨fs, k⟩ := k
  exact ⟨es ++ fs, h.append k⟩

/-- The events are admitted one after the other. -/
def AdmitsAll (M : Machine σ ε) : σ → List ε → Prop
  | _, [] => True
  | s, e :: es => M.admits s e ∧ M.AdmitsAll (M.step s e) es

instance decidableAdmitsAll (M : Machine σ ε) [∀ s e, Decidable (M.admits s e)] :
    (s : σ) → (es : List ε) → Decidable (M.AdmitsAll s es)
  | _, [] => inferInstanceAs (Decidable True)
  | s, e :: es =>
      have := decidableAdmitsAll M (M.step s e) es
      inferInstanceAs (Decidable (_ ∧ _))

/-- A run on given events can be checked by evaluation. -/
theorem Runs.of_admitsAll {M : Machine σ ε} {s : σ} {es : List ε} (h : M.AdmitsAll s es) :
    M.Runs s es (es.foldl M.step s) := by
  induction es generalizing s with
  | nil => exact .nil s
  | cons e es ih => exact .cons h.1 (ih h.2)

/-- What one admitted step preserves, a whole run preserves. -/
theorem Runs.invariant {M : Machine σ ε} {I : σ → Prop}
    (preserved : ∀ s e, I s → M.admits s e → I (M.step s e))
    {s t : σ} {es : List ε} (h : M.Runs s es t) (initial : I s) : I t := by
  induction h with
  | nil s => exact initial
  | cons admitted _ ih => exact ih (preserved _ _ initial admitted)

theorem Reaches.invariant {M : Machine σ ε} {I : σ → Prop}
    (preserved : ∀ s e, I s → M.admits s e → I (M.step s e))
    {s t : σ} (h : M.Reaches s t) (initial : I s) : I t := by
  obtain ⟨_, h⟩ := h
  exact h.invariant preserved initial

/-- The machine that is offered only the events which also satisfy `c`. -/
def restrict (M : Machine σ ε) (c : σ → ε → Prop) : Machine σ ε where
  step := M.step
  admits := fun s e => M.admits s e ∧ c s e

instance (M : Machine σ ε) (c : σ → ε → Prop) [∀ s e, Decidable (M.admits s e)]
    [∀ s e, Decidable (c s e)] (s : σ) (e : ε) : Decidable ((M.restrict c).admits s e) :=
  inferInstanceAs (Decidable (_ ∧ _))

theorem Runs.of_restrict {M : Machine σ ε} {c : σ → ε → Prop} {s t : σ} {es : List ε}
    (h : (M.restrict c).Runs s es t) : M.Runs s es t := by
  induction h with
  | nil s => exact .nil s
  | cons admitted _ ih => exact .cons admitted.1 ih

/-- Every event of a run was admitted where it happened. -/
theorem Runs.exists_admitted {M : Machine σ ε} {s t : σ} {es : List ε} (h : M.Runs s es t) {e : ε}
    (he : e ∈ es) : ∃ u, M.admits u e := by
  induction h with
  | nil s => exact absurd he List.not_mem_nil
  | @cons s t f es admitted hrest ih =>
      rcases List.mem_cons.mp he with rfl | hmem
      · exact ⟨s, admitted⟩
      · exact ih hmem

/-- A run whose events all satisfy `c` wherever they happen. -/
theorem Runs.restrict {M : Machine σ ε} {c : σ → ε → Prop} {s t : σ} {es : List ε}
    (h : M.Runs s es t) (hc : ∀ e ∈ es, ∀ s, c s e) : (M.restrict c).Runs s es t := by
  induction h with
  | nil s => exact .nil s
  | @cons s t e es admitted hrest ih =>
      exact .cons ⟨admitted, hc e List.mem_cons_self s⟩
        (ih fun f hf => hc f (List.mem_cons_of_mem e hf))

/-- Partial operations that keep up with a machine: as long as the machine
admits the events, the operations do not fault and stay related to it. -/
theorem Runs.simulate {τ : Type*} {M : Machine σ ε} {op : τ → ε → Option τ} {R : τ → σ → Prop}
    (matched : ∀ c s e, R c s → M.admits s e → ∃ c', op c e = some c' ∧ R c' (M.step s e))
    {s t : σ} {es : List ε} (h : M.Runs s es t) {c : τ} (initial : R c s) :
    ∃ c', es.foldlM op c = some c' ∧ R c' t := by
  induction h generalizing c with
  | nil s => exact ⟨c, rfl, initial⟩
  | @cons s t e es admitted hrest ih =>
      obtain ⟨d, hop, hd⟩ := matched c s e initial admitted
      obtain ⟨c', hfold, hc'⟩ := ih hd
      refine ⟨c', ?_, hc'⟩
      rw [List.foldlM_cons, hop]
      exact hfold

/-- Where a list of partial operations succeeds, each of them does. -/
theorem exists_of_foldlM {τ : Type*} {op : τ → ε → Option τ} {es : List ε} {c d : τ}
    (h : es.foldlM op c = some d) {e : ε} (he : e ∈ es) : ∃ c' d', op c' e = some d' := by
  induction es generalizing c with
  | nil => exact absurd he List.not_mem_nil
  | cons f es ih =>
      rw [List.foldlM_cons, Option.bind_eq_bind, Option.bind_eq_some_iff] at h
      obtain ⟨next, hop, hrest⟩ := h
      rcases List.mem_cons.mp he with rfl | hmem
      · exact ⟨c, next, hop⟩
      · exact ih hrest hmem

end Machine

end Tflib.Core
