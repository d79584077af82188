import Tflib.Core.Machine

/-! # What is observed of a run

A partial operation takes a state and an event to the next state and to what can
be observed of the event. Two states that are related for as long as a machine
admits the events show the same.
-/

namespace Tflib.Core

universe u v w

variable {σ : Type u} {ε : Type v} {ω : Type w} {op : σ → ε → Option (σ × ω)}

/-- The last state and what was observed; `none` is a fault. -/
def trace (op : σ → ε → Option (σ × ω)) : σ → List ε → Option (σ × List ω)
  | s, [] => some (s, [])
  | s, e :: es => do
      let (s, o) ← op s e
      let (s, os) ← trace op s es
      some (s, o :: os)

theorem trace_cons {s s' : σ} {e : ε} {o : ω} (h : op s e = some (s', o)) (es : List ε) :
    trace op s (e :: es) = (trace op s' es).map fun x => (x.1, o :: x.2) := by
  simp only [trace, h, Option.bind_eq_bind, Option.bind_some]
  cases trace op s' es <;> rfl

theorem trace_cons_eq_some {s t : σ} {e : ε} {es : List ε} {os : List ω}
    (h : trace op s (e :: es) = some (t, os)) :
    ∃ s' o os', op s e = some (s', o) ∧ trace op s' es = some (t, os') ∧ os = o :: os' := by
  rw [trace] at h
  simp only [Option.bind_eq_bind, Option.bind_eq_some_iff] at h
  obtain ⟨⟨s', o⟩, hop, ⟨t', os'⟩, hrest, hend⟩ := h
  cases hend
  exact ⟨s', o, os', hop, hrest, rfl⟩

/-- What every operation keeps, and what every operation shows. -/
theorem trace_invariant {P : σ → Prop} {Q : ω → Prop} {s t : σ} {es : List ε} {os : List ω}
    (kept : ∀ e ∈ es, ∀ s s' o, P s → op s e = some (s', o) → P s' ∧ Q o)
    (h : trace op s es = some (t, os)) (initial : P s) : P t ∧ ∀ o ∈ os, Q o := by
  induction es generalizing s os with
  | nil =>
      cases h
      exact ⟨initial, fun o ho => absurd ho List.not_mem_nil⟩
  | cons e es ih =>
      obtain ⟨s', o, os', hop, hrest, rfl⟩ := trace_cons_eq_some h
      obtain ⟨hs', ho⟩ := kept e List.mem_cons_self s s' o initial hop
      obtain ⟨ht, hos⟩ := ih (fun f hf => kept f (List.mem_cons_of_mem e hf)) hrest hs'
      exact ⟨ht, List.forall_mem_cons.mpr ⟨ho, hos⟩⟩

/-- Related states stay related and show the same, without a fault. -/
theorem Machine.Runs.observe {κ : Type*} {M : Machine κ ε} {R : κ → σ → σ → Prop}
    (matched : ∀ c s t e, R c s t → M.admits c e →
      ∃ s' t' o, op s e = some (s', o) ∧ op t e = some (t', o) ∧ R (M.step c e) s' t')
    {c d : κ} {es : List ε} (h : M.Runs c es d) {s t : σ} (initial : R c s t) :
    ∃ s' t' os, trace op s es = some (s', os) ∧ trace op t es = some (t', os) ∧ R d s' t' := by
  induction h generalizing s t with
  | nil c => exact ⟨s, t, [], rfl, rfl, initial⟩
  | @cons c d e es admitted hrest ih =>
      obtain ⟨s', t', o, hs, ht, hstep⟩ := matched c s t e initial admitted
      obtain ⟨s'', t'', os, hs', ht', hend⟩ := ih hstep
      refine ⟨s'', t'', o :: os, ?_, ?_, hend⟩
      · rw [trace_cons hs, hs']
        rfl
      · rw [trace_cons ht, ht']
        rfl

end Tflib.Core
