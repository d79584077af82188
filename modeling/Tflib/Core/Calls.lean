import Mathlib.Data.Nat.Notation

/-! # Programs between system calls

A program that waits for a system call is a state; the answer of the call takes
it to its next call or to its result. The answers form an infinite script, so
that no run ends because its script does, and a result is never undone by what
the script holds behind it.
-/

namespace Tflib.Core

universe u v w

/-- A program waits for its next answer, or has returned. -/
inductive Next (σ : Type u) (ρ : Type v)
  | again (s : σ)
  | done (r : ρ)
  deriving DecidableEq, Repr

namespace Next

variable {σ : Type u} {ρ : Type v} {α : Type w}

/-- Who waits takes the answer; who has returned does not look at it. -/
def answer (step : σ → α → Next σ ρ) : Next σ ρ → α → Next σ ρ
  | again s, a => step s a
  | done r, _ => done r

def IsDone : Next σ ρ → Prop
  | again _ => False
  | done _ => True

instance : (n : Next σ ρ) → Decidable n.IsDone
  | again _ => inferInstanceAs (Decidable False)
  | done _ => inferInstanceAs (Decidable True)

theorem IsDone.exists_eq {n : Next σ ρ} (h : n.IsDone) : ∃ r, n = done r := by
  cases n with
  | again s => exact absurd h id
  | done r => exact ⟨r, rfl⟩

end Next

namespace Calls

variable {σ : Type u} {ρ : Type v} {α : Type w}

/-- Where the program is once the first answers of the script are given. -/
def after (step : σ → α → Next σ ρ) (start : Next σ ρ) (script : Nat → α) : Nat → Next σ ρ
  | 0 => start
  | k + 1 => (after step start script k).answer step (script k)

/-- The program returns `r`, at some point. -/
def Ends (step : σ → α → Next σ ρ) (start : Next σ ρ) (script : Nat → α) (r : ρ) : Prop :=
  ∃ k, after step start script k = .done r

variable {step : σ → α → Next σ ρ} {start : Next σ ρ} {script : Nat → α}

theorem after_succ_of_again {k : Nat} {s : σ} (h : after step start script k = .again s) :
    after step start script (k + 1) = step s (script k) := by
  rw [after, h, Next.answer]

theorem after_of_done {k : Nat} {r : ρ} (h : after step start script k = .done r) {l : Nat}
    (hl : k ≤ l) : after step start script l = .done r := by
  induction hl with
  | refl => exact h
  | step _ ih => rw [after, ih, Next.answer]

/-- What has returned before its first call stays so. -/
@[simp] theorem after_done_start (r : ρ) (script : Nat → α) (k : Nat) :
    after step (.done r) script k = .done r :=
  after_of_done (k := 0) rfl (Nat.zero_le k)

/-- A run goes on as a run that starts where it is. -/
theorem after_add (k l : Nat) :
    after step start script (k + l) =
      after step (after step start script k) (fun i => script (k + i)) l := by
  induction l with
  | zero => rfl
  | succ l ih => rw [← Nat.add_assoc, after, ih, after]

theorem after_succ_start (k : Nat) :
    after step start script (k + 1) =
      after step (start.answer step (script 0)) (fun i => script (i + 1)) k := by
  have h := @after_add _ _ _ step start script 1 k
  simp only [Nat.add_comm 1] at h
  exact h

theorem done_unique {k l : Nat} {r r' : ρ} (h : after step start script k = .done r)
    (h' : after step start script l = .done r') : r = r' := by
  have hk := after_of_done h (Nat.le_max_left k l)
  have hl := after_of_done h' (Nat.le_max_right k l)
  rw [hk] at hl
  exact Next.done.inj hl

/-- Who has returned was waiting for the answer that made it return. -/
theorem exists_last {k : Nat} {s : σ} {r : ρ} (hs : start = .again s)
    (h : after step start script k = .done r) :
    ∃ j t, after step start script j = .again t ∧ step t (script j) = .done r := by
  induction k with
  | zero =>
      rw [after, hs] at h
      cases h
  | succ k ih =>
      cases hw : after step start script k with
      | again t => exact ⟨k, t, hw, (after_succ_of_again hw).symm.trans h⟩
      | done r' =>
          rw [after_of_done hw (Nat.le_succ k)] at h
          exact ih (hw.trans h)

/-! ## What holds along a run -/

/-- What one answer preserves while the program waits, and what a result keeps, holds after every
number of answers. -/
theorem after_invariant {I : Nat → Next σ ρ → Prop} (initial : I 0 start)
    (waiting : ∀ k s, after step start script k = .again s → I k (.again s) →
      I (k + 1) (step s (script k)))
    (returned : ∀ k r, after step start script k = .done r → I k (.done r) → I (k + 1) (.done r))
    (k : Nat) : I k (after step start script k) := by
  induction k with
  | zero => exact initial
  | succ k ih =>
      rw [after]
      cases hw : after step start script k with
      | again s => exact waiting k s hw (hw ▸ ih)
      | done r => exact returned k r hw (hw ▸ ih)

/-- A measure that every answer lowers bounds the number of calls. -/
theorem ends_within {I : σ → Prop} {m : σ → Nat} (initial : ∀ s, start = .again s → I s)
    (lower : ∀ s a t, I s → step s a = .again t → I t ∧ m t < m s) {k : Nat}
    (hk : ∀ s, start = .again s → m s < k) : (after step start script k).IsDone := by
  have run : ∀ k, (after step start script k).IsDone ∨
      ∃ s t, start = .again s ∧ after step start script k = .again t ∧ I t ∧ m t + k ≤ m s := by
    intro k
    induction k with
    | zero =>
        cases hstart : start with
        | again s => exact .inr ⟨s, s, rfl, rfl, initial s hstart, Nat.le_refl _⟩
        | done r => exact .inl trivial
    | succ k ih =>
        rcases ih with hdone | ⟨s, t, hs, ht, hI, hm⟩
        · obtain ⟨r, hr⟩ := hdone.exists_eq
          rw [after_of_done hr (Nat.le_succ k)]
          exact .inl trivial
        · rw [after_succ_of_again ht]
          cases hstep : step t (script k) with
          | done r => exact .inl trivial
          | again t' =>
              obtain ⟨hI', hlt⟩ := lower t _ t' hI hstep
              exact .inr ⟨s, t', hs, rfl, hI', by omega⟩
  rcases run k with hdone | ⟨s, t, hs, -, -, hm⟩
  · exact hdone
  · have := hk s hs
    omega

/-- A measure that no answer raises and every busy one lowers brings the program to its end, when
busy answers keep coming. -/
theorem ends_fair {I : σ → Prop} {busy : α → Prop} {m : σ → Nat}
    (initial : ∀ s, start = .again s → I s)
    (lower : ∀ s a t, I s → step s a = .again t → I t ∧ m t ≤ m s ∧ (busy a → m t < m s))
    (fair : ∀ k, ∃ l, k ≤ l ∧ busy (script l)) : ∃ r, Ends step start script r := by
  have waits : ∀ {k s}, after step start script k = .again s → I s → ∀ l, k ≤ l →
      (∃ r, Ends step start script r) ∨
        ∃ t, after step start script l = .again t ∧ I t ∧ m t ≤ m s := by
    intro k s hs hI l hl
    induction hl with
    | refl => exact .inr ⟨s, hs, hI, Nat.le_refl _⟩
    | @step l _ ih =>
        rcases ih with hends | ⟨t, ht, hIt, hm⟩
        · exact .inl hends
        · cases hstep : step t (script l) with
          | done r => exact .inl ⟨r, l + 1, (after_succ_of_again ht).trans hstep⟩
          | again u =>
              obtain ⟨hIu, hle, -⟩ := lower t _ u hIt hstep
              exact .inr ⟨u, (after_succ_of_again ht).trans hstep, hIu, Nat.le_trans hle hm⟩
  have ends : ∀ n k s, after step start script k = .again s → I s → m s < n →
      ∃ r, Ends step start script r := by
    intro n
    induction n with
    | zero => exact fun k s _ _ h => absurd h (Nat.not_lt_zero _)
    | succ n ih =>
        intro k s hs hI hm
        obtain ⟨l, hl, hbusy⟩ := fair k
        rcases waits hs hI l hl with hends | ⟨t, ht, hIt, hle⟩
        · exact hends
        · cases hstep : step t (script l) with
          | done r => exact ⟨r, l + 1, (after_succ_of_again ht).trans hstep⟩
          | again u =>
              obtain ⟨hIu, -, hlt⟩ := lower t _ u hIt hstep
              exact ih (l + 1) u ((after_succ_of_again ht).trans hstep) hIu
                (by have := hlt hbusy; omega)
  cases hstart : start with
  | done r => exact ⟨r, 0, rfl⟩
  | again s => exact hstart ▸ ends (m s + 1) 0 s hstart (initial s hstart) (Nat.lt_succ_self _)

/-! ## What a run has seen -/

/-- In one of the waiting states of the run so far, the answer was one that `p` tells. -/
def Saw (p : σ → α → Prop) (step : σ → α → Next σ ρ) (start : Next σ ρ) (script : Nat → α)
    (k : Nat) : Prop :=
  ∃ j < k, ∃ s, after step start script j = .again s ∧ p s (script j)

section

variable {p : σ → α → Prop} {k : Nat}

theorem not_saw_zero : ¬ Saw p step start script 0 :=
  fun ⟨_, hj, _⟩ => absurd hj (Nat.not_lt_zero _)

theorem saw_succ_of_again {s : σ} (h : after step start script k = .again s) :
    Saw p step start script (k + 1) ↔ Saw p step start script k ∨ p s (script k) := by
  constructor
  · rintro ⟨j, hj, t, ht, hp⟩
    rcases Nat.lt_succ_iff_lt_or_eq.mp hj with hlt | rfl
    · exact .inl ⟨j, hlt, t, ht, hp⟩
    · rw [h] at ht
      cases ht
      exact .inr hp
  · rintro (⟨j, hj, hs⟩ | hp)
    · exact ⟨j, Nat.lt_succ_of_lt hj, hs⟩
    · exact ⟨k, Nat.lt_succ_self k, s, h, hp⟩

theorem saw_succ_of_done {r : ρ} (h : after step start script k = .done r) :
    Saw p step start script (k + 1) ↔ Saw p step start script k := by
  constructor
  · rintro ⟨j, hj, t, ht, hp⟩
    rcases Nat.lt_succ_iff_lt_or_eq.mp hj with hlt | rfl
    · exact ⟨j, hlt, t, ht, hp⟩
    · rw [h] at ht
      cases ht
  · rintro ⟨j, hj, hs⟩
    exact ⟨j, Nat.lt_succ_of_lt hj, hs⟩

end

/-! ## What a script holds -/

/-- The first `k` answers. -/
def answers (script : Nat → α) (k : Nat) : List α := (List.range k).map script

theorem answers_succ (script : Nat → α) (k : Nat) :
    answers script (k + 1) = script 0 :: answers (fun i => script (i + 1)) k := by
  rw [answers, List.range_succ_eq_map, List.map_cons, List.map_map]
  rfl

/-- The weights of the first answers, summed up. -/
def tally (weight : α → Nat) (script : Nat → α) : Nat → Nat
  | 0 => 0
  | k + 1 => tally weight script k + weight (script k)

theorem tally_mono (weight : α → Nat) (script : Nat → α) {k l : Nat} (h : k ≤ l) :
    tally weight script k ≤ tally weight script l := by
  induction h with
  | refl => exact Nat.le_refl _
  | step _ ih => exact Nat.le_trans ih (Nat.le_add_right _ _)

/-- One of the first answers satisfies `p`. -/
def Among (p : α → Prop) (script : Nat → α) (k : Nat) : Prop := ∃ i < k, p (script i)

theorem Among.mono {p : α → Prop} {k l : Nat} (h : Among p script k) (hl : k ≤ l) :
    Among p script l := by
  obtain ⟨i, hi, hp⟩ := h
  exact ⟨i, Nat.lt_of_lt_of_le hi hl, hp⟩

theorem among_zero (p : α → Prop) (script : Nat → α) : ¬ Among p script 0 :=
  fun ⟨_, hi, _⟩ => absurd hi (Nat.not_lt_zero _)

theorem among_succ {p : α → Prop} {k : Nat} :
    Among p script (k + 1) ↔ Among p script k ∨ p (script k) := by
  constructor
  · rintro ⟨i, hi, hp⟩
    rcases Nat.lt_succ_iff_lt_or_eq.mp hi with hlt | rfl
    · exact .inl ⟨i, hlt, hp⟩
    · exact .inr hp
  · rintro (h | hp)
    · exact h.mono (Nat.le_succ k)
    · exact ⟨k, Nat.lt_succ_self k, hp⟩

end Calls

end Tflib.Core
