import Mathlib.Data.List.Count

/-! # Lifetimes

A program makes things, uses them and drops them again. Whether it uses and drops
them only while they are there can be said of the list of what it did.
-/

namespace Tflib.Core

universe u

inductive Act (ρ : Type u)
  | make (r : ρ)
  | use (r : ρ)
  | drop (r : ρ)
  deriving DecidableEq

namespace Act

variable {ρ : Type u} [DecidableEq ρ]

/-- Whether `r` is there after an act. -/
def after (r : ρ) (live : Bool) : Act ρ → Bool
  | make s => live || s = r
  | use _ => live
  | drop s => live && s ≠ r

/-- An act needs its thing to be there, unless it makes it. -/
def Needs (r : ρ) : Act ρ → Prop
  | make _ => False
  | use s => s = r
  | drop s => s = r

instance (r : ρ) (a : Act ρ) : Decidable (a.Needs r) :=
  match a with
  | make _ => inferInstanceAs (Decidable False)
  | use s => inferInstanceAs (Decidable (s = r))
  | drop s => inferInstanceAs (Decidable (s = r))

/-- `r` is used and dropped only while it is there; `live` says whether it is there at first. -/
def Lives (r : ρ) (live : Bool) : List (Act ρ) → Prop
  | [] => True
  | a :: as => (a.Needs r → live = true) ∧ Lives r (a.after r live) as

instance decidableLives (r : ρ) (live : Bool) : (as : List (Act ρ)) → Decidable (Lives r live as)
  | [] => isTrue trivial
  | a :: as =>
      have := decidableLives r (a.after r live) as
      inferInstanceAs (Decidable (_ ∧ _))

theorem lives_append {r : ρ} {live : Bool} {as bs : List (Act ρ)} :
    Lives r live (as ++ bs) ↔ Lives r live as ∧ Lives r (as.foldl (after r) live) bs := by
  induction as generalizing live with
  | nil => exact ⟨fun h => ⟨trivial, h⟩, And.right⟩
  | cons a as ih => simp only [List.cons_append, Lives, ih, List.foldl_cons, and_assoc]

/-- What is there was there at first, or was made and not dropped since. -/
theorem made_of_alive {r : ρ} {live : Bool} {as : List (Act ρ)} (h : as.foldl (after r) live = true) :
    (live = true ∧ drop r ∉ as) ∨ ∃ bs cs, as = bs ++ make r :: cs ∧ drop r ∉ cs := by
  induction as generalizing live with
  | nil => exact .inl ⟨h, List.not_mem_nil⟩
  | cons a as ih =>
      rcases ih h with ⟨hlive, hdrop⟩ | ⟨bs, cs, rfl, hdrop⟩
      · cases a with
        | make s =>
            by_cases hs : s = r
            · subst hs
              exact .inr ⟨[], as, rfl, hdrop⟩
            · exact .inl ⟨by simpa [after, hs] using hlive, by simpa using hdrop⟩
        | use s => exact .inl ⟨hlive, by simpa using hdrop⟩
        | drop s =>
            obtain ⟨hlive, hs⟩ : live = true ∧ s ≠ r := by simpa [after] using hlive
            exact .inl ⟨hlive, by simpa [Ne.symm hs] using hdrop⟩
      · exact .inr ⟨a :: bs, cs, rfl, hdrop⟩

/-- Whatever needs `r` comes behind the making of `r`, with no dropping in between. -/
theorem Lives.made {r : ρ} {as bs : List (Act ρ)} {a : Act ρ} (h : Lives r false (as ++ a :: bs))
    (need : a.Needs r) : ∃ cs ds, as = cs ++ make r :: ds ∧ drop r ∉ ds := by
  rcases made_of_alive ((lives_append.mp h).2.1 need) with ⟨hfalse, -⟩ | hmade
  · cases hfalse
  · exact hmade

theorem Lives.make_mem {r : ρ} {as bs : List (Act ρ)} {a : Act ρ} (h : Lives r false (as ++ a :: bs))
    (need : a.Needs r) : make r ∈ as := by
  obtain ⟨cs, ds, rfl, -⟩ := h.made need
  exact List.mem_append_right cs List.mem_cons_self

/-- What is dropped only while it is there is dropped no more often than it is made. -/
theorem Lives.drops_le {r : ρ} {live : Bool} {as : List (Act ρ)} (h : Lives r live as) :
    as.count (drop r) ≤ as.count (make r) + live.toNat := by
  induction as generalizing live with
  | nil => exact Nat.zero_le _
  | cons a as ih =>
      obtain ⟨hneeds, hrest⟩ := h
      have hle := ih hrest
      cases a with
      | make s =>
          by_cases hs : s = r
          · subst hs
            simp [after] at hle ⊢
            omega
          · simpa [after, hs] using hle
      | use s => simpa [after] using hle
      | drop s =>
          by_cases hs : s = r
          · subst hs
            have hlive : live = true := hneeds rfl
            simpa [after, hlive] using hle
          · simpa [after, hs] using hle

end Act

end Tflib.Core
