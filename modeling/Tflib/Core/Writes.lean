import Tflib.Core.Bytes

/-! # Sequences of stores

Bytes stored one after another into a flat memory. Stores that keep apart from each
other can all be read back at the end.
-/

namespace Tflib.Core

/-- `bytes` stored from `addr` on. -/
structure Write where
  addr : Nat
  bytes : Bytes
  deriving DecidableEq

namespace Write

/-- The range of `n` bytes from `a` on has nothing in common with the bytes that are written. -/
def Misses (w : Write) (a n : Nat) : Prop := a + n ≤ w.addr ∨ w.addr + w.bytes.length ≤ a

def apply (m : Memory) (w : Write) : Memory := m.store w.addr w.bytes

def applyAll (m : Memory) (ws : List Write) : Memory := ws.foldl apply m

theorem load_apply_of_misses {m : Memory} {w : Write} {a n : Nat} (h : w.Misses a n) :
    (w.apply m).load a n = m.load a n := by
  refine Memory.load_congr fun x hx hlt => Memory.store_outside ?_
  rcases h with h | h
  · exact .inl (by omega)
  · exact .inr (by omega)

theorem load_applyAll_of_misses {m : Memory} {ws : List Write} {a n : Nat}
    (h : ∀ w ∈ ws, w.Misses a n) : (applyAll m ws).load a n = m.load a n := by
  induction ws generalizing m with
  | nil => rfl
  | cons w ws ih =>
      have hrest := ih (m := w.apply m) fun v hv => h v (List.mem_cons_of_mem w hv)
      exact hrest.trans (load_apply_of_misses (h w List.mem_cons_self))

/-- What is written apart from all the others stays. -/
theorem load_applyAll {m : Memory} {ws : List Write}
    (apart : ws.Pairwise fun v w => w.Misses v.addr v.bytes.length) {w : Write} (hw : w ∈ ws) :
    (applyAll m ws).load w.addr w.bytes.length = w.bytes := by
  induction ws generalizing m with
  | nil => exact absurd hw List.not_mem_nil
  | cons v ws ih =>
      obtain ⟨hv, hrest⟩ := List.pairwise_cons.mp apart
      rcases List.mem_cons.mp hw with rfl | hmem
      · have hkeep := load_applyAll_of_misses (m := w.apply m) hv
        exact hkeep.trans (Memory.load_store_self m w.addr w.bytes)
      · exact ih hrest hmem

/-- A store inside one of two ranges misses the other. -/
theorem misses_of_inside {w : Write} {a n size : Nat} (inside : w.bytes.length ≤ size)
    (h : a + n ≤ w.addr ∨ w.addr + size ≤ a) : w.Misses a n := by
  unfold Misses
  omega

end Write

end Tflib.Core
