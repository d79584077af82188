import Tflib.Ae.Backend

/-! # The select layer

`ae_select.c`. An `fd_set` has room for `FD_SETSIZE` descriptors and the layer does
not compare the descriptor with it, so a loop with a larger table can be made to
store outside of its sets.
-/

namespace Tflib.Ae.Select

open Tflib.Ae

/-- `FD_SETSIZE` -/
def fdSetsize : Nat := 1024

/-- The bits of an `fd_set`; those from `FD_SETSIZE` on are not stored anywhere. -/
abbrev FdSet := Nat → Bool

/-- `FD_SET` and `FD_CLR`; `none` is a store outside of the set. -/
def FdSet.put (s : FdSet) (fd : Nat) (bit : Bool) : Option FdSet :=
  if fd < fdSetsize then some (Function.update s fd bit) else none

/-- `aeApiState`, without the copies that `select` works on. -/
structure ApiState where
  rfds : FdSet
  wfds : FdSet

variable {π κ : Type}

/-- The store into the set of one direction. -/
def FdSet.putMask (s : FdSet) (fd : Nat) (mask direction : Mask) (bit : Bool) : Option FdSet :=
  if mask &&& direction ≠ 0 then s.put fd bit else some s

/-- The two conditional stores of `aeApiAddEvent` and of `aeApiDelEvent`. -/
def ApiState.putMask (s : ApiState) (fd : Nat) (mask : Mask) (bit : Bool) : Option ApiState := do
  let rfds ← s.rfds.putMask fd mask aeReadable bit
  let wfds ← s.wfds.putMask fd mask aeWritable bit
  return ⟨rfds, wfds⟩

def aeApiAddEvent (_el : AeEventLoop π κ) (s : ApiState) (fd : Nat) (mask : Mask) (_answer : Unit) :
    Option (ApiState × Bool) :=
  (s.putMask fd mask true).map fun s => (s, true)

def aeApiDelEvent (_el : AeEventLoop π κ) (s : ApiState) (fd : Nat) (mask : Mask) (_answer : Unit) :
    Option ApiState :=
  s.putMask fd mask false

/-- The mask found for one descriptor by the loop of `aeApiPoll`. -/
def foundMask (mask : Mask) (readable writable : Bool) : Mask :=
  (if mask &&& aeReadable ≠ 0 ∧ readable then aeReadable else 0) |||
    (if mask &&& aeWritable ≠ 0 ∧ writable then aeWritable else 0)

/-- The loop of `aeApiPoll` over the descriptors up to `maxfd`. -/
def collect (el : AeEventLoop π κ) (ready : ApiState) : List AeFiredEvent :=
  (List.range (el.maxfd + 1).toNat).filterMap fun fd =>
    if el.masks fd = aeNone then none
    else some ⟨fd, foundMask (el.masks fd) (ready.rfds fd) (ready.wfds fd)⟩

/-- `aeApiPoll`; the answer is what `select` leaves in the copies, `none` where it
returns 0 or -1. -/
def aeApiPoll (el : AeEventLoop π κ) (s : ApiState) (answer : Option ApiState) :
    Option (ApiState × List AeFiredEvent) :=
  match answer with
  | some ready => some (s, collect el ready)
  | none => some (s, [])

def api : Api π κ ApiState Unit (Option ApiState) where
  initial := ⟨fun _ => false, fun _ => false⟩
  addEvent := aeApiAddEvent
  delEvent := aeApiDelEvent
  poll := aeApiPoll
  close := fun s _ => s

/-! ## In step with the table -/

structure Synced (masks : Nat → Mask) (s : ApiState) : Prop where
  reads : ∀ fd, s.rfds fd = decide (masks fd &&& aeReadable ≠ 0)
  writes : ∀ fd, s.wfds fd = decide (masks fd &&& aeWritable ≠ 0)

/-- The registered masks after bits of one of them have been set or cleared. -/
def putMasks (masks : Nat → Mask) (fd : Nat) (mask : Mask) (bit : Bool) : Nat → Mask :=
  Function.update masks fd (if bit then masks fd ||| mask else masks fd &&& ~~~mask)

theorem putMask_of_lt (s : FdSet) {fd : Nat} (mask direction : Mask) (bit : Bool)
    (h : fd < fdSetsize) : s.putMask fd mask direction bit =
      some (if mask &&& direction ≠ 0 then Function.update s fd bit else s) := by
  unfold FdSet.putMask
  split
  · rw [FdSet.put, if_pos h]
  · rfl

theorem putMask_of_le (s : FdSet) {fd : Nat} {mask direction : Mask} (bit : Bool)
    (h : fdSetsize ≤ fd) (hmask : mask &&& direction ≠ 0) :
    s.putMask fd mask direction bit = none := by
  rw [FdSet.putMask, if_pos hmask, FdSet.put, if_neg (Nat.not_lt.mpr h)]

/-- One direction of the table and its set change together. -/
theorem put_direction {masks : Nat → Mask} {s : FdSet} {direction : Mask}
    (hdirection : direction = aeReadable ∨ direction = aeWritable)
    (h : ∀ fd, s fd = decide (masks fd &&& direction ≠ 0)) (fd : Nat) (mask : Mask) (bit : Bool)
    (x : Nat) : (if mask &&& direction ≠ 0 then Function.update s fd bit else s) x =
      decide (putMasks masks fd mask bit x &&& direction ≠ 0) := by
  by_cases hx : x = fd
  · subst hx
    have hold := h x
    rw [putMasks, Function.update_self]
    split
    · rename_i hmask
      rw [Function.update_self]
      revert hmask
      generalize masks x = m
      revert m mask
      rcases hdirection with rfl | rfl <;> cases bit <;> decide
    · rename_i hmask
      rw [hold]
      revert hmask
      generalize masks x = m
      revert m mask
      rcases hdirection with rfl | rfl <;> cases bit <;> decide
  · rw [putMasks, Function.update_of_ne hx, ← h x]
    split
    · rw [Function.update_of_ne hx]
    · rfl

theorem synced_put {masks : Nat → Mask} {s : ApiState} (h : Synced masks s) {fd : Nat}
    (hfd : fd < fdSetsize) (mask : Mask) (bit : Bool) :
    ∃ s', s.putMask fd mask bit = some s' ∧ Synced (putMasks masks fd mask bit) s' := by
  refine ⟨⟨_, _⟩, ?_, put_direction (.inl rfl) h.reads fd mask bit,
    put_direction (.inr rfl) h.writes fd mask bit⟩
  rw [ApiState.putMask, putMask_of_lt _ _ _ _ hfd, putMask_of_lt _ _ _ _ hfd]
  rfl

theorem apiPutMask_of_le (s : ApiState) {fd : Nat} {mask : Mask} (bit : Bool)
    (h : fdSetsize ≤ fd) (hmask : mask ≠ aeNone) : s.putMask fd mask bit = none := by
  have hbit : mask &&& aeReadable ≠ 0 ∨ mask &&& aeWritable ≠ 0 := by
    revert mask
    decide
  unfold ApiState.putMask
  by_cases hread : mask &&& aeReadable ≠ 0
  · rw [putMask_of_le s.rfds bit h hread]
    rfl
  · rw [putMask_of_le s.wfds bit h (hbit.resolve_left hread), FdSet.putMask, if_neg hread]
    rfl

theorem mem_collect {el : AeEventLoop π κ} {ready : ApiState} {f : AeFiredEvent}
    (h : f ∈ collect el ready) : el.masks f.fd ≠ aeNone := by
  obtain ⟨fd, _, hfd⟩ := List.mem_filterMap.mp h
  split at hfd
  · cases hfd
  · rename_i hreg
    cases hfd
    exact hreg

theorem length_collect_le {el : AeEventLoop π κ} (hel : Tabled el) (ready : ApiState) :
    (collect el ready).length ≤ el.setsize := by
  have hfilter := List.length_filterMap_le
    (fun fd => if el.masks fd = aeNone then none
      else some (⟨fd, foundMask (el.masks fd) (ready.rfds fd) (ready.wfds fd)⟩ : AeFiredEvent))
    (List.range (el.maxfd + 1).toNat)
  rw [List.length_range] at hfilter
  refine Nat.le_trans hfilter ?_
  rcases hel.maxfd_eq with hnone | ⟨fd, hfd, hreg⟩
  · omega
  · have := hel.inTable fd hreg
    omega

/-- The contract of the layer, for a table that is not larger than the sets. -/
def contract : Contract (api : Api π κ _ _ _) where
  Synced := Synced
  fits := fun setsize => setsize ≤ fdSetsize
  adds := fun _ _ _ _ => True
  deletes := fun _ => True
  answers := fun _ _ _ => True
  initial := ⟨fun _ => rfl, fun _ => rfl⟩
  add := fun {_ _ fd mask _} _ hfits h hsize _ _ => by
    obtain ⟨s', hput, hs'⟩ := synced_put h (Nat.lt_of_lt_of_le hsize hfits) mask true
    exact ⟨s', true, congrArg (Option.map fun s => (s, true)) hput, hs'⟩
  delete := fun {_ _ fd mask _} _ hfits h hsize _ _ =>
    synced_put h (Nat.lt_of_lt_of_le hsize hfits) mask false
  poll := fun {_ s answer} hel _ h _ => by
    cases answer with
    | some ready => exact ⟨s, _, rfl, h, length_collect_le hel ready, fun f hf => mem_collect hf⟩
    | none => exact ⟨s, [], rfl, h, Nat.zero_le _, fun _ hf => absurd hf List.not_mem_nil⟩
  close := fun h _ => h

/-! ## Over a run -/

/-- No run of a loop stores outside of its sets, and all leave them in agreement with
the table, if and only if the table is not larger than an `fd_set`. -/
theorem sets_of_runs_iff (proc : π) (clientData : κ) (setsize : Nat) :
    (∀ ops s, contract.machine.Runs (some (api.createLoop setsize : Loop π κ ApiState)) ops s →
      ∃ l, s = some l ∧ ∀ fd,
        l.api.rfds fd = decide (l.el.masks fd &&& aeReadable ≠ 0) ∧
        l.api.wfds fd = decide (l.el.masks fd &&& aeWritable ≠ 0)) ↔
      setsize ≤ fdSetsize := by
  constructor
  · intro h
    by_contra hlarge
    have hout : api.apply (api.createLoop setsize)
        (.create fdSetsize aeReadable proc clientData ()) = none := by
      have hput := apiPutMask_of_le ⟨fun _ => false, fun _ => false⟩ true (Nat.le_refl fdSetsize)
        (by decide : aeReadable ≠ aeNone)
      have hinside : ¬ fdSetsize ≥ setsize := by omega
      simp [Api.apply, Api.create, Api.createLoop, aeCreateEventLoop, hinside, api, aeApiAddEvent,
        hput]
    have hruns : contract.machine.Runs (some (api.createLoop setsize))
        [.create fdSetsize aeReadable proc clientData ()] none :=
      hout ▸ Core.Machine.Runs.single fun _ _ => ⟨by decide, trivial⟩
    obtain ⟨l, hl, _⟩ := h _ none hruns
    cases hl
  · intro hfits ops s hruns
    obtain ⟨l, rfl, hin, -⟩ := contract.inStep_of_runs hfits hruns
    have hsynced : Synced l.el.masks l.api := hin.synced
    exact ⟨l, rfl, fun fd => ⟨hsynced.reads fd, hsynced.writes fd⟩⟩

end Tflib.Ae.Select
