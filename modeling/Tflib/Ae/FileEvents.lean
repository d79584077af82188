import Mathlib.Logic.Function.Basic

/-! # File events of the `ae` event loop

The registration table of `ae.c`, generic in the callbacks and the client data
it stores. `aeApiAddEvent` may refuse; `aeApiDelEvent` has no result, so the
table alone says what is registered.
-/

namespace Tflib.Ae

universe u v

/-- `AE_NONE`, `AE_READABLE`, `AE_WRITABLE` and their unions. -/
abbrev Mask := BitVec 2

def aeNone : Mask := 0
def aeReadable : Mask := 1
def aeWritable : Mask := 2

/-- `aeFileEvent`. -/
structure AeFileEvent (π : Type u) (κ : Type v) where
  mask : Mask
  rfileProc : Option π
  wfileProc : Option π
  clientData : Option κ

/-- The part of `aeEventLoop` that file events use. -/
structure AeEventLoop (π : Type u) (κ : Type v) where
  maxfd : Int
  setsize : Nat
  events : Nat → AeFileEvent π κ

variable {π : Type u} {κ : Type v}

/-- What `aeCreateEventLoop` returns when its allocations succeed. -/
def aeCreateEventLoop (setsize : Nat) : AeEventLoop π κ where
  maxfd := -1
  setsize := setsize
  events := fun _ => ⟨aeNone, none, none, none⟩

/-- `aeCreateFileEvent`; `apiAdd` says whether `aeApiAddEvent` succeeds, and
`none` is `AE_ERR`. -/
def aeCreateFileEvent (el : AeEventLoop π κ) (fd : Nat) (mask : Mask) (proc : π) (clientData : κ)
    (apiAdd : Bool) : Option (AeEventLoop π κ) :=
  if fd ≥ el.setsize then none
  else if !apiAdd then none
  else
    let fe := el.events fd
    let fe' : AeFileEvent π κ :=
      { mask := fe.mask ||| mask
        rfileProc := if mask &&& aeReadable ≠ 0 then some proc else fe.rfileProc
        wfileProc := if mask &&& aeWritable ≠ 0 then some proc else fe.wfileProc
        clientData := some clientData }
    some
      { el with
        events := Function.update el.events fd fe'
        maxfd := if (fd : Int) > el.maxfd then fd else el.maxfd }

/-- The loop that looks downwards for the next registered descriptor: the
largest one below `j`, or -1. -/
def maxRegistered (events : Nat → AeFileEvent π κ) : Nat → Int
  | 0 => -1
  | j + 1 => if (events j).mask ≠ aeNone then j else maxRegistered events j

/-- `aeDeleteFileEvent`. -/
def aeDeleteFileEvent (el : AeEventLoop π κ) (fd : Nat) (mask : Mask) : AeEventLoop π κ :=
  if fd ≥ el.setsize then el
  else
    let fe := el.events fd
    if fe.mask = aeNone then el
    else
      let fe' := { fe with mask := fe.mask &&& ~~~mask }
      let events := Function.update el.events fd fe'
      { el with
        events := events
        maxfd :=
          if (fd : Int) = el.maxfd ∧ fe'.mask = aeNone then maxRegistered events el.maxfd.toNat
          else el.maxfd }

/-- What the dispatch loop of `aeProcessEvents` tests before it calls `rfileProc`. -/
def AeFileEvent.readable (fe : AeFileEvent π κ) : Bool := fe.mask &&& aeReadable ≠ 0

theorem AeFileEvent.readable_of_mask {fe : AeFileEvent π κ} (h : fe.mask = aeReadable) :
    fe.readable = true := by
  rw [AeFileEvent.readable, h]
  decide

/-! ## Effect on the table -/

/-- `el'` is `el` with one more registration. -/
structure Adds (el el' : AeEventLoop π κ) (fd : Nat) (mask : Mask) (proc : π) (clientData : κ) :
    Prop where
  inTable : fd < el.setsize
  setsize : el'.setsize = el.setsize
  others : ∀ x, x ≠ fd → el'.events x = el.events x
  added : (el'.events fd).mask = (el.events fd).mask ||| mask
  data : (el'.events fd).clientData = some clientData
  reads : mask &&& aeReadable ≠ 0 → (el'.events fd).rfileProc = some proc

theorem Adds.mask_of_fresh {el el' : AeEventLoop π κ} {fd : Nat} {mask : Mask} {proc : π}
    {clientData : κ} (h : Adds el el' fd mask proc clientData)
    (fresh : (el.events fd).mask = aeNone) : (el'.events fd).mask = mask := by
  rw [h.added, fresh]
  exact BitVec.zero_or

theorem aeCreateFileEvent_cases (el : AeEventLoop π κ) (fd : Nat) (mask : Mask) (proc : π)
    (clientData : κ) (apiAdd : Bool) :
    (aeCreateFileEvent el fd mask proc clientData apiAdd = none ∧
        (el.setsize ≤ fd ∨ apiAdd = false)) ∨
      ∃ el', aeCreateFileEvent el fd mask proc clientData apiAdd = some el' ∧
        Adds el el' fd mask proc clientData := by
  unfold aeCreateFileEvent
  by_cases hsize : fd ≥ el.setsize
  · exact .inl ⟨if_pos hsize, .inl hsize⟩
  · rw [if_neg hsize]
    cases apiAdd with
    | false => exact .inl ⟨rfl, .inr rfl⟩
    | true =>
        refine .inr ⟨_, rfl, by omega, rfl, fun x hx => Function.update_of_ne hx _ _, ?_, ?_, ?_⟩
        all_goals simp only [Function.update_self]
        exact fun h => if_pos h

theorem aeCreateFileEvent_adds {el el' : AeEventLoop π κ} {fd : Nat} {mask : Mask} {proc : π}
    {clientData : κ} {apiAdd : Bool}
    (h : aeCreateFileEvent el fd mask proc clientData apiAdd = some el') :
    Adds el el' fd mask proc clientData := by
  rcases aeCreateFileEvent_cases el fd mask proc clientData apiAdd with ⟨hnone, _⟩ | ⟨el₁, hsome, hadds⟩
  · rw [hnone] at h
    contradiction
  · rw [hsome] at h
    cases h
    exact hadds

theorem aeDeleteFileEvent_setsize (el : AeEventLoop π κ) (fd : Nat) (mask : Mask) :
    (aeDeleteFileEvent el fd mask).setsize = el.setsize := by
  unfold aeDeleteFileEvent
  split
  · rfl
  · dsimp only
    split <;> rfl

theorem aeDeleteFileEvent_events_of_ne (el : AeEventLoop π κ) {fd x : Nat} (mask : Mask)
    (h : x ≠ fd) : (aeDeleteFileEvent el fd mask).events x = el.events x := by
  unfold aeDeleteFileEvent
  split
  · rfl
  · dsimp only
    split
    · rfl
    · exact Function.update_of_ne h _ _

/-- Inside the table, deleting takes the mask away and leaves the rest of the entry. -/
theorem aeDeleteFileEvent_events_self (el : AeEventLoop π κ) {fd : Nat} (mask : Mask)
    (h : fd < el.setsize) :
    (aeDeleteFileEvent el fd mask).events fd =
      { el.events fd with mask := (el.events fd).mask &&& ~~~mask } := by
  unfold aeDeleteFileEvent
  rw [if_neg (by omega)]
  dsimp only
  split
  · rename_i hnone
    cases hfe : el.events fd with
    | mk m r w c =>
        rw [hfe] at hnone
        have hm : m = 0 := hnone
        simp [hm]
  · exact Function.update_self _ _ _

end Tflib.Ae
