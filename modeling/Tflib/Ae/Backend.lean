import Tflib.Ae.FileEvents
import Tflib.Core.Machine

/-! # The polling layer of the event loop

`ae.c` includes one of four files for the functions behind file events. What the
loop relies on is one contract: a relation between the registered masks and the
state of the layer that every call keeps. A run of the loop over a layer that
meets the contract never aborts and stays in step with the table.
-/

namespace Tflib.Ae

open Tflib.Core

/-- `aeFiredEvent`. -/
structure AeFiredEvent where
  fd : Nat
  mask : Mask
  deriving DecidableEq, Repr

/-- The `aeApi` functions of one file, with the state they keep in `apidata` and
in the kernel. `α` is what the system calls of one registration answer and `ρ`
what those of one poll do; `none` is a call that does not return. -/
structure Api (π κ σ α ρ : Type) where
  initial : σ
  addEvent : AeEventLoop π κ → σ → Nat → Mask → α → Option (σ × Bool)
  delEvent : AeEventLoop π κ → σ → Nat → Mask → α → Option σ
  poll : AeEventLoop π κ → σ → ρ → Option (σ × List AeFiredEvent)
  /-- what the kernel forgets when the descriptor is closed -/
  close : σ → Nat → σ

variable {π κ σ α ρ : Type}

/-- The masks of the table. -/
def AeEventLoop.masks (el : AeEventLoop π κ) (fd : Nat) : Mask := (el.events fd).mask

/-- A loop and its polling layer. -/
structure Loop (π κ σ : Type) where
  el : AeEventLoop π κ
  api : σ

/-! ## Calls of the loop -/

namespace Api

/-- `aeCreateEventLoop`. -/
def createLoop (A : Api π κ σ α ρ) (setsize : Nat) : Loop π κ σ :=
  ⟨aeCreateEventLoop setsize, A.initial⟩

/-- `aeCreateFileEvent` on top of `aeApiAddEvent`; the flag is `AE_OK`. -/
def create (A : Api π κ σ α ρ) (l : Loop π κ σ) (fd : Nat) (mask : Mask) (proc : π)
    (clientData : κ) (answer : α) : Option (Loop π κ σ × Bool) :=
  if fd ≥ l.el.setsize then some (l, false)
  else do
    let (api, added) ← A.addEvent l.el l.api fd mask answer
    match aeCreateFileEvent l.el fd mask proc clientData added with
    | none => some (⟨l.el, api⟩, false)
    | some el => some (⟨el, api⟩, true)

/-- `aeDeleteFileEvent` with the `aeApiDelEvent` at its end. -/
def delete (A : Api π κ σ α ρ) (l : Loop π κ σ) (fd : Nat) (mask : Mask) (answer : α) :
    Option (Loop π κ σ) :=
  if fd ≥ l.el.setsize then some l
  else if l.el.masks fd = aeNone then some l
  else do
    let el := aeDeleteFileEvent l.el fd mask
    let api ← A.delEvent el l.api fd mask answer
    return ⟨el, api⟩

/-- The call of `aeApiPoll` in `aeProcessEvents`. -/
def pollLoop (A : Api π κ σ α ρ) (l : Loop π κ σ) (answer : ρ) :
    Option (Loop π κ σ × List AeFiredEvent) := do
  let (api, fired) ← A.poll l.el l.api answer
  return (⟨l.el, api⟩, fired)

end Api

/-- What a program does with its loop. -/
inductive LoopOp (π κ α ρ : Type)
  | create (fd : Nat) (mask : Mask) (proc : π) (clientData : κ) (answer : α)
  | delete (fd : Nat) (mask : Mask) (answer : α)
  | poll (answer : ρ)
  /-- `close(fd)`, past the loop -/
  | close (fd : Nat)

/-- One call; `none` is a call that does not return. -/
def Api.apply (A : Api π κ σ α ρ) (l : Loop π κ σ) : LoopOp π κ α ρ → Option (Loop π κ σ)
  | .create fd mask proc clientData answer =>
      (A.create l fd mask proc clientData answer).map (·.1)
  | .delete fd mask answer => A.delete l fd mask answer
  | .poll answer => (A.pollLoop l answer).map (·.1)
  | .close fd => some { l with api := A.close l.api fd }

/-! ## What the calls do to the masks -/

theorem or_ne_aeNone : ∀ m mask : Mask, mask ≠ aeNone → m ||| mask ≠ aeNone := by decide

theorem readable_of_or : ∀ m mask : Mask, (m ||| mask) &&& aeReadable ≠ 0 →
    mask &&& aeReadable = 0 → m &&& aeReadable ≠ 0 := by decide

theorem writable_of_or : ∀ m mask : Mask, (m ||| mask) &&& aeWritable ≠ 0 →
    mask &&& aeWritable = 0 → m &&& aeWritable ≠ 0 := by decide

theorem readable_of_diff : ∀ m mask : Mask, (m &&& ~~~mask) &&& aeReadable ≠ 0 →
    m &&& aeReadable ≠ 0 := by decide

theorem writable_of_diff : ∀ m mask : Mask, (m &&& ~~~mask) &&& aeWritable ≠ 0 →
    m &&& aeWritable ≠ 0 := by decide

/-- The fields after `aeCreateFileEvent` has returned `AE_OK`. -/
structure Created (el el' : AeEventLoop π κ) (fd : Nat) (mask : Mask) (proc : π) : Prop where
  inTable : fd < el.setsize
  setsize : el'.setsize = el.setsize
  masks : el'.masks = Function.update el.masks fd (el.masks fd ||| mask)
  maxfd : el'.maxfd = max el.maxfd fd
  reads : ∀ x, (el'.events x).rfileProc =
    if x = fd ∧ mask &&& aeReadable ≠ 0 then some proc else (el.events x).rfileProc
  writes : ∀ x, (el'.events x).wfileProc =
    if x = fd ∧ mask &&& aeWritable ≠ 0 then some proc else (el.events x).wfileProc

theorem aeCreateFileEvent_created {el el' : AeEventLoop π κ} {fd : Nat} {mask : Mask} {proc : π}
    {clientData : κ} {added : Bool}
    (h : aeCreateFileEvent el fd mask proc clientData added = some el') :
    Created el el' fd mask proc := by
  unfold aeCreateFileEvent at h
  split at h
  · cases h
  split at h
  · cases h
  rename_i hsize _
  cases h
  refine ⟨Nat.lt_of_not_le hsize, rfl, ?_, ?_, fun x => ?_, fun x => ?_⟩
  · funext x
    by_cases hx : x = fd <;> simp [AeEventLoop.masks, hx]
  · dsimp only
    split <;> omega
  · by_cases hx : x = fd <;> simp [hx]
  · by_cases hx : x = fd <;> simp [hx]

theorem aeCreateFileEvent_isSome (el : AeEventLoop π κ) {fd : Nat} (mask : Mask) (proc : π)
    (clientData : κ) (h : fd < el.setsize) :
    ∃ el', aeCreateFileEvent el fd mask proc clientData true = some el' := by
  unfold aeCreateFileEvent
  rw [if_neg (Nat.not_le.mpr h), if_neg (by simp)]
  exact ⟨_, rfl⟩

@[simp] theorem aeCreateFileEvent_false (el : AeEventLoop π κ) (fd : Nat) (mask : Mask) (proc : π)
    (clientData : κ) : aeCreateFileEvent el fd mask proc clientData false = none := by
  simp [aeCreateFileEvent]

theorem masks_aeDeleteFileEvent (el : AeEventLoop π κ) {fd : Nat} (mask : Mask)
    (h : fd < el.setsize) : (aeDeleteFileEvent el fd mask).masks =
      Function.update el.masks fd (el.masks fd &&& ~~~mask) := by
  funext x
  by_cases hx : x = fd
  · subst hx
    simp [AeEventLoop.masks, aeDeleteFileEvent_events_self el mask h]
  · simp [AeEventLoop.masks, aeDeleteFileEvent_events_of_ne el mask hx, hx]

theorem aeDeleteFileEvent_maxfd (el : AeEventLoop π κ) {fd : Nat} (mask : Mask)
    (h : fd < el.setsize) (registered : el.masks fd ≠ aeNone) :
    (aeDeleteFileEvent el fd mask).maxfd =
      if (fd : Int) = el.maxfd ∧ el.masks fd &&& ~~~mask = aeNone then
        maxRegistered (aeDeleteFileEvent el fd mask).events el.maxfd.toNat
      else el.maxfd := by
  simp only [aeDeleteFileEvent]
  rw [if_neg (Nat.not_le.mpr h), if_neg (show ¬ (el.events fd).mask = aeNone from registered)]
  rfl

theorem aeDeleteFileEvent_rfileProc (el : AeEventLoop π κ) (fd : Nat) (mask : Mask) (x : Nat) :
    ((aeDeleteFileEvent el fd mask).events x).rfileProc = (el.events x).rfileProc := by
  by_cases h : fd < el.setsize
  · by_cases hx : x = fd
    · rw [hx, aeDeleteFileEvent_events_self el mask h]
    · rw [aeDeleteFileEvent_events_of_ne el mask hx]
  · rw [aeDeleteFileEvent, if_pos (Nat.le_of_not_lt h)]

theorem aeDeleteFileEvent_wfileProc (el : AeEventLoop π κ) (fd : Nat) (mask : Mask) (x : Nat) :
    ((aeDeleteFileEvent el fd mask).events x).wfileProc = (el.events x).wfileProc := by
  by_cases h : fd < el.setsize
  · by_cases hx : x = fd
    · rw [hx, aeDeleteFileEvent_events_self el mask h]
    · rw [aeDeleteFileEvent_events_of_ne el mask hx]
  · rw [aeDeleteFileEvent, if_pos (Nat.le_of_not_lt h)]

/-! ## The table over a run -/

/-- `maxfd` is the highest registered descriptor, or -1, and what is registered
has a callback. -/
structure Tabled (el : AeEventLoop π κ) : Prop where
  inTable : ∀ fd, el.masks fd ≠ aeNone → fd < el.setsize
  le_maxfd : ∀ fd : Nat, el.masks fd ≠ aeNone → (fd : Int) ≤ el.maxfd
  maxfd_eq : el.maxfd = -1 ∨ ∃ fd : Nat, el.maxfd = fd ∧ el.masks fd ≠ aeNone
  reads : ∀ fd, el.masks fd &&& aeReadable ≠ 0 → (el.events fd).rfileProc.isSome
  writes : ∀ fd, el.masks fd &&& aeWritable ≠ 0 → (el.events fd).wfileProc.isSome

theorem maxRegistered_eq (events : Nat → AeFileEvent π κ) (j : Nat) :
    maxRegistered events j = -1 ∨
      ∃ fd : Nat, maxRegistered events j = fd ∧ (events fd).mask ≠ aeNone := by
  induction j with
  | zero => exact .inl rfl
  | succ j ih =>
      rw [maxRegistered]
      split
      · rename_i h
        exact .inr ⟨j, rfl, h⟩
      · exact ih

theorem le_maxRegistered {events : Nat → AeFileEvent π κ} {j fd : Nat} (h : fd < j)
    (registered : (events fd).mask ≠ aeNone) : (fd : Int) ≤ maxRegistered events j := by
  induction j with
  | zero => omega
  | succ j ih =>
      rw [maxRegistered]
      split
      · omega
      · rename_i hnone
        have hne : fd ≠ j := by
          rintro rfl
          exact hnone registered
        exact ih (by omega)

namespace Tabled

theorem createLoop (setsize : Nat) : Tabled (aeCreateEventLoop setsize : AeEventLoop π κ) where
  inTable _ h := absurd rfl h
  le_maxfd _ h := absurd rfl h
  maxfd_eq := .inl rfl
  reads _ h := absurd (rfl : aeNone &&& aeReadable = 0) h
  writes _ h := absurd (rfl : aeNone &&& aeWritable = 0) h

theorem create {el el' : AeEventLoop π κ} (h : Tabled el) {fd : Nat} {mask : Mask} {proc : π}
    (hmask : mask ≠ aeNone) (hel : Created el el' fd mask proc) : Tabled el' := by
  have hself : el.masks fd ||| mask ≠ aeNone := or_ne_aeNone _ _ hmask
  refine ⟨fun x hx => ?_, fun x hx => ?_, ?_, fun x hx => ?_, fun x hx => ?_⟩
  · rw [hel.setsize]
    by_cases hfd : x = fd
    · exact hfd ▸ hel.inTable
    · exact h.inTable x (by simpa [hel.masks, hfd] using hx)
  · rw [hel.maxfd]
    by_cases hfd : x = fd
    · omega
    · have := h.le_maxfd x (by simpa [hel.masks, hfd] using hx)
      omega
  · rw [hel.maxfd, hel.masks]
    rcases h.maxfd_eq with hnone | ⟨x, hx, hreg⟩
    · exact .inr ⟨fd, by omega, by simpa using hself⟩
    · by_cases hle : fd ≤ x
      · refine .inr ⟨x, by omega, ?_⟩
        by_cases hfd : x = fd
        · simpa [hfd] using hself
        · simpa [hfd] using hreg
      · exact .inr ⟨fd, by omega, by simpa using hself⟩
  · rw [hel.reads]
    split
    · rfl
    · rename_i hother
      refine h.reads x ?_
      by_cases hfd : x = fd
      · subst hfd
        exact readable_of_or _ mask (by simpa [hel.masks] using hx) (by simpa using hother)
      · simpa [hel.masks, hfd] using hx
  · rw [hel.writes]
    split
    · rfl
    · rename_i hother
      refine h.writes x ?_
      by_cases hfd : x = fd
      · subst hfd
        exact writable_of_or _ mask (by simpa [hel.masks] using hx) (by simpa using hother)
      · simpa [hel.masks, hfd] using hx

theorem delete {el : AeEventLoop π κ} (h : Tabled el) {fd : Nat} (mask : Mask)
    (hsize : fd < el.setsize) (registered : el.masks fd ≠ aeNone) :
    Tabled (aeDeleteFileEvent el fd mask) := by
  have hkept : ∀ x, (aeDeleteFileEvent el fd mask).masks x ≠ aeNone → el.masks x ≠ aeNone := by
    intro x hx
    rw [masks_aeDeleteFileEvent el mask hsize] at hx
    by_cases hfd : x = fd
    · exact hfd ▸ registered
    · simpa [hfd] using hx
  refine ⟨fun x hx => ?_, fun x hx => ?_, ?_, fun x hx => ?_, fun x hx => ?_⟩
  · rw [aeDeleteFileEvent_setsize]
    exact h.inTable x (hkept x hx)
  · rw [aeDeleteFileEvent_maxfd el mask hsize registered]
    have hle := h.le_maxfd x (hkept x hx)
    split
    · rename_i hlast
      -- the descriptor taken away is not registered any more
      have hne : x ≠ fd := by
        rintro rfl
        rw [masks_aeDeleteFileEvent el mask hsize, Function.update_self] at hx
        exact hx hlast.2
      exact le_maxRegistered (by omega) hx
    · exact hle
  · rw [aeDeleteFileEvent_maxfd el mask hsize registered]
    split
    · exact maxRegistered_eq _ _
    · rename_i hlast
      rcases h.maxfd_eq with hnone | ⟨x, hx, hreg⟩
      · exact .inl hnone
      · refine .inr ⟨x, hx, ?_⟩
        rw [masks_aeDeleteFileEvent el mask hsize]
        by_cases hfd : x = fd
        · subst hfd
          rw [Function.update_self]
          exact fun hzero => hlast ⟨hx.symm, hzero⟩
        · rwa [Function.update_of_ne hfd]
  · rw [aeDeleteFileEvent_rfileProc]
    refine h.reads x ?_
    rw [masks_aeDeleteFileEvent el mask hsize] at hx
    by_cases hfd : x = fd
    · subst hfd
      exact readable_of_diff _ mask (by simpa using hx)
    · simpa [hfd] using hx
  · rw [aeDeleteFileEvent_wfileProc]
    refine h.writes x ?_
    rw [masks_aeDeleteFileEvent el mask hsize] at hx
    by_cases hfd : x = fd
    · subst hfd
      exact writable_of_diff _ mask (by simpa using hx)
    · simpa [hfd] using hx

end Tabled

namespace Api

theorem delete_el {A : Api π κ σ α ρ} {l l' : Loop π κ σ} {fd : Nat} {mask : Mask} {answer : α}
    (h : A.delete l fd mask answer = some l') : l'.el = aeDeleteFileEvent l.el fd mask := by
  unfold Api.delete at h
  split at h
  · rename_i hsize
    cases h
    rw [aeDeleteFileEvent, if_pos hsize]
  · rename_i hsize
    split at h
    · rename_i hnone
      cases h
      simp only [aeDeleteFileEvent]
      rw [if_neg hsize, if_pos (show (l.el.events fd).mask = aeNone from hnone)]
    · simp only [Option.bind_eq_bind, Option.bind_eq_some_iff] at h
      obtain ⟨s', _, h⟩ := h
      cases h
      rfl

end Api

/-! ## The contract -/

/-- What the loop relies on. `Synced` relates the masks of the table to the layer's
state; `adds` and `deletes` say which answers of the system calls are allowed for,
and `answers` what a poll may report. -/
structure Contract (A : Api π κ σ α ρ) where
  Synced : (Nat → Mask) → σ → Prop
  fits : Nat → Prop
  adds : AeEventLoop π κ → Nat → Mask → α → Prop
  deletes : α → Prop
  answers : AeEventLoop π κ → σ → ρ → Prop
  initial : Synced (fun _ => aeNone) A.initial
  add : ∀ {el s fd mask answer}, Tabled el → fits el.setsize → Synced el.masks s →
    fd < el.setsize → mask ≠ aeNone → adds el fd mask answer →
    ∃ s' added, A.addEvent el s fd mask answer = some (s', added) ∧
      Synced (if added then Function.update el.masks fd (el.masks fd ||| mask) else el.masks) s'
  delete : ∀ {el s fd mask answer}, Tabled el → fits el.setsize → Synced el.masks s →
    fd < el.setsize → el.masks fd ≠ aeNone → deletes answer →
    ∃ s', A.delEvent (aeDeleteFileEvent el fd mask) s fd mask answer = some s' ∧
      Synced (Function.update el.masks fd (el.masks fd &&& ~~~mask)) s'
  poll : ∀ {el s answer}, Tabled el → fits el.setsize → Synced el.masks s →
    answers el s answer →
    ∃ s' fired, A.poll el s answer = some (s', fired) ∧ Synced el.masks s' ∧
      fired.length ≤ el.setsize ∧ ∀ f ∈ fired, el.masks f.fd ≠ aeNone
  close : ∀ {masks s fd}, Synced masks s → masks fd = aeNone → Synced masks (A.close s fd)

namespace Contract

variable {A : Api π κ σ α ρ}

/-- The calls that the contract covers. A descriptor is closed when it is not
registered any more. -/
def Allowed (c : Contract A) (l : Loop π κ σ) : LoopOp π κ α ρ → Prop
  | .create fd mask _ _ answer => mask ≠ aeNone ∧ c.adds l.el fd mask answer
  | .delete _ _ answer => c.deletes answer
  | .poll answer => c.answers l.el l.api answer
  | .close fd => l.el.masks fd = aeNone

/-- The loop as a machine; `none` is a program that has been stopped in a call. -/
def machine (c : Contract A) : Machine (Option (Loop π κ σ)) (LoopOp π κ α ρ) where
  step := fun s op => s.bind fun l => A.apply l op
  admits := fun s op => ∀ l, s = some l → c.Allowed l op

/-- The table is in order and the layer in step with it. -/
structure InStep (c : Contract A) (l : Loop π κ σ) : Prop where
  tabled : Tabled l.el
  fits : c.fits l.el.setsize
  synced : c.Synced l.el.masks l.api

theorem InStep.create {c : Contract A} {l : Loop π κ σ} (h : c.InStep l) (fd : Nat) {mask : Mask}
    (proc : π) (clientData : κ) {answer : α} (hmask : mask ≠ aeNone)
    (hadds : c.adds l.el fd mask answer) :
    ∃ l' ok, A.create l fd mask proc clientData answer = some (l', ok) ∧ c.InStep l' ∧
      l'.el.setsize = l.el.setsize := by
  unfold Api.create
  by_cases hsize : fd ≥ l.el.setsize
  · exact ⟨l, false, if_pos hsize, h, rfl⟩
  · rw [if_neg hsize]
    obtain ⟨s', added, hadd, hsynced⟩ :=
      c.add h.tabled h.fits h.synced (Nat.lt_of_not_le hsize) hmask hadds
    rw [hadd]
    cases added with
    | false => exact ⟨⟨l.el, s'⟩, false, by simp, ⟨h.tabled, h.fits, hsynced⟩, rfl⟩
    | true =>
        obtain ⟨el', hel⟩ :=
          aeCreateFileEvent_isSome l.el mask proc clientData (Nat.lt_of_not_le hsize)
        have hcreated := aeCreateFileEvent_created hel
        refine ⟨⟨el', s'⟩, true, by simp [hel], ⟨h.tabled.create hmask hcreated, ?_, ?_⟩, ?_⟩
        · rw [hcreated.setsize]
          exact h.fits
        · rw [hcreated.masks]
          exact hsynced
        · exact hcreated.setsize

theorem InStep.delete {c : Contract A} {l : Loop π κ σ} (h : c.InStep l) (fd : Nat) (mask : Mask)
    {answer : α} (hdeletes : c.deletes answer) :
    ∃ l', A.delete l fd mask answer = some l' ∧ c.InStep l' ∧ l'.el.setsize = l.el.setsize := by
  unfold Api.delete
  by_cases hsize : fd ≥ l.el.setsize
  · exact ⟨l, if_pos hsize, h, rfl⟩
  · rw [if_neg hsize]
    by_cases hnone : l.el.masks fd = aeNone
    · exact ⟨l, if_pos hnone, h, rfl⟩
    · rw [if_neg hnone]
      have hlt := Nat.lt_of_not_le hsize
      obtain ⟨s', hdel, hsynced⟩ :=
        @Contract.delete _ _ _ _ _ _ c _ _ _ mask _ h.tabled h.fits h.synced hlt hnone hdeletes
      have hsame := aeDeleteFileEvent_setsize l.el fd mask
      refine ⟨⟨aeDeleteFileEvent l.el fd mask, s'⟩, by simp [hdel],
        ⟨h.tabled.delete mask hlt hnone, ?_, ?_⟩, hsame⟩
      · dsimp only
        rw [hsame]
        exact h.fits
      · rw [masks_aeDeleteFileEvent l.el mask hlt]
        exact hsynced

/-- A poll reports no more than the loop has room for, and registered descriptors
only. -/
theorem InStep.poll {c : Contract A} {l : Loop π κ σ} (h : c.InStep l) {answer : ρ}
    (hanswers : c.answers l.el l.api answer) :
    ∃ l' fired, A.pollLoop l answer = some (l', fired) ∧ c.InStep l' ∧ l'.el = l.el ∧
      fired.length ≤ l.el.setsize ∧ ∀ f ∈ fired, l.el.masks f.fd ≠ aeNone := by
  obtain ⟨s', fired, hpoll, hsynced, hroom, hreg⟩ := c.poll h.tabled h.fits h.synced hanswers
  refine ⟨⟨l.el, s'⟩, fired, ?_, ⟨h.tabled, h.fits, hsynced⟩, rfl, hroom, hreg⟩
  rw [Api.pollLoop, hpoll]
  rfl

/-- One call comes back and keeps the layer in step. -/
theorem InStep.apply {c : Contract A} {l : Loop π κ σ} (h : c.InStep l) {op : LoopOp π κ α ρ}
    (hop : c.Allowed l op) :
    ∃ l', A.apply l op = some l' ∧ c.InStep l' ∧ l'.el.setsize = l.el.setsize := by
  cases op with
  | create fd mask proc clientData answer =>
      obtain ⟨l', ok, hcreate, hin, hsame⟩ := h.create fd proc clientData hop.1 hop.2
      exact ⟨l', by simp [Api.apply, hcreate], hin, hsame⟩
  | delete fd mask answer => exact h.delete fd mask hop
  | poll answer =>
      obtain ⟨l', fired, hpoll, hin, hsame, _⟩ := h.poll hop
      exact ⟨l', by simp [Api.apply, hpoll], hin, by rw [hsame]⟩
  | close fd => exact ⟨_, rfl, ⟨h.tabled, h.fits, c.close h.synced hop⟩, rfl⟩

theorem inStep_createLoop (c : Contract A) {setsize : Nat} (h : c.fits setsize) :
    c.InStep (A.createLoop setsize) := ⟨.createLoop setsize, h, c.initial⟩

/-- A run of the loop is never stopped and ends in step. -/
theorem inStep_of_runs (c : Contract A) {setsize : Nat} (hfits : c.fits setsize)
    {ops : List (LoopOp π κ α ρ)} {s : Option (Loop π κ σ)}
    (h : c.machine.Runs (some (A.createLoop setsize)) ops s) :
    ∃ l, s = some l ∧ c.InStep l ∧ l.el.setsize = setsize := by
  refine Machine.Runs.invariant (M := c.machine)
    (I := fun s => ∃ l, s = some l ∧ c.InStep l ∧ l.el.setsize = setsize) ?_ h
    ⟨_, rfl, c.inStep_createLoop hfits, rfl⟩
  rintro _ op ⟨l, rfl, hin, hsize⟩ hadmits
  obtain ⟨l', happly, hin', hsame⟩ := hin.apply (hadmits l rfl)
  exact ⟨l', happly, hin', hsame.trans hsize⟩

end Contract

end Tflib.Ae
