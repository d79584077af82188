import Tflib.Ae.Backend

/-! # The epoll layer

`ae_epoll.c` over the interest list of an epoll instance. Which of
`EPOLL_CTL_ADD` and `EPOLL_CTL_MOD` is asked for depends on the table alone, so
it is right as long as the table and the interest list go together.
-/

namespace Tflib.Ae

def epollIn : BitVec 32 := 0x001
def epollOut : BitVec 32 := 0x004
def epollErr : BitVec 32 := 0x008
def epollHup : BitVec 32 := 0x010

/-- `struct epoll_event`, with `data.fd`. -/
structure EpollEvent where
  events : BitVec 32
  fd : Nat
  deriving DecidableEq, Repr

inductive EpollCtl
  | add
  | mod
  | del

/-- The interest list of the instance: what each watched descriptor was given. -/
abbrev Interest := Nat → Option EpollEvent

/-- `epoll_ctl`; `none` is -1, for `EEXIST`, for `ENOENT`, or because the kernel
refuses. -/
def epollCtl (k : Interest) (op : EpollCtl) (fd : Nat) (ee : EpollEvent) (refused : Bool) :
    Option Interest :=
  match op, k fd with
  | .add, some _ => none
  | .add, none => if refused then none else some (Function.update k fd (some ee))
  | .mod, some _ => if refused then none else some (Function.update k fd (some ee))
  | .mod, none => none
  | .del, some _ => some (Function.update k fd none)
  | .del, none => none

/-- The `ee.events` that stand for a mask. -/
def epollEvents (mask : Mask) : BitVec 32 :=
  (if mask &&& aeReadable ≠ 0 then epollIn else 0) |||
    (if mask &&& aeWritable ≠ 0 then epollOut else 0)

/-- The mask that `aeApiPoll` stores for an event; an error or a hangup counts as
writable. -/
def firedMask (events : BitVec 32) : Mask :=
  (if events &&& epollIn ≠ 0 then aeReadable else 0) |||
    (if events &&& epollOut ≠ 0 then aeWritable else 0) |||
    (if events &&& epollErr ≠ 0 then aeWritable else 0) |||
    (if events &&& epollHup ≠ 0 then aeWritable else 0)

namespace Epoll

variable {π κ : Type}

/-- `aeApiAddEvent`. -/
def aeApiAddEvent (el : AeEventLoop π κ) (k : Interest) (fd : Nat) (mask : Mask) (refused : Bool) :
    Option (Interest × Bool) :=
  let op := if el.masks fd = aeNone then EpollCtl.add else .mod
  let mask := mask ||| el.masks fd
  match epollCtl k op fd ⟨epollEvents mask, fd⟩ refused with
  | none => some (k, false)
  | some k => some (k, true)

/-- `aeApiDelEvent`; the result of `epoll_ctl` is not looked at. -/
def aeApiDelEvent (el : AeEventLoop π κ) (k : Interest) (fd : Nat) (delmask : Mask)
    (refused : Bool) : Option Interest :=
  let mask := el.masks fd &&& ~~~delmask
  let op := if mask ≠ aeNone then EpollCtl.mod else .del
  some ((epollCtl k op fd ⟨epollEvents mask, fd⟩ refused).getD k)

/-- `aeApiPoll`; the answer is what `epoll_wait` stores, nothing where it returns
0 or -1. -/
def aeApiPoll (_el : AeEventLoop π κ) (k : Interest) (answer : List EpollEvent) :
    Option (Interest × List AeFiredEvent) :=
  some (k, answer.map fun e => ⟨e.fd, firedMask e.events⟩)

def api : Api π κ Interest Bool (List EpollEvent) where
  initial := fun _ => none
  addEvent := aeApiAddEvent
  delEvent := aeApiDelEvent
  poll := aeApiPoll
  close := fun k fd => Function.update k fd none

/-- What `epoll_wait` can store: at most `maxevents` entries, each with the data
of a watched descriptor and events it is watched for, errors and hangups
included. -/
def WaitAnswer (setsize : Nat) (k : Interest) (answer : List EpollEvent) : Prop :=
  answer.length ≤ setsize ∧ ∀ e ∈ answer, ∃ fd ee, k fd = some ee ∧ e.fd = ee.fd ∧
    e.events ≠ 0 ∧ e.events &&& ~~~(ee.events ||| epollErr ||| epollHup) = 0

/-! ## In step with the table -/

/-- A watched descriptor's events include those of its mask, and with `exact` are
these. -/
structure Watches (exact : Bool) (mask : Mask) (fd : Nat) (ee : EpollEvent) : Prop where
  data : ee.fd = fd
  covers : epollEvents mask &&& ee.events = epollEvents mask
  same : exact = true → ee.events = epollEvents mask

/-- What is registered is watched, and nothing else is. -/
def Synced (exact : Bool) (masks : Nat → Mask) (k : Interest) : Prop :=
  ∀ fd, (masks fd = aeNone ∧ k fd = none) ∨
    (masks fd ≠ aeNone ∧ ∃ ee, k fd = some ee ∧ Watches exact (masks fd) fd ee)

theorem watches_self (exact : Bool) (mask : Mask) (fd : Nat) :
    Watches exact mask fd ⟨epollEvents mask, fd⟩ := ⟨rfl, BitVec.and_self, fun _ => rfl⟩

theorem epollEvents_diff : ∀ mask delmask : Mask,
    epollEvents (mask &&& ~~~delmask) &&& epollEvents mask = epollEvents (mask &&& ~~~delmask) := by
  decide

/-- A refused `EPOLL_CTL_MOD` leaves more events watched than are registered. -/
theorem Watches.diff {mask : Mask} {fd : Nat} {ee : EpollEvent} (h : Watches false mask fd ee)
    (delmask : Mask) : Watches false (mask &&& ~~~delmask) fd ee := by
  refine ⟨h.data, ?_, fun hexact => absurd hexact (by simp)⟩
  calc epollEvents (mask &&& ~~~delmask) &&& ee.events
      = epollEvents (mask &&& ~~~delmask) &&& epollEvents mask &&& ee.events := by
        rw [epollEvents_diff]
    _ = epollEvents (mask &&& ~~~delmask) &&& (epollEvents mask &&& ee.events) :=
        BitVec.and_assoc _ _ _
    _ = epollEvents (mask &&& ~~~delmask) := by rw [h.covers, epollEvents_diff]

theorem Synced.unregistered {exact : Bool} {masks : Nat → Mask} {k : Interest}
    (h : Synced exact masks k) {fd : Nat} (hnone : masks fd = aeNone) : k fd = none := by
  rcases h fd with ⟨_, hk⟩ | ⟨hreg, _⟩
  · exact hk
  · exact absurd hnone hreg

theorem Synced.registered {exact : Bool} {masks : Nat → Mask} {k : Interest}
    (h : Synced exact masks k) {fd : Nat} (hreg : masks fd ≠ aeNone) :
    ∃ ee, k fd = some ee ∧ Watches exact (masks fd) fd ee := by
  rcases h fd with ⟨hnone, _⟩ | ⟨_, hee⟩
  · exact absurd hnone hreg
  · exact hee

/-- The interest list and the table change at one descriptor. -/
theorem Synced.update {exact : Bool} {masks : Nat → Mask} {k : Interest} (h : Synced exact masks k)
    {fd : Nat} {mask : Mask} {entry : Option EpollEvent}
    (hfd : (mask = aeNone ∧ entry = none) ∨
      (mask ≠ aeNone ∧ ∃ ee, entry = some ee ∧ Watches exact mask fd ee)) :
    Synced exact (Function.update masks fd mask) (Function.update k fd entry) := by
  intro x
  by_cases hx : x = fd
  · subst hx
    simpa only [Function.update_self] using hfd
  · simpa only [Function.update_of_ne hx] using h x

/-- Taking a mask away and leaving the interest list as it is. -/
theorem Synced.update_masks {exact : Bool} {masks : Nat → Mask} {k : Interest}
    (h : Synced exact masks k) {fd : Nat} {mask : Mask} {ee : EpollEvent} (hk : k fd = some ee)
    (hmask : mask ≠ aeNone) (hee : Watches exact mask fd ee) :
    Synced exact (Function.update masks fd mask) k := by
  have := @Synced.update _ _ _ h fd mask (some ee) (.inr ⟨hmask, ee, rfl, hee⟩)
  rwa [← hk, Function.update_eq_self] at this

theorem epollCtl_of_none {k : Interest} {fd : Nat} (h : k fd = none) (ee : EpollEvent)
    (refused : Bool) :
    epollCtl k .add fd ee refused = if refused then none else some (Function.update k fd (some ee)) := by
  simp [epollCtl, h]

theorem epollCtl_of_some {k : Interest} {fd : Nat} {old : EpollEvent} (h : k fd = some old)
    (ee : EpollEvent) (refused : Bool) :
    epollCtl k .mod fd ee refused = if refused then none else some (Function.update k fd (some ee)) := by
  simp [epollCtl, h]

theorem epollCtl_del {k : Interest} {fd : Nat} {old : EpollEvent} (h : k fd = some old)
    (ee : EpollEvent) (refused : Bool) :
    epollCtl k .del fd ee refused = some (Function.update k fd none) := by
  simp [epollCtl, h]

/-- `aeApiAddEvent` fails only where the kernel refuses. -/
theorem aeApiAddEvent_eq {exact : Bool} {el : AeEventLoop π κ} {k : Interest}
    (h : Synced exact el.masks k) (fd : Nat) (mask : Mask) (refused : Bool) :
    aeApiAddEvent el k fd mask refused =
      if refused then some (k, false)
      else some (Function.update k fd (some ⟨epollEvents (mask ||| el.masks fd), fd⟩), true) := by
  unfold aeApiAddEvent
  dsimp only
  rcases h fd with ⟨hnone, hk⟩ | ⟨hreg, ee, hk, _⟩
  · rw [if_pos hnone, epollCtl_of_none hk]
    cases refused <;> rfl
  · rw [if_neg hreg, epollCtl_of_some hk]
    cases refused <;> rfl

theorem synced_add {exact : Bool} {el : AeEventLoop π κ} {k : Interest}
    (h : Synced exact el.masks k) (fd : Nat) {mask : Mask} (hmask : mask ≠ aeNone)
    (refused : Bool) :
    ∃ k' added, aeApiAddEvent el k fd mask refused = some (k', added) ∧
      Synced exact
        (if added then Function.update el.masks fd (el.masks fd ||| mask) else el.masks) k' := by
  rw [aeApiAddEvent_eq h]
  cases refused with
  | true => exact ⟨k, false, rfl, h⟩
  | false =>
      refine ⟨_, true, rfl, ?_⟩
      rw [if_pos rfl, BitVec.or_comm mask]
      exact h.update (.inr ⟨or_ne_aeNone _ _ hmask, _, rfl, watches_self exact _ fd⟩)

theorem synced_del {exact : Bool} {el : AeEventLoop π κ} {k : Interest}
    (h : Synced exact el.masks k) {fd : Nat} (hsize : fd < el.setsize)
    (hreg : el.masks fd ≠ aeNone) (mask : Mask) {refused : Bool}
    (hrefused : exact = true → refused = false) :
    ∃ k', aeApiDelEvent (aeDeleteFileEvent el fd mask) k fd mask refused = some k' ∧
      Synced exact (Function.update el.masks fd (el.masks fd &&& ~~~mask)) k' := by
  obtain ⟨ee, hk, hee⟩ := h.registered hreg
  refine ⟨_, rfl, ?_⟩
  have hmask : (aeDeleteFileEvent el fd mask).masks fd &&& ~~~mask = el.masks fd &&& ~~~mask := by
    rw [masks_aeDeleteFileEvent el mask hsize, Function.update_self, BitVec.and_assoc,
      BitVec.and_self]
  rw [hmask]
  by_cases hleft : el.masks fd &&& ~~~mask = aeNone
  · rw [if_neg (by simpa using hleft), epollCtl_del hk]
    exact h.update (.inl ⟨hleft, rfl⟩)
  · rw [if_pos hleft, epollCtl_of_some hk]
    cases refused with
    | false => exact h.update (.inr ⟨hleft, _, rfl, watches_self exact _ fd⟩)
    | true =>
        cases exact with
        | true => exact absurd (hrefused rfl) (by simp)
        | false => exact h.update_masks hk hleft (hee.diff mask)

theorem mem_of_answer {exact : Bool} {masks : Nat → Mask} {k : Interest} {setsize : Nat}
    {answer : List EpollEvent} (h : Synced exact masks k) (hanswer : WaitAnswer setsize k answer)
    {e : EpollEvent} (he : e ∈ answer) : masks e.fd ≠ aeNone := by
  obtain ⟨fd, ee, hk, hfd, _⟩ := hanswer.2 e he
  rcases h fd with ⟨_, hnone⟩ | ⟨hreg, ee', hk', hw⟩
  · rw [hnone] at hk
    cases hk
  · rw [hk] at hk'
    cases hk'
    rwa [hfd, hw.data]

/-- The contract of the layer. With `exact` no removal is refused. -/
def contract (exact : Bool) : Contract (api : Api π κ _ _ _) where
  Synced := Synced exact
  fits := fun _ => True
  adds := fun _ _ _ _ => True
  deletes := fun refused => exact = true → refused = false
  answers := fun el k answer => WaitAnswer el.setsize k answer
  initial := fun _ => .inl ⟨rfl, rfl⟩
  add := fun _ _ h _ hmask _ => synced_add h _ hmask _
  delete := fun _ _ h hsize hreg hdel => synced_del h hsize hreg _ hdel
  poll := fun {_ k answer} _ _ h hanswer =>
    ⟨k, _, rfl, h, by simpa using hanswer.1, fun f hf => by
      obtain ⟨e, he, rfl⟩ := List.mem_map.mp hf
      exact mem_of_answer h hanswer he⟩
  close := fun {_ k fd} h hnone => by
    have hk : Function.update k fd none = k := by
      rw [← h.unregistered hnone, Function.update_eq_self]
    change Synced exact _ (Function.update k fd none)
    rwa [hk]

/-- `aeCreateFileEvent` on this layer succeeds where the kernel does not refuse. -/
theorem create_eq {exact : Bool} {l : Loop π κ Interest} (h : Synced exact l.el.masks l.api)
    (fd : Nat) (mask : Mask) (proc : π) (clientData : κ) (refused : Bool) :
    ∃ k, api.create l fd mask proc clientData refused =
      some (match aeCreateFileEvent l.el fd mask proc clientData !refused with
        | none => (⟨l.el, k⟩, false)
        | some el => (⟨el, k⟩, true)) := by
  unfold Api.create
  by_cases hsize : fd ≥ l.el.setsize
  · refine ⟨l.api, ?_⟩
    rw [if_pos hsize, aeCreateFileEvent, if_pos hsize]
  · have hadd := aeApiAddEvent_eq h fd mask refused
    rw [if_neg hsize]
    change ∃ k, (aeApiAddEvent l.el l.api fd mask refused).bind _ = _
    rw [hadd]
    cases refused with
    | true => exact ⟨l.api, by simp⟩
    | false =>
        obtain ⟨el, hel⟩ :=
          aeCreateFileEvent_isSome l.el mask proc clientData (Nat.lt_of_not_le hsize)
        exact ⟨_, by simp [hel]; rfl⟩

/-! ## Over a run -/

/-- In every run the descriptors on the interest list are the registered ones, each
watched for at least the events of its mask, and for these alone when no removal
is refused; `EPOLL_CTL_ADD` and `EPOLL_CTL_MOD` are never asked for in each
other's place, so a registration fails only where the kernel refuses it. -/
theorem interest_of_runs (exact : Bool) {setsize : Nat} {ops : List (LoopOp π κ _ _)}
    {s : Option (Loop π κ Interest)}
    (h : (contract exact).machine.Runs (some (api.createLoop setsize)) ops s) :
    ∃ l, s = some l ∧
      (∀ fd, l.api fd = none ↔ l.el.masks fd = aeNone) ∧
      (∀ fd ee, l.api fd = some ee → ee.fd = fd ∧
        epollEvents (l.el.masks fd) &&& ee.events = epollEvents (l.el.masks fd) ∧
        (exact = true → ee.events = epollEvents (l.el.masks fd))) ∧
      ∀ fd < setsize, ∀ mask proc clientData refused,
        (api.create l fd mask proc clientData refused).map (·.2) = some !refused := by
  obtain ⟨l, rfl, hin, hsize⟩ := (contract exact).inStep_of_runs trivial h
  have hsynced : Synced exact l.el.masks l.api := hin.synced
  refine ⟨l, rfl, fun fd => ?_, fun fd ee hee => ?_, fun fd hfd mask proc clientData refused => ?_⟩
  · rcases hsynced fd with ⟨hnone, hk⟩ | ⟨hreg, ee, hk, _⟩
    · simp [hnone, hk]
    · simp [hreg, hk]
  · rcases hsynced fd with ⟨_, hk⟩ | ⟨_, ee', hk, hw⟩
    · rw [hk] at hee
      cases hee
    · rw [hk] at hee
      cases hee
      exact ⟨hw.data, hw.covers, hw.same⟩
  · obtain ⟨k, hcreate⟩ := create_eq hsynced fd mask proc clientData refused
    rw [hcreate]
    cases refused with
    | true => simp
    | false =>
        obtain ⟨el, hel⟩ := aeCreateFileEvent_isSome l.el mask proc clientData (hsize ▸ hfd)
        simp [hel]

/-- Descriptor 5 is registered for reading, reported, and registered for writing too. -/
def firstRun : List (LoopOp Unit Unit Bool (List EpollEvent)) :=
  [.create 5 aeReadable () () false, .poll [⟨epollIn, 5⟩], .create 5 aeWritable () () false]

theorem firstRun_admitted :
    (contract true).machine.AdmitsAll (some (api.createLoop 8)) firstRun := by
  refine ⟨fun _ _ => ⟨by decide, trivial⟩, fun l hl => ?_, fun _ _ => ⟨by decide, trivial⟩, trivial⟩
  obtain rfl := Option.some.inj hl
  refine ⟨by decide, fun e he => ⟨5, ⟨epollIn, 5⟩, rfl, ?_⟩⟩
  obtain rfl := List.mem_singleton.mp he
  decide

theorem interest_of_firstRun :
    ∃ l, firstRun.foldl (contract true).machine.step (some (api.createLoop 8)) = some l ∧
      (∀ fd, l.api fd = none ↔ l.el.masks fd = aeNone) ∧
      (∀ fd ee, l.api fd = some ee → ee.fd = fd ∧
        epollEvents (l.el.masks fd) &&& ee.events = epollEvents (l.el.masks fd) ∧
        (true = true → ee.events = epollEvents (l.el.masks fd))) ∧
      ∀ fd < 8, ∀ mask proc clientData refused,
        (api.create l fd mask proc clientData refused).map (·.2) = some !refused :=
  interest_of_runs true (.of_admitsAll firstRun_admitted)

end Epoll

end Tflib.Ae
