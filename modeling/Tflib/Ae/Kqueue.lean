import Tflib.Ae.Backend

/-! # The kqueue layer

`ae_kqueue.c`. A kernel queue has one filter for each direction, and a mask of
both directions takes two calls of `kevent`. When the second call of a
registration fails, the first one is not undone.
-/

namespace Tflib.Ae.Kqueue

open Tflib.Ae

inductive Filter
  | read
  | write
  deriving DecidableEq, Repr

/-- The filters that are active on each descriptor. -/
abbrev Queue := Nat → Filter → Bool

/-- `struct kevent` as `kevent` reports it. -/
structure Kevent where
  ident : Nat
  filter : Filter
  deriving DecidableEq, Repr

/-- `kevent` with one change; a filter that is there already is kept by `EV_ADD`, and
`EV_DELETE` of one that is not fails without effect. -/
def Queue.set (q : Queue) (fd : Nat) (filter : Filter) (active : Bool) : Queue :=
  Function.update q fd (Function.update (q fd) filter active)

variable {π κ : Type}

/-- `aeApiAddEvent`; the answer says which of the two filters the kernel takes. -/
def aeApiAddEvent (_el : AeEventLoop π κ) (q : Queue) (fd : Nat) (mask : Mask)
    (takes : Filter → Bool) : Option (Queue × Bool) :=
  if mask &&& aeReadable ≠ 0 ∧ takes .read = false then some (q, false)
  else
    let q := if mask &&& aeReadable ≠ 0 then q.set fd .read true else q
    if mask &&& aeWritable ≠ 0 ∧ takes .write = false then some (q, false)
    else some (if mask &&& aeWritable ≠ 0 then q.set fd .write true else q, true)

def aeApiDelEvent (_el : AeEventLoop π κ) (q : Queue) (fd : Nat) (mask : Mask)
    (_takes : Filter → Bool) : Option Queue :=
  let q := if mask &&& aeReadable ≠ 0 then q.set fd .read false else q
  some (if mask &&& aeWritable ≠ 0 then q.set fd .write false else q)

/-- The mask that `aeApiPoll` stores for an event. -/
def firedMask : Filter → Mask
  | .read => aeReadable
  | .write => aeWritable

/-- `aeApiPoll`; the answer is what `kevent` stores. -/
def aeApiPoll (_el : AeEventLoop π κ) (q : Queue) (answer : List Kevent) :
    Option (Queue × List AeFiredEvent) :=
  some (q, answer.map fun e => ⟨e.ident, firedMask e.filter⟩)

def api : Api π κ Queue (Filter → Bool) (List Kevent) where
  initial := fun _ _ => false
  addEvent := aeApiAddEvent
  delEvent := aeApiDelEvent
  poll := aeApiPoll
  close := fun q fd => Function.update q fd fun _ => false

/-! ## In step with the table -/

/-- The filters that a mask asks for. -/
def filters (mask : Mask) : Filter → Bool
  | .read => mask &&& aeReadable ≠ 0
  | .write => mask &&& aeWritable ≠ 0

theorem filters_aeNone : filters aeNone = fun _ => false := by
  funext x
  cases x <;> decide

def Synced (masks : Nat → Mask) (q : Queue) : Prop := ∀ fd, q fd = filters (masks fd)

/-- The read filter is taken, newly, and then the write filter is refused. -/
def HalfTaken (el : AeEventLoop π κ) (fd : Nat) (mask : Mask) (takes : Filter → Bool) : Prop :=
  mask &&& aeReadable ≠ 0 ∧ mask &&& aeWritable ≠ 0 ∧ takes .read = true ∧ takes .write = false ∧
    el.masks fd &&& aeReadable = 0

theorem Synced.update {masks : Nat → Mask} {q : Queue} (h : Synced masks q) (fd : Nat)
    {mask : Mask} {entry : Filter → Bool} (hentry : entry = filters mask) :
    Synced (Function.update masks fd mask) (Function.update q fd entry) := by
  intro x
  by_cases hx : x = fd
  · subst hx
    simpa only [Function.update_self] using hentry
  · simpa only [Function.update_of_ne hx] using h x

/-- Switching filters of one descriptor is one change of its entry. -/
theorem set_set (q : Queue) (fd : Nat) (read write active : Bool) :
    (let q := if read then q.set fd .read active else q
      if write then q.set fd .write active else q) =
      Function.update q fd
        (let f := if read then Function.update (q fd) .read active else q fd
          if write then Function.update f .write active else f) := by
  cases read <;> cases write <;> simp [Queue.set]

theorem add_filters (masks : Mask) (mask : Mask) :
    (let f := if mask &&& aeReadable ≠ 0 then Function.update (filters masks) .read true
        else filters masks
      if mask &&& aeWritable ≠ 0 then Function.update f .write true else f) =
      filters (masks ||| mask) := by
  funext x
  revert masks mask
  cases x <;> decide

theorem delete_filters (masks : Mask) (mask : Mask) :
    (let f := if mask &&& aeReadable ≠ 0 then Function.update (filters masks) .read false
        else filters masks
      if mask &&& aeWritable ≠ 0 then Function.update f .write false else f) =
      filters (masks &&& ~~~mask) := by
  funext x
  revert masks mask
  cases x <;> decide

theorem synced_set_all {masks : Nat → Mask} {q : Queue} (h : Synced masks q) (fd : Nat)
    (mask : Mask) (active : Bool) {left : Mask}
    (hleft : (let f := if mask &&& aeReadable ≠ 0 then Function.update (filters (masks fd)) .read active
        else filters (masks fd)
      if mask &&& aeWritable ≠ 0 then Function.update f .write active else f) = filters left) :
    Synced (Function.update masks fd left)
      (let q := if mask &&& aeReadable ≠ 0 then q.set fd .read active else q
        if mask &&& aeWritable ≠ 0 then q.set fd .write active else q) := by
  have hset := set_set q fd (mask &&& aeReadable ≠ 0) (mask &&& aeWritable ≠ 0) active
  simp only [decide_eq_true_eq] at hset
  rw [hset, h fd]
  exact h.update fd hleft

/-- A read filter that was there already is not changed. -/
theorem set_read_of_registered {masks : Nat → Mask} {q : Queue} (h : Synced masks q) {fd : Nat}
    (hreg : masks fd &&& aeReadable ≠ 0) : q.set fd .read true = q := by
  have hread : q fd .read = true := by
    rw [h fd]
    simpa [filters] using hreg
  rw [Queue.set, ← hread, Function.update_eq_self, Function.update_eq_self]

theorem synced_add {el : AeEventLoop π κ} {q : Queue} (h : Synced el.masks q) {fd : Nat}
    {mask : Mask} {takes : Filter → Bool} (hhalf : ¬ HalfTaken el fd mask takes) :
    ∃ q' added, aeApiAddEvent el q fd mask takes = some (q', added) ∧
      Synced (if added then Function.update el.masks fd (el.masks fd ||| mask) else el.masks) q' := by
  unfold aeApiAddEvent
  by_cases hread : mask &&& aeReadable ≠ 0 ∧ takes .read = false
  · rw [if_pos hread]
    exact ⟨q, false, rfl, h⟩
  · rw [if_neg hread]
    dsimp only
    by_cases hwrite : mask &&& aeWritable ≠ 0 ∧ takes .write = false
    · rw [if_pos hwrite]
      refine ⟨_, false, rfl, ?_⟩
      rw [if_neg (by simp)]
      split
      · rename_i hmask
        have htakes : takes .read = true := by
          by_contra hfalse
          exact hread ⟨hmask, by simpa using hfalse⟩
        rw [set_read_of_registered h]
        · exact h
        · exact fun hzero => hhalf ⟨hmask, hwrite.1, htakes, hwrite.2, hzero⟩
      · exact h
    · rw [if_neg hwrite]
      exact ⟨_, true, rfl, synced_set_all h fd mask true (add_filters _ _)⟩

/-- The contract of the layer, where no registration is taken by half. -/
def contract : Contract (api : Api π κ _ _ _) where
  Synced := Synced
  fits := fun _ => True
  adds := fun el fd mask takes => ¬ HalfTaken el fd mask takes
  deletes := fun _ => True
  answers := fun el q answer =>
    answer.length ≤ el.setsize ∧ ∀ e ∈ answer, q e.ident e.filter = true
  initial := fun _ => filters_aeNone.symm
  add := fun _ _ h _ _ hhalf => synced_add h hhalf
  delete := fun {_ _ fd mask _} _ _ h _ _ _ =>
    ⟨_, rfl, synced_set_all h fd mask false (delete_filters _ _)⟩
  poll := fun {_ q _} _ _ h hanswer => ⟨q, _, rfl, h, by simpa using hanswer.1, fun f hf => by
    obtain ⟨e, he, rfl⟩ := List.mem_map.mp hf
    have hactive := hanswer.2 e he
    rw [h e.ident] at hactive
    intro hnone
    rw [hnone] at hactive
    revert hactive
    cases e.filter <;> decide⟩
  close := fun {masks q fd} h hnone => by
    have := h.update fd (filters_aeNone.symm.trans (congrArg filters hnone.symm))
    rwa [Function.update_eq_self] at this

/-! ## Over a run -/

/-- The half that stays behind: `AE_ERR`, and a filter without a registration. -/
theorem aeApiAddEvent_of_half {el : AeEventLoop π κ} {fd : Nat} {mask : Mask}
    {takes : Filter → Bool} (h : HalfTaken el fd mask takes) (q : Queue) :
    aeApiAddEvent el q fd mask takes = some (q.set fd .read true, false) := by
  obtain ⟨hread, hwrite, hfirst, hsecond, _⟩ := h
  unfold aeApiAddEvent
  rw [if_neg (by simp [hfirst])]
  dsimp only
  rw [if_pos ⟨hwrite, hsecond⟩, if_pos hread]

theorem not_synced_of_half {el : AeEventLoop π κ} {fd : Nat} {mask : Mask} {takes : Filter → Bool}
    (h : HalfTaken el fd mask takes) (q : Queue) : ¬ Synced el.masks (q.set fd .read true) := by
  intro hsynced
  have hread := congrFun (hsynced fd) .read
  simp [Queue.set, filters, h.2.2.2.2] at hread

/-- In every run without a registration that is taken by half, the active filters
are those of the registered masks; and a registration from there leaves them so
if and only if it is not taken by half. -/
theorem filters_of_runs {setsize : Nat} {ops : List (LoopOp π κ _ _)} {s : Option (Loop π κ Queue)}
    (h : contract.machine.Runs (some (api.createLoop setsize)) ops s) :
    ∃ l, s = some l ∧ (∀ fd, l.api fd = filters (l.el.masks fd)) ∧
      ∀ fd < setsize, ∀ mask ≠ aeNone, ∀ proc clientData takes,
        ∃ l' ok, api.create l fd mask proc clientData takes = some (l', ok) ∧
          ((∀ x, l'.api x = filters (l'.el.masks x)) ↔ ¬ HalfTaken l.el fd mask takes) := by
  obtain ⟨l, rfl, hin, hsize⟩ := contract.inStep_of_runs trivial h
  refine ⟨l, rfl, hin.synced, fun fd hfd mask hmask proc clientData takes => ?_⟩
  by_cases hhalf : HalfTaken l.el fd mask takes
  · refine ⟨⟨l.el, l.api.set fd .read true⟩, false, ?_, ?_⟩
    · unfold Api.create
      rw [if_neg (by omega)]
      change (aeApiAddEvent l.el l.api fd mask takes).bind _ = _
      rw [aeApiAddEvent_of_half hhalf]
      simp
    · exact iff_of_false (not_synced_of_half hhalf _) (not_not.mpr hhalf)
  · obtain ⟨l', ok, hcreate, hin', _⟩ := hin.create fd proc clientData hmask hhalf
    exact ⟨l', ok, hcreate, iff_of_true hin'.synced hhalf⟩

/-- Descriptor 5 is registered for reading, reported, and given up. -/
def firstRun : List (LoopOp Unit Unit (Filter → Bool) (List Kevent)) :=
  [.create 5 aeReadable () () fun _ => true, .poll [⟨5, .read⟩], .delete 5 aeReadable fun _ => true]

theorem firstRun_admitted : contract.machine.AdmitsAll (some (api.createLoop 8)) firstRun := by
  refine ⟨fun _ _ => ⟨by decide, fun hhalf => ?_⟩, fun l hl => ?_, fun _ _ => trivial, trivial⟩
  · exact absurd hhalf.2.1 (by decide)
  · obtain rfl := Option.some.inj hl
    refine ⟨by decide, fun e he => ?_⟩
    obtain rfl := List.mem_singleton.mp he
    decide

theorem filters_of_firstRun :
    ∃ l, firstRun.foldl contract.machine.step (some (api.createLoop 8)) = some l ∧
      (∀ fd, l.api fd = filters (l.el.masks fd)) ∧
      ∀ fd < 8, ∀ mask ≠ aeNone, ∀ proc clientData takes,
        ∃ l' ok, api.create l fd mask proc clientData takes = some (l', ok) ∧
          ((∀ x, l'.api x = filters (l'.el.masks x)) ↔ ¬ HalfTaken l.el fd mask takes) :=
  filters_of_runs (.of_admitsAll firstRun_admitted)

end Tflib.Ae.Kqueue
