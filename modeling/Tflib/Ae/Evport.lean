import Tflib.Ae.Backend
import Mathlib.Data.List.Nodup
import Mathlib.Data.List.Perm.Subperm

/-! # The event port layer

`ae_evport.c`. An event port forgets a descriptor when it reports it, so the
layer keeps the descriptors of the last poll in two arrays and associates them
again at the next one. Each registered descriptor is either associated with the
port or pending, and never both.
-/

namespace Tflib.Ae.Evport

open Tflib.Ae

def maxEventBatchsz : Nat := 512

def pollIn : BitVec 32 := 0x001
def pollOut : BitVec 32 := 0x004

/-- What the port keeps for an associated descriptor: the poll events and the
user pointer, which holds the mask. -/
structure Association where
  events : BitVec 32
  user : Mask
  deriving DecidableEq, Repr

/-- The port's associations. -/
abbrev Port := Nat → Option Association

/-- `aeApiState`. The list holds the first `npending` entries of `pending_fds` and
`pending_masks`; `none` is a descriptor of -1. -/
structure ApiState where
  port : Port
  pending : List (Option Nat × Mask)

/-- `port_event_t`. -/
structure PortEvent where
  events : BitVec 32
  object : Nat
  user : Mask
  deriving DecidableEq, Repr

/-- How `port_getn` comes back: with events, which a timeout may have cut short,
with none, or with an error that is neither `ETIME` nor `EINTR`. -/
inductive PortGetn
  | events (stored : List PortEvent)
  | nothing
  | failed

/-- What the system calls of one poll answer: whether the port takes each
descriptor back, and `port_getn`. -/
structure PollAnswer where
  accepts : Nat → Bool
  getn : PortGetn

/-- The loop of `aeApiLookupPending`; `none` is -1. -/
def aeApiLookupPending (pending : List (Option Nat × Mask)) (fd : Nat) : Option Nat :=
  pending.findIdx? (·.1 = some fd)

/-- The poll events that stand for a mask. -/
def pollEvents (mask : Mask) : BitVec 32 :=
  (if mask &&& aeReadable ≠ 0 then pollIn else 0) |||
    (if mask &&& aeWritable ≠ 0 then pollOut else 0)

/-- `aeApiAssociate`; `none` is -1. -/
def aeApiAssociate (port : Port) (fd : Nat) (mask : Mask) (accepted : Bool) : Option Port :=
  if accepted then some (Function.update port fd (some ⟨pollEvents mask, mask⟩)) else none

variable {π κ : Type}

def aeApiAddEvent (el : AeEventLoop π κ) (s : ApiState) (fd : Nat) (mask : Mask)
    (accepted : Bool) : Option (ApiState × Bool) :=
  let fullmask := mask ||| el.masks fd
  match aeApiLookupPending s.pending fd with
  | some pfd => some ({ s with pending := s.pending.modify pfd fun e => (e.1, e.2 ||| fullmask) }, true)
  | none =>
      match aeApiAssociate s.port fd fullmask accepted with
      | some port => some ({ s with port := port }, true)
      | none => some (s, false)

/-- The two stores into a pending entry when a mask is taken away. -/
def dropMask (mask : Mask) (e : Option Nat × Mask) : Option Nat × Mask :=
  let left := e.2 &&& ~~~mask
  (if left = aeNone then none else e.1, left)

/-- `aeApiDelEvent`; a port that will not dissociate or associate the descriptor
ends in `abort`. -/
def aeApiDelEvent (el : AeEventLoop π κ) (s : ApiState) (fd : Nat) (mask : Mask)
    (accepted : Bool) : Option ApiState :=
  match aeApiLookupPending s.pending fd with
  | some pfd => some { s with pending := s.pending.modify pfd (dropMask mask) }
  | none =>
      let fullmask := el.masks fd
      if fullmask = aeNone then
        -- `port_dissociate` fails with `ENOENT` where nothing is associated
        match s.port fd with
        | some _ => some { s with port := Function.update s.port fd none }
        | none => none
      else (aeApiAssociate s.port fd fullmask accepted).map fun port => { s with port := port }

/-- The loop at the start of `aeApiPoll` over the pending descriptors. -/
def reassociate (accepts : Nat → Bool) (port : Port) : List (Option Nat × Mask) → Option Port
  | [] => some port
  | (none, _) :: rest => reassociate accepts port rest
  | (some fd, mask) :: rest =>
      match aeApiAssociate port fd mask (accepts fd) with
      | some port => reassociate accepts port rest
      | none => none

/-- The mask that `aeApiPoll` stores for an event. -/
def firedMask (events : BitVec 32) : Mask :=
  (if events &&& pollIn ≠ 0 then aeReadable else 0) |||
    (if events &&& pollOut ≠ 0 then aeWritable else 0)

/-- The port after it has reported these events. -/
def Port.report (port : Port) (stored : List PortEvent) : Port :=
  fun fd => if fd ∈ stored.map (·.object) then none else port fd

def aeApiPoll (_el : AeEventLoop π κ) (s : ApiState) (answer : PollAnswer) :
    Option (ApiState × List AeFiredEvent) := do
  let port ← reassociate answer.accepts s.port s.pending
  match answer.getn with
  | .events stored =>
      some (⟨port.report stored, stored.map fun e => (some e.object, e.user)⟩,
        stored.map fun e => ⟨e.object, firedMask e.events⟩)
  | .nothing => some (⟨port, []⟩, [])
  | .failed => none

def api : Api π κ ApiState Bool PollAnswer where
  initial := ⟨fun _ => none, []⟩
  addEvent := aeApiAddEvent
  delEvent := aeApiDelEvent
  poll := aeApiPoll
  close := fun s fd => { s with port := Function.update s.port fd none }

/-- What `port_getn` can report: at most one batch of associated descriptors, each
once and with its user pointer, and then the descriptor is dissociated. -/
def GetnAnswer (port : Port) : PortGetn → Prop
  | .events stored => stored.length ≤ maxEventBatchsz ∧ (stored.map (·.object)).Nodup ∧
      ∀ e ∈ stored, ∃ a, port e.object = some a ∧ e.user = a.user
  | .nothing => True
  | .failed => False

/-- The answers to a poll where nothing is wrong: the port takes the pending
descriptors back, and `port_getn` reports from what it then has. -/
def Answers (s : ApiState) (answer : PollAnswer) : Prop :=
  (∀ fd, answer.accepts fd = true) ∧
    ∀ port, reassociate answer.accepts s.port s.pending = some port → GetnAnswer port answer.getn

/-! ## In step with the table -/

/-- The descriptors that wait to be associated again. -/
def pendingFds (pending : List (Option Nat × Mask)) : List Nat := pending.filterMap (·.1)

/-- The association that a mask asks for. -/
def wanted (mask : Mask) : Option Association :=
  if mask = aeNone then none else some ⟨pollEvents mask, mask⟩

structure Synced (masks : Nat → Mask) (s : ApiState) : Prop where
  size : s.pending.length ≤ maxEventBatchsz
  nodup : (pendingFds s.pending).Nodup
  pending : ∀ fd mask, (some fd, mask) ∈ s.pending →
    mask = masks fd ∧ masks fd ≠ aeNone ∧ s.port fd = none
  associated : ∀ fd, fd ∉ pendingFds s.pending → s.port fd = wanted (masks fd)

theorem mem_pendingFds {pending : List (Option Nat × Mask)} {fd : Nat} :
    fd ∈ pendingFds pending ↔ ∃ mask, (some fd, mask) ∈ pending := by
  simp [pendingFds]

theorem lookup_eq_none {pending : List (Option Nat × Mask)} {fd : Nat} :
    aeApiLookupPending pending fd = none ↔ fd ∉ pendingFds pending := by
  rw [aeApiLookupPending, List.findIdx?_eq_none_iff, mem_pendingFds]
  constructor
  · rintro h ⟨mask, hmem⟩
    simpa using h _ hmem
  · rintro h ⟨fd', mask⟩ hmem
    simp only [decide_eq_false_iff_not]
    rintro rfl
    exact h ⟨mask, hmem⟩

/-- A pending descriptor stands at one place of the list. -/
theorem lookup_split {pending : List (Option Nat × Mask)} {fd pfd : Nat}
    (h : aeApiLookupPending pending fd = some pfd) :
    ∃ front mask back, pending = front ++ (some fd, mask) :: back ∧ front.length = pfd := by
  obtain ⟨hlt, hfd, _⟩ := List.findIdx?_eq_some_iff_getElem.mp h
  have hfst : (pending[pfd]).1 = some fd := by simpa using hfd
  refine ⟨pending.take pfd, pending[pfd].2, pending.drop (pfd + 1), ?_, by simp; omega⟩
  rw [← hfst, show (pending[pfd].1, pending[pfd].2) = pending[pfd] from rfl, List.getElem_cons_drop, List.take_append_drop]

theorem modify_split (front back : List (Option Nat × Mask)) (e : Option Nat × Mask)
    (f : Option Nat × Mask → Option Nat × Mask) :
    (front ++ e :: back).modify front.length f = front ++ f e :: back := by
  induction front with
  | nil => rfl
  | cons x front ih => simpa using ih

theorem pendingFds_split (front back : List (Option Nat × Mask)) (e : Option Nat × Mask) :
    pendingFds (front ++ e :: back) = pendingFds front ++ (e.1.toList ++ pendingFds back) := by
  cases h : e.1 <;> simp [pendingFds, h]

/-- The entry of one pending descriptor gets a new mask, or is given up with the
registration. -/
theorem Synced.replace {masks : Nat → Mask} {s : ApiState} (h : Synced masks s) {fd : Nat}
    {old mask : Mask} {front back : List (Option Nat × Mask)} {e : Option Nat × Mask}
    (hp : s.pending = front ++ (some fd, old) :: back)
    (he : e = (some fd, mask) ∧ mask ≠ aeNone ∨ e.1 = none ∧ mask = aeNone) :
    Synced (Function.update masks fd mask) { s with pending := front ++ e :: back } := by
  have hnodup := h.nodup
  rw [hp, pendingFds_split] at hnodup
  obtain ⟨hfront, hback⟩ : fd ∉ pendingFds front ∧ fd ∉ pendingFds back := by
    simp only [Option.toList_some, List.singleton_append, List.nodup_append, List.nodup_cons,
      List.mem_cons] at hnodup
    exact ⟨fun hmem => hnodup.2.2 fd hmem fd (.inl rfl) rfl, hnodup.2.1.1⟩
  have hport : s.port fd = none := (h.pending fd old (by simp [hp])).2.2
  have hothers : ∀ x m, (some x, m) ∈ front ++ back → x ≠ fd ∧ (some x, m) ∈ s.pending := by
    intro x m hmem
    rw [hp]
    rcases List.mem_append.mp hmem with hmem | hmem
    · exact ⟨fun hx => hfront (hx ▸ mem_pendingFds.mpr ⟨m, hmem⟩), List.mem_append_left _ hmem⟩
    · exact ⟨fun hx => hback (hx ▸ mem_pendingFds.mpr ⟨m, hmem⟩),
        List.mem_append_right _ (List.mem_cons_of_mem _ hmem)⟩
  refine ⟨?_, ?_, fun x m hmem => ?_, fun x hx => ?_⟩
  · have := h.size
    simp only [hp, List.length_append, List.length_cons] at this ⊢
    exact this
  · dsimp only
    rw [pendingFds_split]
    rcases he with ⟨rfl, _⟩ | ⟨hnone, _⟩
    · exact hnodup
    · rw [hnone]
      refine hnodup.sublist (List.Sublist.append_left ?_ _)
      simp
  · by_cases hmem' : (some x, m) ∈ front ++ back
    · obtain ⟨hne, hold⟩ := hothers x m hmem'
      rw [Function.update_of_ne hne]
      exact h.pending x m hold
    · obtain rfl : (some x, m) = e := by
        simp only [List.mem_append, List.mem_cons] at hmem hmem'
        tauto
      rcases he with ⟨heq, hmask⟩ | ⟨hnone, _⟩
      · cases heq
        rw [Function.update_self]
        exact ⟨rfl, hmask, hport⟩
      · cases hnone
  · by_cases hfd : x = fd
    · subst hfd
      rw [Function.update_self]
      rcases he with ⟨rfl, _⟩ | ⟨_, rfl⟩
      · exact absurd (mem_pendingFds.mpr ⟨mask, by simp⟩) hx
      · exact hport
    · rw [Function.update_of_ne hfd]
      refine h.associated x fun hmem => hx ?_
      rw [hp, pendingFds_split] at hmem
      rw [pendingFds_split]
      simp only [Option.toList_some, List.singleton_append, List.mem_append, List.mem_cons] at hmem ⊢
      rcases hmem with hmem | hmem | hmem
      · exact .inl hmem
      · exact absurd hmem hfd
      · exact .inr (.inr hmem)

/-- A descriptor that is not pending changes with its association. -/
theorem Synced.associate {masks : Nat → Mask} {s : ApiState} (h : Synced masks s) {fd : Nat}
    (hfd : fd ∉ pendingFds s.pending) (mask : Mask) :
    Synced (Function.update masks fd mask)
      { s with port := Function.update s.port fd (wanted mask) } := by
  refine ⟨h.size, h.nodup, fun x m hmem => ?_, fun x hx => ?_⟩
  · have hne : x ≠ fd := by
      rintro rfl
      exact hfd (mem_pendingFds.mpr ⟨m, hmem⟩)
    simp only [Function.update_of_ne hne]
    exact h.pending x m hmem
  · by_cases hne : x = fd
    · simp [hne]
    · simp only [Function.update_of_ne hne]
      exact h.associated x hx

theorem wanted_of_ne {mask : Mask} (h : mask ≠ aeNone) :
    wanted mask = some ⟨pollEvents mask, mask⟩ := if_neg h

theorem or_or_self (old mask : Mask) : old ||| (mask ||| old) = old ||| mask := by
  revert old mask
  decide

theorem synced_add {el : AeEventLoop π κ} {s : ApiState} (h : Synced el.masks s) (fd : Nat)
    {mask : Mask} (hmask : mask ≠ aeNone) (accepted : Bool) :
    ∃ s' added, aeApiAddEvent el s fd mask accepted = some (s', added) ∧
      Synced (if added then Function.update el.masks fd (el.masks fd ||| mask) else el.masks) s' := by
  have hne : el.masks fd ||| mask ≠ aeNone := or_ne_aeNone _ _ hmask
  unfold aeApiAddEvent
  cases hlookup : aeApiLookupPending s.pending fd with
  | some pfd =>
      obtain ⟨front, old, back, hp, rfl⟩ := lookup_split hlookup
      obtain ⟨rfl, _, _⟩ := h.pending fd old (by simp [hp])
      refine ⟨_, true, rfl, ?_⟩
      rw [if_pos rfl, hp, modify_split]
      dsimp only
      rw [or_or_self]
      exact h.replace hp (.inl ⟨rfl, hne⟩)
  | none =>
      cases accepted with
      | false => exact ⟨s, false, rfl, h⟩
      | true =>
          refine ⟨_, true, rfl, ?_⟩
          rw [if_pos rfl, ← wanted_of_ne (by rwa [BitVec.or_comm]), BitVec.or_comm mask]
          exact h.associate (lookup_eq_none.mp hlookup) _

theorem synced_del {el : AeEventLoop π κ} {s : ApiState} (h : Synced el.masks s) {fd : Nat}
    (hsize : fd < el.setsize) (hreg : el.masks fd ≠ aeNone) (mask : Mask) :
    ∃ s', aeApiDelEvent (aeDeleteFileEvent el fd mask) s fd mask true = some s' ∧
      Synced (Function.update el.masks fd (el.masks fd &&& ~~~mask)) s' := by
  have hleft : (aeDeleteFileEvent el fd mask).masks fd = el.masks fd &&& ~~~mask := by
    rw [masks_aeDeleteFileEvent el mask hsize, Function.update_self]
  unfold aeApiDelEvent
  cases hlookup : aeApiLookupPending s.pending fd with
  | some pfd =>
      obtain ⟨front, old, back, hp, rfl⟩ := lookup_split hlookup
      obtain ⟨rfl, _, _⟩ := h.pending fd old (by simp [hp])
      refine ⟨_, rfl, ?_⟩
      rw [hp, modify_split]
      refine h.replace hp ?_
      by_cases hnone : el.masks fd &&& ~~~mask = aeNone
      · exact .inr ⟨by simp [dropMask, hnone], hnone⟩
      · exact .inl ⟨by simp [dropMask, hnone], hnone⟩
  | none =>
      have hfd := lookup_eq_none.mp hlookup
      dsimp only
      rw [hleft]
      by_cases hnone : el.masks fd &&& ~~~mask = aeNone
      · rw [if_pos hnone, h.associated fd hfd, wanted_of_ne hreg]
        refine ⟨_, rfl, ?_⟩
        have := h.associate hfd (el.masks fd &&& ~~~mask)
        rwa [show wanted (el.masks fd &&& ~~~mask) = none from if_pos hnone] at this
      · rw [if_neg hnone]
        refine ⟨_, rfl, ?_⟩
        rw [← wanted_of_ne hnone]
        exact h.associate hfd _

/-! ## Polling -/

/-- Every pending descriptor gets its association back, the others keep theirs. -/
theorem reassociate_all {accepts : Nat → Bool} (haccepts : ∀ fd, accepts fd = true)
    {pending : List (Option Nat × Mask)} (hnodup : (pendingFds pending).Nodup) (port : Port) :
    ∃ port', reassociate accepts port pending = some port' ∧
      (∀ fd mask, (some fd, mask) ∈ pending → port' fd = some ⟨pollEvents mask, mask⟩) ∧
      ∀ fd, fd ∉ pendingFds pending → port' fd = port fd := by
  induction pending generalizing port with
  | nil => exact ⟨port, rfl, by simp, fun _ _ => rfl⟩
  | cons e rest ih =>
      obtain ⟨efd, mask⟩ := e
      cases efd with
      | none =>
          obtain ⟨port', hrun, hpend, hkeep⟩ := ih hnodup port
          refine ⟨port', hrun, fun fd m hmem => hpend fd m ?_, hkeep⟩
          simpa using hmem
      | some fd =>
          obtain ⟨hnot, hrest⟩ := List.nodup_cons.mp hnodup
          obtain ⟨port', hrun, hpend, hkeep⟩ :=
            ih hrest (Function.update port fd (some ⟨pollEvents mask, mask⟩))
          refine ⟨port', ?_, fun x m hmem => ?_, fun x hx => ?_⟩
          · rw [reassociate, aeApiAssociate, if_pos (haccepts fd)]
            exact hrun
          · rcases List.mem_cons.mp hmem with heq | hmem
            · cases heq
              rw [hkeep _ hnot, Function.update_self]
            · exact hpend x m hmem
          · obtain ⟨hne, hx⟩ : x ≠ fd ∧ x ∉ pendingFds rest := by simpa [pendingFds] using hx
            rw [hkeep x hx, Function.update_of_ne hne]

/-- On the way into `port_getn` every registered descriptor is associated. -/
theorem Synced.reassociate {masks : Nat → Mask} {s : ApiState} (h : Synced masks s)
    {accepts : Nat → Bool} (haccepts : ∀ fd, accepts fd = true) :
    Evport.reassociate accepts s.port s.pending = some fun fd => wanted (masks fd) := by
  obtain ⟨port, hrun, hpend, hkeep⟩ := reassociate_all haccepts h.nodup s.port
  rw [hrun]
  congr 1
  funext fd
  by_cases hfd : fd ∈ pendingFds s.pending
  · obtain ⟨mask, hmem⟩ := mem_pendingFds.mp hfd
    obtain ⟨rfl, hne, _⟩ := h.pending fd mask hmem
    rw [hpend fd _ hmem, wanted_of_ne hne]
  · rw [hkeep fd hfd, h.associated fd hfd]

theorem wanted_eq_some {mask : Mask} {a : Association} (h : wanted mask = some a) :
    mask ≠ aeNone ∧ a.user = mask := by
  unfold wanted at h
  split at h
  · cases h
  · rename_i hne
    cases h
    exact ⟨hne, rfl⟩

theorem synced_wanted (masks : Nat → Mask) : Synced masks ⟨fun fd => wanted (masks fd), []⟩ :=
  ⟨Nat.zero_le _, List.nodup_nil, fun _ _ h => absurd h List.not_mem_nil, fun _ _ => rfl⟩

/-- After `port_getn` the reported descriptors are pending and the others are
associated. -/
theorem synced_report {masks : Nat → Mask} {stored : List PortEvent}
    (h : GetnAnswer (fun fd => wanted (masks fd)) (.events stored)) :
    Synced masks ⟨Port.report (fun fd => wanted (masks fd)) stored,
      stored.map fun e => (some e.object, e.user)⟩ := by
  obtain ⟨hsize, hnodup, huser⟩ := h
  have hfds : pendingFds (stored.map fun e => (some e.object, e.user)) = stored.map (·.object) := by
    simp [pendingFds, List.filterMap_map]
  refine ⟨by simpa using hsize, hfds.symm ▸ hnodup, fun fd mask hmem => ?_, fun fd hfd => ?_⟩
  · obtain ⟨e, he, heq⟩ := List.mem_map.mp hmem
    cases heq
    obtain ⟨a, ha, hu⟩ := huser e he
    obtain ⟨hne, hmask⟩ := wanted_eq_some ha
    refine ⟨hu.trans hmask, hne, ?_⟩
    exact if_pos (List.mem_map_of_mem he)
  · rw [hfds] at hfd
    exact if_neg hfd

theorem length_le_setsize {el : AeEventLoop π κ} (hel : Tabled el) {stored : List PortEvent}
    (hnodup : (stored.map (·.object)).Nodup) (hreg : ∀ e ∈ stored, el.masks e.object ≠ aeNone) :
    stored.length ≤ el.setsize := by
  have hsub : stored.map (·.object) ⊆ List.range el.setsize := by
    intro fd hfd
    obtain ⟨e, he, rfl⟩ := List.mem_map.mp hfd
    exact List.mem_range.mpr (hel.inTable _ (hreg e he))
  simpa using (hnodup.subperm hsub).length_le

theorem synced_poll {el : AeEventLoop π κ} {s : ApiState} (hel : Tabled el)
    (h : Synced el.masks s) {answer : PollAnswer} (hanswer : Answers s answer) :
    ∃ s' fired, aeApiPoll el s answer = some (s', fired) ∧ Synced el.masks s' ∧
      fired.length ≤ el.setsize ∧ ∀ f ∈ fired, el.masks f.fd ≠ aeNone := by
  have hback := h.reassociate hanswer.1
  have hgetn := hanswer.2 _ hback
  unfold aeApiPoll
  rw [hback]
  cases hevents : answer.getn with
  | events stored =>
      rw [hevents] at hgetn
      have hreg : ∀ e ∈ stored, el.masks e.object ≠ aeNone := by
        intro e he
        obtain ⟨a, ha, _⟩ := hgetn.2.2 e he
        exact (wanted_eq_some ha).1
      refine ⟨_, _, rfl, synced_report hgetn, ?_, fun f hf => ?_⟩
      · simpa using length_le_setsize hel hgetn.2.1 hreg
      · obtain ⟨e, he, rfl⟩ := List.mem_map.mp hf
        exact hreg e he
  | nothing =>
      exact ⟨_, [], rfl, synced_wanted el.masks, Nat.zero_le _,
        fun _ hf => absurd hf List.not_mem_nil⟩
  | failed =>
      rw [hevents] at hgetn
      exact absurd hgetn id

theorem synced_close {masks : Nat → Mask} {s : ApiState} (h : Synced masks s) {fd : Nat}
    (hnone : masks fd = aeNone) : Synced masks { s with port := Function.update s.port fd none } := by
  have hfd : fd ∉ pendingFds s.pending := by
    intro hmem
    obtain ⟨mask, hmem⟩ := mem_pendingFds.mp hmem
    exact (h.pending fd mask hmem).2.1 hnone
  have := h.associate hfd (masks fd)
  rwa [Function.update_eq_self, show wanted (masks fd) = none from if_pos hnone] at this

/-- The contract of the layer, for a port that associates what it is asked to when a
mask is taken away and when the layer polls. -/
def contract : Contract (api : Api π κ _ _ _) where
  Synced := Synced
  fits := fun _ => True
  adds := fun _ _ _ _ => True
  deletes := fun accepted => accepted = true
  answers := fun _ s answer => Answers s answer
  initial := synced_wanted _
  add := fun _ _ h _ hmask _ => synced_add h _ hmask _
  delete := fun _ _ h hsize hreg hdel => hdel ▸ synced_del h hsize hreg _
  poll := fun hel _ h hanswer => synced_poll hel h hanswer
  close := fun h hnone => synced_close h hnone

/-! ## Over a run -/

/-- Descriptor 5 is registered for reading and reported, and while it is pending it
is registered for writing too. -/
def firstRun : List (LoopOp Unit Unit Bool PollAnswer) :=
  [.create 5 aeReadable () () true, .poll ⟨fun _ => true, .events [⟨pollIn, 5, aeReadable⟩]⟩,
    .create 5 aeWritable () () true]

theorem firstRun_admitted : contract.machine.AdmitsAll (some (api.createLoop 8)) firstRun := by
  refine ⟨fun _ _ => ⟨by decide, trivial⟩, fun l hl => ?_, fun _ _ => ⟨by decide, trivial⟩, trivial⟩
  obtain rfl := Option.some.inj hl
  refine ⟨fun _ => rfl, fun port hport => ⟨by decide, by decide, fun e he => ?_⟩⟩
  obtain rfl := List.mem_singleton.mp he
  obtain rfl := Option.some.inj hport
  exact ⟨⟨pollIn, aeReadable⟩, rfl, rfl⟩

end Tflib.Ae.Evport
