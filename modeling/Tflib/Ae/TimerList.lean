import Tflib.Ae.TimeEvents
import Mathlib.Data.List.Pairwise

/-! # Callbacks that change the timer list

The callbacks of `processTimeEvents` get the loop and may create, delete and
modify timers. Here a callback is what it does to the list and what it returns;
the loop uses the list element again after the callback, which is sound only as
long as the element is still there.
-/

namespace Tflib.Ae

variable {σ : Type}

/-- What `aeDeleteTimeEvent` leaves of the list. -/
def unlinkTimer (id : Int) (events : List (AeTimeEvent σ)) : List (AeTimeEvent σ) :=
  events.eraseP (·.id = id)

theorem aeDeleteTimeEvent_fst (id : Int) (events : List (AeTimeEvent σ)) (s : σ) :
    (aeDeleteTimeEvent id events s).1 = unlinkTimer id events := by
  induction events generalizing s with
  | nil => rfl
  | cons te rest ih =>
      by_cases h : te.id = id
      · simp [aeDeleteTimeEvent, unlinkTimer, h]
      · have := ih s
        simp [aeDeleteTimeEvent, unlinkTimer, h] at this ⊢
        exact this

/-- The `while` loop of `aeModifyTimeEvent`. -/
def modifyTimer (id : Int) (tv : TimeVal) (milliseconds : Int) :
    List (AeTimeEvent σ) → List (AeTimeEvent σ)
  | [] => []
  | te :: rest =>
      if te.id = id then te.rearm tv milliseconds :: rest
      else te :: modifyTimer id tv milliseconds rest

/-- `aeModifyTimeEvent`; the flag is `AE_OK`. -/
def aeModifyTimeEvent (el : AeTimers σ) (id : Int) (tv : TimeVal) (milliseconds : Int) :
    AeTimers σ × Bool :=
  ({ el with timeEventHead := modifyTimer id tv milliseconds el.timeEventHead },
    el.timeEventHead.any (·.id = id))

/-- A call that a callback makes on the loop's timers. -/
inductive TimerCall (σ : Type)
  | create (tv : TimeVal) (milliseconds : Int) (proc : Int → σ → σ × Int)
      (finalizerProc : Option (σ → σ)) (allocated : Bool)
  | delete (id : Int)
  | modify (id : Int) (tv : TimeVal) (milliseconds : Int)

def AeTimers.perform (el : AeTimers σ) : TimerCall σ → AeTimers σ
  | .create tv milliseconds proc finalizerProc allocated =>
      (aeCreateTimeEvent el tv milliseconds proc finalizerProc allocated).1
  | .delete id => { el with timeEventHead := unlinkTimer id el.timeEventHead }
  | .modify id tv milliseconds => (aeModifyTimeEvent el id tv milliseconds).1

/-- What one run of a `timeProc` does: its calls, its result, and the calls of the
finalizer when the result is `AE_NOMORE`. -/
structure TimeProcRun (σ : Type) where
  calls : List (TimerCall σ)
  retval : Int
  finalizer : List (TimerCall σ)

/-- How the loop ends: at the end of the list, or by a store into an element that
the callback has freed. -/
inductive LoopEnd (σ : Type)
  | finished (el : AeTimers σ)
  | freed

/-- One run of a callback: the timer's id and what it did. -/
abbrev Fired (σ : Type) := Int × TimeProcRun σ

/-- Some element has this id. -/
def AeTimers.Present (el : AeTimers σ) (id : Int) : Prop := ∃ te ∈ el.timeEventHead, te.id = id

instance (el : AeTimers σ) (id : Int) : Decidable (el.Present id) :=
  inferInstanceAs (Decidable (∃ te ∈ el.timeEventHead, te.id = id))

/-- `aeDeleteTimeEvent` with the calls of the finalizer, which runs only if the
element is found. -/
def AeTimers.finish (el : AeTimers σ) (id : Int) (finalizer : List (TimerCall σ)) : AeTimers σ :=
  if el.Present id then finalizer.foldl AeTimers.perform (el.perform (.delete id)) else el

/-- The `while` loop of `processTimeEvents`, with the runs of callbacks that it
makes. `script` says what each run does, `n` counts the calls of `gettimeofday` and
`c` those of callbacks; the list is what is left from the pointer `te` on. -/
def reentrantLoop (clock : Clock) (script : Nat → TimeProcRun σ) (maxId : Int) :
    Nat → Nat → Nat → AeTimers σ → List (AeTimeEvent σ) → Option (List (Fired σ) × LoopEnd σ)
  | 0, _, _, _, _ => none
  | _ + 1, _, _, el, [] => some ([], .finished el)
  | fuel + 1, n, c, el, te :: rest =>
      if te.id > maxId then reentrantLoop clock script maxId fuel n c el rest
      else if te.Due (clock n) then
        let run := script c
        let el := run.calls.foldl AeTimers.perform el
        if run.retval = aeNoMore then
          let el := el.finish te.id run.finalizer
          (reentrantLoop clock script maxId fuel (n + 1) (c + 1) el el.timeEventHead).map
            fun out => ((te.id, run) :: out.1, out.2)
        else if el.Present te.id then
          -- the stores into `te->when_sec` and `te->when_ms`
          let el := (aeModifyTimeEvent el te.id (clock (n + 1)) run.retval).1
          (reentrantLoop clock script maxId fuel (n + 2) (c + 1) el el.timeEventHead).map
            fun out => ((te.id, run) :: out.1, out.2)
        else some ([(te.id, run)], .freed)
      else reentrantLoop clock script maxId fuel (n + 1) c el rest

/-- The list as the loop of `processTimeEvents` finds it. -/
def AeTimers.enter (el : AeTimers σ) (now : Int) : AeTimers σ :=
  { el with lastTime := now, timeEventHead := detectSkew el now }

/-- `processTimeEvents` with such callbacks; `now` is what `time(NULL)` answers. -/
def processReentrant (clock : Clock) (script : Nat → TimeProcRun σ) (now : Int) (fuel : Nat)
    (el : AeTimers σ) : Option (List (Fired σ) × LoopEnd σ) :=
  let el := el.enter now
  reentrantLoop clock script (el.timeEventNextId - 1) fuel 0 0 el el.timeEventHead

/-! ## The list over any calls -/

/-- Newer timers stand in front of older ones, no id is given twice, and the
milliseconds stay below a second. -/
structure Listed (el : AeTimers σ) : Prop where
  descending : el.timeEventHead.Pairwise fun te older => older.id < te.id
  below : ∀ te ∈ el.timeEventHead, te.id < el.timeEventNextId
  range : ∀ te ∈ el.timeEventHead, te.whenMs < 1000

theorem aeAddMillisecondsToNow_lt (tv : TimeVal) (milliseconds : Int) :
    (aeAddMillisecondsToNow tv milliseconds).2 < 1000 := by
  have hlow := tv.usec_nonneg
  have hhigh := tv.usec_lt
  have hmod := Int.tmod_lt_of_pos milliseconds (show (0 : Int) < 1000 by decide)
  simp only [aeAddMillisecondsToNow, aeGetTime_eq]
  split <;> dsimp only <;> omega

theorem listed_createTimers (now : Int) : Listed (aeCreateTimers now : AeTimers σ) :=
  ⟨.nil, fun _ h => absurd h List.not_mem_nil, fun _ h => absurd h List.not_mem_nil⟩

/-- Elements change in place, without their ids. -/
theorem Listed.map {el : AeTimers σ} (h : Listed el) {f : AeTimeEvent σ → AeTimeEvent σ}
    (hid : ∀ te, (f te).id = te.id) (hrange : ∀ te, te.whenMs < 1000 → (f te).whenMs < 1000) :
    Listed { el with timeEventHead := el.timeEventHead.map f } := by
  refine ⟨?_, fun te hte => ?_, fun te hte => ?_⟩
  · rw [List.pairwise_map]
    exact h.descending.imp fun {a b} hab => by rwa [hid, hid]
  · obtain ⟨old, hold, rfl⟩ := List.mem_map.mp hte
    rw [hid]
    exact h.below old hold
  · obtain ⟨old, hold, rfl⟩ := List.mem_map.mp hte
    exact hrange old (h.range old hold)

theorem modifyTimer_eq_map {events : List (AeTimeEvent σ)}
    (h : events.Pairwise fun te older => older.id < te.id) (id : Int) (tv : TimeVal)
    (milliseconds : Int) : modifyTimer id tv milliseconds events =
      events.map fun te => if te.id = id then te.rearm tv milliseconds else te := by
  induction events with
  | nil => rfl
  | cons te rest ih =>
      obtain ⟨hhead, hrest⟩ := List.pairwise_cons.mp h
      by_cases hid : te.id = id
      · have hsame : rest.map (fun te => if te.id = id then te.rearm tv milliseconds else te) = rest := by
          refine (List.map_congr_left fun x hx => ?_).trans (List.map_id rest)
          have := hhead x hx
          exact if_neg (by omega)
        simp [modifyTimer, hid, hsame]
      · simp [modifyTimer, hid, ih hrest]

theorem Listed.modify {el : AeTimers σ} (h : Listed el) (id : Int) (tv : TimeVal)
    (milliseconds : Int) : Listed (aeModifyTimeEvent el id tv milliseconds).1 := by
  simp only [aeModifyTimeEvent]
  rw [modifyTimer_eq_map h.descending]
  refine h.map (fun te => ?_) (fun te hte => ?_)
  · split <;> rfl
  · split
    · exact aeAddMillisecondsToNow_lt tv milliseconds
    · exact hte

theorem Listed.perform {el : AeTimers σ} (h : Listed el) (call : TimerCall σ) :
    Listed (el.perform call) := by
  cases call with
  | create tv milliseconds proc finalizerProc allocated =>
      cases allocated with
      | false =>
          refine ⟨h.descending, fun te hte => ?_, h.range⟩
          have := h.below te hte
          change te.id < el.timeEventNextId + 1
          omega
      | true =>
          refine ⟨List.pairwise_cons.mpr ⟨h.below, h.descending⟩, fun te hte => ?_, fun te hte => ?_⟩
          · simp only [AeTimers.perform, aeCreateTimeEvent] at hte ⊢
            rcases List.mem_cons.mp hte with rfl | hte
            · exact Int.lt_succ el.timeEventNextId
            · exact Int.lt_trans (h.below te hte) (Int.lt_succ el.timeEventNextId)
          · rcases List.mem_cons.mp hte with rfl | hte
            · exact aeAddMillisecondsToNow_lt tv milliseconds
            · exact h.range te hte
  | delete id =>
      exact ⟨h.descending.sublist List.eraseP_sublist,
        fun te hte => h.below te (List.mem_of_mem_eraseP hte),
        fun te hte => h.range te (List.mem_of_mem_eraseP hte)⟩
  | modify id tv milliseconds => exact h.modify id tv milliseconds

theorem Listed.performAll {el : AeTimers σ} (h : Listed el) (calls : List (TimerCall σ)) :
    Listed (calls.foldl AeTimers.perform el) := by
  induction calls generalizing el with
  | nil => exact h
  | cons call calls ih => exact ih (h.perform call)

theorem Listed.finish {el : AeTimers σ} (h : Listed el) (id : Int)
    (finalizer : List (TimerCall σ)) : Listed (el.finish id finalizer) := by
  unfold AeTimers.finish
  split
  · exact (h.perform _).performAll finalizer
  · exact h

theorem Listed.enter {el : AeTimers σ} (h : Listed el) (now : Int) :
    Listed (el.enter now) := by
  unfold AeTimers.enter Ae.detectSkew
  split
  · have hset := h.map (f := fun te => { te with whenSec := 0 }) (fun _ => rfl) fun _ hte => hte
    exact ⟨hset.descending, hset.below, hset.range⟩
  · exact ⟨h.descending, h.below, h.range⟩

/-! ## Which elements are still there -/

/-- The call is about the timer `id`. -/
def TimerCall.Addresses (id : Int) : TimerCall σ → Prop
  | .create _ _ _ _ _ => False
  | .delete id' => id' = id
  | .modify id' _ _ => id' = id

theorem nextId_le_perform (el : AeTimers σ) (call : TimerCall σ) :
    el.timeEventNextId ≤ (el.perform call).timeEventNextId := by
  cases call with
  | create tv milliseconds proc finalizerProc allocated =>
      cases allocated <;> exact Int.le_of_lt (Int.lt_succ el.timeEventNextId)
  | delete id => exact Int.le_refl _
  | modify id tv milliseconds => exact Int.le_refl _

theorem nextId_le_performAll (el : AeTimers σ) (calls : List (TimerCall σ)) :
    el.timeEventNextId ≤ (calls.foldl AeTimers.perform el).timeEventNextId := by
  induction calls generalizing el with
  | nil => exact Int.le_refl _
  | cons call calls ih => exact Int.le_trans (nextId_le_perform el call) (ih _)

/-- Calls about other timers leave an element as it is. -/
theorem Listed.mem_perform {el : AeTimers σ} (h : Listed el) {call : TimerCall σ}
    {te : AeTimeEvent σ} (hte : te ∈ el.timeEventHead) (hcall : ¬ call.Addresses te.id) :
    te ∈ (el.perform call).timeEventHead := by
  cases call with
  | create tv milliseconds proc finalizerProc allocated =>
      cases allocated with
      | false => exact hte
      | true => exact List.mem_cons_of_mem _ hte
  | delete id =>
      refine (List.mem_eraseP_of_neg ?_).mpr hte
      simpa using fun heq => hcall (Eq.symm heq)
  | modify id tv milliseconds =>
      simp only [AeTimers.perform, aeModifyTimeEvent]
      rw [modifyTimer_eq_map h.descending]
      exact List.mem_map.mpr ⟨te, hte, if_neg fun heq => hcall heq.symm⟩

theorem Listed.mem_performAll {el : AeTimers σ} (h : Listed el) {calls : List (TimerCall σ)}
    {te : AeTimeEvent σ} (hte : te ∈ el.timeEventHead)
    (hcalls : ∀ call ∈ calls, ¬ call.Addresses te.id) :
    te ∈ (calls.foldl AeTimers.perform el).timeEventHead := by
  induction calls generalizing el with
  | nil => exact hte
  | cons call calls ih =>
      exact ih (h.perform call) (h.mem_perform hte (hcalls call List.mem_cons_self))
        fun next hnext => hcalls next (List.mem_cons_of_mem _ hnext)

/-- An element of another id is not freed. -/
theorem Listed.present_perform {el : AeTimers σ} (h : Listed el) {id : Int}
    (hid : id < el.timeEventNextId) {call : TimerCall σ} (hcall : call ≠ .delete id) :
    (el.perform call).Present id ↔ el.Present id := by
  cases call with
  | create tv milliseconds proc finalizerProc allocated =>
      cases allocated with
      | false => exact Iff.rfl
      | true =>
          simp only [AeTimers.Present, AeTimers.perform, aeCreateTimeEvent]
          have hne : el.timeEventNextId ≠ id := by omega
          simp [hne]
  | delete id' =>
      have hne : id' ≠ id := fun heq => hcall (by rw [heq])
      simp only [AeTimers.Present, AeTimers.perform, unlinkTimer]
      constructor
      · rintro ⟨te, hte, rfl⟩
        exact ⟨te, List.mem_of_mem_eraseP hte, rfl⟩
      · rintro ⟨te, hte, rfl⟩
        exact ⟨te, (List.mem_eraseP_of_neg (by simpa using hne.symm)).mpr hte, rfl⟩
  | modify id' tv milliseconds =>
      simp only [AeTimers.Present, AeTimers.perform, aeModifyTimeEvent]
      rw [modifyTimer_eq_map h.descending]
      constructor
      · rintro ⟨te, hte, rfl⟩
        obtain ⟨old, hold, rfl⟩ := List.mem_map.mp hte
        refine ⟨old, hold, ?_⟩
        split <;> rfl
      · rintro ⟨te, hte, rfl⟩
        refine ⟨_, List.mem_map_of_mem hte, ?_⟩
        split <;> rfl

theorem Listed.not_present_delete {el : AeTimers σ} (h : Listed el) (id : Int) :
    ¬ (el.perform (.delete id)).Present id := by
  obtain ⟨_, next, head⟩ := el
  have hdesc := h.descending
  simp only [AeTimers.Present, AeTimers.perform, unlinkTimer] at hdesc ⊢
  clear h
  induction head with
  | nil => simp
  | cons te rest ih =>
      obtain ⟨hhead, hrest⟩ := List.pairwise_cons.mp hdesc
      by_cases hid : te.id = id
      · rw [List.eraseP_cons_of_pos (by simpa using hid)]
        rintro ⟨x, hx, rfl⟩
        have := hhead x hx
        omega
      · rw [List.eraseP_cons_of_neg (by simpa using hid)]
        rintro ⟨x, hx, hxid⟩
        rcases List.mem_cons.mp hx with rfl | hx
        · exact hid hxid
        · exact ih hrest ⟨x, hx, hxid⟩

/-- After a list of calls an element is gone if and only if one of them deleted it:
its id is not given again. -/
theorem Listed.present_performAll {el : AeTimers σ} (h : Listed el) {id : Int}
    (hid : id < el.timeEventNextId) (calls : List (TimerCall σ)) :
    (calls.foldl AeTimers.perform el).Present id ↔ el.Present id ∧ TimerCall.delete id ∉ calls := by
  induction calls generalizing el with
  | nil => simp
  | cons call calls ih =>
      rw [List.foldl_cons, ih (h.perform call) (Int.lt_of_lt_of_le hid (nextId_le_perform el call))]
      by_cases hcall : call = .delete id
      · subst hcall
        simp [h.not_present_delete id]
      · rw [h.present_perform hid hcall]
        simp [Ne.symm hcall]

/-! ## The ids that a call may serve -/

/-- The ids up to `maxId` that are in the list. -/
def AeTimers.served (el : AeTimers σ) (maxId : Int) : List Int :=
  (el.timeEventHead.map (·.id)).filter (· ≤ maxId)

theorem mem_served {el : AeTimers σ} {maxId id : Int} :
    id ∈ el.served maxId ↔ el.Present id ∧ id ≤ maxId := by
  simp [AeTimers.served, AeTimers.Present]

/-- Calls do not bring an old id back. -/
theorem Listed.served_perform {el : AeTimers σ} (h : Listed el) {maxId : Int}
    (hmax : maxId < el.timeEventNextId) (call : TimerCall σ) :
    ((el.perform call).served maxId).Sublist (el.served maxId) := by
  cases call with
  | create tv milliseconds proc finalizerProc allocated =>
      cases allocated with
      | false => exact List.Sublist.refl _
      | true =>
          have hnew : ¬ el.timeEventNextId ≤ maxId := by omega
          simp [AeTimers.served, AeTimers.perform, aeCreateTimeEvent, hnew]
  | delete id => exact (List.eraseP_sublist.map _).filter _
  | modify id tv milliseconds =>
      have hids : (el.timeEventHead.map fun te =>
          if te.id = id then te.rearm tv milliseconds else te).map (·.id) =
            el.timeEventHead.map (·.id) := by
        rw [List.map_map]
        refine List.map_congr_left fun te _ => ?_
        simp only [Function.comp]
        split <;> rfl
      have hsame : (el.perform (.modify id tv milliseconds)).served maxId = el.served maxId := by
        simp only [AeTimers.served, AeTimers.perform, aeModifyTimeEvent]
        rw [modifyTimer_eq_map h.descending, hids]
      exact hsame ▸ List.Sublist.refl _

theorem Listed.served_performAll {el : AeTimers σ} (h : Listed el) {maxId : Int}
    (hmax : maxId < el.timeEventNextId) (calls : List (TimerCall σ)) :
    ((calls.foldl AeTimers.perform el).served maxId).Sublist (el.served maxId) := by
  induction calls generalizing el with
  | nil => exact List.Sublist.refl _
  | cons call calls ih =>
      exact (ih (h.perform call) (Int.lt_of_lt_of_le hmax (nextId_le_perform el call))).trans
        (h.served_perform hmax call)

theorem nextId_le_finish (el : AeTimers σ) (id : Int) (finalizer : List (TimerCall σ)) :
    el.timeEventNextId ≤ (el.finish id finalizer).timeEventNextId := by
  unfold AeTimers.finish
  split
  · exact nextId_le_performAll (el.perform (.delete id)) finalizer
  · exact Int.le_refl _

theorem Listed.served_finish {el : AeTimers σ} (h : Listed el) {maxId : Int}
    (hmax : maxId < el.timeEventNextId) (id : Int) (finalizer : List (TimerCall σ)) :
    ((el.finish id finalizer).served maxId).Sublist (el.served maxId) := by
  unfold AeTimers.finish
  split
  · exact ((h.perform (.delete id)).served_performAll hmax finalizer).trans
      (h.served_perform hmax _)
  · exact List.Sublist.refl _

theorem Listed.not_present_finish {el : AeTimers σ} (h : Listed el) {id : Int}
    (hid : id < el.timeEventNextId) (finalizer : List (TimerCall σ)) :
    ¬ (el.finish id finalizer).Present id := by
  unfold AeTimers.finish
  split
  · rw [(h.perform (.delete id)).present_performAll hid]
    exact fun hpresent => h.not_present_delete id hpresent.1
  · assumption

/-! ## One call of `processTimeEvents` -/

/-- The callback deletes its own timer and then asks to be called again. -/
def FreesItself (f : Fired σ) : Prop := TimerCall.delete f.1 ∈ f.2.calls ∧ f.2.retval ≠ aeNoMore

/-- What the callbacks of a call and its end have to do with each other. `old` are
the ids it may serve. -/
structure CallServes (old : List Int) (log : List (Fired σ)) (stop : LoopEnd σ) : Prop where
  old : ∀ f ∈ log, f.1 ∈ old
  oneShot : log.Pairwise fun f later => f.2.retval = aeNoMore → later.1 ≠ f.1
  stop : (∃ el, stop = .finished el ∧ Listed el ∧ ∀ f ∈ log, ¬ FreesItself f) ∨
    (stop = .freed ∧ ∃ front f, log = front ++ [f] ∧ FreesItself f ∧ ∀ g ∈ front, ¬ FreesItself g)

/-- One more callback in front, which leaves `old'` of the ids. -/
theorem CallServes.cons {old old' : List Int} {log : List (Fired σ)} {stop : LoopEnd σ}
    (h : CallServes old' log stop) {f : Fired σ} (hf : f.1 ∈ old) (hsub : ∀ id ∈ old', id ∈ old)
    (hdone : f.2.retval = aeNoMore → f.1 ∉ old') (hkeep : ¬ FreesItself f) :
    CallServes old (f :: log) stop := by
  refine ⟨fun g hg => ?_, List.pairwise_cons.mpr ⟨fun g hg hmore heq => ?_, h.oneShot⟩, ?_⟩
  · rcases List.mem_cons.mp hg with rfl | hg
    · exact hf
    · exact hsub _ (h.old g hg)
  · exact hdone hmore (heq ▸ h.old g hg)
  · rcases h.stop with ⟨el, hstop, hlisted, hall⟩ | ⟨hstop, front, last, rfl, hlast, hall⟩
    · exact .inl ⟨el, hstop, hlisted, List.forall_mem_cons.mpr ⟨hkeep, hall⟩⟩
    · exact .inr ⟨hstop, f :: front, last, rfl, hlast, List.forall_mem_cons.mpr ⟨hkeep, hall⟩⟩

theorem reentrantLoop_serves {clock : Clock} {script : Nat → TimeProcRun σ} {maxId : Int}
    {fuel n c : Nat} {el : AeTimers σ} {rest : List (AeTimeEvent σ)} {log : List (Fired σ)}
    {stop : LoopEnd σ} (hlisted : Listed el) (hmax : maxId < el.timeEventNextId)
    (hrest : ∀ te ∈ rest, te ∈ el.timeEventHead)
    (h : reentrantLoop clock script maxId fuel n c el rest = some (log, stop)) :
    CallServes (el.served maxId) log stop := by
  fun_induction reentrantLoop clock script maxId fuel n c el rest generalizing log stop with
  | case1 => contradiction
  | case2 fuel n c el =>
      cases h
      exact ⟨fun f hf => absurd hf List.not_mem_nil, .nil,
        .inl ⟨el, rfl, hlisted, fun f hf => absurd hf List.not_mem_nil⟩⟩
  | case3 fuel n c el te rest hid ih =>
      exact ih hlisted hmax (fun x hx => hrest x (List.mem_cons_of_mem _ hx)) h
  | case4 fuel n c el te rest hid hdue run el₁ hmore =>
      rename_i el₂ ih
      obtain ⟨⟨log', stop'⟩, hloop, heq⟩ := Option.map_eq_some_iff.mp h
      cases heq
      have hte := hrest te List.mem_cons_self
      have hnext := hlisted.below te hte
      have hlisted₁ : Listed el₁ := hlisted.performAll _
      have hnext₁ := nextId_le_performAll el run.calls
      have hsub : (el₂.served maxId).Sublist (el.served maxId) :=
        (hlisted₁.served_finish (Int.lt_of_lt_of_le hmax hnext₁) _ _).trans
          (hlisted.served_performAll hmax _)
      refine (ih (hlisted₁.finish _ _) ?_ (fun _ hx => hx) hloop).cons ?_ hsub.subset ?_ ?_
      · exact Int.lt_of_lt_of_le hmax (Int.le_trans hnext₁ (nextId_le_finish el₁ _ _))
      · exact mem_served.mpr ⟨⟨te, hte, rfl⟩, by omega⟩
      · exact fun _ hmem => hlisted₁.not_present_finish (Int.lt_of_lt_of_le hnext hnext₁) _
          (mem_served.mp hmem).1
      · exact fun hfrees => hfrees.2 hmore
  | case5 fuel n c el te rest hid hdue run el₁ hmore hpresent =>
      rename_i el₂ ih
      obtain ⟨⟨log', stop'⟩, hloop, heq⟩ := Option.map_eq_some_iff.mp h
      cases heq
      have hte := hrest te List.mem_cons_self
      have hnext := hlisted.below te hte
      have hlisted₁ : Listed el₁ := hlisted.performAll _
      have hnext₁ := nextId_le_performAll el run.calls
      have hsub : (el₂.served maxId).Sublist (el.served maxId) :=
        (hlisted₁.served_perform (Int.lt_of_lt_of_le hmax hnext₁) (.modify _ _ _)).trans
          (hlisted.served_performAll hmax _)
      refine (ih (hlisted₁.modify _ _ _) (Int.lt_of_lt_of_le hmax hnext₁) (fun _ hx => hx)
        hloop).cons ?_ hsub.subset (fun hno => absurd hno hmore) ?_
      · exact mem_served.mpr ⟨⟨te, hte, rfl⟩, by omega⟩
      · exact fun hfrees => ((hlisted.present_performAll hnext _).mp hpresent).2 hfrees.1
  | case6 fuel n c el te rest hid hdue run el₁ =>
      rename_i hmore hgone
      cases h
      have hte := hrest te List.mem_cons_self
      have hnext := hlisted.below te hte
      have hdelete : TimerCall.delete te.id ∈ run.calls := by
        by_contra hnot
        exact hgone ((hlisted.present_performAll hnext _).mpr ⟨⟨te, hte, rfl⟩, hnot⟩)
      refine ⟨fun f hf => ?_, List.pairwise_singleton _ _, .inr ⟨rfl, [], _, rfl, ⟨hdelete, hmore⟩,
        fun f hf => absurd hf List.not_mem_nil⟩⟩
      obtain rfl := List.mem_singleton.mp hf
      exact mem_served.mpr ⟨⟨te, hte, rfl⟩, by omega⟩
  | case7 fuel n c el te rest hid hdue ih =>
      exact ih hlisted hmax (fun x hx => hrest x (List.mem_cons_of_mem _ hx)) h

theorem processReentrant_callServes {clock : Clock} {script : Nat → TimeProcRun σ} {now : Int}
    {fuel : Nat} {el : AeTimers σ} {log : List (Fired σ)} {stop : LoopEnd σ} (h : Listed el)
    (hrun : processReentrant clock script now fuel el = some (log, stop)) :
    CallServes ((el.enter now).served (el.timeEventNextId - 1)) log stop :=
  reentrantLoop_serves (h.enter now) (Int.sub_one_lt_of_le (Int.le_refl _)) (fun _ hx => hx) hrun

/-- The lists that a program can come to. -/
inductive Attained : AeTimers σ → Prop
  | create (now : Int) : Attained (aeCreateTimers now)
  | perform {el : AeTimers σ} (call : TimerCall σ) : Attained el → Attained (el.perform call)
  | process {el el' : AeTimers σ} {clock : Clock} {script : Nat → TimeProcRun σ} {now : Int}
      {fuel : Nat} {log : List (Fired σ)} : Attained el →
      processReentrant clock script now fuel el = some (log, .finished el') → Attained el'

theorem Attained.listed {el : AeTimers σ} (h : Attained el) : Listed el := by
  induction h with
  | create now => exact listed_createTimers now
  | perform call _ ih => exact ih.perform call
  | process _ hrun ih =>
      rcases (processReentrant_callServes ih hrun).stop with ⟨el', hstop, hlisted, _⟩ | ⟨hstop, _⟩
      · cases hstop
        exact hlisted
      · cases hstop

/-- Whatever its callbacks do to the list, a call serves only timers that were there
when it began, none of them again once it has returned `AE_NOMORE`, and it stores
into a freed element if and only if the last callback deleted its own timer and
asked to be called again. -/
theorem processReentrant_serves {clock : Clock} {script : Nat → TimeProcRun σ} {now : Int}
    {fuel : Nat} {el : AeTimers σ} {log : List (Fired σ)} {stop : LoopEnd σ} (h : Attained el)
    (hrun : processReentrant clock script now fuel el = some (log, stop)) :
    (∀ f ∈ log, ∃ te ∈ el.timeEventHead, te.id = f.1) ∧
      log.Pairwise (fun f later => f.2.retval = aeNoMore → later.1 ≠ f.1) ∧
      (stop = .freed ↔ ∃ f, log.getLast? = some f ∧ FreesItself f) ∧
      (∀ el', stop = .finished el' → Listed el') := by
  have hserves := processReentrant_callServes h.listed hrun
  refine ⟨fun f hf => ?_, hserves.oneShot, ?_, fun el' hel' => ?_⟩
  · obtain ⟨⟨te, hte, hid⟩, _⟩ := mem_served.mp (hserves.old f hf)
    dsimp only [AeTimers.enter, detectSkew] at hte
    split at hte
    · obtain ⟨old, hold, rfl⟩ := List.mem_map.mp hte
      exact ⟨old, hold, hid⟩
    · exact ⟨te, hte, hid⟩
  · rcases hserves.stop with ⟨el', rfl, _, hall⟩ | ⟨rfl, front, f, rfl, hf, _⟩
    · refine iff_of_false (by simp) ?_
      rintro ⟨f, hlast, hfrees⟩
      exact hall f (List.mem_of_getLast? hlast) hfrees
    · exact iff_of_true rfl ⟨f, by simp, hf⟩
  · rcases hserves.stop with ⟨el₁, rfl, hlisted, _⟩ | ⟨rfl, _⟩
    · cases hel'
      exact hlisted
    · cases hel'

theorem usec_zero_nonneg : (0 : Int) ≤ 0 := Int.le_refl 0

theorem usec_zero_lt : (0 : Int) < 1000000 := by decide

/-- A full second. -/
def TimeVal.atSecond (sec : Int) : TimeVal := ⟨sec, 0, usec_zero_nonneg, usec_zero_lt⟩

/-- A loop with one timer, and a clock on which it is due. -/
def oneTimer : AeTimers Unit :=
  (aeCreateTimeEvent (aeCreateTimers 0) (.atSecond 0) 1 (fun _ s => (s, aeNoMore)) none true).1

def tenSeconds : Clock := fun _ => .atSecond 10

theorem oneTimer_attained : Attained oneTimer := .perform (.create _ _ _ _ true) (.create 0)

/-- A callback that deletes its timer and asks to be called again in 5 milliseconds. -/
def selfDelete : TimeProcRun Unit := ⟨[.delete 0], 5, []⟩

theorem processReentrant_selfDelete :
    (∀ f ∈ [((0 : Int), selfDelete)], ∃ te ∈ oneTimer.timeEventHead, te.id = f.1) ∧
      [((0 : Int), selfDelete)].Pairwise (fun f later => f.2.retval = aeNoMore → later.1 ≠ f.1) ∧
      ((LoopEnd.freed : LoopEnd Unit) = .freed ↔
        ∃ f, [((0 : Int), selfDelete)].getLast? = some f ∧ FreesItself f) ∧
      (∀ el', (LoopEnd.freed : LoopEnd Unit) = .finished el' → Listed el') :=
  processReentrant_serves oneTimer_attained
    (show processReentrant tenSeconds (fun _ => selfDelete) 10 2 oneTimer = _ from rfl)

/-! ## Callbacks that all return `AE_NOMORE` -/

/-- The run of a callback concerns the timer `id`. -/
def Fired.Concerns (f : Fired σ) (id : Int) : Prop :=
  f.1 = id ∨ ∃ call ∈ f.2.calls ++ f.2.finalizer, call.Addresses id

theorem length_served_finish {el el₁ : AeTimers σ} (h₁ : Listed el₁) {maxId : Int}
    (hmax : maxId < el₁.timeEventNextId) {te : AeTimeEvent σ} (hte : te ∈ el.timeEventHead)
    (hid : te.id ≤ maxId) (hsub : (el₁.served maxId).Sublist (el.served maxId))
    (finalizer : List (TimerCall σ)) :
    ((el₁.finish te.id finalizer).served maxId).length < (el.served maxId).length := by
  have hfinish := (h₁.served_finish hmax te.id finalizer).trans hsub
  refine Nat.lt_of_le_of_ne hfinish.length_le fun hlen => ?_
  have hmem : te.id ∈ (el₁.finish te.id finalizer).served maxId := by
    rw [hfinish.eq_of_length hlen]
    exact mem_served.mpr ⟨⟨te, hte, rfl⟩, hid⟩
  exact h₁.not_present_finish (by omega) finalizer (mem_served.mp hmem).1

/-- An element that nothing concerns survives `finish`. -/
theorem Listed.mem_finish {el : AeTimers σ} (h : Listed el) {id : Int}
    {finalizer : List (TimerCall σ)} {te : AeTimeEvent σ} (hte : te ∈ el.timeEventHead)
    (hid : te.id ≠ id) (hcalls : ∀ call ∈ finalizer, ¬ call.Addresses te.id) :
    te ∈ (el.finish id finalizer).timeEventHead := by
  unfold AeTimers.finish
  split
  · exact (h.perform _).mem_performAll (h.mem_perform hte fun heq => hid heq.symm) hcalls
  · exact hte

/-- The elements that the loop has passed were not due when it looked at them. -/
def Passed (clock : Clock) (maxId : Int) (el : AeTimers σ) (rest : List (AeTimeEvent σ)) : Prop :=
  ∀ te ∈ el.timeEventHead, te ∈ rest ∨ maxId < te.id ∨ ∃ n, ¬ te.Due (clock n)

theorem Passed.skip {clock : Clock} {maxId : Int} {el : AeTimers σ} {te : AeTimeEvent σ}
    {rest : List (AeTimeEvent σ)} (h : Passed clock maxId el (te :: rest))
    (hte : maxId < te.id ∨ ∃ n, ¬ te.Due (clock n)) : Passed clock maxId el rest := by
  intro x hx
  rcases h x hx with hmem | hpassed
  · rcases List.mem_cons.mp hmem with rfl | hmem
    · exact .inr hte
    · exact .inl hmem
  · exact .inr hpassed

/-- Every callback takes one of the old timers out of the list, and none comes in. -/
theorem reentrantLoop_returns {clock : Clock} {script : Nat → TimeProcRun σ} {maxId : Int}
    (hscript : ∀ c, (script c).retval = aeNoMore) (n c : Nat) {el : AeTimers σ}
    {rest : List (AeTimeEvent σ)} (hlisted : Listed el) (hmax : maxId < el.timeEventNextId)
    (hrest : ∀ te ∈ rest, te ∈ el.timeEventHead) (hpassed : Passed clock maxId el rest) :
    ∃ fuel log el', reentrantLoop clock script maxId fuel n c el rest = some (log, .finished el') ∧
      (∀ f ∈ log, f.2.retval = aeNoMore) ∧
      (∀ te ∈ el'.timeEventHead, te.id ≤ maxId → ∃ n, ¬ te.Due (clock n)) ∧
      ∀ te ∈ el.timeEventHead, (∀ f ∈ log, ¬ Fired.Concerns f te.id) → te ∈ el'.timeEventHead := by
  generalize hk : (el.served maxId).length = k
  induction k using Nat.strongRecOn generalizing n c el rest with
  | ind k ihk =>
      induction rest generalizing n with
      | nil =>
          refine ⟨1, [], el, rfl, fun f hf => absurd hf List.not_mem_nil, fun te hte hid => ?_,
            fun te hte _ => hte⟩
          rcases hpassed te hte with hmem | hnew | hlate
          · exact absurd hmem List.not_mem_nil
          · omega
          · exact hlate
      | cons te rest ih =>
          have hrest' : ∀ x ∈ rest, x ∈ el.timeEventHead :=
            fun x hx => hrest x (List.mem_cons_of_mem _ hx)
          by_cases hid : te.id > maxId
          · obtain ⟨fuel, log, el', hloop, hend⟩ := ih n hrest' (hpassed.skip (.inl hid))
            refine ⟨fuel + 1, log, el', ?_, hend⟩
            rw [reentrantLoop, if_pos hid]
            exact hloop
          · by_cases hdue : te.Due (clock n)
            · have hte := hrest te List.mem_cons_self
              have hlisted₁ := hlisted.performAll (script c).calls
              have hmax₁ := Int.lt_of_lt_of_le hmax (nextId_le_performAll el (script c).calls)
              have hless := length_served_finish hlisted₁ hmax₁ hte (by omega)
                (hlisted.served_performAll hmax _) (script c).finalizer
              obtain ⟨fuel, log, el', hloop, hmore, hlate, hkept⟩ :=
                ihk _ (hk ▸ hless) (n + 1) (c + 1) (hlisted₁.finish te.id (script c).finalizer)
                  (Int.lt_of_lt_of_le hmax₁ (nextId_le_finish _ _ _)) (fun _ hx => hx)
                  (fun x hx => .inl hx) rfl
              refine ⟨fuel + 1, (te.id, script c) :: log, el', ?_,
                List.forall_mem_cons.mpr ⟨hscript c, hmore⟩, hlate, fun x hx hnone => ?_⟩
              · rw [reentrantLoop, if_neg hid, if_pos hdue]
                dsimp only
                rw [if_pos (hscript c), hloop]
                rfl
              · obtain ⟨hfirst, hlog⟩ := List.forall_mem_cons.mp hnone
                simp only [Fired.Concerns, not_or, not_exists, not_and, List.mem_append] at hfirst
                refine hkept x (hlisted₁.mem_finish ?_ (Ne.symm hfirst.1) ?_) hlog
                · exact hlisted.mem_performAll hx fun call hcall => hfirst.2 call (.inl hcall)
                · exact fun call hcall => hfirst.2 call (.inr hcall)
            · obtain ⟨fuel, log, el', hloop, hend⟩ := ih (n + 1) hrest' (hpassed.skip (.inr ⟨n, hdue⟩))
              refine ⟨fuel + 1, log, el', ?_, hend⟩
              rw [reentrantLoop, if_neg hid, if_neg hdue]
              exact hloop

/-- The millisecond from which on the test of `processTimeEvents` holds. -/
def AeTimeEvent.dueMillis (te : AeTimeEvent σ) : Int := te.whenSec * 1000 + max 0 te.whenMs

theorem AeTimeEvent.due_iff {te : AeTimeEvent σ} (h : te.whenMs < 1000) (tv : TimeVal) :
    te.Due tv ↔ te.dueMillis ≤ tv.millis := by
  have hlow := tv.usec_nonneg
  have hhigh := tv.usec_lt
  simp only [AeTimeEvent.Due, aeGetTime_eq, AeTimeEvent.dueMillis, TimeVal.millis]
  omega

theorem AeTimeEvent.Due.later {te : AeTimeEvent σ} {tv tv' : TimeVal} (h : te.Due tv)
    (hrange : te.whenMs < 1000) (hclock : tv.millis ≤ tv'.millis) : te.Due tv' :=
  (te.due_iff hrange tv').mpr (Int.le_trans ((te.due_iff hrange tv).mp h) hclock)

/-- With callbacks that all return `AE_NOMORE`, whatever else they do to the list,
and a clock that is not set back, a call comes back, serves no timer twice, and
serves every timer that was due when it began, unless a callback deleted or
modified it. -/
theorem processReentrant_returns {clock : Clock} {script : Nat → TimeProcRun σ} {el : AeTimers σ}
    (hscript : ∀ c, (script c).retval = aeNoMore)
    (hclock : ∀ i, (clock 0).millis ≤ (clock i).millis) (h : Attained el) (now : Int) :
    ∃ fuel log el', processReentrant clock script now fuel el = some (log, .finished el') ∧
      (log.map (·.1)).Nodup ∧
      ∀ te ∈ detectSkew el now, te.Due (clock 0) → ∃ f ∈ log, Fired.Concerns f te.id := by
  have hlisted := h.listed.enter now
  have hmax : el.timeEventNextId - 1 < el.timeEventNextId := Int.sub_one_lt_of_le (Int.le_refl _)
  obtain ⟨fuel, log, el', hloop, hmore, hlate, hkept⟩ := reentrantLoop_returns hscript 0 0 hlisted hmax
    (fun _ hx => hx) (fun _ hx => .inl hx)
  have hserves := reentrantLoop_serves hlisted hmax (fun _ hx => hx) hloop
  refine ⟨fuel, log, el', hloop, ?_, fun te hte hdue => ?_⟩
  · rw [List.Nodup, List.pairwise_map]
    exact hserves.oneShot.imp_of_mem fun hf _ hne heq => hne (hmore _ hf) heq.symm
  · by_contra hnone
    have hmem := hkept te hte fun f hf hconcerns => hnone ⟨f, hf, hconcerns⟩
    have hid := hlisted.below te hte
    obtain ⟨n, hnot⟩ := hlate te hmem (Int.le_sub_one_of_lt hid)
    exact hnot (hdue.later (hlisted.range te hte) (hclock n))

/-- A callback that hands its timer over to a new one. -/
def handOver : TimeProcRun Unit :=
  ⟨[.create (.atSecond 10) 0 (fun _ s => (s, aeNoMore)) none true], aeNoMore, []⟩

theorem processReentrant_handOver :
    ∃ fuel log el', processReentrant tenSeconds (fun _ => handOver) 10 fuel oneTimer =
        some (log, .finished el') ∧
      (log.map (·.1)).Nodup ∧
      ∀ te ∈ detectSkew oneTimer 10, te.Due (tenSeconds 0) → ∃ f ∈ log, Fired.Concerns f te.id :=
  processReentrant_returns (fun _ => rfl) (fun _ => Int.le_refl _) oneTimer_attained 10

end Tflib.Ae
