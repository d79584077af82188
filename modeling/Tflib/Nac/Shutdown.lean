import Tflib.Nac.Response

/-! # Leaving the service

Three parties meet when the process ends: `main` after `aeMain`, every run of
`signal_handler`, and `wait_response_thread`. They share two flags, the stop flag
of the loop and the device's queue, and nobody waits for anybody. The run starts
where `main` has created the thread and is about to call `aeMain`.
-/

namespace Tflib.Nac

open Tflib.Core Ipc

/-! ## Where each party is -/

/-- The statements of `main` from `aeMain` on. -/
inductive MainPc
  /-- `eventLoop->stop = 0` -/
  | enterLoop
  | loop
  /-- `close(process_mgr->mqueue[0])` -/
  | closeRead
  /-- `close(process_mgr->mqueue[1])` -/
  | closeWrite
  | closeServer
  | deleteLoop
  | cleanup
  /-- `tf_free(process_mgr)` -/
  | free
  | exit
  | exited
  deriving DecidableEq, Repr

/-- The statements of `signal_handler` and `safe_quit` for `SIGINT`, `SIGTERM` and `SIGQUIT`. -/
inductive HandlerPc
  /-- `if (!process_mgr->quitting)` -/
  | test
  /-- `process_mgr->quitting = true` -/
  | mark
  /-- `aeStop(process_mgr->el)` -/
  | stopLoop
  /-- `if (!process_mgr->mq_exit)` -/
  | check
  /-- `ipc_write_queue` -/
  | post
  | done
  deriving DecidableEq, Repr

/-- The statements of `wait_response_thread`. -/
inductive ThreadPc
  /-- `process_mgr->mq_exit = false` -/
  | start
  /-- `while (!process_mgr->quitting)` -/
  | test
  /-- `msgrcv` is given the queue and the type -/
  | call
  /-- `msgrcv` has not returned -/
  | blocked
  /-- `tfnet_write` of `buf`, and of `rest` after it -/
  | write (buf : Bytes) (rest : List Bytes)
  /-- `process_mgr->mq_exit = true` -/
  | leave
  | finished
  deriving DecidableEq, Repr

/-- Where the thread goes on with `bufs` to write. -/
def ThreadPc.resume : List Bytes → ThreadPc
  | [] => .test
  | buf :: rest => .write buf rest

/-! ## The machine -/

structure Shutdown where
  main : MainPc
  /-- the runs of `signal_handler` that have begun, in order -/
  handlers : List HandlerPc
  thread : ThreadPc
  appId : UInt32
  deviceInQueueId : Int
  quitting : Bool
  /-- `el->stop` -/
  stop : Bool
  mqExit : Bool
  /-- what is on the device's queue for this process -/
  queue : List Bytes
  /-- `mqueue[0]` is open -/
  readEnd : Bool
  /-- `mqueue[1]` is open -/
  writeEnd : Bool
  /-- `process_mgr` has not been freed -/
  allocated : Bool
  /-- the thread has used something that was gone -/
  misused : Bool

inductive ShutdownEvent
  | main
  /-- one of the three signals is delivered -/
  | signal
  /-- the next statement of the `i`-th handler; `sent` is what `msgsnd` would answer -/
  | handler (i : Nat) (sent : Bool)
  | thread
  /-- `msgrcv` fails -/
  | interrupted
  /-- a message arrives on the queue -/
  | device (m : Bytes)

namespace Shutdown

def pipeOpen (s : Shutdown) : Bool := s.readEnd && s.writeEnd

/-- The thread uses `process_mgr`. -/
def usesMgr (s : Shutdown) : Shutdown := { s with misused := s.misused || !s.allocated }

/-- The thread writes to the pipe. -/
def usesPipe (s : Shutdown) : Shutdown := { s with misused := s.misused || !s.pipeOpen }

def mainStep (s : Shutdown) : Shutdown :=
  match s.main with
  | .enterLoop => { s with stop := false, main := .loop }
  | .loop => { s with main := if s.stop then .closeRead else .loop }
  | .closeRead => { s with readEnd := false, main := .closeWrite }
  | .closeWrite => { s with writeEnd := false, main := .closeServer }
  | .closeServer => { s with main := .deleteLoop }
  | .deleteLoop => { s with main := .cleanup }
  | .cleanup => { s with main := .free }
  | .free => { s with allocated := false, main := .exit }
  | .exit => { s with main := .exited }
  | .exited => s

/-- `"0000"` without its end. -/
def quitToken : Bytes := [48, 48, 48, 48]

def handlerStep (s : Shutdown) (i : Nat) (sent : Bool) : Shutdown :=
  match s.handlers[i]? with
  | some .test =>
      { s with handlers := s.handlers.set i (if s.quitting then .done else .mark) }
  | some .mark => { s with quitting := true, handlers := s.handlers.set i .stopLoop }
  | some .stopLoop => { s with stop := true, handlers := s.handlers.set i .check }
  | some .check => { s with handlers := s.handlers.set i (if s.mqExit then .done else .post) }
  | some .post =>
      let posted := ipcWriteQueue s.deviceInQueueId ⟨s.appId.toNat, quitToken⟩ sent
      { s with
        queue := s.queue ++ if posted then [quitToken] else []
        handlers := s.handlers.set i .done }
  | some .done => s
  | none => s

/-- What `msgrcv` returns of the next message: nothing when there is no room for it. -/
def received (m : Bytes) : Option Bytes := if m.length ≤ maxMqueueLen then some m else none

def threadStep (s : Shutdown) : Shutdown :=
  match s.thread with
  | .start => { s.usesMgr with mqExit := false, thread := .test }
  | .test => { s.usesMgr with thread := if s.quitting then .leave else .call }
  | .call => { s.usesMgr with thread := .blocked }
  | .blocked =>
      match s.queue with
      | [] => s
      | m :: rest =>
          -- a message that is too long stays where it is
          { s with
            queue := if m.length ≤ maxMqueueLen then rest else m :: rest
            thread := .resume (waitResponse (received m)) }
  | .write _ rest => { s.usesMgr.usesPipe with thread := .resume rest }
  | .leave => { s.usesMgr with mqExit := true, thread := .finished }
  | .finished => s

def step (s : Shutdown) : ShutdownEvent → Shutdown
  | .main => s.mainStep
  | .signal => { s with handlers := s.handlers ++ [.test] }
  | .handler i sent => s.handlerStep i sent
  | .thread => s.threadStep
  | .interrupted => { s with thread := .resume (waitResponse none) }
  | .device m => { s with queue := s.queue ++ [m] }

/-- Until `exit` ends the process, every party takes its next step at any time; `msgrcv` returns
when there is a message, or fails. -/
def Admits (s : Shutdown) : ShutdownEvent → Prop
  | .thread => s.main ≠ .exited ∧ s.thread ≠ .finished ∧ (s.thread = .blocked → s.queue ≠ [])
  | .interrupted => s.main ≠ .exited ∧ s.thread = .blocked
  | _ => s.main ≠ .exited

instance (s : Shutdown) (e : ShutdownEvent) : Decidable (s.Admits e) :=
  match e with
  | .main => inferInstanceAs (Decidable (_ ≠ _))
  | .signal => inferInstanceAs (Decidable (_ ≠ _))
  | .handler _ _ => inferInstanceAs (Decidable (_ ≠ _))
  | .thread => inferInstanceAs (Decidable (_ ≠ _ ∧ _ ≠ _ ∧ (_ = _ → _ ≠ _)))
  | .interrupted => inferInstanceAs (Decidable (_ ≠ _ ∧ _ = _))
  | .device _ => inferInstanceAs (Decidable (_ ≠ _))

end Shutdown

def shutdown : Machine Shutdown ShutdownEvent where
  step := Shutdown.step
  admits := Shutdown.Admits

instance (s : Shutdown) (e : ShutdownEvent) : Decidable (shutdown.admits s e) :=
  inferInstanceAs (Decidable (s.Admits e))

/-! ## What teardown has to wait for -/

/-- Once `quitting` is set, a thread at this point does not write to the pipe any more: it is not in
between its writes, and what it may receive is nothing to pass on. -/
def ThreadPc.Clear (queue : List Bytes) : ThreadPc → Prop
  | .call | .blocked => ∃ m rest, queue = m :: rest ∧ waitResponse (Shutdown.received m) = []
  | .write _ _ => False
  | _ => True

theorem ThreadPc.Clear.append {queue : List Bytes} {pc : ThreadPc} (h : pc.Clear queue)
    (more : List Bytes) : pc.Clear (queue ++ more) := by
  cases pc with
  | call =>
      obtain ⟨m, rest, rfl, hm⟩ := h
      exact ⟨m, rest ++ more, rfl, hm⟩
  | blocked =>
      obtain ⟨m, rest, rfl, hm⟩ := h
      exact ⟨m, rest ++ more, rfl, hm⟩
  | write buf rest => exact h.elim
  | start => trivial
  | test => trivial
  | leave => trivial
  | finished => trivial

instance (queue : List Bytes) (pc : ThreadPc) : Decidable (pc.Clear queue) :=
  have : Decidable (∃ m rest, queue = m :: rest ∧ waitResponse (Shutdown.received m) = []) :=
    match queue with
    | [] => .isFalse nofun
    | m :: rest =>
        decidable_of_iff (waitResponse (Shutdown.received m) = [])
          ⟨fun h => ⟨m, rest, rfl, h⟩, fun ⟨_, _, heq, h⟩ => (List.cons.inj heq).1 ▸ h⟩
  match pc with
  | .call | .blocked => this
  | .write _ _ => .isFalse id
  | .start | .test | .leave | .finished => .isTrue trivial

namespace Shutdown

/-- `main` closes an end of the pipe only when the thread is done with it, and frees `process_mgr`
only when the thread has set `mq_exit` for the last time. -/
def Waits (s : Shutdown) (e : ShutdownEvent) : Prop :=
  e = .main →
    (s.main = .closeRead ∨ s.main = .closeWrite → s.thread.Clear s.queue) ∧
      (s.main = .free → s.thread = .finished)

instance (s : Shutdown) (e : ShutdownEvent) : Decidable (s.Waits e) :=
  match e with
  | .main => decidable_of_iff
      ((s.main = .closeRead ∨ s.main = .closeWrite → s.thread.Clear s.queue) ∧
        (s.main = .free → s.thread = .finished)) ⟨fun h _ => h, fun h => h rfl⟩
  | .signal | .handler _ _ | .thread | .interrupted | .device _ => .isTrue nofun

/-- `main` has created the thread; signals may have come before. -/
structure Launched (s : Shutdown) : Prop where
  main : s.main = .enterLoop
  thread : s.thread = .start
  pipe : s.pipeOpen = true
  allocated : s.allocated = true
  unused : s.misused = false
  marked : ∀ h ∈ s.handlers, h ≠ .test → h ≠ .mark → s.quitting = true

/-- What holds between the parties as long as `main` waits. -/
structure Inv (s : Shutdown) : Prop where
  marked : ∀ h ∈ s.handlers, h ≠ .test → h ≠ .mark → s.quitting = true
  stopped : s.main ≠ .enterLoop → s.stop = true → s.quitting = true
  left : s.main ≠ .enterLoop → s.main ≠ .loop → s.quitting = true
  closed : s.pipeOpen = false → s.quitting = true ∧ s.thread.Clear s.queue
  freed : s.allocated = false → s.thread = .finished
  unused : s.misused = false

theorem Launched.inv {s : Shutdown} (h : Launched s) : Inv s where
  marked := h.marked
  stopped hmain := absurd h.main hmain
  left hmain := absurd h.main hmain
  closed hopen := by
    rw [h.pipe] at hopen
    contradiction
  freed hfree := by
    rw [h.allocated] at hfree
    contradiction
  unused := h.unused

/-! ## Step by step -/

theorem Inv.mainStep {s : Shutdown} (h : Inv s) (hwaits : s.Waits .main) : Inv s.mainStep := by
  obtain ⟨hclear, hfree⟩ := hwaits rfl
  unfold Shutdown.mainStep
  cases hmain : s.main with
  | enterLoop =>
      refine ⟨h.marked, fun _ hstop => ?_, fun _ hloop => absurd rfl hloop, h.closed, h.freed,
        h.unused⟩
      contradiction
  | loop =>
      have hstopped := h.stopped (by rw [hmain]; decide)
      refine ⟨h.marked, fun _ => hstopped, fun _ hloop => ?_, h.closed, h.freed, h.unused⟩
      cases hstop : s.stop with
      | true => exact hstopped hstop
      | false => simp [hstop] at hloop
  | closeRead =>
      have hquitting := h.left (by rw [hmain]; decide) (by rw [hmain]; decide)
      exact ⟨h.marked, fun _ _ => hquitting, fun _ _ => hquitting,
        fun _ => ⟨hquitting, hclear (.inl hmain)⟩, h.freed, h.unused⟩
  | closeWrite =>
      have hquitting := h.left (by rw [hmain]; decide) (by rw [hmain]; decide)
      exact ⟨h.marked, fun _ _ => hquitting, fun _ _ => hquitting,
        fun _ => ⟨hquitting, hclear (.inr hmain)⟩, h.freed, h.unused⟩
  | free =>
      have hquitting := h.left (by rw [hmain]; decide) (by rw [hmain]; decide)
      exact ⟨h.marked, fun _ _ => hquitting, fun _ _ => hquitting, h.closed, fun _ => hfree hmain,
        h.unused⟩
  | closeServer | deleteLoop | cleanup | exit =>
      have hquitting := h.left (by rw [hmain]; decide) (by rw [hmain]; decide)
      exact ⟨h.marked, fun _ _ => hquitting, fun _ _ => hquitting, h.closed, h.freed, h.unused⟩
  | exited => exact h

/-- Messages that arrive behind the others change nothing for the thread. -/
theorem Inv.enqueue {s : Shutdown} (h : Inv s) (more : List Bytes) :
    Inv { s with queue := s.queue ++ more } where
  marked := h.marked
  stopped := h.stopped
  left := h.left
  closed hopen := ⟨(h.closed hopen).1, (h.closed hopen).2.append more⟩
  freed := h.freed
  unused := h.unused

/-- Handlers come and go, and may set the two flags. -/
theorem Inv.frame {s : Shutdown} (h : Inv s) {handlers : List HandlerPc} {quitting stop : Bool}
    (hquitting : s.quitting = true → quitting = true)
    (hmarked : ∀ h ∈ handlers, h ≠ .test → h ≠ .mark → quitting = true)
    (hstop : stop = true → s.stop = true ∨ quitting = true) :
    Inv { s with handlers := handlers, quitting := quitting, stop := stop } where
  marked := hmarked
  stopped hmain hs := (hstop hs).elim (fun hs => hquitting (h.stopped hmain hs)) id
  left hmain hloop := hquitting (h.left hmain hloop)
  closed hopen := ⟨hquitting (h.closed hopen).1, (h.closed hopen).2⟩
  freed := h.freed
  unused := h.unused

theorem Inv.handlerStep {s : Shutdown} (h : Inv s) (i : Nat) (sent : Bool) :
    Inv (s.handlerStep i sent) := by
  have hset : ∀ {pc : HandlerPc} {quitting : Bool}, (s.quitting = true → quitting = true) →
      (pc ≠ .test → pc ≠ .mark → quitting = true) →
      ∀ h ∈ s.handlers.set i pc, h ≠ .test → h ≠ .mark → quitting = true := by
    intro pc quitting hquitting hpc k hk htest hmark
    rcases List.mem_or_eq_of_mem_set hk with hmem | rfl
    · exact hquitting (h.marked k hmem htest hmark)
    · exact hpc htest hmark
  unfold Shutdown.handlerStep
  cases hi : s.handlers[i]? with
  | none => exact h
  | some pc =>
      have hpc := h.marked pc (List.mem_of_getElem? hi)
      cases pc with
      | test =>
          refine h.frame id (hset id ?_) .inl
          intro _ hmark
          cases hquitting : s.quitting with
          | true => rfl
          | false => simp [hquitting] at hmark
      | mark => exact h.frame (fun _ => rfl) (hset (fun _ => rfl) fun _ _ => rfl) .inl
      | stopLoop =>
          have hquitting := hpc (by decide) (by decide)
          exact h.frame id (hset id fun _ _ => hquitting) fun _ => .inr hquitting
      | check =>
          have hquitting := hpc (by decide) (by decide)
          exact h.frame id (hset id fun _ _ => hquitting) .inl
      | post =>
          have hquitting := hpc (by decide) (by decide)
          exact (h.enqueue _).frame id (hset id fun _ _ => hquitting) .inl
      | done => exact h

theorem resume_clear {bufs queue : List Bytes} (h : bufs = []) :
    (ThreadPc.resume bufs).Clear queue := by
  subst h
  trivial

/-- The thread does not touch `process_mgr` once it has finished. -/
theorem Inv.usesMgr {s : Shutdown} (h : Inv s) (hrunning : s.thread ≠ .finished) :
    s.usesMgr.misused = false := by
  have hallocated : s.allocated = true := by
    by_contra hfree
    exact hrunning (h.freed (Bool.eq_false_iff.mpr hfree))
  simp [Shutdown.usesMgr, h.unused, hallocated]

/-- The thread's own statements change nothing but `mq_exit` and the queue. -/
theorem Inv.thread_frame {s : Shutdown} (h : Inv s) {pc : ThreadPc} {mqExit : Bool}
    {queue : List Bytes} {misused : Bool} (hrunning : s.thread ≠ .finished)
    (hclear : s.pipeOpen = false → pc.Clear queue) (hmisused : misused = false) :
    Inv { s with thread := pc, mqExit := mqExit, queue := queue, misused := misused } where
  marked := h.marked
  stopped := h.stopped
  left := h.left
  closed hopen := ⟨(h.closed hopen).1, hclear hopen⟩
  freed hfree := absurd (h.freed hfree) hrunning
  unused := hmisused

theorem Inv.threadStep {s : Shutdown} (h : Inv s) (hrunning : s.thread ≠ .finished) :
    Inv s.threadStep := by
  have hmgr := h.usesMgr hrunning
  have hclear : s.pipeOpen = false → s.thread.Clear s.queue := fun hopen => (h.closed hopen).2
  unfold Shutdown.threadStep
  cases hpc : s.thread with
  | start => exact h.thread_frame hrunning (fun _ => trivial) hmgr
  | test =>
      refine h.thread_frame hrunning (fun hopen => ?_) hmgr
      rw [(h.closed hopen).1]
      trivial
  | call =>
      refine h.thread_frame hrunning (fun hopen => ?_) hmgr
      have hnext := hclear hopen
      rw [hpc] at hnext
      exact hnext
  | blocked =>
      cases hqueue : s.queue with
      | nil => exact h
      | cons m rest =>
          refine h.thread_frame hrunning (fun hopen => ?_) h.unused
          obtain ⟨m', rest', heq, hm⟩ : ∃ m' rest', s.queue = m' :: rest' ∧
              waitResponse (received m') = [] := by
            have hnext := hclear hopen
            rw [hpc] at hnext
            exact hnext
          rw [hqueue] at heq
          cases heq
          exact resume_clear hm
  | write buf rest =>
      have hopen : s.pipeOpen = true := by
        by_contra hclosed
        have hnext := hclear (Bool.eq_false_iff.mpr hclosed)
        rw [hpc] at hnext
        exact hnext
      refine h.thread_frame hrunning (fun hclosed => ?_) ?_
      · rw [hopen] at hclosed
        contradiction
      · have hpipe : s.usesMgr.pipeOpen = true := hopen
        simp [Shutdown.usesPipe, hmgr, hpipe]
  | leave => exact h.thread_frame hrunning (fun _ => trivial) hmgr
  | finished => exact absurd hpc hrunning

/-- Whoever takes the next step: as long as `main` waits, nothing that is gone is used. -/
theorem Inv.step {s : Shutdown} (h : Inv s) {e : ShutdownEvent} (admitted : s.Admits e)
    (hwaits : s.Waits e) : Inv (s.step e) := by
  cases e with
  | main => exact h.mainStep hwaits
  | signal =>
      refine h.frame id ?_ .inl
      intro k hk htest hmark
      rcases List.mem_append.mp hk with hmem | hnew
      · exact h.marked k hmem htest hmark
      · exact absurd (List.mem_singleton.mp hnew) htest
  | handler i sent => exact h.handlerStep i sent
  | thread => exact h.threadStep admitted.2.1
  | interrupted =>
      have hrunning : s.thread ≠ .finished := by
        rw [admitted.2]
        exact nofun
      exact h.thread_frame hrunning (fun _ => resume_clear rfl) h.unused
  | device m => exact h.enqueue [m]

/-! ## Tearing down too early -/

/-- Some way on leads to a use of what is gone. -/
def Misusable (s : Shutdown) : Prop := ∃ t, shutdown.Reaches s t ∧ t.misused = true

theorem Misusable.of_step {s : Shutdown} {e : ShutdownEvent} (hadmits : shutdown.admits s e)
    (h : Misusable (s.step e)) : Misusable s := by
  obtain ⟨t, hrun, ht⟩ := h
  exact ⟨t, ((Machine.Reaches.refl shutdown s).step hadmits).trans hrun, ht⟩

theorem Misusable.of_misused {s : Shutdown} (h : s.misused = true) : Misusable s :=
  ⟨s, .refl shutdown s, h⟩

/-- What the thread has received, it writes. -/
theorem misusable_of_write {s : Shutdown} (hmain : s.main ≠ .exited) (hclosed : s.pipeOpen = false)
    {buf : Bytes} {rest : List Bytes} (hpc : s.thread = .write buf rest) : Misusable s := by
  have hadmits : shutdown.admits s .thread := ⟨hmain, hpc ▸ nofun, hpc ▸ nofun⟩
  refine .of_step hadmits (.of_misused ?_)
  have hpipe : s.usesMgr.pipeOpen = false := hclosed
  simp [Shutdown.step, Shutdown.threadStep, hpc, Shutdown.usesPipe, hpipe]

/-- A message that the thread passes on is at the head of the queue. -/
theorem misusable_of_message {s : Shutdown} (hmain : s.main ≠ .exited)
    (hclosed : s.pipeOpen = false) (hpc : s.thread = .blocked) {m : Bytes} {rest : List Bytes}
    (hqueue : s.queue = m :: rest) (hm : waitResponse (received m) ≠ []) : Misusable s := by
  have hadmits : shutdown.admits s .thread :=
    ⟨hmain, hpc ▸ nofun, fun _ => hqueue ▸ List.cons_ne_nil m rest⟩
  have hstep : s.step .thread = { s with
      queue := if m.length ≤ maxMqueueLen then rest else m :: rest
      thread := .resume (waitResponse (received m)) } := by
    simp only [Shutdown.step, Shutdown.threadStep, hpc, hqueue]
  refine .of_step hadmits ?_
  rw [hstep]
  cases hbufs : waitResponse (received m) with
  | nil => exact absurd hbufs hm
  | cons buf bufs => exact misusable_of_write hmain hclosed rfl

/-- The thread waits, and nothing keeps the device from answering first. -/
theorem misusable_of_blocked {s : Shutdown} (hmain : s.main ≠ .exited)
    (hclosed : s.pipeOpen = false) (hpc : s.thread = .blocked)
    (hnot : ¬ ThreadPc.blocked.Clear s.queue) : Misusable s := by
  cases hqueue : s.queue with
  | nil =>
      have hadmits : shutdown.admits s (.device (List.replicate 24 0)) := hmain
      have hhead : s.queue ++ [List.replicate 24 0] = [List.replicate 24 0] := by
        rw [hqueue, List.nil_append]
      exact .of_step hadmits (misusable_of_message hmain hclosed hpc hhead (by decide))
  | cons m rest =>
      exact misusable_of_message hmain hclosed hpc hqueue fun hm => hnot ⟨m, rest, hqueue, hm⟩

/-- An end of the pipe is closed, and the thread is not done with it. -/
theorem misusable_of_closed {s : Shutdown} (hmain : s.main ≠ .exited)
    (hclosed : s.pipeOpen = false) (hnot : ¬ s.thread.Clear s.queue) : Misusable s := by
  cases hpc : s.thread with
  | call =>
      have hadmits : shutdown.admits s .thread := ⟨hmain, hpc ▸ nofun, hpc ▸ nofun⟩
      have hstep : s.step .thread = { s.usesMgr with thread := .blocked } := by
        simp only [Shutdown.step, Shutdown.threadStep, hpc]
      refine .of_step hadmits ?_
      rw [hstep]
      rw [hpc] at hnot
      exact misusable_of_blocked hmain hclosed rfl hnot
  | blocked => exact misusable_of_blocked hmain hclosed hpc (hpc ▸ hnot)
  | write buf rest => exact misusable_of_write hmain hclosed hpc
  | start | test | leave | finished =>
      rw [hpc] at hnot
      exact absurd trivial hnot

/-- `process_mgr` is gone, and the thread has a statement to go that uses it. -/
theorem misusable_of_freed {s : Shutdown} (hmain : s.main ≠ .exited) (hfree : s.allocated = false)
    (hrunning : s.thread ≠ .finished) : Misusable s := by
  cases hpc : s.thread with
  | finished => exact absurd hpc hrunning
  | blocked =>
      -- `msgrcv` fails, and the thread looks at `quitting`
      have hadmits : shutdown.admits s .interrupted := ⟨hmain, hpc⟩
      have hadmits' : shutdown.admits (s.step .interrupted) .thread := ⟨hmain, nofun, nofun⟩
      refine .of_step hadmits (.of_step hadmits' (.of_misused ?_))
      change (s.misused || !s.allocated) = true
      simp [hfree]
  | start | test | call | leave | write buf rest =>
      have hadmits : shutdown.admits s .thread := ⟨hmain, hrunning, hpc ▸ nofun⟩
      refine .of_step hadmits (.of_misused ?_)
      simp [Shutdown.step, Shutdown.threadStep, hpc, Shutdown.usesMgr, Shutdown.usesPipe, hfree]

theorem misusable_of_not_waits {s : Shutdown} (hnot : ¬ s.Waits .main) :
    Misusable (s.step .main) := by
  have hcases : ((s.main = .closeRead ∨ s.main = .closeWrite) ∧ ¬ s.thread.Clear s.queue) ∨
      (s.main = .free ∧ s.thread ≠ .finished) := by
    unfold Waits at hnot
    tauto
  rcases hcases with ⟨hmain | hmain, hclear⟩ | ⟨hmain, hrunning⟩
  · have hstep : s.step .main = { s with readEnd := false, main := .closeWrite } := by
      simp only [Shutdown.step, Shutdown.mainStep, hmain]
    rw [hstep]
    exact misusable_of_closed nofun rfl hclear
  · have hstep : s.step .main = { s with writeEnd := false, main := .closeServer } := by
      simp only [Shutdown.step, Shutdown.mainStep, hmain]
    rw [hstep]
    exact misusable_of_closed nofun (Bool.and_false _) hclear
  · have hstep : s.step .main = { s with allocated := false, main := .exit } := by
      simp only [Shutdown.step, Shutdown.mainStep, hmain]
    rw [hstep]
    exact misusable_of_freed nofun rfl hrunning

end Shutdown

/-- In every interleaving in which `main` waits before it closes and frees, the thread uses nothing
that is gone; and wherever `main` does not wait, there is a way on to such a use. -/
theorem shutdown_safe {s₀ : Shutdown} (launched : s₀.Launched) :
    (∀ s, (shutdown.restrict Shutdown.Waits).Reaches s₀ s → s.misused = false) ∧
    ∀ s, shutdown.Reaches s₀ s → ¬ s.Waits .main →
      ∃ t, shutdown.Reaches (s.step .main) t ∧ t.misused = true := by
  constructor
  · intro s hrun
    refine (hrun.invariant ?_ launched.inv).unused
    intro s e hs admitted
    exact hs.step admitted.1 admitted.2
  · exact fun s _ hnot => Shutdown.misusable_of_not_waits hnot

/-- Before the first signal. -/
def launchedFirst : Shutdown where
  main := .enterLoop
  handlers := []
  thread := .start
  appId := 120
  deviceInQueueId := 0
  quitting := false
  stop := false
  mqExit := false
  queue := []
  readEnd := true
  writeEnd := true
  allocated := true
  misused := false

theorem launchedFirst_launched : launchedFirst.Launched :=
  ⟨rfl, rfl, rfl, rfl, rfl, nofun⟩

/-- One signal ends the service while the thread waits for a message, and `main` waits for it. -/
def orderly : List ShutdownEvent :=
  [.main, .thread, .thread, .thread, .signal, .handler 0 true, .handler 0 true, .handler 0 true,
    .handler 0 true, .handler 0 true, .thread, .main, .thread, .main, .main, .thread, .main, .main,
    .main, .main, .main]

theorem orderly_runs : (shutdown.restrict Shutdown.Waits).Runs launchedFirst orderly
    (orderly.foldl Shutdown.step launchedFirst) := .of_admitsAll (by decide)

theorem orderly_safe : (orderly.foldl Shutdown.step launchedFirst).main = .exited ∧
    (orderly.foldl Shutdown.step launchedFirst).misused = false :=
  ⟨rfl, (shutdown_safe launchedFirst_launched).1 _ ⟨orderly, orderly_runs⟩⟩

/-- The thread has received a message when the signal comes, and `main` does not wait. What comes
after the pipe is closed is left open. -/
def hasty (more : List ShutdownEvent) : List ShutdownEvent :=
  [.main, .thread, .thread, .thread, .device (List.replicate 24 0), .thread, .signal,
    .handler 0 true, .handler 0 true, .handler 0 true, .handler 0 true, .handler 0 true, .main,
    .main, .main] ++ more

/-- Where the service is after `hasty`. -/
def hastyEnd (more : List ShutdownEvent) : Shutdown :=
  (hasty more).foldl Shutdown.step launchedFirst

/-- The thread writes the message's length to the closed pipe; and where it only gets to that after
`process_mgr` was freed, it looks the descriptor up in freed memory. -/
theorem hasty_misuses :
    (shutdown.Runs launchedFirst (hasty [.thread]) (hastyEnd [.thread]) ∧
      (hastyEnd []).writeEnd = false ∧ (hastyEnd []).misused = false ∧
      (hastyEnd [.thread]).misused = true) ∧
    shutdown.Runs launchedFirst (hasty [.main, .main, .main, .main, .thread])
        (hastyEnd [.main, .main, .main, .main, .thread]) ∧
      (hastyEnd [.main, .main, .main, .main]).allocated = false ∧
      (hastyEnd [.main, .main, .main, .main]).misused = false ∧
      (hastyEnd [.main, .main, .main, .main, .thread]).misused = true :=
  ⟨⟨.of_admitsAll (by decide), rfl, rfl, rfl⟩, .of_admitsAll (by decide), rfl, rfl, rfl⟩

end Tflib.Nac
