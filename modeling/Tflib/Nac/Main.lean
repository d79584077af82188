import Tflib.Core.Lifetimes
import Tflib.Nac.Initialize

/-! # `main` from `initialize` to its end

The statements of `main` in their order, with the acts that concern the event
loop and the descriptors. A descriptor that has just been opened is none of those
that are open. What the handlers do inside `aeMain` is not told apart.
-/

namespace Tflib.Nac

open Tflib.Core Ae

/-- What `main` makes and drops. -/
inductive Resource
  | loop
  | fd (n : Nat)
  deriving DecidableEq

/-- What the calls of `main` answer. -/
structure MainCalls extends StartCalls where
  distinct : ∀ fd fd', socketpair = some (fd, fd') →
    fd ≠ fd' ∧ tcpServer ≠ some fd ∧ tcpServer ≠ some fd'

/-- The fields of `process_mgr` that `main` works with, and what it has done so far. -/
structure MainState where
  /-- `none` is NULL -/
  el : Option EventLoop
  serverFd : Nat
  quitting : Bool
  acts : List (Act Resource)

def MainState.did (s : MainState) (acts : List (Act Resource)) : MainState :=
  { s with acts := s.acts ++ acts }

def MainState.quit (s : MainState) : MainState := { s with quitting := true }

/-- After `memset` and `initialize`. -/
def MainState.start : MainState := ⟨none, 0, false, []⟩

/-- `if (process_mgr->server_port != 0)` -/
def openServer (c : MainCalls) (port : UInt16) (s : MainState) : MainState :=
  if port ≠ 0 then
    match c.tcpServer with
    -- `server_fd` is `TFNET_ERR`, and nothing looks at it any more
    | none => s.quit
    | some fd =>
        let s := { s with serverFd := fd }.did [.make (.fd fd)]
        if !c.createLoop then s.quit
        else
          let el := aeCreateEventLoop (maxPeerNums + 1024)
          let s := s.did [.make .loop, .use .loop]
          match aeCreateFileEvent el fd aeReadable .acceptTcpHandler .processMgr c.addServer with
          | none => (s.did [.drop .loop, .drop (.fd fd)]).quit
          | some el => { s with el := some el }
  else s

/-- `if (!process_mgr->quitting)` -/
def serve (c : MainCalls) (s : MainState) : MainState :=
  if s.quitting then s
  else
    match c.socketpair with
    | none => s.quit.did [.drop .loop]
    | some (mqueue, mqueueThread) =>
        let s := s.did [.make (.fd mqueue), .make (.fd mqueueThread), .use .loop]
        match s.el with
        -- `aeCreateFileEvent` reads `eventLoop->setsize`, and the process ends
        | none => s
        | some el =>
            let s :=
              match aeCreateFileEvent el mqueue aeReadable .messageResponseHandler .processMgr c.addPipe with
              | none => s.quit
              -- `aeCreateTimeEvent` and `aeMain`
              | some el => { s with el := some el }.did [.use .loop, .use .loop]
            s.did [.drop (.fd mqueue), .drop (.fd mqueueThread), .drop (.fd s.serverFd), .drop .loop]

/-- What `main` does behind `initialize`; `run_console` does nothing of the kind. -/
def mainActs (b : Boot) (console : Bool) (c : MainCalls) : List (Act Resource) :=
  if console then [] else (serve c (openServer c b.serverPort .start)).acts

/-- The event loop is used and deleted only between its creation and its deletion, and deleted once
at most; so is every descriptor that is opened closed. -/
structure Orderly (acts : List (Act Resource)) : Prop where
  loop : Act.Lives .loop false acts
  deleted : acts.count (.drop .loop) ≤ 1
  closed : ∀ fd, .make (.fd fd) ∈ acts → acts.count (.drop (.fd fd)) ≤ 1

/-! ## The paths of `main` -/

/-- A server socket, and a loop that it is registered with. -/
def opening (fd : Nat) : List (Act Resource) := [.make (.fd fd), .make .loop, .use .loop]

/-- The pipe, and its registration. -/
def piping (mqueue mqueueThread : Nat) : List (Act Resource) :=
  [.make (.fd mqueue), .make (.fd mqueueThread), .use .loop]

/-- The end of `main`, with everything that is dropped there. -/
def closing (mqueue mqueueThread fd : Nat) : List (Act Resource) :=
  [.drop (.fd mqueue), .drop (.fd mqueueThread), .drop (.fd fd), .drop .loop]

variable {c : MainCalls} {port : UInt16}

/-- Either nothing is left of the start, apart from a server socket without a loop, or `main` goes
on with a loop. -/
theorem openServer_cases (c : MainCalls) (hport : port ≠ 0) :
    ((openServer c port .start).quitting = true ∧
      ((openServer c port .start).acts = [] ∨ ∃ fd,
        (openServer c port .start).acts = [.make (.fd fd)] ∨
        (openServer c port .start).acts = opening fd ++ [.drop .loop, .drop (.fd fd)])) ∨
    ∃ fd el, c.tcpServer = some fd ∧
      openServer c port .start = ⟨some el, fd, false, opening fd⟩ := by
  unfold openServer
  rw [if_pos hport]
  split
  · exact .inl ⟨rfl, .inl rfl⟩
  · rename_i fd hfd
    dsimp only
    split
    · exact .inl ⟨rfl, .inr ⟨fd, .inl rfl⟩⟩
    · split
      · exact .inl ⟨rfl, .inr ⟨fd, .inr rfl⟩⟩
      · rename_i el _
        exact .inr ⟨fd, el, hfd, rfl⟩

/-- With a loop, `main` deletes it at the end, and everything else has been closed before. -/
theorem serve_cases (c : MainCalls) (el : EventLoop) (fd : Nat) (acts : List (Act Resource)) :
    (serve c ⟨some el, fd, false, acts⟩).acts = acts ++ [.drop .loop] ∨
    ∃ mqueue mqueueThread served, c.socketpair = some (mqueue, mqueueThread) ∧
      (served = [] ∨ served = [.use .loop, .use .loop]) ∧
      (serve c ⟨some el, fd, false, acts⟩).acts =
        acts ++ piping mqueue mqueueThread ++ served ++ closing mqueue mqueueThread fd := by
  simp only [serve, Bool.false_eq_true, if_false]
  split
  · exact .inl rfl
  · rename_i mqueue mqueueThread hpair
    refine .inr ⟨mqueue, mqueueThread, ?_⟩
    simp only [MainState.did]
    split
    · exact ⟨[], hpair, .inl rfl, by simp [MainState.quit, piping, closing]⟩
    · exact ⟨_, hpair, .inr rfl, rfl⟩

/-- Without a loop, `main` uses it or deletes it all the same. -/
theorem serve_start (c : MainCalls) : ¬ Act.Lives .loop false (serve c .start).acts := by
  simp only [serve, MainState.start, Bool.false_eq_true, if_false]
  cases c.socketpair with
  | none => exact fun h => absurd (@Act.Lives.make_mem _ _ _ [] _ _ h rfl) List.not_mem_nil
  | some pair =>
      intro h
      have hmem := @Act.Lives.make_mem _ _ Resource.loop
        [.make (.fd pair.1), .make (.fd pair.2)] _ (.use .loop) h rfl
      simp at hmem

/-- A loop that is made once is deleted once at most. -/
theorem Orderly.of_lives {acts : List (Act Resource)} (loop : Act.Lives .loop false acts)
    (once : acts.count (.make .loop) ≤ 1)
    (closed : ∀ fd, .make (.fd fd) ∈ acts → acts.count (.drop (.fd fd)) ≤ 1) : Orderly acts :=
  ⟨loop, Nat.le_trans loop.drops_le once, closed⟩

theorem orderly_served (c : MainCalls) {fd mqueue mqueueThread : Nat} {served : List (Act Resource)}
    (hserver : c.tcpServer = some fd) (hpair : c.socketpair = some (mqueue, mqueueThread))
    (hserved : served = [] ∨ served = [.use .loop, .use .loop]) :
    Orderly (opening fd ++ piping mqueue mqueueThread ++ served ++
      closing mqueue mqueueThread fd) := by
  obtain ⟨hne, hs, ht⟩ := c.distinct _ _ hpair
  rw [hserver, ne_eq, Option.some.injEq] at hs ht
  have hnone : ∀ r, served.count (.drop r) = 0 := by
    rcases hserved with rfl | rfl <;> intro r <;> rfl
  refine .of_lives ?_ ?_ fun n _ => ?_
  · rcases hserved with rfl | rfl <;> simp [opening, piping, closing, Act.Lives, Act.Needs, Act.after]
  · rcases hserved with rfl | rfl <;> simp [opening, piping, closing]
  · rw [List.count_append, List.count_append, List.count_append, hnone]
    simp only [opening, piping, closing, List.count_cons, List.count_nil, beq_iff_eq,
      Act.drop.injEq, Resource.fd.injEq, reduceCtorEq, if_false]
    -- only one of the three numbers is `n`
    split <;> split <;> split <;> omega

theorem orderly_nil : Orderly [] := ⟨trivial, Nat.zero_le _, fun _ h => absurd h List.not_mem_nil⟩

/-- With a port, every path of `main` is in order. -/
theorem orderly_of_port (c : MainCalls) (hport : port ≠ 0) :
    Orderly (serve c (openServer c port .start)).acts := by
  rcases openServer_cases c hport with ⟨hquit, hacts⟩ | ⟨fd, el, hserver, hopen⟩
  · have hstop : serve c (openServer c port .start) = openServer c port .start := if_pos hquit
    rw [hstop]
    rcases hacts with hnone | ⟨fd, hfailed | hrefused⟩
    · rw [hnone]
      exact orderly_nil
    · rw [hfailed]
      exact .of_lives (by simp [Act.Lives, Act.Needs]) (by simp) fun _ _ => by simp
    · rw [hrefused]
      refine .of_lives (by simp [opening, Act.Lives, Act.Needs, Act.after]) (by simp [opening]) fun n _ => ?_
      simp only [opening, List.cons_append, List.nil_append, List.count_cons, List.count_nil, beq_iff_eq, Act.drop.injEq, Resource.fd.injEq,
        reduceCtorEq, if_false]
      split <;> omega
  · rw [hopen]
    rcases serve_cases c el fd _ with hacts | ⟨mqueue, mqueueThread, served, hpair, hserved, hacts⟩
    · rw [hacts]
      exact .of_lives (by simp [opening, Act.Lives, Act.Needs, Act.after]) (by simp [opening])
        fun _ _ => by simp [opening]
    · rw [hacts]
      exact orderly_served c hserver hpair hserved

theorem loadShareMemory_port {sys : InitCalls} {b b' : Boot} (h : loadShareMemory sys b = .ok b') :
    b'.serverPort = b.serverPort := by
  unfold loadShareMemory at h
  dsimp only at h
  split at h
  · split at h
    · cases h
    · cases h
    · cases h
      rfl
  · cases h
    rfl

theorem createMessageQueue_port {sys : InitCalls} {b b' : Boot}
    (h : createMessageQueue sys b = .ok b') : b'.serverPort = b.serverPort := by
  unfold createMessageQueue at h
  dsimp only at h
  split at h
  · cases h
  · cases h
    rfl

theorem initPeers_port {b b' : Boot} (h : initPeers b = .ok b') : b'.serverPort = b.serverPort := by
  unfold initPeers at h
  split at h
  · cases h
    rfl
  · split at h
    · cases h
      rfl
    · cases h

theorem afterSegment_port {sys : InitCalls} {console : Bool} {b b' : Boot}
    (h : afterSegment console sys b = .ok b') : b'.serverPort = b.serverPort := by
  unfold afterSegment at h
  cases hcreate : createMessageQueue sys b with
  | error e =>
      rw [hcreate] at h
      cases h
  | ok b₁ =>
      have hport := createMessageQueue_port hcreate
      rw [hcreate] at h
      cases console with
      | true =>
          cases h
          exact hport
      | false => exact (initPeers_port h).trans hport

/-- `initialize` leaves the port as the file has it, in 16 bits. -/
theorem initializeProcess_port {group : CfgGroup} {console : Bool} {sys : InitCalls} {b : Boot}
    (h : initializeProcess (some (some group)) console sys = .ok b) :
    b.serverPort = UInt16.ofInt (cfgGetInt group "server_port" 7960) := by
  rw [initializeProcess_general] at h
  cases hload : loadShareMemory sys (readSettings group) with
  | error e =>
      rw [hload] at h
      cases h
  | ok b' =>
      rw [hload] at h
      have hport := afterSegment_port (b := b') h
      exact hport.trans (loadShareMemory_port hload)

theorem main_orderly_iff {group : CfgGroup} {console : Bool} {sys : InitCalls} {b : Boot}
    (h : initializeProcess (some (some group)) console sys = .ok b) (c : MainCalls) :
    Orderly (mainActs b console c) ↔
      console = true ∨ UInt16.ofInt (cfgGetInt group "server_port" 7960) ≠ 0 := by
  rw [← initializeProcess_port h]
  unfold mainActs
  cases console with
  | true => exact ⟨fun _ => .inl rfl, fun _ => orderly_nil⟩
  | false =>
      refine ⟨fun horderly => .inr fun hport => ?_, fun hport => orderly_of_port c ?_⟩
      · have hstart : openServer c b.serverPort .start = .start := if_neg (not_not.mpr hport)
        have hloop := horderly.loop
        rw [if_neg Bool.false_ne_true, hstart] at hloop
        exact serve_start c hloop
      · exact hport.resolve_left Bool.false_ne_true

/-- Where `startService` succeeds, `main` goes all the way, and the service is its last use of the
loop. -/
theorem mainActs_of_started {b : Boot} {k : Kernel} {c : MainCalls} {w : World}
    (h : startService b k c.toStartCalls = some w) :
    ∃ mqueueThread, mainActs b false c = [.make (.fd w.mgr.serverFd), .make .loop, .use .loop,
      .make (.fd w.mgr.mqueue), .make (.fd mqueueThread), .use .loop, .use .loop, .use .loop,
      .drop (.fd w.mgr.mqueue), .drop (.fd mqueueThread), .drop (.fd w.mgr.serverFd), .drop .loop] := by
  simp only [startService, Option.bind_eq_bind, Option.bind_eq_some_iff, Option.pure_def,
    Option.some.injEq, Option.guard_eq_some'] at h
  obtain ⟨_, hport, fd, hserver, _, hloop, el₀, hel₀, ⟨mqueue, mqueueThread⟩, hpair, el, hel, s, hs,
    rfl⟩ := h
  refine ⟨mqueueThread, ?_⟩
  have hopen : openServer c b.serverPort .start =
      ⟨some el₀, fd, false, [.make (.fd fd), .make .loop, .use .loop]⟩ := by
    simp [openServer, hport, hserver, hloop, hel₀, MainState.did, MainState.start]
  rw [mainActs, if_neg Bool.false_ne_true, hopen]
  simp [serve, hpair, hel, MainState.did]

/-- A first start in which every call succeeds. -/
def firstSys : InitCalls where
  openShm := ⟨⟨0, 1⟩, -1, .null⟩
  createShm := ⟨⟨0, 1⟩, 0, .attached .zero⟩
  queueKeyIn := ⟨0, 2⟩
  msggetIn := 0
  queueKeyOut := ⟨0, 3⟩
  msggetOut := 1

def firstMainCalls : MainCalls where
  toStartCalls := firstCalls
  distinct fd fd' h := newProcess_first.pair fd fd' h

theorem main_orderly_first : Orderly (mainActs firstBoot false firstMainCalls) ↔
    false = true ∨ UInt16.ofInt (cfgGetInt defaultGroup "server_port" 7960) ≠ 0 :=
  @main_orderly_iff defaultGroup false firstSys firstBoot rfl firstMainCalls

/-- Port 65536 is 0 in 16 bits. -/
def portlessGroup : CfgGroup :=
  ⟨fun key => if key = "server_port" then some 65536 else none, fun _ => none⟩

theorem not_orderly_portless : ∃ b, initializeProcess (some (some portlessGroup)) false firstSys = .ok b ∧
    ¬ Orderly (mainActs b false firstMainCalls) :=
  ⟨_, rfl, fun h => serve_start firstMainCalls h.loop⟩

end Tflib.Nac
