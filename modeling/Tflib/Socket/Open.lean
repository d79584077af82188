import Tflib.Core.Lifetimes
import Tflib.Util.Log

/-! # Opening sockets

The functions of `tf_socket.c` that connect and that listen. What the kernel and
the resolver answer is given; what a function does is the list of descriptors it
makes, uses and closes, and what it returns. A function that writes a message
past the end of the buffer of the log, or that gives the log a number where `%s`
wants a string, does not get any further: `none`.
-/

namespace Tflib.Socket

open Tflib.Core Tflib.Data Tflib.Util

/-- `TFNET_ERR` -/
def tfnetErr : Int := -1

/-- `EINPROGRESS` of Linux. -/
def einprogress : Int32 := 115

/-- `struct sockaddr_in`, its numbers as the host has them, and `struct sockaddr_un`. -/
inductive SockAddr
  | inet (port : UInt16) (addr : UInt32)
  | unix (path : Bytes)
  deriving DecidableEq

/-- What the calls of a function answer, or with which `errno` they fail. -/
structure Answers where
  socket : Except Int32 Nat
  setsockopt : Except Int32 Unit
  getfl : Except Int32 Int32
  setfl : Int32 → Except Int32 Unit
  inetAton : CString → Except Int32 UInt32
  gethostbyname : CString → Except Int32 UInt32
  connect : SockAddr → Except Int32 Unit
  bind : SockAddr → Except Int32 Unit
  listen : Except Int32 Unit
  env : Log.Surroundings

/-- The descriptors that were made, used and closed so far. -/
abbrev Trace := List (Act Int)

/-- The result of a function that writes a message first. -/
def reporting {α : Type} (k : Answers) (err : Int32) (text : Bytes) (r : α) : Option α :=
  (Log.error k.env err text).map fun _ => r

/-! ## Sockets -/

/-- `O_NONBLOCK` -/
def oNonblock : Int32 := 0o4000

def tfnetNonblock (k : Answers) (fd : Int) (acts : Trace) : Option (Bool × Trace) :=
  match k.getfl with
  | .error e => reporting k e (literal "tfnet_nonblock - fcntl(F_GETFL)") (false, acts ++ [.use fd])
  | .ok flags =>
      match k.setfl (flags ||| oNonblock) with
      | .error e =>
          reporting k e (literal "tfnet_nonblock fcntl(F_SETFL,O_NONBLOCK)")
            (false, acts ++ [.use fd] ++ [.use fd])
      | .ok _ => some (true, acts ++ [.use fd] ++ [.use fd])

/-- The socket is not closed where `setsockopt` fails. -/
def tfnetCreateSocket (k : Answers) : Option (Int × Trace) :=
  match k.socket with
  | .error e => reporting k e (literal "tfnet_create_socket - creating socket") (tfnetErr, [])
  | .ok s =>
      match k.setsockopt with
      | .error e =>
          reporting k e (literal "tfnet_create_socket - setsockopt SO_REUSEADDR")
            (tfnetErr, [.make s] ++ [.use s])
      | .ok _ => some (s, [.make s] ++ [.use s])

/-- `if ((s = tfnet_create_socket(...)) == TFNET_ERR) return TFNET_ERR;` and the rest of a function. -/
def withSocket (k : Answers) (rest : Int → Trace → Option (Int × Trace)) : Option (Int × Trace) := do
  let (s, acts) ← tfnetCreateSocket k
  if s = tfnetErr then some (tfnetErr, acts) else rest s acts

/-! ## Connecting -/

/-- `connect`, and what follows it. The message for a connection that is refused is `refusal`, if the log
gets a string for its `%s`. -/
def connectSocket (k : Answers) (nonblock : Bool) (refusal : Option Bytes) (sa : SockAddr) (s : Int)
    (acts : Trace) : Option (Int × Trace) :=
  let acts := acts ++ [.use s]
  match k.connect sa with
  | .ok _ => some (s, acts)
  | .error e =>
      if e = einprogress ∧ nonblock = true then some (s, acts)
      else do
        let text ← refusal
        reporting k e text (tfnetErr, acts ++ [.drop s])

/-- From `if (flags & TFNET_CONNECT_NONBLOCK)` on. -/
def connectTo (k : Answers) (nonblock : Bool) (refusal : Option Bytes) (sa : SockAddr) (s : Int)
    (acts : Trace) : Option (Int × Trace) := do
  let (ready, acts) ← if nonblock then tfnetNonblock k s acts else some (true, acts)
  if !ready then some (tfnetErr, acts) else connectSocket k nonblock refusal sa s acts

/-- What `htons` gets of an `int`. -/
def shortPort (port : Int32) : UInt16 := port.toUInt32.toUInt16

/-- `inet_aton`, and `gethostbyname` where that does not do. -/
def resolve (k : Answers) (addr : CString) : Except Int32 UInt32 :=
  match k.inetAton addr with
  | .ok ip => .ok ip
  | .error _ => k.gethostbyname addr

/-- `"connect server:%s error."` -/
def serverRefusal (addr : CString) : Bytes := literal "connect server:" ++ addr.val ++ literal " error."

/-- `"can't resolve: %s"` -/
def unresolved (addr : CString) : Bytes := literal "can't resolve: " ++ addr.val

def tfnetTcpGenericConnect (k : Answers) (addr : CString) (port : Int32) (nonblock : Bool) :
    Option (Int × Trace) :=
  withSocket k fun s acts =>
    match resolve k addr with
    | .error e => reporting k e (unresolved addr) (tfnetErr, acts ++ [.drop s])
    | .ok ip => connectTo k nonblock (some (serverRefusal addr)) (.inet (shortPort port) ip) s acts

/-- The log gets the number of the address for `%s`. -/
def tfnetTcpGenericConnect2 (k : Answers) (addr : UInt32) (port : Int32) (nonblock : Bool) :
    Option (Int × Trace) :=
  withSocket k (connectTo k nonblock none (.inet (shortPort port) addr))

/-- `strncpy(sa.sun_path, path, sizeof(sa.sun_path)-1)` -/
def sunPath (path : CString) : SockAddr := .unix (path.val.take 107)

/-- `"connect unix:%s error."` -/
def unixRefusal (path : CString) : Bytes := literal "connect unix:" ++ path.val ++ literal " error."

def tfnetUnixGenericConnect (k : Answers) (path : CString) (nonblock : Bool) : Option (Int × Trace) :=
  withSocket k (connectTo k nonblock (some (unixRefusal path)) (sunPath path))

def tfnetTcpConnect (k : Answers) (addr : CString) (port : Int32) : Option (Int × Trace) :=
  tfnetTcpGenericConnect k addr port false

def tfnetTcpConnect2 (k : Answers) (addr : UInt32) (port : Int32) : Option (Int × Trace) :=
  tfnetTcpGenericConnect2 k addr port false

def tfnetTcpNonblockConnect (k : Answers) (addr : CString) (port : Int32) : Option (Int × Trace) :=
  tfnetTcpGenericConnect k addr port true

def tfnetTcpNonblockConnect2 (k : Answers) (addr : UInt32) (port : Int32) : Option (Int × Trace) :=
  tfnetTcpGenericConnect2 k addr port true

def tfnetUnixConnect (k : Answers) (path : CString) : Option (Int × Trace) :=
  tfnetUnixGenericConnect k path false

def tfnetUnixNonblockConnect (k : Answers) (path : CString) : Option (Int × Trace) :=
  tfnetUnixGenericConnect k path true

/-! ## Listening -/

def tfnetListen (k : Answers) (s : Int) (sa : SockAddr) (acts : Trace) : Option (Bool × Trace) :=
  match k.bind sa with
  | .error e => reporting k e (literal "bind socket error") (false, acts ++ [.use s] ++ [.drop s])
  | .ok _ =>
      match k.listen with
      | .error e =>
          reporting k e (literal "listen socket error") (false, acts ++ [.use s] ++ [.use s] ++ [.drop s])
      | .ok _ => some (true, acts ++ [.use s] ++ [.use s])

/-- `if (!tfnet_listen(...)) return TFNET_ERR; return s;` -/
def listenAt (k : Answers) (sa : SockAddr) (s : Int) (acts : Trace) : Option (Int × Trace) := do
  let (listening, acts) ← tfnetListen k s sa acts
  some (if !listening then tfnetErr else s, acts)

/-- `INADDR_ANY` is zero. -/
def tfnetTcpServer (k : Answers) (port : Int32) (bindaddr : Option CString) : Option (Int × Trace) :=
  withSocket k fun s acts =>
    match bindaddr with
    | none => listenAt k (.inet (shortPort port) 0) s acts
    | some addr =>
        match k.inetAton addr with
        | .error e => reporting k e (literal "invalid bind address") (tfnetErr, acts ++ [.drop s])
        | .ok ip => listenAt k (.inet (shortPort port) ip) s acts

def tfnetTcpServer2 (k : Answers) (port : Int32) (ip : UInt32) : Option (Int × Trace) :=
  withSocket k (listenAt k (.inet (shortPort port) ip))

/-- `chmod` of the path is left out: it opens and closes nothing, and its answer is not looked at. -/
def tfnetUnixServer (k : Answers) (path : CString) : Option (Int × Trace) :=
  withSocket k (listenAt k (sunPath path))

/-- The functions with their arguments. -/
inductive OpenCall
  | tcpConnect (addr : CString) (port : Int32)
  | tcpConnect2 (addr : UInt32) (port : Int32)
  | tcpNonblockConnect (addr : CString) (port : Int32)
  | tcpNonblockConnect2 (addr : UInt32) (port : Int32)
  | unixConnect (path : CString)
  | unixNonblockConnect (path : CString)
  | tcpServer (port : Int32) (bindaddr : Option CString)
  | tcpServer2 (port : Int32) (ip : UInt32)
  | unixServer (path : CString)

def OpenCall.run (k : Answers) : OpenCall → Option (Int × Trace)
  | tcpConnect addr port => tfnetTcpConnect k addr port
  | tcpConnect2 addr port => tfnetTcpConnect2 k addr port
  | tcpNonblockConnect addr port => tfnetTcpNonblockConnect k addr port
  | tcpNonblockConnect2 addr port => tfnetTcpNonblockConnect2 k addr port
  | unixConnect path => tfnetUnixConnect k path
  | unixNonblockConnect path => tfnetUnixNonblockConnect k path
  | tcpServer port bindaddr => tfnetTcpServer k port bindaddr
  | tcpServer2 port ip => tfnetTcpServer2 k port ip
  | unixServer path => tfnetUnixServer k path

/-! ## Nothing is left open -/

/-- The descriptor was made, and is the only one that was, and it was not closed. -/
structure Keeps (fd : Int) (acts : Trace) : Prop where
  made : Act.make fd ∈ acts
  only : ∀ r, Act.make r ∈ acts → r = fd
  kept : Act.drop fd ∉ acts

/-- Descriptors are used and closed only while they are open, and the function returns one that it has made
and left open, or `TFNET_ERR` after it has closed each that it has made exactly once. -/
inductive Balanced : Option (Int × Trace) → Prop
  | opened {fd : Int} {acts : Trace} (lives : ∀ r, Act.Lives r false acts) (keeps : Keeps fd acts) :
      Balanced (some (fd, acts))
  | failed {acts : Trace} (lives : ∀ r, Act.Lives r false acts)
      (closed : ∀ r, Act.make r ∈ acts → acts.count (.drop r) = 1) : Balanced (some (tfnetErr, acts))

/-- The socket `s` was made and is open. -/
structure Held (s : Int) (acts : Trace) : Prop where
  lives : ∀ r, Act.Lives r false acts
  alive : acts.foldl (Act.after s) false = true
  keeps : Keeps s acts

theorem held_make (s : Int) : Held s [.make s] := by
  refine ⟨fun r => ⟨False.elim, trivial⟩, by simp [Act.after], by simp, fun r hr => ?_, by simp⟩
  simpa using hr

theorem Held.use {s : Int} {acts : Trace} (h : Held s acts) : Held s (acts ++ [.use s]) := by
  refine ⟨fun r => ?_, ?_, ?_, fun r hr => ?_, ?_⟩
  · refine Act.lives_append.mpr ⟨h.lives r, fun hneeds => ?_, trivial⟩
    have hr : s = r := hneeds
    exact hr ▸ h.alive
  · rw [List.foldl_append, h.alive]
    rfl
  · exact List.mem_append_left _ h.keeps.made
  · exact h.keeps.only r (by simpa using hr)
  · simpa using h.keeps.kept

theorem Held.balanced {s : Int} {acts : Trace} (h : Held s acts) : Balanced (some (s, acts)) :=
  .opened h.lives h.keeps

theorem Held.close {s : Int} {acts : Trace} (h : Held s acts) :
    Balanced (some (tfnetErr, acts ++ [.drop s])) := by
  refine .failed (fun r => ?_) fun r hr => ?_
  · refine Act.lives_append.mpr ⟨h.lives r, fun hneeds => ?_, trivial⟩
    have hr : s = r := hneeds
    exact hr ▸ h.alive
  · rw [h.keeps.only r (by simpa using hr), List.count_append, List.count_eq_zero.mpr h.keeps.kept,
      List.count_singleton_self]

/-- A socket that is still open when `TFNET_ERR` is returned is lost. -/
theorem Held.leak {s : Nat} {acts : Trace} (h : Held s acts) : ¬ Balanced (some (tfnetErr, acts)) := by
  intro hbalanced
  cases hbalanced with
  | opened lives keeps =>
      have hs := h.keeps.only _ keeps.made
      rw [tfnetErr] at hs
      omega
  | failed lives closed =>
      have hcount := closed s h.keeps.made
      rw [List.count_eq_zero.mpr h.keeps.kept] at hcount
      cases hcount

theorem balanced_nothing : Balanced (some (tfnetErr, [])) :=
  .failed (fun _ => trivial) fun _ hr => absurd hr List.not_mem_nil

theorem not_balanced_none : ¬ Balanced none := fun h => by cases h

/-! ## When it is so -/

/-- The buffer of the log has room for the message and the text of the error. -/
def Logs (k : Answers) (err : Int32) (text : Bytes) : Prop :=
  22 + text.length < 2048 ∧ (0 < err → 22 + text.length + 1 + (k.env.strerror err).val.length < 2048)

/-- The descriptor can be made non-blocking. -/
def NonblockFits (k : Answers) : Prop :=
  ∃ flags, k.getfl = .ok flags ∧ k.setfl (flags ||| oNonblock) = .ok ()

/-- If there is no socket, the log can say so; a socket gets its option, and the rest does well. -/
def SocketFits (k : Answers) (rest : Prop) : Prop :=
  match k.socket with
  | .error e => Logs k e (literal "tfnet_create_socket - creating socket")
  | .ok _ => k.setsockopt = .ok () ∧ rest

def ConnectFits (k : Answers) (nonblock : Bool) (refusal : Option Bytes) (sa : SockAddr) : Prop :=
  (nonblock = true → NonblockFits k) ∧
    ∀ e, k.connect sa = .error e → ¬ (e = einprogress ∧ nonblock = true) → ∃ text ∈ refusal, Logs k e text

def ListenFits (k : Answers) (sa : SockAddr) : Prop :=
  match k.bind sa with
  | .error e => Logs k e (literal "bind socket error")
  | .ok _ => ∀ e, k.listen = .error e → Logs k e (literal "listen socket error")

def ResolveFits (k : Answers) (addr : CString) (port : Int32) (nonblock : Bool) : Prop :=
  match resolve k addr with
  | .error e => Logs k e (unresolved addr)
  | .ok ip => ConnectFits k nonblock (some (serverRefusal addr)) (.inet (shortPort port) ip)

def ServerFits (k : Answers) (port : Int32) : Option CString → Prop
  | none => ListenFits k (.inet (shortPort port) 0)
  | some addr =>
      match k.inetAton addr with
      | .error e => Logs k e (literal "invalid bind address")
      | .ok ip => ListenFits k (.inet (shortPort port) ip)

def OpenFits (k : Answers) : OpenCall → Prop
  | .tcpConnect addr port => SocketFits k (ResolveFits k addr port false)
  | .tcpConnect2 addr port => SocketFits k (ConnectFits k false none (.inet (shortPort port) addr))
  | .tcpNonblockConnect addr port => SocketFits k (ResolveFits k addr port true)
  | .tcpNonblockConnect2 addr port => SocketFits k (ConnectFits k true none (.inet (shortPort port) addr))
  | .unixConnect path => SocketFits k (ConnectFits k false (some (unixRefusal path)) (sunPath path))
  | .unixNonblockConnect path => SocketFits k (ConnectFits k true (some (unixRefusal path)) (sunPath path))
  | .tcpServer port bindaddr => SocketFits k (ServerFits k port bindaddr)
  | .tcpServer2 port ip => SocketFits k (ListenFits k (.inet (shortPort port) ip))
  | .unixServer path => SocketFits k (ListenFits k (sunPath path))

/-! ## Messages -/

section

set_option maxRecDepth 4096

theorem creating_text : 0 ∉ literal "tfnet_create_socket - creating socket" := by decide

theorem reuseaddr_text : 0 ∉ literal "tfnet_create_socket - setsockopt SO_REUSEADDR" := by decide

theorem getfl_text : 0 ∉ literal "tfnet_nonblock - fcntl(F_GETFL)" := by decide

theorem setfl_text : 0 ∉ literal "tfnet_nonblock fcntl(F_SETFL,O_NONBLOCK)" := by decide

theorem bind_text : 0 ∉ literal "bind socket error" := by decide

theorem listen_text : 0 ∉ literal "listen socket error" := by decide

theorem invalid_text : 0 ∉ literal "invalid bind address" := by decide

end

theorem serverRefusal_text (addr : CString) : ∀ text ∈ some (serverRefusal addr), 0 ∉ text := by
  have hmarks : 0 ∉ literal "connect server:" ∧ 0 ∉ literal " error." := by decide
  rintro _ ⟨⟩
  simp only [serverRefusal, List.mem_append, hmarks.1, hmarks.2, addr.2, or_self, not_false_iff]

theorem unixRefusal_text (path : CString) : ∀ text ∈ some (unixRefusal path), 0 ∉ text := by
  have hmarks : 0 ∉ literal "connect unix:" ∧ 0 ∉ literal " error." := by decide
  rintro _ ⟨⟩
  simp only [unixRefusal, List.mem_append, hmarks.1, hmarks.2, path.2, or_self, not_false_iff]

theorem unresolved_text (addr : CString) : 0 ∉ unresolved addr := by
  have hmark : 0 ∉ literal "can't resolve: " := by decide
  simp only [unresolved, List.mem_append, hmark, addr.2, or_self, not_false_iff]

/-- A message, and what is done behind it. -/
theorem reporting_bind {α : Type} (k : Answers) (err : Int32) {text : Bytes} (htext : 0 ∉ text) (r : α)
    (f : α → Option (Int × Trace)) :
    Balanced (reporting k err text r >>= f) ↔ Logs k err text ∧ Balanced (f r) := by
  have hsome : (Log.error k.env err text).isSome = true ↔ Logs k err text := by
    have h := Log.logWrite_isSome k.env err .error text
    rwa [Log.cut_of_text htext] at h
  unfold reporting
  cases hlog : Log.error k.env err text with
  | none =>
      rw [hlog] at hsome
      exact iff_of_false not_balanced_none fun h => Bool.false_ne_true (hsome.mpr h.1)
  | some out =>
      rw [hlog] at hsome
      exact (and_iff_right (hsome.mp rfl)).symm

theorem reporting_balanced (k : Answers) (err : Int32) {text : Bytes} (htext : 0 ∉ text) {r : Int × Trace}
    (hr : Balanced (some r)) : Balanced (reporting k err text r) ↔ Logs k err text := by
  have h := reporting_bind k err htext r some
  rwa [Option.bind_eq_bind, Option.bind_fun_some, and_iff_left hr] at h

/-! ## The steps -/

theorem withSocket_balanced (k : Answers) {rest : Int → Trace → Option (Int × Trace)} {P : Prop}
    (hrest : ∀ (s : Nat) (acts : Trace), Held s acts → (Balanced (rest s acts) ↔ P)) :
    Balanced (withSocket k rest) ↔ SocketFits k P := by
  unfold withSocket tfnetCreateSocket SocketFits
  cases k.socket with
  | error e =>
      dsimp only
      rw [reporting_bind k e creating_text, if_pos rfl, and_iff_left balanced_nothing]
  | ok s =>
      have hheld : Held s ([.make (s : Int)] ++ [.use (s : Int)]) := (held_make s).use
      dsimp only
      cases k.setsockopt with
      | error e =>
          dsimp only
          rw [reporting_bind k e reuseaddr_text, if_pos rfl]
          exact iff_of_false (fun h => hheld.leak h.2) fun h => by cases h.1
      | ok _ =>
          have hs : ¬ (s : Int) = tfnetErr := by rw [tfnetErr]; omega
          dsimp only
          rw [Option.bind_eq_bind, Option.bind_some, if_neg hs, hrest s _ hheld]
          exact (and_iff_right rfl).symm

/-- If the socket cannot be made non-blocking, it is lost. -/
theorem nonblock_balanced (k : Answers) {s : Nat} {acts : Trace} (h : Held s acts)
    {rest : Trace → Option (Int × Trace)} {P : Prop}
    (hrest : ∀ acts : Trace, Held s acts → (Balanced (rest acts) ↔ P)) :
    Balanced (tfnetNonblock k s acts >>= fun r => if !r.1 then some (tfnetErr, r.2) else rest r.2) ↔
      NonblockFits k ∧ P := by
  unfold tfnetNonblock NonblockFits
  cases k.getfl with
  | error e =>
      dsimp only
      rw [reporting_bind k e getfl_text]
      refine iff_of_false (fun h' => h.use.leak h'.2) fun h' => ?_
      obtain ⟨⟨flags, hflags, -⟩, -⟩ := h'
      cases hflags
  | ok flags =>
      dsimp only
      cases hset : k.setfl (flags ||| oNonblock) with
      | error e =>
          dsimp only
          rw [reporting_bind k e setfl_text]
          refine iff_of_false (fun h' => h.use.use.leak h'.2) fun h' => ?_
          obtain ⟨⟨flags', hflags, hok⟩, -⟩ := h'
          cases hflags
          rw [hset] at hok
          cases hok
      | ok _ =>
          refine (hrest _ h.use.use).trans (and_iff_right ?_).symm
          exact ⟨flags, rfl, hset⟩

theorem connectSocket_balanced (k : Answers) (nonblock : Bool) {refusal : Option Bytes}
    (htext : ∀ text ∈ refusal, 0 ∉ text) (sa : SockAddr) {s : Nat} {acts : Trace} (h : Held s acts) :
    Balanced (connectSocket k nonblock refusal sa s acts) ↔
      ∀ e, k.connect sa = .error e → ¬ (e = einprogress ∧ nonblock = true) →
        ∃ text ∈ refusal, Logs k e text := by
  unfold connectSocket
  cases k.connect sa with
  | ok _ => exact iff_of_true h.use.balanced fun e he => by cases he
  | error e =>
      have hsame : (∀ e', (.error e : Except Int32 Unit) = .error e' →
          ¬ (e' = einprogress ∧ nonblock = true) → ∃ text ∈ refusal, Logs k e' text) ↔
          (¬ (e = einprogress ∧ nonblock = true) → ∃ text ∈ refusal, Logs k e text) :=
        ⟨fun h => h e rfl, fun h e' he => by cases he; exact h⟩
      rw [hsame]
      dsimp only
      by_cases hpending : e = einprogress ∧ nonblock = true
      · rw [if_pos hpending]
        exact iff_of_true h.use.balanced fun hnot => absurd hpending hnot
      · rw [if_neg hpending]
        cases refusal with
        | none => exact iff_of_false not_balanced_none fun hlogs => by simpa using hlogs hpending
        | some text =>
            rw [Option.bind_eq_bind, Option.bind_some, reporting_balanced k e (htext text rfl) h.use.close]
            exact ⟨fun hlogs _ => ⟨text, rfl, hlogs⟩, fun hlogs => by simpa using hlogs hpending⟩

theorem connectTo_balanced (k : Answers) (nonblock : Bool) {refusal : Option Bytes}
    (htext : ∀ text ∈ refusal, 0 ∉ text) (sa : SockAddr) {s : Nat} {acts : Trace} (h : Held s acts) :
    Balanced (connectTo k nonblock refusal sa s acts) ↔ ConnectFits k nonblock refusal sa := by
  have hconnect := fun acts (h : Held s acts) => connectSocket_balanced k nonblock htext sa h
  unfold connectTo ConnectFits
  cases nonblock with
  | false => exact (hconnect acts h).trans (and_iff_right fun hfalse => by cases hfalse).symm
  | true =>
      refine (nonblock_balanced k h hconnect).trans (and_congr_left fun _ => ?_)
      exact ⟨fun hfits _ => hfits, fun hfits => hfits rfl⟩

theorem listenAt_balanced (k : Answers) (sa : SockAddr) {s : Nat} {acts : Trace} (h : Held s acts) :
    Balanced (listenAt k sa s acts) ↔ ListenFits k sa := by
  unfold listenAt tfnetListen ListenFits
  cases k.bind sa with
  | error e =>
      dsimp only
      rw [reporting_bind k e bind_text]
      exact and_iff_left h.use.close
  | ok _ =>
      dsimp only
      cases k.listen with
      | error e =>
          dsimp only
          rw [reporting_bind k e listen_text]
          refine (and_iff_left h.use.use.close).trans ⟨fun hlogs e' he => ?_, fun hlogs => hlogs e rfl⟩
          cases he
          exact hlogs
      | ok _ => exact iff_of_true h.use.use.balanced fun e he => by cases he

theorem tcpConnect_balanced (k : Answers) (addr : CString) (port : Int32) (nonblock : Bool) :
    Balanced (tfnetTcpGenericConnect k addr port nonblock) ↔
      SocketFits k (ResolveFits k addr port nonblock) := by
  refine withSocket_balanced k fun s acts h => ?_
  unfold ResolveFits
  cases resolve k addr with
  | error e => exact reporting_balanced k e (unresolved_text addr) h.close
  | ok ip => exact connectTo_balanced k nonblock (serverRefusal_text addr) _ h

theorem tcpConnect2_balanced (k : Answers) (addr : UInt32) (port : Int32) (nonblock : Bool) :
    Balanced (tfnetTcpGenericConnect2 k addr port nonblock) ↔
      SocketFits k (ConnectFits k nonblock none (.inet (shortPort port) addr)) :=
  withSocket_balanced k fun _ _ h => connectTo_balanced k nonblock (fun _ hmem => by cases hmem) _ h

theorem unixConnect_balanced (k : Answers) (path : CString) (nonblock : Bool) :
    Balanced (tfnetUnixGenericConnect k path nonblock) ↔
      SocketFits k (ConnectFits k nonblock (some (unixRefusal path)) (sunPath path)) :=
  withSocket_balanced k fun _ _ h => connectTo_balanced k nonblock (unixRefusal_text path) _ h

theorem tcpServer_balanced (k : Answers) (port : Int32) (bindaddr : Option CString) :
    Balanced (tfnetTcpServer k port bindaddr) ↔ SocketFits k (ServerFits k port bindaddr) := by
  refine withSocket_balanced k fun s acts h => ?_
  unfold ServerFits
  cases bindaddr with
  | none => exact listenAt_balanced k _ h
  | some addr =>
      dsimp only
      cases k.inetAton addr with
      | error e => exact reporting_balanced k e invalid_text h.close
      | ok ip => exact listenAt_balanced k _ h

theorem tcpServer2_balanced (k : Answers) (port : Int32) (ip : UInt32) :
    Balanced (tfnetTcpServer2 k port ip) ↔ SocketFits k (ListenFits k (.inet (shortPort port) ip)) :=
  withSocket_balanced k fun _ _ h => listenAt_balanced k _ h

theorem unixServer_balanced (k : Answers) (path : CString) :
    Balanced (tfnetUnixServer k path) ↔ SocketFits k (ListenFits k (sunPath path)) :=
  withSocket_balanced k fun _ _ h => listenAt_balanced k _ h

/-- Nothing is left open exactly where the log has room for what is reported, a socket gets its option and
is made non-blocking where that is wanted, and no connection to a number is refused. -/
theorem run_balanced_iff (k : Answers) (call : OpenCall) : Balanced (call.run k) ↔ OpenFits k call := by
  cases call with
  | tcpConnect addr port => exact tcpConnect_balanced k addr port false
  | tcpConnect2 addr port => exact tcpConnect2_balanced k addr port false
  | tcpNonblockConnect addr port => exact tcpConnect_balanced k addr port true
  | tcpNonblockConnect2 addr port => exact tcpConnect2_balanced k addr port true
  | unixConnect path => exact unixConnect_balanced k path false
  | unixNonblockConnect path => exact unixConnect_balanced k path true
  | tcpServer port bindaddr => exact tcpServer_balanced k port bindaddr
  | tcpServer2 port ip => exact tcpServer2_balanced k port ip
  | unixServer path => exact unixServer_balanced k path

/-- The socket is number 3, and `setsockopt` fails with `ENOBUFS`. -/
def noBuffers : Answers where
  socket := .ok 3
  setsockopt := .error 105
  getfl := .ok 2
  setfl := fun _ => .ok ()
  inetAton := fun _ => .ok 0
  gethostbyname := fun _ => .ok 0
  connect := fun _ => .ok ()
  bind := fun _ => .ok ()
  listen := .ok ()
  env := ⟨⟨0, false, false⟩, ⟨0, 1, 0, 0, 0⟩, 1, fun _ => ⟨literal "No buffer space", by decide⟩⟩

theorem run_leaves_socket : ¬ ∀ k (call : OpenCall), Balanced (call.run k) := fun h => by
  have hfits := (tcpServer2_balanced noBuffers 80 0).mp (h noBuffers (.tcpServer2 80 0))
  cases hfits.1

end Tflib.Socket
