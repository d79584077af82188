import Tflib.Core.Calls
import Tflib.Core.Region
import Tflib.Socket.Transfer

/-! # `tfnet_read` and `tfnet_write`, call by call

The loop of `tf_socket.c` with its own variables and the memory its calls touch.
Unlike `transferLoop`, which runs on what is left to move, it keeps `totlen`,
`loop` and the moving pointer `buf` apart, and a call that reaches outside the
caller's buffer faults. Both directions are the one loop below.
-/

namespace Tflib.Socket

open Tflib.Core Tflib.Core.Calls

/-- The variables of the loop. `buf` is the distance the pointer has moved, `io` what the calls
have changed. -/
structure Retry (ω : Type) where
  totlen : Nat
  loop : Nat
  buf : Nat
  io : ω
  deriving DecidableEq, Repr

structure RetryEnd (ω : Type) where
  ret : Int
  io : ω
  deriving DecidableEq, Repr

namespace Retry

variable {ω : Type}

/-- `count - totlen`, what the next call is asked for. -/
def request (count : Nat) (s : Retry ω) : Nat := count - s.totlen

/-- `while(totlen != count)`, and the `return` behind it. -/
def test (count : Nat) (s : Retry ω) : Next (Retry ω) (Option (RetryEnd ω)) :=
  if s.totlen ≠ count then .again s else .done (some ⟨s.totlen, s.io⟩)

/-- The body of the loop behind its call. `move` is what the call does to `io` when it moves that
many bytes at that place of the buffer; the result `none` is an access outside the buffer. -/
def turn (move : ω → Nat → Nat → Option ω) (count : Nat) (s : Retry ω) :
    CallResult → Next (Retry ω) (Option (RetryEnd ω))
  | .zero => .done (some ⟨-1, s.io⟩)
  | .interrupted =>
      if s.loop + 1 > 20 then .done (some ⟨-1, s.io⟩) else test count { s with loop := s.loop + 1 }
  | .failed => .done (some ⟨-1, s.io⟩)
  | .moved k =>
      let n := min (k + 1) (s.request count)
      match move s.io s.buf n with
      | none => .done none
      | some io => test count { s with totlen := s.totlen + n, buf := s.buf + n, io := io }

def start (count : Nat) (io : ω) : Next (Retry ω) (Option (RetryEnd ω)) := test count ⟨0, 0, 0, io⟩

end Retry

/-! ## The two directions -/

/-- The caller's buffer, and how many bytes have left the stream. -/
structure Received where
  cells : Region UInt8
  pos : Nat
  deriving DecidableEq, Repr

/-- `read` stores the next `n` bytes of the stream at byte `i` of the buffer. -/
def Received.move (stream : Memory) (r : Received) (i n : Nat) : Option Received :=
  (r.cells.store i ((stream.load r.pos n).map some)).map fun cells => ⟨cells, r.pos + n⟩

/-- `write` appends `n` bytes from byte `i` of the buffer to what was sent. -/
def sentMove (buf : Bytes) (sent : Bytes) (i n : Nat) : Option Bytes :=
  if i + n ≤ buf.length then some (sent ++ (buf.drop i).take n) else none

/-- `tfnet_read(fd, buf, count)` after the first `k` answers. -/
def tfnetReadAfter (stream : Memory) (cells : Region UInt8) (count : Nat)
    (script : Nat → CallResult) (k : Nat) : Next (Retry Received) (Option (RetryEnd Received)) :=
  after (Retry.turn (Received.move stream) count) (Retry.start count ⟨cells, 0⟩) script k

/-- `tfnet_write(fd, buf, count)` after the first `k` answers. -/
def tfnetWriteAfter (buf : Bytes) (count : Nat) (script : Nat → CallResult) (k : Nat) :
    Next (Retry Bytes) (Option (RetryEnd Bytes)) :=
  after (Retry.turn (sentMove buf) count) (Retry.start count []) script k

/-! ## What the script grants -/

/-- The most one answer moves. -/
def CallResult.granted : CallResult → Nat
  | .moved k => k + 1
  | _ => 0

def CallResult.stall : CallResult → Nat
  | .interrupted => 1
  | _ => 0

/-- The answers no transfer gets past. -/
def CallResult.IsFatal : CallResult → Prop
  | .zero | .failed => True
  | _ => False

/-- `count` bytes come before the first 0, the first hard error and the 21st interruption. -/
def Completes (script : Nat → CallResult) (count : Nat) : Prop :=
  ∃ j, ¬ Among CallResult.IsFatal script j ∧ tally CallResult.stall script j ≤ 20 ∧
    count ≤ tally CallResult.granted script j

/-- Fewer bytes than `count`, and the next answer ends the transfer. -/
theorem not_completes {script : Nat → CallResult} {count k : Nat}
    (short : tally CallResult.granted script k < count)
    (ended : ∀ j, k < j → Among CallResult.IsFatal script j ∨ 20 < tally CallResult.stall script j) :
    ¬ Completes script count := by
  rintro ⟨j, hfatal, hstall, hcount⟩
  by_cases hj : k < j
  · rcases ended j hj with h | h
    · exact hfatal h
    · omega
  · have := tally_mono CallResult.granted script (Nat.not_lt.mp hj)
    omega

/-! ## The loop, for whatever its calls do -/

namespace Retry

variable {ω : Type} {move : ω → Nat → Nat → Option ω} {count : Nat}
  {Moved : Nat → ω → Prop} {script : Nat → CallResult} {io : ω}

/-- What holds while the loop waits: `buf` and `totlen` are the bytes the answers have granted,
and none of these was the last the loop would take. -/
structure Waits (count : Nat) (Moved : Nat → ω → Prop) (script : Nat → CallResult) (k : Nat)
    (s : Retry ω) : Prop where
  short : s.totlen < count
  place : s.buf = s.totlen
  moved : Moved s.totlen s.io
  granted : s.totlen = tally CallResult.granted script k
  stalls : s.loop = tally CallResult.stall script k
  patient : s.loop ≤ 20
  alive : ¬ Among CallResult.IsFatal script k

/-- What the loop returns: the count when all of it was moved, else -1 and less than that. -/
structure Returns (count : Nat) (Moved : Nat → ω → Prop) (script : Nat → CallResult)
    (e : RetryEnd ω) : Prop where
  full : Completes script count → e.ret = count ∧ Moved count e.io
  partly : ¬ Completes script count → e.ret = -1 ∧ ∃ n < count, Moved n e.io

def Holds (count : Nat) (Moved : Nat → ω → Prop) (script : Nat → CallResult) (k : Nat) :
    Next (Retry ω) (Option (RetryEnd ω)) → Prop
  | .again s => Waits count Moved script k s
  | .done none => False
  | .done (some e) => Returns count Moved script e

theorem Returns.of_completes {e : RetryEnd ω} (h : Completes script count) (hret : e.ret = count)
    (hio : Moved count e.io) : Returns count Moved script e :=
  ⟨fun _ => ⟨hret, hio⟩, fun hn => absurd h hn⟩

theorem Returns.of_not_completes {k : Nat} {s : Retry ω} (h : Waits count Moved script k s)
    (ended : ∀ j, k < j → Among CallResult.IsFatal script j ∨ 20 < tally CallResult.stall script j) :
    Returns count Moved script ⟨-1, s.io⟩ := by
  refine ⟨fun hc => absurd hc (not_completes (h.granted ▸ h.short) ended), fun _ => ⟨rfl, ?_⟩⟩
  exact ⟨s.totlen, h.short, h.moved⟩

/-- A fatal answer is among all later ones. -/
theorem over_of_fatal {k : Nat} (h : (script k).IsFatal) (j : Nat) (hj : k < j) :
    Among CallResult.IsFatal script j ∨ 20 < tally CallResult.stall script j :=
  .inl ⟨k, hj, h⟩

/-- One answer keeps the invariant. -/
theorem turn_holds
    (hmove : ∀ n m w, Moved n w → n + m ≤ count → ∃ w', move w n m = some w' ∧ Moved (n + m) w')
    {k : Nat} {s : Retry ω} (h : Waits count Moved script k s) :
    Holds count Moved script (k + 1) (turn move count s (script k)) := by
  have halive : ¬ (script k).IsFatal → ¬ Among CallResult.IsFatal script (k + 1) :=
    fun ha hm => (among_succ.mp hm).elim h.alive ha
  have hgranted : tally CallResult.granted script (k + 1) = s.totlen + (script k).granted := by
    rw [tally, ← h.granted]
  have hstall : tally CallResult.stall script (k + 1) = s.loop + (script k).stall := by
    rw [tally, ← h.stalls]
  cases ha : script k with
  | zero => exact .of_not_completes h (over_of_fatal (by rw [ha]; trivial))
  | failed => exact .of_not_completes h (over_of_fatal (by rw [ha]; trivial))
  | interrupted =>
      rw [ha] at halive hgranted hstall
      simp only [turn]
      by_cases hmany : s.loop + 1 > 20
      · rw [if_pos hmany]
        refine .of_not_completes h fun j hj => .inr ?_
        have hmono := tally_mono CallResult.stall script (Nat.succ_le_of_lt hj)
        exact Nat.lt_of_lt_of_le hmany (hstall ▸ hmono)
      · rw [if_neg hmany, test, if_pos (Nat.ne_of_lt h.short)]
        exact {
          short := h.short, place := h.place, moved := h.moved, granted := hgranted.symm
          stalls := hstall.symm, patient := Nat.not_lt.mp hmany, alive := halive id }
  | moved n =>
      rw [ha] at halive hgranted hstall
      have hshort := h.short
      have hroom : s.totlen + min (n + 1) (s.request count) ≤ count := by
        rw [request]
        omega
      obtain ⟨io', hio', hmoved⟩ := hmove s.totlen _ s.io h.moved hroom
      simp only [turn, h.place, hio', test]
      by_cases hmore : s.totlen + min (n + 1) (s.request count) ≠ count
      · rw [if_pos hmore]
        have hn : min (n + 1) (s.request count) = n + 1 := by
          rw [request] at hmore ⊢
          omega
        exact {
          short := Nat.lt_of_le_of_ne hroom hmore
          place := rfl, moved := hmoved, stalls := hstall.symm
          granted := (congrArg (s.totlen + ·) hn).trans hgranted.symm
          patient := h.patient, alive := halive id }
      · rw [if_neg hmore]
        have hall : s.totlen + min (n + 1) (s.request count) = count := not_not.mp hmore
        refine .of_completes ⟨k + 1, halive id, hstall ▸ h.patient, ?_⟩ (by rw [hall]) ?_
        · rw [hgranted, CallResult.granted, ← hall]
          exact Nat.add_le_add_left (Nat.min_le_left _ _) _
        · exact hall ▸ hmoved

theorem start_holds (hio : Moved 0 io) : Holds count Moved script 0 (start count io) := by
  by_cases hzero : 0 ≠ count
  · rw [start, test, if_pos hzero]
    exact {
      short := by simp only; omega
      place := rfl, moved := hio, granted := rfl, stalls := rfl, patient := Nat.zero_le _
      alive := among_zero _ _ }
  · rw [start, test, if_neg hzero]
    have hc : count = 0 := by omega
    exact .of_completes ⟨0, among_zero _ _, Nat.zero_le _, Nat.le_of_eq hc⟩ (congrArg Nat.cast hc.symm)
      (hc ▸ hio)

/-- The invariant holds after every number of answers. -/
theorem after_holds
    (hmove : ∀ n m w, Moved n w → n + m ≤ count → ∃ w', move w n m = some w' ∧ Moved (n + m) w')
    (hio : Moved 0 io) (k : Nat) :
    Holds count Moved script k (after (turn move count) (start count io) script k) := by
  refine after_invariant (start_holds hio) (fun k s _ h => turn_holds hmove h) ?_ k
  intro k r _ h
  cases r with
  | none => exact h
  | some e => exact h

theorem test_again {s t : Retry ω} (h : test count s = .again t) : t = s ∧ s.totlen ≠ count := by
  unfold test at h
  split at h
  · cases h
    exact ⟨rfl, ‹_›⟩
  · cases h

/-- An answer after which the loop goes on moved bytes or was one of twenty interruptions. -/
theorem turn_again {s t : Retry ω} {a : CallResult} (short : s.totlen < count)
    (h : turn move count s a = .again t) :
    t.totlen < count ∧
      (s.totlen < t.totlen ∧ t.loop = s.loop ∨
        t.totlen = s.totlen ∧ t.loop = s.loop + 1 ∧ s.loop < 20) := by
  cases a with
  | zero => cases h
  | failed => cases h
  | interrupted =>
      simp only [turn] at h
      split at h
      · cases h
      · obtain ⟨rfl, -⟩ := test_again h
        exact ⟨short, .inr ⟨rfl, rfl, by omega⟩⟩
  | moved k =>
      simp only [turn] at h
      cases hio : move s.io s.buf (min (k + 1) (s.request count)) with
      | none =>
          rw [hio] at h
          cases h
      | some io =>
          rw [hio] at h
          obtain ⟨rfl, hmore⟩ := test_again h
          simp only [request] at hmore ⊢
          exact ⟨by omega, .inl ⟨by omega, trivial⟩⟩

/-- The loop ends with its twenty-first interruption if nothing else ends it. -/
theorem after_done (count : Nat) (io : ω) (script : Nat → CallResult) :
    (after (turn move count) (start count io) script (count + 21)).IsDone := by
  refine ends_within (I := fun s => s.totlen < count ∧ s.loop ≤ 20)
    (m := fun s => (count - s.totlen) + (20 - s.loop)) ?_ ?_ ?_
  · intro s hs
    obtain ⟨rfl, hne⟩ := test_again hs
    exact ⟨Nat.pos_of_ne_zero (Ne.symm hne), Nat.zero_le _⟩
  · intro s a t hI ht
    obtain ⟨hlt, hcases⟩ := turn_again hI.1 ht
    have := hI.2
    omega
  · intro s hs
    obtain ⟨rfl, -⟩ := test_again hs
    simp only
    omega

/-! ### What a caller may rely on -/

/-- The contract of one call: it ends within `count + 21` answers, returns `count` exactly when
that much comes before it gives up, and has moved what it says; while it waits it asks for the
bytes that remain, which lie inside the first `count` of the buffer. -/
structure Delivers (count : Nat) (Moved : Nat → ω → Prop) (script : Nat → CallResult)
    (run : Nat → Next (Retry ω) (Option (RetryEnd ω))) : Prop where
  ends : ∃ e, run (count + 21) = .done (some e)
  success : ∀ k e, run k = .done e → ∃ r, e = some r ∧
    (r.ret = count ↔ Completes script count) ∧ (r.ret = count → Moved count r.io) ∧
    (r.ret ≠ count → r.ret = -1 ∧ ∃ n < count, Moved n r.io)
  waiting : ∀ k s, run k = .again s → 0 < s.request count ∧ s.buf + s.request count ≤ count ∧
    ∃ n < count, s.request count = count - n ∧ Moved n s.io

theorem delivers
    (hmove : ∀ n m w, Moved n w → n + m ≤ count → ∃ w', move w n m = some w' ∧ Moved (n + m) w')
    (hio : Moved 0 io) (script : Nat → CallResult) :
    Delivers count Moved script (after (turn move count) (start count io) script) := by
  have holds := @after_holds _ move count Moved script io hmove hio
  refine ⟨?_, ?_, ?_⟩
  · obtain ⟨e, he⟩ := (@after_done _ move count io script).exists_eq
    have hr := holds (count + 21)
    rw [he] at hr
    cases e with
    | none => exact absurd hr id
    | some r => exact ⟨r, he⟩
  · intro k e he
    have hr := holds k
    rw [he] at hr
    cases e with
    | none => exact absurd hr id
    | some r =>
        refine ⟨r, rfl, ?_⟩
        by_cases hc : Completes script count
        · obtain ⟨hret, hmoved⟩ := hr.full hc
          exact ⟨iff_of_true hret hc, fun _ => hmoved, fun hne => absurd hret hne⟩
        · obtain ⟨hret, hmoved⟩ := hr.partly hc
          have hne : r.ret ≠ count := by
            rw [hret]
            omega
          exact ⟨iff_of_false hne hc, fun h => absurd h hne, fun _ => ⟨hret, hmoved⟩⟩
  · intro k s hs
    have hw := holds k
    rw [hs] at hw
    have hshort := hw.short
    have hplace := hw.place
    refine ⟨Nat.sub_pos_of_lt hshort, ?_, s.totlen, hshort, rfl, hw.moved⟩
    rw [request]
    omega

end Retry

/-! ## Both calls -/

/-- `n` bytes of the stream are at the front of the buffer, in order, and behind them nothing has
changed. -/
def Received.Moved (stream : Memory) (cells : Region UInt8) (n : Nat) (r : Received) : Prop :=
  r.pos = n ∧ r.cells = (stream.load 0 n).map some ++ cells.drop n

theorem Received.move_moved {stream : Memory} {cells : Region UInt8} {count : Nat}
    (room : count ≤ cells.length) (n m : Nat) (r : Received)
    (h : Received.Moved stream cells n r) (hle : n + m ≤ count) :
    ∃ r', r.move stream n m = some r' ∧ Received.Moved stream cells (n + m) r' := by
  obtain ⟨hpos, hcells⟩ := h
  have hroom : (stream.load n m).length ≤ (cells.drop n).length := by
    rw [Memory.load_length, List.length_drop]
    omega
  have hstore := Region.store_behind (stream.load 0 n) (stream.load n m) (cells.drop n) hroom
  rw [Memory.load_length, Memory.load_length, List.drop_drop] at hstore
  refine ⟨⟨_, n + m⟩, ?_, rfl, rfl⟩
  rw [Received.move, hcells, hpos, hstore, Memory.load_add, Nat.zero_add]
  rfl

theorem sentMove_moved {buf : Bytes} {count : Nat} (room : count ≤ buf.length) (n m : Nat)
    (sent : Bytes) (h : sent = buf.take n) (hle : n + m ≤ count) :
    ∃ sent', sentMove buf sent n m = some sent' ∧ sent' = buf.take (n + m) :=
  ⟨buf.take (n + m), by rw [sentMove, if_pos (Nat.le_trans hle room), h, List.take_add], rfl⟩

/-- For every script, `tfnet_read` and `tfnet_write` return `count` exactly when that many bytes
come before the first 0, hard error or twenty-first interruption. -/
theorem tfnet_transfers_count (script : Nat → CallResult) (count : Nat) (stream : Memory)
    (cells : Region UInt8) (buf : Bytes) (room : count ≤ cells.length)
    (whole : count ≤ buf.length) :
    Retry.Delivers count (Received.Moved stream cells) script
        (tfnetReadAfter stream cells count script) ∧
      Retry.Delivers count (fun n sent => sent = buf.take n) script
        (tfnetWriteAfter buf count script) :=
  ⟨Retry.delivers (Received.move_moved room) ⟨rfl, rfl⟩ script,
    Retry.delivers (sentMove_moved whole) rfl script⟩

/-- Three bytes in two pieces, with an interruption between them. -/
theorem tfnet_transfers_three :
    let script : Nat → CallResult := fun i => [.moved 1, .interrupted, .moved 7].getD i .zero
    3 ≤ (Region.fresh 4 : Region UInt8).length ∧ 3 ≤ [65, 66, 67].length ∧
      Retry.Delivers 3 (Received.Moved (fun a => .ofNat a) (Region.fresh 4)) script
          (tfnetReadAfter (fun a => .ofNat a) (Region.fresh 4) 3 script) ∧
        Retry.Delivers 3 (fun n sent => sent = [65, 66, 67].take n) script
          (tfnetWriteAfter [65, 66, 67] 3 script) :=
  ⟨by decide, by decide, tfnet_transfers_count _ 3 _ _ _ (by decide) (by decide)⟩

example :
    tfnetReadAfter (fun a => .ofNat a) (Region.fresh 4) 3
        (fun i => [.moved 1, .interrupted, .moved 7].getD i .zero) 3 =
      .done (some ⟨3, [some 0, some 1, some 2, none], 3⟩) := by decide

/-! ## The same transfer by what is left -/

namespace Retry

variable {ω : Type} {move : ω → Nat → Nat → Option ω} {count : Nat} {Moved : Nat → ω → Prop}

/-- The loop of `Transfer` after the same answers: it counts down what this one counts up. -/
def toTransfer (count : Nat) (source : Bytes) (s : Retry ω) : Transfer :=
  ⟨count - s.totlen, source.take s.totlen, s.loop⟩

/-- The two loops return the same value and have moved the same bytes. -/
def SameEnd (Moved : Nat → ω → Prop) (source : Bytes) (e : RetryEnd ω) (t : TransferEnd) : Prop :=
  t.ret = e.ret ∧ ∃ n, t.moved = source.take n ∧ Moved n e.io

theorem test_refines {source : Bytes} {s : Retry ω} {script : Nat → CallResult} {k : Nat}
    {e : RetryEnd ω} (enough : count ≤ source.length)
    (hmoved : Moved s.totlen s.io)
    (loop : s.totlen ≠ count → after (turn move count) (.again s) script k = .done (some e) →
      SameEnd Moved source e
        (transferLoop (answers script k) (s.toTransfer count source) (source.drop s.totlen)))
    (h : after (turn move count) (test count s) script k = .done (some e)) :
    SameEnd Moved source e
      (transferLoop (answers script k) (s.toTransfer count source) (source.drop s.totlen)) := by
  by_cases hmore : s.totlen ≠ count
  · rw [test, if_pos hmore] at h
    exact loop hmore h
  · rw [test, if_neg hmore] at h
    have hall : s.totlen = count := not_not.mp hmore
    rw [after_done_start] at h
    cases h
    rw [transferLoop_done _ _ (by rw [toTransfer, hall, Nat.sub_self])]
    refine ⟨?_, s.totlen, rfl, hmoved⟩
    simp only [toTransfer, List.length_take]
    omega

/-- A call that moves bytes takes both loops on alike. -/
theorem toTransfer_moved {source : Bytes} {s : Retry ω} (enough : count ≤ source.length)
    (hlt : s.totlen < count) (n : Nat) (io : ω) :
    (s.toTransfer count source).call (source.drop s.totlen) (.moved n) =
      some (toTransfer count source ⟨s.totlen + min (n + 1) (s.request count), s.loop,
        s.totlen + min (n + 1) (s.request count), io⟩,
        source.drop (s.totlen + min (n + 1) (s.request count))) := by
  have hn : min (n + 1) (min (count - s.totlen) (source.drop s.totlen).length) =
      min (n + 1) (s.request count) := by
    rw [List.length_drop, request]
    omega
  have hpos : min (n + 1) (s.request count) ≠ 0 := by
    rw [request]
    omega
  rw [Transfer.call_moved (t := s.toTransfer count source) (source.drop s.totlen) hn hpos,
    List.drop_drop]
  simp only [toTransfer, List.take_add, Nat.sub_sub]

theorem again_refines {source : Bytes} (enough : count ≤ source.length)
    (hmove : ∀ n m w, Moved n w → n + m ≤ count → ∃ w', move w n m = some w' ∧ Moved (n + m) w')
    {s : Retry ω} {script : Nat → CallResult} {k : Nat} {e : RetryEnd ω}
    (hlt : s.totlen < count) (hplace : s.buf = s.totlen) (hmoved : Moved s.totlen s.io)
    (h : after (turn move count) (.again s) script k = .done (some e)) :
    SameEnd Moved source e
      (transferLoop (answers script k) (s.toTransfer count source) (source.drop s.totlen)) := by
  induction k generalizing s script with
  | zero => cases h
  | succ k ih =>
      rw [after_succ_start, Next.answer] at h
      have hleft : ¬ (s.toTransfer count source).left = 0 := by
        simp only [toTransfer]
        omega
      rw [answers_succ, transferLoop, if_neg hleft]
      cases ha : script 0 with
      | zero =>
          rw [ha, turn, after_done_start] at h
          cases h
          exact ⟨rfl, s.totlen, rfl, hmoved⟩
      | failed =>
          rw [ha, turn, after_done_start] at h
          cases h
          exact ⟨rfl, s.totlen, rfl, hmoved⟩
      | interrupted =>
          rw [ha, turn] at h
          by_cases hmany : s.loop + 1 > 20
          · rw [if_pos hmany, after_done_start] at h
            cases h
            have hcall : (s.toTransfer count source).call (source.drop s.totlen) .interrupted =
                none := if_pos hmany
            simp only [hcall]
            exact ⟨rfl, s.totlen, rfl, hmoved⟩
          · rw [if_neg hmany] at h
            have hcall : (s.toTransfer count source).call (source.drop s.totlen) .interrupted =
                some (toTransfer count source { s with loop := s.loop + 1 },
                  source.drop s.totlen) := if_neg hmany
            simp only [hcall]
            exact test_refines enough hmoved (fun _ h => ih hlt hplace hmoved h) h
      | moved n =>
          rw [ha] at h
          have hroom : s.totlen + min (n + 1) (s.request count) ≤ count := by
            rw [request]
            omega
          obtain ⟨io', hio', hmoved'⟩ := hmove s.totlen _ s.io hmoved hroom
          simp only [turn, hplace, hio'] at h
          simp only [toTransfer_moved enough hlt n io']
          exact test_refines enough hmoved'
            (fun hne h => ih (Nat.lt_of_le_of_ne hroom hne) rfl hmoved' h) h

end Retry

/-- On the same answers `tfnet_read` returns what `tfnetRead` returns and takes the same bytes. -/
theorem tfnetRead_refined {stream : Memory} {cells : Region UInt8} {count size k : Nat}
    {script : Nat → CallResult} {e : RetryEnd Received} (room : count ≤ cells.length)
    (enough : count ≤ size)
    (h : tfnetReadAfter stream cells count script k = .done (some e)) :
    let t := tfnetRead (answers script k) (stream.load 0 size) count
    t.ret = e.ret ∧ ∃ n, t.moved = (stream.load 0 size).take n ∧
      Received.Moved stream cells n e.io := by
  have hsize : count ≤ (stream.load 0 size).length := by rwa [Memory.load_length]
  have hstart : Received.Moved stream cells 0 ⟨cells, 0⟩ := ⟨rfl, rfl⟩
  exact @Retry.test_refines _ (Received.move stream) _ _ _ ⟨0, 0, 0, ⟨cells, 0⟩⟩ _ _ _ hsize hstart
    (fun hne h => Retry.again_refines hsize (Received.move_moved room)
      (Nat.pos_of_ne_zero (Ne.symm hne)) rfl hstart h) h

theorem tfnetWrite_refined {buf : Bytes} {k : Nat} {script : Nat → CallResult} {e : RetryEnd Bytes}
    (h : tfnetWriteAfter buf buf.length script k = .done (some e)) :
    let t := tfnetWrite (answers script k) buf
    t.ret = e.ret ∧ t.moved = e.io := by
  have hrun := @Retry.test_refines _ (sentMove buf) _ (fun n sent => sent = buf.take n) _ ⟨0, 0, 0, []⟩
    _ _ _ (Nat.le_refl _) rfl
    (fun hne h => Retry.again_refines (Nat.le_refl _) (sentMove_moved (Nat.le_refl _))
      (Nat.pos_of_ne_zero (Ne.symm hne)) rfl rfl h) h
  obtain ⟨hret, n, hmoved, hio⟩ := hrun
  exact ⟨hret, hmoved.trans hio.symm⟩

end Tflib.Socket
