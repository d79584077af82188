import Tflib.Nac.Response

/-! # The socket pair between the thread and the loop

`wait_response_thread` writes at one end and `message_response_handler` reads at
the other, call by call and in any interleaving. Neither side undoes what it has
moved when one of its transfers gives up, and the thread does not look at the
result of either write.
-/

namespace Tflib.Nac

open Tflib.Core Socket

/-! ## The two parties -/

/-- Where `wait_response_thread` is: in `msgrcv`, or in the write of the length
with `src` still to go, or in that of the message. `head` is what the first
write has put into the pipe. -/
inductive Writer
  | idle
  | header (t : Transfer) (src msg : Bytes)
  | body (head : Bytes) (t : Transfer) (src : Bytes)

/-- Where `message_response_handler` is with its reads. -/
inductive Reader
  | idle
  | header (t : Transfer)
  | body (t : Transfer)

/-- One answer to the thread's next `write`: where it stands then, and the bytes
that went into the pipe. -/
def Writer.call (w : Writer) (r : CallResult) : Writer × Bytes :=
  match w with
  | .idle => (.idle, [])
  | .header t src msg =>
      match t.call src r with
      | none => (.body t.moved (.start msg.length) msg, [])
      | some (t', src') =>
          (if t'.left = 0 then .body t'.moved (.start msg.length) msg else .header t' src' msg,
            t'.moved.drop t.moved.length)
  | .body head t src =>
      match t.call src r with
      | none => (.idle, [])
      | some (t', src') =>
          (if t'.left = 0 then .idle else .body head t' src', t'.moved.drop t.moved.length)

/-- The frame `buf` stands in `buffer`, or there is more of it to read. -/
def Reader.afterRead (t : Transfer) : Reader × Option Bytes :=
  if t.left = 0 then (.idle, some t.moved) else (.body t, none)

/-- One answer to the handler's next `read`: where it stands then, what stays in
the pipe, and the frame that is complete. -/
def Reader.call (rd : Reader) (pipe : Bytes) (r : CallResult) : Reader × Bytes × Option Bytes :=
  match rd with
  | .idle => (.idle, pipe, none)
  | .header t =>
      match t.call pipe r with
      | none => (.idle, pipe, none)
      | some (t', pipe') =>
          if t'.left = 0 then
            let (rd', frame) := Reader.afterRead (.start (net16 t'.moved).toNat)
            (rd', pipe', frame)
          else (.header t', pipe', none)
  | .body t =>
      match t.call pipe r with
      | none => (.idle, pipe, none)
      | some (t', pipe') =>
          let (rd', frame) := Reader.afterRead t'
          (rd', pipe', frame)

/-! ## The machine -/

structure PipeState where
  writer : Writer
  reader : Reader
  pipe : Bytes
  /-- the messages the thread has set out to write -/
  sent : List Bytes
  /-- the frames the handler has taken off the pipe -/
  taken : List Bytes

def PipeState.start : PipeState := ⟨.idle, .idle, [], [], []⟩

inductive PipeEvent
  /-- `msgrcv` returns -/
  | receive (msg : Option Bytes)
  | write (r : CallResult)
  /-- the loop dispatches the reading end -/
  | notify
  | read (r : CallResult)

def PipeState.step (s : PipeState) : PipeEvent → PipeState
  | .receive msg =>
      match waitResponse msg with
      | [head, data] =>
          { s with writer := .header (.start head.length) head data, sent := s.sent ++ [data] }
      | _ => s
  | .write r =>
      let (writer, bytes) := s.writer.call r
      { s with writer := writer, pipe := s.pipe ++ bytes }
  | .notify => { s with reader := .header (.start 2) }
  | .read r =>
      let (reader, pipe, frame) := s.reader.call s.pipe r
      { s with reader := reader, pipe := pipe, taken := s.taken ++ frame.toList }

/-- A party's next event comes when it is its turn; `msgrcv` returns no more than
it has room for, and a `read` of the empty pipe does not return. -/
def PipeState.Admits (s : PipeState) : PipeEvent → Prop
  | .receive msg => s.writer = .idle ∧ ∀ m, msg = some m → m.length ≤ Ipc.maxMqueueLen
  | .write _ => s.writer ≠ .idle
  | .notify => s.reader = .idle
  | .read r => s.reader ≠ .idle ∧ ∀ k, r = .moved k → s.pipe ≠ []

def pipeline : Machine PipeState PipeEvent where
  step := PipeState.step
  admits := PipeState.Admits

/-! ## Writing -/

namespace Writer

/-- What the pipe has been given of the frame under way. -/
def written : Writer → Bytes
  | .idle => []
  | .header t _ _ => t.moved
  | .body head t _ => head ++ t.moved

/-- The message under way, unless it was given up before its first byte. -/
def current : Writer → List Bytes
  | .idle => []
  | .header _ _ msg => [msg]
  | .body head t src => if head = [] then [] else [t.moved ++ src]

/-- A length that `wait_response_thread` passes on. -/
def Fits (msg : Bytes) : Prop := 24 ≤ msg.length ∧ msg.length ≤ Ipc.maxMqueueLen

/-- The frame is not complete, and its length was written either whole or not at all. -/
def Ok : Writer → Prop
  | .idle => True
  | .header t src msg => t.left = src.length ∧ src ≠ [] ∧ Fits msg ∧
      t.moved ++ src = host16 (UInt16.ofNat msg.length)
  | .body head t src => t.left = src.length ∧ src ≠ [] ∧ Fits (t.moved ++ src) ∧
      (head = [] ∧ t.moved = [] ∨ head = host16 (UInt16.ofNat (t.moved ++ src).length))

/-- The call may give up only on a frame that is still untouched, and nothing is written of a
message whose length was not. -/
def Clean (w : Writer) (r : CallResult) : Prop :=
  match w with
  | .idle => True
  | .header t src _ => t.call src r = none → t.moved = []
  | .body head t src =>
      match t.call src r with
      | none => head = []
      | some (t', _) => head ≠ [] ∨ t'.moved = []

theorem call_left {t t' : Transfer} {src src' : Bytes} {r : CallResult}
    (hleft : t.left = src.length) (h : t.call src r = some (t', src')) :
    t'.left = src'.length := by
  obtain ⟨happ, hsum, -⟩ := Transfer.call_conserves h
  have hlen := congrArg List.length happ
  simp only [List.length_append] at hlen
  omega

/-- The call makes its transfer return -1. -/
def GivesUp (w : Writer) (r : CallResult) : Prop :=
  match w with
  | .idle => False
  | .header t src _ => t.call src r = none
  | .body _ t src => t.call src r = none

/-- What an answer to `write` makes of the frame under way: it goes on, it is complete, or it is
given up before its first byte. -/
def Advances (w : Writer) (r : CallResult) (w' : Writer) (bytes : Bytes) : Prop :=
  w'.Ok ∧
    ((w'.written = w.written ++ bytes ∧ w'.current = w.current) ∨
      (∃ msg, w.current = [msg] ∧ w'.current = [] ∧ w'.written = [] ∧ Fits msg ∧
        w.written ++ bytes = frame16.encode msg) ∨
      (w.GivesUp r ∧ ∃ msg, w.current = [msg] ∧ w'.current = [] ∧ w'.written = [] ∧ bytes = [] ∧
        w.written = []))

theorem header_advances {t : Transfer} {src msg : Bytes} {r : CallResult}
    (ok : (header t src msg).Ok) (clean : (header t src msg).Clean r) :
    (header t src msg).Advances r ((header t src msg).call r).1 ((header t src msg).call r).2 := by
  obtain ⟨hleft, hsrc, hfits, hhead⟩ := ok
  have hpos : 0 < msg.length := by
    have := hfits.1
    omega
  simp only [call]
  cases hcall : t.call src r with
  | none =>
      have hmoved : t.moved = [] := clean hcall
      refine ⟨⟨rfl, List.length_pos_iff.mp hpos, by simpa [Transfer.start] using hfits, ?_⟩, ?_⟩
      · exact .inl ⟨hmoved, rfl⟩
      · exact .inr (.inr ⟨hcall, msg, rfl, by simp [current, hmoved],
          by simp [written, hmoved, Transfer.start], rfl, hmoved⟩)
  | some next =>
      obtain ⟨t', src'⟩ := next
      have hl := call_left hleft hcall
      obtain ⟨happ, -, hmoved⟩ := Transfer.call_conserves hcall
      dsimp only
      split
      · rename_i hdone
        have hnil : src' = [] := List.eq_nil_of_length_eq_zero (hl.symm.trans hdone)
        rw [hnil, List.append_nil, hhead] at happ
        have hne : t'.moved ≠ [] := by
          rw [happ]
          exact List.ne_nil_of_length_pos (by rw [host16_length]; omega)
        refine ⟨⟨rfl, List.length_pos_iff.mp hpos, hfits, .inr happ⟩, .inl ⟨?_, ?_⟩⟩
        · exact (List.append_nil _).trans hmoved
        · simp [current, hne, Transfer.start]
      · rename_i hmore
        refine ⟨⟨hl, ?_, hfits, happ.trans hhead⟩, .inl ⟨hmoved, rfl⟩⟩
        intro hnil
        rw [hnil] at hl
        exact hmore hl

theorem body_advances {head : Bytes} {t : Transfer} {src : Bytes} {r : CallResult}
    (ok : (body head t src).Ok) (clean : (body head t src).Clean r) :
    (body head t src).Advances r ((body head t src).call r).1 ((body head t src).call r).2 := by
  obtain ⟨hleft, hsrc, hfits, hhead⟩ := ok
  simp only [call]
  simp only [Clean] at clean
  cases hcall : t.call src r with
  | none =>
      rw [hcall] at clean
      have hhead' : head = [] := clean
      have hmoved : t.moved = [] := by
        rcases hhead with h | h
        · exact h.2
        · exact absurd (congrArg List.length (h.symm.trans hhead')) (by simp)
      exact ⟨trivial, .inl ⟨by simp [written, hhead', hmoved], by simp [current, hhead']⟩⟩
  | some next =>
      obtain ⟨t', src'⟩ := next
      have hl := call_left hleft hcall
      obtain ⟨happ, -, hmoved⟩ := Transfer.call_conserves hcall
      rw [hcall] at clean
      have hclean : head ≠ [] ∨ t'.moved = [] := clean
      dsimp only
      split
      · rename_i hdone
        have hnil : src' = [] := List.eq_nil_of_length_eq_zero (hl.symm.trans hdone)
        rw [hnil, List.append_nil] at happ
        have hne : t.moved ++ src ≠ [] := by
          intro h
          exact hsrc (List.append_eq_nil_iff.mp h).2
        have hhead' : head ≠ [] := hclean.resolve_right (happ ▸ hne)
        have hlen := hhead.resolve_left fun h => hhead' h.1
        refine ⟨trivial, .inr (.inl ⟨t.moved ++ src, ?_, rfl, rfl, hfits, ?_⟩)⟩
        · exact if_neg hhead'
        · have hlt : (t.moved ++ src).length < 65536 := Nat.lt_of_le_of_lt hfits.2 (by decide)
          rw [written, List.append_assoc, ← hmoved, happ, hlen, frame16_encode hlt]
      · rename_i hmore
        refine ⟨⟨hl, ?_, happ.symm ▸ hfits, ?_⟩, .inl ⟨?_, ?_⟩⟩
        · intro hnil
          rw [hnil] at hl
          exact hmore hl
        · rw [happ]
          rcases hhead with h | h
          · exact .inl ⟨h.1, hclean.resolve_left (not_not.mpr h.1)⟩
          · exact .inr h
        · exact (congrArg (head ++ ·) hmoved).trans (List.append_assoc _ _ _).symm
        · simp only [current, happ]

theorem call_advances {w : Writer} {r : CallResult} (ok : w.Ok) (clean : w.Clean r) :
    w.Advances r (w.call r).1 (w.call r).2 := by
  cases w with
  | idle => exact ⟨trivial, .inl ⟨rfl, rfl⟩⟩
  | header t src msg => exact header_advances ok clean
  | body head t src => exact body_advances ok clean

/-- An incomplete frame cannot be taken off the pipe. -/
theorem Ok.next? {w : Writer} (ok : w.Ok) : frame16.next? w.written = none := by
  have hempty : frame16.next? [] = none := frame16.next?_eq_none.mpr (.inl (by decide))
  cases w with
  | idle => exact hempty
  | header t src msg =>
      obtain ⟨-, hsrc, -, hhead⟩ := ok
      have hlen := congrArg List.length hhead
      have hpos := List.length_pos_iff.mpr hsrc
      rw [List.length_append, host16_length] at hlen
      refine frame16.next?_eq_none.mpr (.inl ?_)
      change t.moved.length < 2
      omega
  | body head t src =>
      obtain ⟨-, hsrc, hfits, hhead⟩ := ok
      rcases hhead with h | h
      · rw [written, h.1, h.2]
        exact hempty
      · have hlt : (t.moved ++ src).length < 65536 := Nat.lt_of_le_of_lt hfits.2 (by decide)
        have hpos := List.length_pos_iff.mpr hsrc
        refine frame16.next?_eq_none_of_prefix hlt ?_ ?_
        · rw [frame16_encode hlt, ← h]
          exact ⟨src, List.append_assoc _ _ _⟩
        · rw [frame16_encode hlt, ← h, written]
          simp only [List.length_append]
          omega

/-- The length of the message under way went into the pipe. -/
def Whole (w : Writer) : Prop := ∀ head t src, w = .body head t src → head ≠ []

theorem Whole.clean {w : Writer} (whole : w.Whole) {r : CallResult} (steady : ¬ w.GivesUp r) :
    w.Clean r := by
  cases w with
  | idle => trivial
  | header t src msg => exact fun h => absurd h steady
  | body head t src =>
      simp only [Clean]
      cases hcall : t.call src r with
      | none => exact absurd hcall steady
      | some next => exact .inl (whole head t src rfl)

theorem Whole.call {w : Writer} (ok : w.Ok) (whole : w.Whole) {r : CallResult}
    (steady : ¬ w.GivesUp r) : (w.call r).1.Whole := by
  cases w with
  | idle => exact whole
  | header t src msg =>
      obtain ⟨hleft, -, -, hhead⟩ := ok
      simp only [Writer.call]
      cases hcall : t.call src r with
      | none => exact absurd hcall steady
      | some next =>
          obtain ⟨t', src'⟩ := next
          have hl := call_left hleft hcall
          have happ := (Transfer.call_conserves hcall).1
          dsimp only
          split
          · rename_i hdone
            have hnil : src' = [] := List.eq_nil_of_length_eq_zero (hl.symm.trans hdone)
            rw [hnil, List.append_nil, hhead] at happ
            intro head t₁ src₁ heq
            cases heq
            rw [happ]
            exact List.ne_nil_of_length_pos (by rw [host16_length]; omega)
          · intro head t₁ src₁ heq
            contradiction
  | body head t src =>
      simp only [Writer.call]
      cases hcall : t.call src r with
      | none => exact absurd hcall steady
      | some next =>
          dsimp only
          split
          · intro head t₁ src₁ heq
            contradiction
          · intro head₁ t₁ src₁ heq
            cases heq
            exact whole head t src rfl

end Writer

/-! ## Reading -/

namespace Reader

/-- What has left the pipe of the frame that is being read. -/
def consumed : Reader → Bytes
  | .idle => []
  | .header t => t.moved
  | .body t => host16 (UInt16.ofNat (t.moved.length + t.left)) ++ t.moved

def Ok : Reader → Prop
  | .idle => True
  | .header t => t.moved.length + t.left = 2
  | .body t => t.moved.length + t.left < 65536

/-- The call may give up only before the first byte of a frame. -/
def Clean (rd : Reader) (pipe : Bytes) (r : CallResult) : Prop :=
  match rd with
  | .idle => True
  | .header t => t.call pipe r = none → t.moved = []
  | .body t => t.call pipe r ≠ none

def GivesUp (rd : Reader) (pipe : Bytes) (r : CallResult) : Prop :=
  match rd with
  | .idle => False
  | .header t => t.call pipe r = none
  | .body t => t.call pipe r = none

theorem clean_of_steady {rd : Reader} {pipe : Bytes} {r : CallResult}
    (steady : ¬ rd.GivesUp pipe r) : rd.Clean pipe r := by
  cases rd with
  | idle => trivial
  | header t => exact fun h => absurd h steady
  | body t => exact steady

theorem afterRead_cases {t : Transfer} (pipe : Bytes) (h : t.moved.length + t.left < 65536) :
    let (rd, frame) := afterRead t
    let stream := host16 (UInt16.ofNat (t.moved.length + t.left)) ++ t.moved ++ pipe
    rd.Ok ∧
      ((frame = none ∧ rd.consumed ++ pipe = stream) ∨
        (∃ m, frame = some m ∧ rd = .idle ∧ m.length < 65536 ∧
          stream = frame16.encode m ++ pipe)) := by
  unfold afterRead
  by_cases hleft : t.left = 0
  · rw [if_pos hleft]
    refine ⟨trivial, .inr ⟨t.moved, rfl, rfl, by omega, ?_⟩⟩
    rw [hleft, Nat.add_zero, frame16_encode (by omega)]
  · rw [if_neg hleft]
    exact ⟨h, .inl ⟨rfl, rfl⟩⟩

/-- One clean call reads on, or completes the frame that the pipe starts with. -/
theorem call_cases {rd : Reader} {pipe : Bytes} {r : CallResult} (ok : rd.Ok)
    (clean : rd.Clean pipe r) :
    let (rd', pipe', frame) := rd.call pipe r
    rd'.Ok ∧
      ((frame = none ∧ rd'.consumed ++ pipe' = rd.consumed ++ pipe) ∨
        (∃ m, frame = some m ∧ rd' = .idle ∧ m.length < 65536 ∧
          rd.consumed ++ pipe = frame16.encode m ++ pipe')) := by
  cases rd with
  | idle => exact ⟨trivial, .inl ⟨rfl, rfl⟩⟩
  | header t =>
      simp only [call]
      cases hcall : t.call pipe r with
      | none =>
          have hmoved : t.moved = [] := clean hcall
          exact ⟨trivial, .inl ⟨rfl, by simp [consumed, hmoved]⟩⟩
      | some next =>
          obtain ⟨t', pipe'⟩ := next
          obtain ⟨happ, hsum, -⟩ := Transfer.call_conserves hcall
          have hwidth : t'.moved.length + t'.left = 2 := hsum.trans ok
          dsimp only
          by_cases hleft : t'.left = 0
          · rw [if_pos hleft]
            have hlen : t'.moved.length = 2 := by omega
            have hstart := afterRead_cases (t := .start (net16 t'.moved).toNat) pipe' (by
              simp only [Transfer.start, List.length_nil, Nat.zero_add]
              exact (net16 t'.moved).toNat_lt)
            have hstream : host16 (UInt16.ofNat (net16 t'.moved).toNat) = t'.moved := by
              rw [UInt16.ofNat_toNat, host16_net16 hlen]
            simp only [Transfer.start, List.length_nil, Nat.zero_add, List.append_nil, hstream,
              happ] at hstart
            exact hstart
          · rw [if_neg hleft]
            exact ⟨hwidth, .inl ⟨rfl, happ⟩⟩
  | body t =>
      simp only [call]
      cases hcall : t.call pipe r with
      | none => exact absurd hcall clean
      | some next =>
          obtain ⟨t', pipe'⟩ := next
          obtain ⟨happ, hsum, -⟩ := Transfer.call_conserves hcall
          have hbound : t'.moved.length + t'.left < 65536 := by
            rw [hsum]
            exact ok
          have hread := afterRead_cases pipe' hbound
          rw [hsum, List.append_assoc, happ, ← List.append_assoc] at hread
          exact hread

end Reader

/-! ## Whole runs -/

namespace PipeState

def GivesUp (s : PipeState) : PipeEvent → Prop
  | .write r => s.writer.GivesUp r
  | .read r => s.reader.GivesUp s.pipe r
  | _ => False

def Clean (s : PipeState) : PipeEvent → Prop
  | .write r => s.writer.Clean r
  | .read r => s.reader.Clean s.pipe r
  | _ => True

/-- `frames` are in the pipe, before what there is of the frame under way, and with what was taken
and what is under way they make up `sent` in the sense of `R`. -/
structure Inv (R : List Bytes → List Bytes → Prop) (s : PipeState) (frames : List Bytes) : Prop where
  stream : s.reader.consumed ++ s.pipe =
    (frames.map frame16.encode).flatten ++ s.writer.written
  fits : ∀ m ∈ s.taken ++ frames, Writer.Fits m
  writer : s.writer.Ok
  reader : s.reader.Ok
  history : R (s.taken ++ frames ++ s.writer.current) s.sent

variable {R : List Bytes → List Bytes → Prop} {s : PipeState} {frames : List Bytes}

theorem Inv.receive (h : Inv R s frames) (grow : ∀ x y m, R x y → R (x ++ [m]) (y ++ [m]))
    {msg : Option Bytes} (admitted : s.Admits (.receive msg)) :
    Inv R (s.step (.receive msg)) frames := by
  obtain ⟨hidle, hbound⟩ := admitted
  rcases waitResponse_cases msg with ⟨m, rfl, hm, hbufs⟩ | ⟨-, hbufs⟩
  · have hstream := h.stream
    have hhistory := h.history
    rw [hidle] at hstream hhistory
    simp only [step, hbufs]
    refine ⟨hstream, h.fits, ⟨?_, ?_, ⟨hm, hbound m rfl⟩, rfl⟩, h.reader, ?_⟩
    · rw [Transfer.start]
    · exact List.ne_nil_of_length_pos (by rw [host16_length]; omega)
    · rw [Writer.current, List.append_nil] at hhistory
      exact grow _ _ m hhistory
  · simp only [step, hbufs]
    exact h

theorem Inv.write (h : Inv R s frames) {r : CallResult}
    (drop : s.GivesUp (.write r) → ∀ x y m, R (x ++ [m]) y → R x y)
    (clean : s.Clean (.write r)) : ∃ frames', Inv R (s.step (.write r)) frames' := by
  have hadvances := Writer.call_advances h.writer clean
  have hstream := h.stream
  have hhistory := h.history
  rcases hcall : s.writer.call r with ⟨w', bytes⟩
  rw [hcall] at hadvances
  dsimp only at hadvances
  simp only [step, hcall]
  obtain ⟨hok, ⟨hwritten, hcurrent⟩ | ⟨msg, hcurrent, hnone, hnil, hfits, hframe⟩ |
    ⟨hgives, msg, hcurrent, hnone, hnil, hbytes, hwritten⟩⟩ := hadvances
  · refine ⟨frames, ?_, h.fits, hok, h.reader, ?_⟩
    · rw [← List.append_assoc, hstream, hwritten, List.append_assoc]
    · rw [hcurrent]
      exact hhistory
  · refine ⟨frames ++ [msg], ?_, ?_, hok, h.reader, ?_⟩
    · rw [← List.append_assoc, hstream, List.append_assoc, hframe, hnil]
      simp
    · intro m hm
      rw [← List.append_assoc, List.mem_append, List.mem_singleton] at hm
      rcases hm with hm | hm
      · exact h.fits m hm
      · rw [hm]
        exact hfits
    · rw [hcurrent] at hhistory
      rw [hnone, List.append_nil, ← List.append_assoc]
      exact hhistory
  · refine ⟨frames, ?_, h.fits, hok, h.reader, ?_⟩
    · rw [hbytes, hnil, List.append_nil, hstream, hwritten]
    · rw [hcurrent] at hhistory
      rw [hnone, List.append_nil]
      exact drop hgives _ _ msg hhistory

theorem Inv.notify (h : Inv R s frames) (admitted : s.Admits .notify) :
    Inv R (s.step .notify) frames := by
  have hidle : s.reader = .idle := admitted
  have hstream := h.stream
  rw [hidle] at hstream
  exact ⟨hstream, h.fits, h.writer, rfl, h.history⟩

theorem Inv.read (h : Inv R s frames) {r : CallResult} (clean : s.Clean (.read r)) :
    ∃ frames', Inv R (s.step (.read r)) frames' := by
  have hcases := Reader.call_cases h.reader clean
  have hstream := h.stream
  have hhistory := h.history
  rcases hcall : s.reader.call s.pipe r with ⟨rd', pipe', frame⟩
  rw [hcall] at hcases
  simp only [step, hcall]
  obtain ⟨hok, ⟨rfl, hsame⟩ | ⟨m, rfl, rfl, hlt, hframe⟩⟩ := hcases
  · refine ⟨frames, hsame.trans hstream, ?_, h.writer, hok, ?_⟩
    · rw [Option.toList_none, List.append_nil]
      exact h.fits
    · rw [Option.toList_none, List.append_nil]
      exact hhistory
  · have hlimit : ∀ g ∈ frames, g.length < frame16.limit := fun g hg =>
      Nat.lt_of_le_of_lt (h.fits g (List.mem_append_right _ hg)).2 (by decide)
    obtain ⟨frames', rfl, hrest⟩ := frame16.head_of_frames hlt hlimit h.writer.next?
      (hframe.symm.trans hstream)
    refine ⟨frames', hrest, ?_, h.writer, hok, ?_⟩
    · intro g hg
      refine h.fits g ?_
      simpa using hg
    · simpa using hhistory

/-- The messages of at least 24 bytes that `msgrcv` returned, in order. -/
def messages (es : List PipeEvent) : List Bytes :=
  es.filterMap fun e =>
    match e with
    | .receive (some m) => if 24 ≤ m.length then some m else none
    | _ => none

theorem messages_receive_of_long {m : Bytes} (h : 24 ≤ m.length) :
    messages [.receive (some m)] = [m] := by
  simp [messages, h]

theorem messages_receive_of_short {msg : Option Bytes} (h : ∀ m, msg = some m → m.length < 24) :
    messages [.receive msg] = [] := by
  cases msg with
  | none => rfl
  | some m =>
      have hm := h m rfl
      have hlong : ¬ 24 ≤ m.length := by omega
      simp [messages, hlong]

theorem sent_step (s : PipeState) (e : PipeEvent) : (s.step e).sent = s.sent ++ messages [e] := by
  cases e with
  | receive msg =>
      rcases waitResponse_cases msg with ⟨m, rfl, hm, hbufs⟩ | ⟨hshort, hbufs⟩
      · simp only [step, hbufs, messages_receive_of_long hm]
      · simp only [step, hbufs, messages_receive_of_short hshort, List.append_nil]
  | write r => simp [step, messages]
  | notify => simp [step, messages]
  | read r => simp [step, messages]

theorem sent_of_runs {s t : PipeState} {es : List PipeEvent} (h : pipeline.Runs s es t) :
    t.sent = s.sent ++ messages es := by
  induction h with
  | nil s => simp [messages]
  | cons _ _ ih =>
      rw [ih]
      change (step _ _).sent ++ _ = _
      rw [sent_step, List.append_assoc]
      congr 1
      simp only [messages, ← List.filterMap_append, List.singleton_append]

theorem Inv.start (hR : R [] []) : Inv R start [] :=
  ⟨rfl, by simp [PipeState.start], trivial, trivial, hR⟩

/-- Every clean run: what is taken off is a subsequence of what was received. -/
theorem inv_of_clean {s : PipeState} (h : (pipeline.restrict Clean).Reaches start s) :
    ∃ frames, Inv List.Sublist s frames := by
  have grow : ∀ x y : List Bytes, ∀ m, x.Sublist y → (x ++ [m]).Sublist (y ++ [m]) :=
    fun _ _ m h => h.append (List.Sublist.refl [m])
  have drop : ∀ x : List Bytes, ∀ m y, (x ++ [m]).Sublist y → x.Sublist y :=
    fun x m _ h => (List.sublist_append_left x [m]).trans h
  refine h.invariant (I := fun s => ∃ frames, Inv List.Sublist s frames) ?_
    ⟨[], .start (List.Sublist.refl [])⟩
  intro s e hinv admitted
  obtain ⟨frames, hs⟩ := hinv
  obtain ⟨admitted, clean⟩ := admitted
  cases e with
  | receive msg => exact ⟨frames, hs.receive grow admitted⟩
  | write r => exact hs.write (fun _ x y m => drop x m y) clean
  | notify => exact ⟨frames, hs.notify admitted⟩
  | read r => exact hs.read clean

/-- Every run without a failed transfer: nothing is missing either. -/
theorem inv_of_steady {s : PipeState}
    (h : (pipeline.restrict fun s e => ¬ s.GivesUp e).Reaches start s) :
    ∃ frames, Inv Eq s frames := by
  suffices hs : (∃ frames, Inv Eq s frames) ∧ s.writer.Whole from hs.1
  have grow : ∀ x y : List Bytes, ∀ m, x = y → x ++ [m] = y ++ [m] := fun _ _ m h => by rw [h]
  refine h.invariant (I := fun s => (∃ frames, Inv Eq s frames) ∧ s.writer.Whole) ?_
    ⟨⟨[], .start rfl⟩, by intro head t src heq; contradiction⟩
  intro s e hinv admitted
  obtain ⟨⟨frames, hs⟩, whole⟩ := hinv
  obtain ⟨admitted, steady⟩ := admitted
  cases e with
  | receive msg =>
      refine ⟨⟨frames, hs.receive grow admitted⟩, ?_⟩
      change (step s (.receive msg)).writer.Whole
      simp only [step]
      split
      · intro head t src heq
        contradiction
      · exact whole
  | write r =>
      exact ⟨hs.write (fun hgives => absurd hgives steady) (whole.clean steady),
        whole.call hs.writer steady⟩
  | notify => exact ⟨⟨frames, hs.notify admitted⟩, whole⟩
  | read r => exact ⟨hs.read (Reader.clean_of_steady steady), whole⟩

end PipeState

open PipeState in
/-- While a transfer gives up only on an untouched frame, what the handler takes off the pipe is a
subsequence of the long messages, each of them whole and within `buffer`. While none gives up, it
is all of them. -/
theorem pipe_frames {es : List PipeEvent} {s : PipeState} :
    ((pipeline.restrict Clean).Runs start es s →
      s.taken.Sublist (messages es) ∧
        ∀ m ∈ s.taken, 24 ≤ m.length ∧ m.length ≤ Ipc.maxMqueueLen) ∧
    ((pipeline.restrict fun s e => ¬ s.GivesUp e).Runs start es s →
      s.taken <+: messages es ∧
        (s.writer = .idle → s.reader = .idle → s.pipe = [] → s.taken = messages es)) := by
  constructor
  · intro h
    obtain ⟨frames, hs⟩ := inv_of_clean ⟨es, h⟩
    have hsent : s.sent = messages es := sent_of_runs h.of_restrict
    refine ⟨?_, fun m hm => hs.fits m (List.mem_append_left _ hm)⟩
    rw [← hsent]
    refine List.Sublist.trans ?_ hs.history
    rw [List.append_assoc]
    exact List.sublist_append_left _ _
  · intro h
    obtain ⟨frames, hs⟩ := inv_of_steady ⟨es, h⟩
    have hsent : s.sent = messages es := sent_of_runs h.of_restrict
    have hhistory := hs.history
    rw [hsent, List.append_assoc] at hhistory
    refine ⟨⟨_, hhistory⟩, ?_⟩
    intro hwriter hreader hpipe
    have hstream := hs.stream
    rw [hwriter, hreader, hpipe] at hstream
    have hframes : frames = [] := by
      cases frames with
      | nil => rfl
      | cons g frames =>
          have hlen := congrArg List.length hstream
          simp [Reader.consumed, width_frame16] at hlen
          omega
    rw [hwriter, hframes] at hhistory
    simpa [Writer.current] using hhistory

theorem admits_receive {s : PipeState} {data : Bytes} (idle : s.writer = .idle)
    (high : data.length ≤ Ipc.maxMqueueLen) : s.Admits (.receive (some data)) := by
  refine ⟨idle, ?_⟩
  intro m hm
  cases hm
  exact high

/-- One message in pieces and with an interruption, after an error and a quit token. -/
def oneMessage : List PipeEvent :=
  [.receive none, .receive (some [48, 48, 48, 48]), .receive (some (List.replicate 24 1)),
    .write (.moved 0), .write .interrupted, .write (.moved 0), .notify, .read (.moved 9),
    .write (.moved 9), .read (.moved 4), .write (.moved 99), .read (.moved 99)]

theorem oneMessage_runs : (pipeline.restrict fun s e => ¬ s.GivesUp e).Runs .start oneMessage
    (oneMessage.foldl PipeState.step .start) := by
  refine .cons ⟨⟨rfl, nofun⟩, not_false⟩ ?_
  refine .cons ⟨admits_receive rfl (by decide), not_false⟩ ?_
  refine .cons ⟨admits_receive rfl (by decide), not_false⟩ ?_
  refine .cons ⟨nofun, nofun⟩ ?_
  refine .cons ⟨nofun, nofun⟩ ?_
  refine .cons ⟨nofun, nofun⟩ ?_
  refine .cons ⟨rfl, not_false⟩ ?_
  refine .cons ⟨⟨nofun, nofun⟩, nofun⟩ ?_
  refine .cons ⟨nofun, nofun⟩ ?_
  refine .cons ⟨⟨nofun, nofun⟩, nofun⟩ ?_
  refine .cons ⟨nofun, nofun⟩ ?_
  refine .cons ⟨⟨nofun, nofun⟩, nofun⟩ ?_
  exact .nil _

/-- The first message is given up untouched, the second gets through. -/
def oneSkipped : List PipeEvent :=
  [.receive (some (List.replicate 24 1)), .write .failed, .write .failed,
    .receive (some (List.replicate 24 2)), .write (.moved 1), .write (.moved 99), .notify,
    .read (.moved 1), .read (.moved 99)]

theorem oneSkipped_runs : (pipeline.restrict PipeState.Clean).Runs .start oneSkipped
    (oneSkipped.foldl PipeState.step .start) := by
  refine .cons ⟨admits_receive rfl (by decide), trivial⟩ ?_
  refine .cons ⟨nofun, fun _ => rfl⟩ ?_
  refine .cons ⟨nofun, rfl⟩ ?_
  refine .cons ⟨admits_receive rfl (by decide), trivial⟩ ?_
  refine .cons ⟨nofun, nofun⟩ ?_
  refine .cons ⟨nofun, .inl (by decide)⟩ ?_
  refine .cons ⟨rfl, trivial⟩ ?_
  refine .cons ⟨⟨nofun, nofun⟩, nofun⟩ ?_
  refine .cons ⟨⟨nofun, nofun⟩, nofun⟩ ?_
  exact .nil _

theorem pipe_frames_examples :
    (oneSkipped.foldl PipeState.step .start).taken.Sublist
      [List.replicate 24 1, List.replicate 24 2] ∧
    (oneMessage.foldl PipeState.step .start).taken = [List.replicate 24 1] :=
  ⟨(pipe_frames.1 oneSkipped_runs).1, (pipe_frames.2 oneMessage_runs).2 rfl rfl rfl⟩

/-- The body of the first message fails after its length was written. -/
def lostBody : List PipeEvent :=
  [.receive (some (List.replicate 24 1)), .write (.moved 1), .write .failed,
    .receive (some (List.replicate 24 2)), .write (.moved 1), .write (.moved 99), .notify,
    .read (.moved 1), .read (.moved 99)]

/-- The handler then takes a frame that nobody sent. -/
theorem lostBody_breaks : pipeline.Runs .start lostBody (lostBody.foldl PipeState.step .start) ∧
    (lostBody.foldl PipeState.step .start).taken = [0 :: 24 :: List.replicate 22 2] ∧
    ¬ (lostBody.foldl PipeState.step .start).taken.Sublist (PipeState.messages lostBody) := by
  refine ⟨?_, by decide, by decide⟩
  refine .cons (admits_receive rfl (by decide)) ?_
  refine .cons nofun ?_
  refine .cons nofun ?_
  refine .cons (admits_receive rfl (by decide)) ?_
  refine .cons nofun ?_
  refine .cons nofun ?_
  refine .cons rfl ?_
  refine .cons ⟨nofun, nofun⟩ ?_
  refine .cons ⟨nofun, nofun⟩ ?_
  exact .nil _

end Tflib.Nac
