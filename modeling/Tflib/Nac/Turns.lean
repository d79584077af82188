import Tflib.Nac.Pipe

/-! # Whole turns on the pipe

A turn of the thread's loop makes its two writes to the end, and a run of the
handler its two reads. Each of them is a run of the machine that works call by
call, so what holds of every interleaving of calls holds of these turns.
-/

namespace Tflib.Nac

open Tflib.Core Socket

/-- A machine that carries a transfer along goes through it call by call. -/
theorem runs_of_steps {σ ε : Type} {M : Machine σ ε} (busy ended : Transfer → Bytes → σ)
    {call : CallResult → ε}
    (admits : ∀ t source r, (∀ k, r = .moved k → source ≠ []) →
      M.admits (busy t source) (call r))
    (gaveUp : ∀ t source r, t.left ≠ 0 → t.call source r = none →
      M.step (busy t source) (call r) = ended t source)
    (last : ∀ t source r t' rest, t.call source r = some (t', rest) → t'.left = 0 →
      M.step (busy t source) (call r) = ended t' rest)
    (more : ∀ t source r t' rest, t.call source r = some (t', rest) → t'.left ≠ 0 →
      M.step (busy t source) (call r) = busy t' rest)
    {t u : Transfer} {source rest : Bytes} {rs : List CallResult}
    (h : t.Steps source rs u rest) : M.Runs (busy t source) (rs.map call) (ended u rest) := by
  induction h with
  | gaveUp hbusy hmoved hcall =>
      rw [← gaveUp _ _ _ hbusy hcall]
      exact .single (admits _ _ _ hmoved)
  | last hbusy hmoved hcall hdone =>
      rw [← last _ _ _ _ _ hcall hdone]
      exact .single (admits _ _ _ hmoved)
  | more hbusy hmoved hcall hmore _ ih =>
      refine .cons (admits _ _ _ hmoved) ?_
      rw [more _ _ _ _ _ hcall hmore]
      exact ih

namespace PipeState

/-! ## The handler -/

/-- Where the read of the length leaves the handler. -/
def headerRead (s : PipeState) (t : Transfer) (pipe : Bytes) : PipeState :=
  if t.left = 0 then
    let (reader, frame) := Reader.afterRead (.start (net16 t.moved).toNat)
    { s with reader := reader, pipe := pipe, taken := s.taken ++ frame.toList }
  else { s with reader := .idle, pipe := pipe }

/-- Where the read of the message leaves it. -/
def bodyRead (s : PipeState) (t : Transfer) (pipe : Bytes) : PipeState :=
  { s with
    reader := .idle
    pipe := pipe
    taken := s.taken ++ (if t.left = 0 then [t.moved] else []) }

theorem runs_headerRead (s : PipeState) {t u : Transfer} {pipe rest : Bytes}
    {rs : List CallResult} (h : t.Steps pipe rs u rest) :
    pipeline.Runs { s with reader := .header t, pipe := pipe } (rs.map .read)
      (s.headerRead u rest) := by
  refine runs_of_steps (fun t pipe => { s with reader := .header t, pipe := pipe })
    s.headerRead ?_ ?_ ?_ ?_ h
  · exact fun t pipe r hmoved => ⟨nofun, hmoved⟩
  · intro t pipe r hbusy hcall
    simp [pipeline, step, Reader.call, hcall, headerRead, hbusy]
  · intro t pipe r t' rest hcall hdone
    simp [pipeline, step, Reader.call, hcall, headerRead, hdone]
  · intro t pipe r t' rest hcall hmore
    simp [pipeline, step, Reader.call, hcall, hmore]

theorem runs_bodyRead (s : PipeState) {t u : Transfer} {pipe rest : Bytes}
    {rs : List CallResult} (h : t.Steps pipe rs u rest) :
    pipeline.Runs { s with reader := .body t, pipe := pipe } (rs.map .read)
      (s.bodyRead u rest) := by
  refine runs_of_steps (fun t pipe => { s with reader := .body t, pipe := pipe })
    s.bodyRead ?_ ?_ ?_ ?_ h
  · exact fun t pipe r hmoved => ⟨nofun, hmoved⟩
  · intro t pipe r hbusy hcall
    simp [pipeline, step, Reader.call, hcall, bodyRead, hbusy]
  · intro t pipe r t' rest hcall hdone
    simp [pipeline, step, Reader.call, Reader.afterRead, hcall, bodyRead, hdone]
  · intro t pipe r t' rest hcall hmore
    simp [pipeline, step, Reader.call, Reader.afterRead, hcall, hmore]

/-- The end of the read of `len` bytes. -/
def bodyEnd (s : PipeState) (len : Nat) (body : TransferEnd) : PipeState :=
  { s with
    reader := .idle
    pipe := body.rest
    taken := s.taken ++ (if body.ret = len then [body.moved] else []) }

/-- The read of the `len` bytes after the length. -/
theorem runs_body (s : PipeState) (script : List CallResult) (len : Nat) :
    ∃ rs : List CallResult, pipeline.Runs
      { s with
        reader := (Reader.afterRead (.start len)).1
        taken := s.taken ++ (Reader.afterRead (.start len)).2.toList } (rs.map .read)
      (s.bodyEnd len (tfnetRead script s.pipe len)) := by
  by_cases hzero : len = 0
  · subst hzero
    rw [tfnetRead, transferLoop_done script s.pipe rfl]
    exact ⟨[], .nil _⟩
  · obtain ⟨rs, u, hsteps, hmoved, hfull⟩ := tfnetRead_steps script s.pipe hzero
    refine ⟨rs, ?_⟩
    have hruns := s.runs_bodyRead hsteps
    have hstart : Reader.afterRead (.start len) = (.body (.start len), none) := if_neg hzero
    rw [hstart, Option.toList_none, List.append_nil, bodyEnd]
    simp only [bodyRead, hmoved, hfull] at hruns
    exact hruns

/-- A run of the handler, as far as it reads. -/
theorem takeResponse_runs {s : PipeState} {w : World} {fd : Nat} (io : Calls)
    (idle : s.reader = .idle) (hpipe : w.kernel.inbox fd = s.pipe) :
    ∃ rs : List CallResult, pipeline.Runs s (.notify :: rs.map .read)
      { s with
        pipe := (takeResponse io fd w).1.kernel.inbox fd
        taken := s.taken ++ ((takeResponse io fd w).2.map fun len =>
          (takeResponse io fd w).1.mgr.mem.load (bufferAt 0) len.toNat).toList } := by
  obtain ⟨rs, u, hsteps, hmoved, hfull⟩ := tfnetRead_steps io.reads s.pipe
    (show 2 ≠ 0 by omega)
  have hhead := s.runs_headerRead hsteps
  have hnotify : pipeline.Runs s [.notify] { s with reader := .header (.start 2) } :=
    .single idle
  unfold takeResponse
  simp only [hpipe, Kernel.inbox_leave]
  by_cases hret : (tfnetRead io.reads s.pipe 2).ret = 2
  · rw [headerRead, if_pos (hfull.mpr hret), hmoved] at hhead
    obtain ⟨rs', hbody⟩ := runs_body { s with pipe := (tfnetRead io.reads s.pipe 2).rest }
      (tfnetRead io.reads s.pipe 2).script (net16 (tfnetRead io.reads s.pipe 2).moved).toNat
    refine ⟨rs ++ rs', ?_⟩
    have hruns := hnotify.append (hhead.append hbody)
    rw [← List.map_append] at hruns
    simp only [hret, ne_eq, not_true_eq_false, if_false]
    rw [bodyEnd, ← idle] at hruns
    generalize tfnetRead io.reads s.pipe 2 = head at hruns ⊢
    have hcases := tfnetRead_cases head.script head.rest (net16 head.moved).toNat
    generalize tfnetRead head.script head.rest (net16 head.moved).toNat = body at hruns hcases ⊢
    by_cases hall : body.ret = (net16 head.moved).toNat
    · have hlen : body.moved.length = (net16 head.moved).toNat := by
        rcases hcases with ⟨-, htake, -, henough⟩ | ⟨hfailed, -⟩
        · rw [htake, List.length_take, Nat.min_eq_left henough]
        · omega
      have hload := Memory.load_store_self w.mgr.mem (bufferAt 0) body.moved
      rw [hlen] at hload
      simp only [hall, not_true_eq_false, if_false, if_true] at hruns ⊢
      simp only [World.receive, Kernel.inbox_leave, Option.map_some, hload, Option.toList_some]
      exact hruns
    · simp only [hall, not_false_eq_true, if_true, if_false, World.receive,
        Kernel.inbox_leave] at hruns ⊢
      exact hruns
  · rw [headerRead, if_neg (fun h => hret (hfull.mp h))] at hhead
    refine ⟨rs, ?_⟩
    simp only [if_pos hret, Kernel.inbox_leave, Option.map_none, Option.toList_none, List.append_nil]
    rw [← idle] at hhead
    exact hnotify.append hhead

/-! ## The thread -/

/-- What a turn of the loop puts into the pipe, `script` answering its `write` calls. The results
of `tfnet_write` are not looked at. -/
def writeAll : List CallResult → List Bytes → Bytes
  | _, [] => []
  | script, buf :: bufs =>
      let e := tfnetWrite script buf
      e.moved ++ writeAll e.script bufs

/-- Where the write of the length leaves the thread. -/
def headerWritten (s : PipeState) (msg : Bytes) (t : Transfer) : PipeState :=
  { s with writer := .body t.moved (.start msg.length) msg, pipe := s.pipe ++ t.moved }

theorem runs_headerWrite (s : PipeState) (msg : Bytes) {t u : Transfer} {src rest : Bytes}
    {rs : List CallResult} (h : t.Steps src rs u rest) :
    pipeline.Runs { s with writer := .header t src msg, pipe := s.pipe ++ t.moved } (rs.map .write)
      (s.headerWritten msg u) := by
  refine runs_of_steps
    (fun t src => { s with writer := .header t src msg, pipe := s.pipe ++ t.moved })
    (fun t _ => s.headerWritten msg t) ?_ ?_ ?_ ?_ h
  · exact fun t src r _ => nofun
  · intro t src r _ hcall
    simp [pipeline, step, Writer.call, hcall, headerWritten]
  · intro t src r t' rest hcall hdone
    have hmoved := (Transfer.call_conserves hcall).2.2
    simp only [pipeline, step, Writer.call, hcall, hdone, headerWritten, if_true,
      List.append_assoc, ← hmoved]
  · intro t src r t' rest hcall hmore
    have hmoved := (Transfer.call_conserves hcall).2.2
    simp only [pipeline, step, Writer.call, hcall, hmore, if_false, List.append_assoc, ← hmoved]

theorem runs_bodyWrite (s : PipeState) (head : Bytes) {t u : Transfer} {src rest : Bytes}
    {rs : List CallResult} (h : t.Steps src rs u rest) :
    pipeline.Runs { s with writer := .body head t src, pipe := s.pipe ++ t.moved } (rs.map .write)
      { s with writer := .idle, pipe := s.pipe ++ u.moved } := by
  refine runs_of_steps
    (fun t src => { s with writer := .body head t src, pipe := s.pipe ++ t.moved })
    (fun t _ => { s with writer := .idle, pipe := s.pipe ++ t.moved }) ?_ ?_ ?_ ?_ h
  · exact fun t src r _ => nofun
  · intro t src r _ hcall
    simp [pipeline, step, Writer.call, hcall]
  · intro t src r t' rest hcall hdone
    have hmoved := (Transfer.call_conserves hcall).2.2
    simp only [pipeline, step, Writer.call, hcall, hdone, if_true, List.append_assoc, ← hmoved]
  · intro t src r t' rest hcall hmore
    have hmoved := (Transfer.call_conserves hcall).2.2
    simp only [pipeline, step, Writer.call, hcall, hmore, if_false, List.append_assoc, ← hmoved]

/-- A turn of the thread's loop. -/
theorem waitResponse_runs {s : PipeState} {msg : Option Bytes} (script : List CallResult)
    (admitted : s.Admits (.receive msg)) :
    ∃ rs : List CallResult, pipeline.Runs s (.receive msg :: rs.map .write)
      { s with
        pipe := s.pipe ++ writeAll script (waitResponse msg)
        sent := s.sent ++ messages [.receive msg] } := by
  have hidle : s.writer = .idle := admitted.1
  have hreceive : pipeline.Runs s [.receive msg] (s.step (.receive msg)) := .single admitted
  rcases waitResponse_cases msg with ⟨m, rfl, hm, hbufs⟩ | ⟨hshort, hbufs⟩
  · have hhead : host16 (UInt16.ofNat m.length) ≠ [] :=
      List.ne_nil_of_length_pos (by rw [host16_length]; omega)
    have hbody : m ≠ [] := List.ne_nil_of_length_pos (by omega)
    obtain ⟨rs, u, hsteps, hmoved⟩ := tfnetWrite_steps script hhead
    obtain ⟨rs', u', hsteps', hmoved'⟩ :=
      tfnetWrite_steps (tfnetWrite script (host16 (UInt16.ofNat m.length))).script hbody
    refine ⟨rs ++ rs', ?_⟩
    have hruns := runs_headerWrite { s with sent := s.sent ++ [m] } m hsteps
    have hruns' := runs_bodyWrite
      { s with pipe := s.pipe ++ u.moved, sent := s.sent ++ [m] } u.moved hsteps'
    simp only [step, hbufs] at hreceive
    simp only [Transfer.start, List.append_nil] at hreceive hruns hruns'
    have hturn := hreceive.append (hruns.append hruns')
    rw [messages_receive_of_long hm, hbufs]
    simp only [writeAll, List.append_nil]
    rw [← hmoved, ← hmoved', List.map_append, ← List.append_assoc, hidle]
    exact hturn
  · refine ⟨[], ?_⟩
    simp only [step, hbufs] at hreceive
    rw [messages_receive_of_short hshort, hbufs, writeAll, List.append_nil, List.append_nil]
    exact hreceive

end PipeState

end Tflib.Nac
