import Tflib.Core.Bytes

/-! # The bounded retry loops of `tf_socket.c`

`tfnet_read` and `tfnet_write` are one loop run in two directions: bytes leave
the kernel's stream for a buffer, or a buffer for the kernel's stream. What the
system calls answer is a script. Past the end of its script the descriptor
moves everything it is asked for, or everything there is.
-/

namespace Tflib.Socket

open Tflib.Core

/-- What one `read` or `write` call answers. -/
inductive CallResult
  /-- up to `k + 1` bytes are moved, never more than asked for or available -/
  | moved (k : Nat)
  /-- 0 -/
  | zero
  /-- -1 with `errno` equal to `EAGAIN` or `EINTR` -/
  | interrupted
  /-- -1 with any other `errno` -/
  | failed
  deriving DecidableEq, Repr

/-- The loop variables: `left` is `count - totlen`, `moved` the bytes
transferred so far, `loop` the interruptions seen. -/
structure Transfer where
  left : Nat
  moved : Bytes
  loop : Nat
  deriving DecidableEq, Repr

def Transfer.start (count : Nat) : Transfer := ⟨count, [], 0⟩

/-- One turn of the `while` loop: `none` is `return -1`. -/
def Transfer.call (t : Transfer) (source : Bytes) : CallResult → Option (Transfer × Bytes)
  | .zero => none
  | .failed => none
  | .interrupted => if t.loop + 1 > 20 then none else some ({ t with loop := t.loop + 1 }, source)
  | .moved k =>
      let n := min (k + 1) (min t.left source.length)
      -- an empty stream answers 0, which is the end of the file
      if n = 0 then none
      else some (⟨t.left - n, t.moved ++ source.take n, t.loop⟩, source.drop n)

/-- How a whole transfer ends: the returned value, the bytes that were moved,
the bytes that stay behind and the unused part of the script. -/
structure TransferEnd where
  ret : Int
  moved : Bytes
  rest : Bytes
  script : List CallResult
  deriving DecidableEq, Repr

def transferLoop : List CallResult → Transfer → Bytes → TransferEnd
  | [], t, source =>
      if t.left ≤ source.length then
        ⟨(t.moved.length + t.left : Nat), t.moved ++ source.take t.left, source.drop t.left, []⟩
      else ⟨-1, t.moved ++ source, [], []⟩
  | r :: script, t, source =>
      if t.left = 0 then ⟨t.moved.length, t.moved, source, r :: script⟩
      else
        match t.call source r with
        | none => ⟨-1, t.moved, source, script⟩
        | some (t', source') => transferLoop script t' source'

/-- `tfnet_read(fd, buf, count)` on a descriptor whose stream is `stream`. -/
def tfnetRead (script : List CallResult) (stream : Bytes) (count : Nat) : TransferEnd :=
  transferLoop script (.start count) stream

/-- `tfnet_write(fd, buf, count)` with `buf` the first `count` bytes given. -/
def tfnetWrite (script : List CallResult) (buf : Bytes) : TransferEnd :=
  transferLoop script (.start buf.length) buf

/-! ## What every transfer does -/

/-- One turn moves a prefix of the source and keeps the sum of done and to do. -/
theorem Transfer.call_spec {t t' : Transfer} {source source' : Bytes} {r : CallResult}
    (h : t.call source r = some (t', source')) :
    ∃ n, n ≤ t.left ∧ n ≤ source.length ∧ t'.left = t.left - n ∧
      t'.moved = t.moved ++ source.take n ∧ source' = source.drop n := by
  cases r with
  | zero => simp [Transfer.call] at h
  | failed => simp [Transfer.call] at h
  | interrupted =>
      simp only [Transfer.call] at h
      split at h
      · contradiction
      · cases h
        exact ⟨0, by simp⟩
  | moved k =>
      simp only [Transfer.call] at h
      split at h
      · contradiction
      · cases h
        exact ⟨min (k + 1) (min t.left source.length), by omega, by omega, rfl, rfl, rfl⟩

theorem Transfer.call_conserves {t t' : Transfer} {source source' : Bytes} {r : CallResult}
    (h : t.call source r = some (t', source')) :
    t'.moved ++ source' = t.moved ++ source ∧
      t'.moved.length + t'.left = t.moved.length + t.left ∧
      t'.moved = t.moved ++ t'.moved.drop t.moved.length := by
  obtain ⟨n, hn, hs, hl, hm, rfl⟩ := Transfer.call_spec h
  refine ⟨?_, ?_, ?_⟩
  · rw [hm, List.append_assoc, List.take_append_drop]
  · rw [hl, hm, List.length_append, List.length_take]
    omega
  · rw [hm, List.drop_left]

/-- No byte is lost, made up or reordered, and success means a full count. -/
theorem transferLoop_spec (script : List CallResult) (t : Transfer) (source : Bytes) :
    let e := transferLoop script t source
    ∃ got, e.moved = t.moved ++ got ∧ got ++ e.rest = source ∧ got.length ≤ t.left ∧
      (e.ret = -1 ∨ (got.length = t.left ∧ e.ret = (t.moved.length + t.left : Nat))) := by
  induction script generalizing t source with
  | nil =>
      simp only [transferLoop]
      split
      · rename_i h
        exact ⟨source.take t.left, rfl, List.take_append_drop _ _, by simp,
          .inr ⟨by simpa using h, rfl⟩⟩
      · exact ⟨source, rfl, by simp, by omega, .inl rfl⟩
  | cons r script ih =>
      simp only [transferLoop]
      split
      · rename_i h
        exact ⟨[], by simp, by simp, by simp, .inr (by simp [h])⟩
      · cases hc : t.call source r with
        | none => exact ⟨[], by simp, by simp, by simp, .inl rfl⟩
        | some p =>
            obtain ⟨t', source'⟩ := p
            obtain ⟨n, hn, hs, hleft, hmoved, rfl⟩ := Transfer.call_spec hc
            obtain ⟨got, hm, hr, hl, hret⟩ := ih t' (source.drop n)
            refine ⟨source.take n ++ got, ?_, ?_, ?_, ?_⟩
            · rw [hm, hmoved, List.append_assoc]
            · rw [List.append_assoc, hr, List.take_append_drop]
            · simp only [List.length_append, List.length_take]
              omega
            · refine hret.imp id ?_
              rintro ⟨hg, hv⟩
              have hlen := congrArg List.length hmoved
              simp only [List.length_append, List.length_take] at hlen ⊢
              refine ⟨by omega, ?_⟩
              rw [hv, hlen]
              congr 1
              omega

/-- `tfnet_read` returns `count` or -1. -/
theorem tfnetRead_cases (script : List CallResult) (stream : Bytes) (count : Nat) :
    let e := tfnetRead script stream count
    (e.ret = count ∧ e.moved = stream.take count ∧ e.rest = stream.drop count ∧
        count ≤ stream.length) ∨
      (e.ret = -1 ∧ e.moved.length ≤ count ∧ e.moved ++ e.rest = stream) := by
  simp only [tfnetRead]
  obtain ⟨got, hm, hr, hl, hret⟩ := transferLoop_spec script (.start count) stream
  simp only [Transfer.start, List.nil_append, List.length_nil, Nat.zero_add] at hm hl hret ⊢
  rw [hm]
  rcases hret with hret | ⟨hg, hret⟩
  · exact .inr ⟨hret, hl, hr⟩
  · refine .inl ⟨hret, ?_, ?_, ?_⟩
    · rw [← hr, ← hg, List.take_left]
    · have hdrop := congrArg (List.drop got.length) hr
      rw [List.drop_left, hg] at hdrop
      exact hdrop
    · rw [← hr, List.length_append]
      omega

/-- `tfnet_write` hands over a prefix of the buffer, all of it unless it returns -1. -/
theorem tfnetWrite_cases (script : List CallResult) (buf : Bytes) :
    let e := tfnetWrite script buf
    e.moved <+: buf ∧ (e.ret = -1 ∨ (e.ret = buf.length ∧ e.moved = buf)) := by
  simp only [tfnetWrite]
  obtain ⟨got, hm, hr, -, hret⟩ := transferLoop_spec script (.start buf.length) buf
  simp only [Transfer.start, List.nil_append, List.length_nil, Nat.zero_add] at hm hret ⊢
  have hpre : got <+: buf := ⟨_, hr⟩
  rw [hm]
  exact ⟨hpre, hret.imp id fun ⟨hg, hv⟩ => ⟨hv, hpre.eq_of_length hg⟩⟩

/-! ## Call by call -/

/-- The answers `rs` take the transfer from `t` to its last state, in which `rest` stays behind:
it has everything, or the last of the answers made it give up. No answer moves bytes where there
are none. -/
inductive Transfer.Steps : Transfer → Bytes → List CallResult → Transfer → Bytes → Prop
  | gaveUp {t : Transfer} {source : Bytes} {r : CallResult} :
      t.left ≠ 0 → (∀ k, r = .moved k → source ≠ []) → t.call source r = none →
      Steps t source [r] t source
  | last {t t' : Transfer} {source rest : Bytes} {r : CallResult} :
      t.left ≠ 0 → (∀ k, r = .moved k → source ≠ []) → t.call source r = some (t', rest) →
      t'.left = 0 → Steps t source [r] t' rest
  | more {t t' u : Transfer} {source source' rest : Bytes} {r : CallResult}
      {rs : List CallResult} :
      t.left ≠ 0 → (∀ k, r = .moved k → source ≠ []) → t.call source r = some (t', source') →
      t'.left ≠ 0 → Steps t' source' rs u rest → Steps t source (r :: rs) u rest

theorem transferLoop_done (script : List CallResult) {t : Transfer} (source : Bytes)
    (h : t.left = 0) :
    transferLoop script t source = ⟨t.moved.length, t.moved, source, script⟩ := by
  cases script with
  | nil => simp [transferLoop, h]
  | cons r script => simp [transferLoop, h]

/-- A call that moves bytes finds some. -/
theorem Transfer.call_moved_nil (t : Transfer) (k : Nat) : t.call [] (.moved k) = none := by
  simp [Transfer.call]

theorem Transfer.call_moved {t : Transfer} (source : Bytes) {k n : Nat}
    (hn : min (k + 1) (min t.left source.length) = n) (hne : n ≠ 0) :
    t.call source (.moved k) =
      some (⟨t.left - n, t.moved ++ source.take n, t.loop⟩, source.drop n) := by
  simp only [Transfer.call, hn, if_neg hne]

/-- The loop is its calls, one after the other. -/
theorem transferLoop_steps (script : List CallResult) {t : Transfer} (source : Bytes)
    (busy : t.left ≠ 0) :
    let e := transferLoop script t source
    ∃ rs u, t.Steps source rs u e.rest ∧ u.moved = e.moved ∧
      (u.left = 0 ∧ e.ret = e.moved.length ∨ u.left ≠ 0 ∧ e.ret = -1) := by
  induction script generalizing t source with
  | nil =>
      simp only [transferLoop]
      by_cases henough : t.left ≤ source.length
      · have hcall := Transfer.call_moved (t := t) source (k := t.left - 1) (n := t.left)
          (by omega) busy
        rw [if_pos henough]
        refine ⟨_, _, .last busy ?_ hcall (Nat.sub_self _), rfl, .inl ⟨Nat.sub_self _, ?_⟩⟩
        · intro k _ hnil
          rw [hnil] at henough
          exact busy (Nat.le_zero.mp henough)
        · rw [List.length_append, List.length_take, Nat.min_eq_left henough]
      · rw [if_neg henough]
        by_cases hnil : source = []
        · rw [hnil, List.append_nil]
          exact ⟨_, _, .gaveUp (r := .zero) busy nofun rfl, rfl, .inr ⟨busy, rfl⟩⟩
        · have hlen := List.length_pos_iff.mpr hnil
          have hcall := Transfer.call_moved (t := t) source (k := source.length - 1)
            (n := source.length) (by omega) (by omega)
          have hleft : t.left - source.length ≠ 0 := by omega
          rw [List.drop_length, List.take_length] at hcall
          exact ⟨_, _, .more busy (fun _ _ => hnil) hcall hleft
            (.gaveUp (r := .zero) hleft nofun rfl), rfl, .inr ⟨hleft, rfl⟩⟩
  | cons r script ih =>
      simp only [transferLoop, if_neg busy]
      cases hcall : t.call source r with
      | none =>
          by_cases hmoved : ∀ k, r = .moved k → source ≠ []
          · exact ⟨_, _, .gaveUp busy hmoved hcall, rfl, .inr ⟨busy, rfl⟩⟩
          · exact ⟨_, _, .gaveUp (r := .zero) busy nofun rfl, rfl, .inr ⟨busy, rfl⟩⟩
      | some next =>
          obtain ⟨t', source'⟩ := next
          have hmoved : ∀ k, r = .moved k → source ≠ [] := by
            intro k hk hnil
            rw [hk, hnil, Transfer.call_moved_nil] at hcall
            contradiction
          by_cases hdone : t'.left = 0
          · simp only [transferLoop_done script source' hdone]
            exact ⟨_, _, .last busy hmoved hcall hdone, rfl, .inl ⟨hdone, trivial⟩⟩
          · obtain ⟨rs, u, hsteps, hu⟩ := ih source' hdone
            exact ⟨_, _, .more busy hmoved hcall hdone hsteps, hu⟩

theorem tfnetRead_steps (script : List CallResult) (stream : Bytes) {count : Nat}
    (pos : count ≠ 0) :
    let e := tfnetRead script stream count
    ∃ rs u, (Transfer.start count).Steps stream rs u e.rest ∧ u.moved = e.moved ∧
      (u.left = 0 ↔ e.ret = count) := by
  obtain ⟨rs, u, hsteps, hmoved, hend⟩ :=
    transferLoop_steps script (t := .start count) stream pos
  refine ⟨rs, u, hsteps, hmoved, ?_⟩
  rcases hend with ⟨hdone, hret⟩ | ⟨hmore, hret⟩
  · refine iff_of_true hdone ?_
    rcases tfnetRead_cases script stream count with ⟨hfull, -⟩ | ⟨hfailed, -⟩
    · exact hfull
    · rw [tfnetRead, hret] at hfailed
      omega
  · refine iff_of_false hmore ?_
    rw [tfnetRead, hret]
    omega

theorem tfnetWrite_steps (script : List CallResult) {buf : Bytes} (pos : buf ≠ []) :
    let e := tfnetWrite script buf
    ∃ rs u, (Transfer.start buf.length).Steps buf rs u e.rest ∧ u.moved = e.moved := by
  obtain ⟨rs, u, hsteps, hmoved, -⟩ := transferLoop_steps script
    (t := .start buf.length) buf (fun h => pos (List.eq_nil_of_length_eq_zero h))
  exact ⟨rs, u, hsteps, hmoved⟩

/-! ## Transfers on a live descriptor

`Live` scripts hold only transfers and interruptions: the descriptor neither
ends nor breaks. Then the number of interruptions met before the last byte
decides everything.
-/

def CallResult.IsLive : CallResult → Prop
  | .moved _ | .interrupted => True
  | .zero | .failed => False

def Live (script : List CallResult) : Prop := ∀ r ∈ script, r.IsLive

/-- The interruptions met before `left` bytes have been moved. -/
def stalls : List CallResult → Nat → Nat
  | [], _ => 0
  | r :: script, left =>
      if left = 0 then 0
      else
        match r with
        | .interrupted => stalls script left + 1
        | .moved k => stalls script (left - (k + 1))
        | _ => 0

/-- What is left of the script once `left` bytes have been moved. -/
def unused : List CallResult → Nat → List CallResult
  | [], _ => []
  | r :: script, left =>
      if left = 0 then r :: script
      else
        match r with
        | .moved k => unused script (left - (k + 1))
        | _ => unused script left

theorem unused_suffix (script : List CallResult) (left : Nat) : unused script left <:+ script := by
  induction script generalizing left with
  | nil => simp [unused]
  | cons r script ih =>
      simp only [unused]
      split
      · exact List.suffix_refl _
      · split
        · exact (ih _).trans (List.suffix_cons _ _)
        · exact (ih _).trans (List.suffix_cons _ _)

theorem stalls_le_count (script : List CallResult) (left : Nat) :
    stalls script left ≤ script.count .interrupted := by
  induction script generalizing left with
  | nil => simp [stalls]
  | cons r script ih =>
      simp only [stalls]
      split
      · omega
      · cases r with
        | interrupted => simpa using ih left
        | moved k => simpa using ih (left - (k + 1))
        | zero => simp
        | failed => simp

/-- With enough bytes to move, the twenty-first interruption is the only way to fail. -/
theorem transferLoop_live {script : List CallResult} (live : Live script) (t : Transfer)
    {source : Bytes} (enough : t.left ≤ source.length) (hloop : t.loop ≤ 20) :
    (t.loop + stalls script t.left ≤ 20 →
      transferLoop script t source = ⟨(t.moved.length + t.left : Nat),
        t.moved ++ source.take t.left, source.drop t.left, unused script t.left⟩) ∧
    (20 < t.loop + stalls script t.left → (transferLoop script t source).ret = -1) := by
  induction script generalizing t source with
  | nil =>
      refine ⟨fun _ => by simp [transferLoop, enough, unused], fun h => ?_⟩
      simp only [stalls] at h
      omega
  | cons r script ih =>
      have tail : Live script := fun r hr => live r (List.mem_cons_of_mem _ hr)
      by_cases hl : t.left = 0
      · refine ⟨fun _ => by simp [transferLoop, hl, unused], fun h => ?_⟩
        simp only [stalls, hl, if_true] at h
        omega
      · cases r with
        | zero => exact absurd (live _ List.mem_cons_self) id
        | failed => exact absurd (live _ List.mem_cons_self) id
        | interrupted =>
            simp only [transferLoop, stalls, unused, if_neg hl, Transfer.call]
            by_cases hmany : t.loop + 1 > 20
            · exact ⟨fun h => by omega, fun _ => by simp [hmany]⟩
            · have hrec := ih tail { t with loop := t.loop + 1 } enough (by simpa using hmany)
              rw [if_neg hmany]
              exact ⟨fun h => hrec.1 (by simp only; omega), fun h => hrec.2 (by simp only; omega)⟩
        | moved k =>
            have hn : min (k + 1) (min t.left source.length) = min (k + 1) t.left := by omega
            have hne : ¬ min (k + 1) t.left = 0 := by omega
            have hleft : t.left - min (k + 1) t.left = t.left - (k + 1) := by omega
            have hsum : min (k + 1) t.left + (t.left - (k + 1)) = t.left := by omega
            have hrec := ih tail
              ⟨t.left - min (k + 1) t.left, t.moved ++ source.take (min (k + 1) t.left), t.loop⟩
              (show t.left - min (k + 1) t.left ≤ (source.drop (min (k + 1) t.left)).length by
                rw [List.length_drop]; omega) hloop
            simp only [hleft] at hrec
            simp only [transferLoop, stalls, unused, if_neg hl, Transfer.call, hn, if_neg hne, hleft]
            refine ⟨fun h => ?_, hrec.2⟩
            rw [hrec.1 h, List.append_assoc, List.drop_drop, hsum, ← List.take_add, hsum]
            congr 2
            simp only [List.length_append, List.length_take]
            omega

theorem tfnetRead_live {script : List CallResult} (live : Live script) {stream : Bytes}
    {count : Nat} (enough : count ≤ stream.length) (few : stalls script count ≤ 20) :
    tfnetRead script stream count =
      ⟨count, stream.take count, stream.drop count, unused script count⟩ := by
  have h := (transferLoop_live live (.start count) enough (Nat.zero_le _)).1
    (by simpa [Transfer.start] using few)
  simpa [tfnetRead, Transfer.start] using h

theorem tfnetRead_stalled {script : List CallResult} (live : Live script) {stream : Bytes}
    {count : Nat} (enough : count ≤ stream.length) (many : 20 < stalls script count) :
    (tfnetRead script stream count).ret = -1 :=
  (transferLoop_live live (.start count) enough (Nat.zero_le _)).2
    (by simpa [Transfer.start] using many)

/-- A stream that ends before the count makes the read fail. -/
theorem tfnetRead_short (script : List CallResult) {stream : Bytes} {count : Nat}
    (short : stream.length < count) : (tfnetRead script stream count).ret = -1 := by
  rcases tfnetRead_cases script stream count with ⟨_, _, _, h⟩ | ⟨h, _⟩
  · omega
  · exact h

/-- A script whose interruptions never exhaust one transfer's patience. -/
structure Patient (script : List CallResult) : Prop where
  live : Live script
  few : script.count .interrupted ≤ 20

theorem Patient.nil : Patient [] := ⟨by simp [Live], by simp⟩

theorem Patient.unused {script : List CallResult} (h : Patient script) (left : Nat) :
    Patient (unused script left) where
  live r hr := h.live r ((unused_suffix script left).subset hr)
  few := Nat.le_trans ((unused_suffix script left).sublist.count_le _) h.few

theorem Patient.read {script : List CallResult} (h : Patient script) {stream : Bytes} {count : Nat}
    (enough : count ≤ stream.length) :
    tfnetRead script stream count =
      ⟨count, stream.take count, stream.drop count, Socket.unused script count⟩ :=
  tfnetRead_live h.live enough (Nat.le_trans (stalls_le_count _ _) h.few)

end Tflib.Socket
