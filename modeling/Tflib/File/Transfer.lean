import Tflib.Core.Bytes
import Tflib.Core.Calls
import Tflib.Core.Region

/-! # `tf_read` and `tf_write`

The loops of `tf_file.c` over one descriptor. What a call returns is decided by
the script, by what it is asked for and by what is there: a read that finds
nothing left is the end of the file. Only `EINTR` is told apart from the other
errors, so `EAGAIN` is one of these.
-/

namespace Tflib.File

open Tflib.Core Tflib.Core.Calls

/-- What the system does with one call. -/
inductive Answer
  /-- moves up to `k + 1` bytes, never more than asked for or available -/
  | moved (k : Nat)
  /-- -1 with `errno` equal to `EINTR` -/
  | interrupted
  /-- -1 with any other `errno` -/
  | failed
  deriving DecidableEq, Repr

/-- The most that Linux moves in one call, 0x7ffff000 bytes; it always fits in an `int`. -/
def maxIo : Nat := 2147479552

/-- `TFIOBUFSIZ` -/
def ioBufSize : Nat := 16384

/-- What the caller of `read` or `write` sees. -/
inductive Returned
  | bytes (n : Nat)
  | eintr
  | error
  deriving DecidableEq, Repr

namespace Answer

def granted : Answer → Nat
  | moved k => min (k + 1) maxIo
  | _ => 0

/-- The call asks for `want` bytes where `available` can be moved. -/
def returned (a : Answer) (want available : Nat) : Returned :=
  match a with
  | moved _ => .bytes (min a.granted (min want available))
  | interrupted => .eintr
  | failed => .error

def IsMoved : Answer → Prop
  | moved _ => True
  | _ => False

instance (a : Answer) : Decidable a.IsMoved := by
  cases a <;> unfold IsMoved <;> infer_instance

theorem granted_pos {k : Nat} : 0 < (moved k).granted := by
  simp only [granted, maxIo]
  omega

end Answer

/-! ## `tf_read` -/

structure ReadVars where
  /-- how far `wp` has moved -/
  wp : Nat
  size : Nat
  cells : Region UInt8
  /-- what is still to be read from the descriptor -/
  source : Bytes
  deriving DecidableEq, Repr

structure ReadDone where
  ret : Bool
  cells : Region UInt8
  source : Bytes
  deriving DecidableEq, Repr

/-- One turn of the loop of `tf_read`. The result `none` is an access outside `buf`. -/
def tfReadTurn (s : ReadVars) (a : Answer) : Next ReadVars (Option ReadDone) :=
  match a.returned s.size s.source.length with
  | .error => .done (some ⟨false, s.cells, s.source⟩)
  -- an interruption runs on into `case 0`
  | .eintr | .bytes 0 => .done (some ⟨decide (s.size < 1), s.cells, s.source⟩)
  | .bytes n =>
      match s.cells.store s.wp ((s.source.take n).map some) with
      | none => .done none
      | some cells =>
          let t : ReadVars := ⟨s.wp + n, s.size - n, cells, s.source.drop n⟩
          if t.size > 0 then .again t else .done (some ⟨true, t.cells, t.source⟩)

/-- `tf_read(fd, buf, size)` after the first `k` answers. -/
def tfReadAfter (source : Bytes) (cells : Region UInt8) (size : Nat) (script : Nat → Answer)
    (k : Nat) : Next ReadVars (Option ReadDone) :=
  after tfReadTurn (.again ⟨0, size, cells, source⟩) script k

/-! ### What the script makes of it -/

/-- All `size` bytes are there and the first answers grant them. -/
def Filled (source : Bytes) (script : Nat → Answer) (size k : Nat) : Prop :=
  size ≤ source.length ∧ size ≤ tally Answer.granted script k

/-- A read finds nothing left. -/
def MeetsEnd (source : Bytes) (script : Nat → Answer) (k : Nat) : Prop :=
  ∃ i < k, (script i).IsMoved ∧ source.length ≤ tally Answer.granted script i

/-- The transfer is over: it failed, met the end of the file, or has all its bytes. -/
def Settled (source : Bytes) (script : Nat → Answer) (size k : Nat) : Prop :=
  Among (· = .failed) script k ∨ MeetsEnd source script k ∨ Filled source script size k

/-- `size` bytes arrive before the end of the file and the first error that is no interruption. -/
def Arrives (source : Bytes) (script : Nat → Answer) (size : Nat) : Prop :=
  ∃ k, ¬ Among (· = .failed) script k ∧ Filled source script size k

/-- What `tf_read` is for: it ends as soon as the transfer is over, returns true exactly when all
bytes arrive and has then stored them in order, and never fails for an interruption. -/
structure Reads (source : Bytes) (cells : Region UInt8) (size : Nat) (script : Nat → Answer)
    (run : Nat → Next ReadVars (Option ReadDone)) : Prop where
  ends : ∀ k, 0 < k → Settled source script size k → ∃ r, run k = .done (some r)
  verdict : ∀ k e, run k = .done e → ∃ r, e = some r ∧ (r.ret = true ↔ Arrives source script size) ∧
    (r.ret = true → r.cells = (source.take size).map some ++ cells.drop size)
  uninterrupted : ∀ k r, run k = .done (some r) → r.ret = false →
    Among (· = .failed) script k ∨ MeetsEnd source script k

/-- No interruption comes before the transfer is over, and a read of no bytes does not fail. -/
def Unbroken (source : Bytes) (script : Nat → Answer) (size : Nat) : Prop :=
  (∀ j, script j = .interrupted → Settled source script size j) ∧ (size = 0 → script 0 ≠ .failed)

theorem Filled.mono {source : Bytes} {script : Nat → Answer} {size k l : Nat}
    (h : Filled source script size k) (hl : k ≤ l) : Filled source script size l :=
  ⟨h.1, Nat.le_trans h.2 (tally_mono _ _ hl)⟩

theorem MeetsEnd.mono {source : Bytes} {script : Nat → Answer} {k l : Nat}
    (h : MeetsEnd source script k) (hl : k ≤ l) : MeetsEnd source script l := by
  obtain ⟨i, hi, h⟩ := h
  exact ⟨i, Nat.lt_of_lt_of_le hi hl, h⟩

theorem Settled.mono {source : Bytes} {script : Nat → Answer} {size k l : Nat}
    (h : Settled source script size k) (hl : k ≤ l) : Settled source script size l :=
  h.imp (·.mono hl) (Or.imp (·.mono hl) (·.mono hl))

/-- An interruption that came too early. -/
def Broken (source : Bytes) (script : Nat → Answer) (size k : Nat) : Prop :=
  ∃ j < k, script j = .interrupted ∧ ¬ Settled source script size j

/-- What holds while `tf_read` waits: every answer so far moved bytes and none was the last. -/
structure ReadWaits (source : Bytes) (cells : Region UInt8) (size : Nat) (script : Nat → Answer)
    (k : Nat) (s : ReadVars) : Prop where
  place : s.wp = min (tally Answer.granted script k) source.length
  short : k = 0 ∨ s.wp < size
  size_eq : s.size = size - s.wp
  source_eq : s.source = source.drop s.wp
  cells_eq : s.cells = (source.take s.wp).map some ++ cells.drop s.wp
  alive : ¬ Among (· = .failed) script k
  open_end : ¬ MeetsEnd source script k

/-- What holds once it has returned. -/
structure ReadGives (source : Bytes) (cells : Region UInt8) (size : Nat) (script : Nat → Answer)
    (k : Nat) (r : ReadDone) : Prop where
  full : r.ret = true →
    Arrives source script size ∧ r.cells = (source.take size).map some ++ cells.drop size
  partly : r.ret = false → size = 0 ∧ script 0 = .failed ∨
    (Among (· = .failed) script k ∨ MeetsEnd source script k) ∧ ¬ Arrives source script size ∨
    Broken source script size k
  ended : Settled source script size k ∨ Broken source script size k

def ReadHolds (source : Bytes) (cells : Region UInt8) (size : Nat) (script : Nat → Answer)
    (k : Nat) : Next ReadVars (Option ReadDone) → Prop
  | .again s => ReadWaits source cells size script k s
  | .done none => False
  | .done (some r) => ReadGives source cells size script k r

section

variable {source : Bytes} {cells : Region UInt8} {size : Nat} {script : Nat → Answer} {k : Nat}
  {s : ReadVars}

theorem ReadWaits.wp_le (h : ReadWaits source cells size script k s) : s.wp ≤ size := by
  rcases h.short with rfl | hlt
  · rw [h.place, tally, Nat.zero_min]
    exact Nat.zero_le _
  · exact Nat.le_of_lt hlt

theorem ReadWaits.size_pos (h : ReadWaits source cells size script k s) (hsize : size ≠ 0) :
    0 < s.size := by
  rw [h.size_eq]
  rcases h.short with rfl | hlt
  · rw [h.place, tally, Nat.zero_min]
    omega
  · omega

/-- What `case 0` returns for a read of no bytes. -/
theorem ReadWaits.nothing_wanted (h : ReadWaits source cells size script k s) (hsize : size = 0) :
    decide (s.size < 1) = true := by
  rw [h.size_eq, hsize]
  simp

theorem ReadWaits.something_wanted (h : ReadWaits source cells size script k s) (hsize : size ≠ 0) :
    decide (s.size < 1) = false := by
  have hpos := h.size_pos hsize
  rw [decide_eq_false_iff_not]
  omega

theorem ReadWaits.not_filled (h : ReadWaits source cells size script k s) (hsize : size ≠ 0) :
    ¬ Filled source script size k := by
  rintro ⟨hlen, htally⟩
  have hpos := h.size_pos hsize
  rw [h.size_eq, h.place] at hpos
  omega

theorem ReadWaits.not_settled (h : ReadWaits source cells size script k s) (hsize : size ≠ 0) :
    ¬ Settled source script size k :=
  fun hs => hs.elim h.alive (Or.elim · h.open_end (h.not_filled hsize))

/-- An empty read is over before it began. -/
theorem filled_zero (source : Bytes) (script : Nat → Answer) (k : Nat) :
    Filled source script 0 k := ⟨Nat.zero_le _, Nat.zero_le _⟩

theorem arrives_zero (source : Bytes) (script : Nat → Answer) : Arrives source script 0 :=
  ⟨0, among_zero _ _, filled_zero _ _ _⟩

/-- A read of no bytes that returns true. -/
theorem ReadWaits.gives_zero (h : ReadWaits source cells size script k s) (hsize : size = 0)
    (l : Nat) : ReadGives source cells size script l ⟨true, s.cells, s.source⟩ := by
  subst hsize
  have hwp : s.wp = 0 := Nat.le_zero.mp h.wp_le
  refine ⟨fun _ => ⟨arrives_zero _ _, ?_⟩, nofun, .inl (.inr (.inr (filled_zero _ _ _)))⟩
  rw [h.cells_eq, hwp]

/-- The answers behind a fatal one do not help. -/
theorem not_arrives_of_stop (short : ¬ Filled source script size k)
    (stop : script k = .failed ∨ source.length < size) : ¬ Arrives source script size := by
  rintro ⟨j, halive, hfilled⟩
  rcases stop with hfail | hlen
  · by_cases hj : k < j
    · exact halive ⟨k, hj, hfail⟩
    · exact short (hfilled.mono (Nat.not_lt.mp hj))
  · exact absurd hfilled.1 (Nat.not_le.mpr hlen)

/-- A read that moves nothing although bytes are wanted met the end of the file. -/
theorem ReadWaits.meetsEnd (h : ReadWaits source cells size script k s)
    (hmoved : (script k).IsMoved) (hnil : s.source.length = 0) :
    MeetsEnd source script (k + 1) ∧ source.length = s.wp := by
  have hplace := h.place
  rw [h.source_eq, List.length_drop] at hnil
  exact ⟨⟨k, Nat.lt_succ_self k, hmoved, by omega⟩, by omega⟩

/-- The turn of a read that moves `n` bytes. -/
theorem ReadWaits.moves (h : ReadWaits source cells size script k s) (room : size ≤ cells.length)
    {j n : Nat} (ha : script k = .moved j)
    (hn : min (script k).granted (min s.size s.source.length) = n) (hpos : n ≠ 0) :
    ReadHolds source cells size script (k + 1) (tfReadTurn s (script k)) := by
  have hplace := h.place
  have hle := h.wp_le
  have hsize := h.size_eq
  have hleft : s.source.length = source.length - s.wp := by rw [h.source_eq, List.length_drop]
  have htally : tally Answer.granted script (k + 1) =
      tally Answer.granted script k + (script k).granted := rfl
  have hfront : (source.take s.wp).length = s.wp := by
    rw [List.length_take]
    omega
  have hpart : (s.source.take n).length = n := by
    rw [List.length_take]
    omega
  have htake : source.take s.wp ++ s.source.take n = source.take (s.wp + n) := by
    rw [h.source_eq, ← List.take_add]
  have hstore : s.cells.store s.wp ((s.source.take n).map some) =
      some ((source.take (s.wp + n)).map some ++ cells.drop (s.wp + n)) := by
    have hroom : (s.source.take n).length ≤ (cells.drop s.wp).length := by
      rw [hpart, List.length_drop]
      omega
    have hput := Region.store_behind (source.take s.wp) (s.source.take n) (cells.drop s.wp) hroom
    rw [hfront, hpart, htake, List.drop_drop] at hput
    rw [h.cells_eq, hput]
  have hret : (script k).returned s.size s.source.length = .bytes n := by
    rw [← hn, ha]
    rfl
  have halive : ¬ Among (· = .failed) script (k + 1) :=
    fun hm => (among_succ.mp hm).elim h.alive (by rw [ha]; exact nofun)
  obtain ⟨m, rfl⟩ := Nat.exists_eq_succ_of_ne_zero hpos
  simp only [tfReadTurn, hret, hstore]
  by_cases hmore : s.size - (m + 1) > 0
  · rw [if_pos hmore]
    exact {
      place := by simp only; omega
      short := .inr (by simp only; omega)
      size_eq := by simp only; omega
      source_eq := by rw [h.source_eq, List.drop_drop]
      cells_eq := rfl
      alive := halive
      open_end := by
        rintro ⟨i, hi, hm, hend⟩
        rcases Nat.lt_succ_iff_lt_or_eq.mp hi with hlt | rfl
        · exact h.open_end ⟨i, hlt, hm, hend⟩
        · omega }
  · rw [if_neg hmore]
    have hall : s.wp + (m + 1) = size := by omega
    have hfilled : Filled source script size (k + 1) := ⟨by omega, by omega⟩
    exact {
      full := fun _ => ⟨⟨k + 1, halive, hfilled⟩, by rw [hall]⟩
      partly := nofun
      ended := .inl (.inr (.inr hfilled)) }

/-- One answer keeps what holds. -/
theorem tfReadTurn_holds (room : size ≤ cells.length)
    (h : ReadWaits source cells size script k s) :
    ReadHolds source cells size script (k + 1) (tfReadTurn s (script k)) := by
  cases ha : script k with
  | failed =>
      have hfatal : Among (· = .failed) script (k + 1) := ⟨k, Nat.lt_succ_self k, ha⟩
      refine ⟨nofun, fun _ => ?_, .inl (.inl hfatal)⟩
      by_cases hsize : size = 0
      · refine .inl ⟨hsize, ?_⟩
        rcases h.short with rfl | hlt
        · exact ha
        · omega
      · exact .inr (.inl ⟨.inl hfatal, not_arrives_of_stop (h.not_filled hsize) (.inl ha)⟩)
  | interrupted =>
      by_cases hsize : size = 0
      · simp only [tfReadTurn, Answer.returned, h.nothing_wanted hsize]
        exact h.gives_zero hsize _
      · have hbroken : Broken source script size (k + 1) :=
          ⟨k, Nat.lt_succ_self k, ha, h.not_settled hsize⟩
        simp only [tfReadTurn, Answer.returned, h.something_wanted hsize]
        exact ⟨nofun, fun _ => .inr (.inr hbroken), .inr hbroken⟩
  | moved j =>
      rw [← ha]
      by_cases hn : min (script k).granted (min s.size s.source.length) = 0
      · have hret : (script k).returned s.size s.source.length = .bytes 0 := by
          rw [← hn, ha]
          rfl
        have hpos : 0 < (script k).granted := by
          rw [ha]
          exact Answer.granted_pos
        by_cases hsize : size = 0
        · simp only [tfReadTurn, hret, h.nothing_wanted hsize]
          exact h.gives_zero hsize _
        · have hwant := h.size_pos hsize
          obtain ⟨hend, hlen⟩ := h.meetsEnd (by rw [ha]; trivial) (by omega)
          have hshort : source.length < size := by
            have := h.size_eq
            omega
          simp only [tfReadTurn, hret, h.something_wanted hsize]
          exact ⟨nofun, fun _ => .inr (.inl ⟨.inr hend,
            not_arrives_of_stop (h.not_filled hsize) (.inr hshort)⟩), .inl (.inr (.inl hend))⟩
      · exact h.moves room ha rfl hn

theorem tfReadAfter_holds (room : size ≤ cells.length) (k : Nat) :
    ReadHolds source cells size script k (tfReadAfter source cells size script k) := by
  refine after_invariant ?_ (fun k s _ h => tfReadTurn_holds room h) ?_ k
  · exact {
      place := (Nat.zero_min _).symm
      short := .inl rfl, size_eq := rfl, source_eq := rfl, cells_eq := rfl
      alive := among_zero _ _
      open_end := fun ⟨_, hi, _⟩ => absurd hi (Nat.not_lt_zero _) }
  · intro k r _ h
    cases r with
    | none => exact h
    | some r =>
        have hbroken : Broken source script size k → Broken source script size (k + 1) :=
          fun ⟨j, hj, hb⟩ => ⟨j, Nat.lt_succ_of_lt hj, hb⟩
        have hnext := Nat.le_succ k
        exact {
          full := h.full
          partly := fun hr => (h.partly hr).imp id
            (Or.imp (And.imp_left (Or.imp (·.mono hnext) (·.mono hnext))) hbroken)
          ended := h.ended.imp (·.mono hnext) hbroken }

/-- An early interruption: the first of them ends the read although nothing else did. -/
theorem not_reads_of_broken (room : size ≤ cells.length) {j : Nat}
    (ha : script j = .interrupted) (hopen : ¬ Settled source script size j) :
    ¬ Reads source cells size script (tfReadAfter source cells size script) := by
  intro hreads
  induction j using Nat.strong_induction_on with
  | _ j ih =>
    have hholds := @tfReadAfter_holds source _ _ script room j
    cases hrun : tfReadAfter source cells size script j with
    | done e =>
        rw [hrun] at hholds
        cases e with
        | none => exact hholds
        | some r =>
            rcases hholds.ended with hover | ⟨i, hi, hint, hearly⟩
            · exact hopen hover
            · exact ih i hi hint hearly
    | again s =>
        rw [hrun] at hholds
        have hsize : size ≠ 0 := by
          rintro rfl
          exact hopen (.inr (.inr (filled_zero _ _ _)))
        have hnext : tfReadAfter source cells size script (j + 1) =
            .done (some ⟨false, s.cells, s.source⟩) := by
          rw [tfReadAfter, after_succ_of_again hrun, ha]
          simp only [tfReadTurn, Answer.returned, hholds.something_wanted hsize]
        rcases hreads.uninterrupted _ _ hnext rfl with hfail | ⟨i, hi, hmoved, hend⟩
        · refine hopen (.inl ((among_succ.mp hfail).elim id fun hfailed => ?_))
          rw [ha] at hfailed
          cases hfailed
        · rcases Nat.lt_succ_iff_lt_or_eq.mp hi with hlt | rfl
          · exact hopen (.inr (.inl ⟨i, hlt, hmoved, hend⟩))
          · rw [ha] at hmoved
            exact hmoved

theorem unbroken_of_reads (room : size ≤ cells.length)
    (h : Reads source cells size script (tfReadAfter source cells size script)) :
    Unbroken source script size := by
  constructor
  · intro j ha
    by_contra hopen
    exact not_reads_of_broken room ha hopen h
  · rintro rfl hfail
    have hone : tfReadAfter source cells 0 script 1 = .done (some ⟨false, cells, source⟩) := by
      rw [tfReadAfter, after_succ_of_again (s := ⟨0, 0, cells, source⟩) rfl, hfail]
      rfl
    obtain ⟨r, hr, hret, -⟩ := h.verdict 1 _ hone
    cases hr
    exact absurd (hret.mpr (arrives_zero _ _)) nofun

/-- `tf_read` returns nothing but results. -/
theorem readGives_of_done (room : size ≤ cells.length) {e : Option ReadDone}
    (h : tfReadAfter source cells size script k = .done e) :
    ∃ r, e = some r ∧ ReadGives source cells size script k r := by
  have hholds := @tfReadAfter_holds source _ _ script room k
  rw [h] at hholds
  cases e with
  | none => exact absurd hholds id
  | some r => exact ⟨r, rfl, hholds⟩

/-- Unbroken, it returns false for a reason. -/
theorem ReadGives.reason {r : ReadDone} (h : ReadGives source cells size script k r)
    (unbroken : Unbroken source script size) (hr : r.ret = false) :
    (Among (· = .failed) script k ∨ MeetsEnd source script k) ∧ ¬ Arrives source script size := by
  obtain ⟨hint, hzero⟩ := unbroken
  rcases h.partly hr with ⟨hsize, hfail⟩ | h | ⟨j, -, ha, hopen⟩
  · exact absurd hfail (hzero hsize)
  · exact h
  · exact absurd (hint j ha) hopen

/-- `tf_read` does what it is for exactly when no interruption comes before the transfer is over,
and a read of no bytes is not answered with an error. -/
theorem tfRead_reads_iff (room : size ≤ cells.length) :
    Reads source cells size script (tfReadAfter source cells size script) ↔
      Unbroken source script size := by
  refine ⟨unbroken_of_reads room, fun unbroken => ⟨?_, ?_, ?_⟩⟩
  · intro k hk hsettled
    have h := @tfReadAfter_holds source _ _ script room k
    cases hrun : tfReadAfter source cells size script k with
    | again s =>
        rw [hrun] at h
        have hlt := h.short.resolve_left (Nat.pos_iff_ne_zero.mp hk)
        exact absurd hsettled (h.not_settled (by omega))
    | done e =>
        obtain ⟨r, rfl, -⟩ := readGives_of_done room hrun
        exact ⟨r, rfl⟩
  · intro k e he
    obtain ⟨r, rfl, h⟩ := readGives_of_done room he
    refine ⟨r, rfl, ⟨fun hr => (h.full hr).1, fun harr => ?_⟩, fun hr => (h.full hr).2⟩
    by_contra hr
    exact (h.reason unbroken (Bool.eq_false_iff.mpr hr)).2 harr
  · intro k r he hr
    obtain ⟨r', hr', h⟩ := readGives_of_done room he
    cases hr'
    exact (h.reason unbroken hr).1

end

/-- One byte, the answer that brings it, and an interruption nobody sees. -/
theorem tfRead_reads_one :
    1 ≤ (Region.fresh 1 : Region UInt8).length ∧
      (Reads [65] (Region.fresh 1) 1 (fun i => [.moved 0].getD i .interrupted)
          (tfReadAfter [65] (Region.fresh 1) 1 fun i => [.moved 0].getD i .interrupted) ↔
        Unbroken [65] (fun i => [.moved 0].getD i .interrupted) 1) :=
  ⟨by decide, tfRead_reads_iff (by decide)⟩

/-- Both bytes would arrive, but an interruption between them makes `tf_read` return false. -/
theorem tfRead_interrupted :
    ¬ Reads [65, 66] (Region.fresh 2) 2 (fun i => [.moved 0, .interrupted].getD i (.moved 0))
      (tfReadAfter [65, 66] (Region.fresh 2) 2
        fun i => [.moved 0, .interrupted].getD i (.moved 0)) := by
  intro h
  obtain ⟨r, hr, hret, -⟩ := h.verdict 2 (some ⟨false, [some 65, none], [66]⟩) (by decide)
  cases hr
  refine absurd (hret.mpr ⟨3, ?_, by decide, by decide⟩) nofun
  rintro ⟨i, hi, hfail⟩
  rcases i with _ | _ | _ | i
  · cases hfail
  · cases hfail
  · cases hfail
  · omega

/-! ## `tf_write` -/

structure WriteVars where
  /-- how far `rp` has moved -/
  rp : Nat
  size : Nat
  /-- what the descriptor has taken so far, that of earlier calls included -/
  sent : Bytes
  deriving DecidableEq, Repr

structure WriteDone where
  ret : Bool
  sent : Bytes
  deriving DecidableEq, Repr

/-- `while(size > 0)` at the end of the loop of `tf_write`. -/
def WriteVars.test (s : WriteVars) : Next WriteVars (Option WriteDone) :=
  if s.size > 0 then .again s else .done (some ⟨true, s.sent⟩)

/-- One turn of the loop of `tf_write`. The result `none` is a call that reads outside `buf`. -/
def tfWriteTurn (buf : Bytes) (s : WriteVars) (a : Answer) : Next WriteVars (Option WriteDone) :=
  if s.rp + s.size ≤ buf.length then
    match a.returned s.size s.size with
    | .error => .done (some ⟨false, s.sent⟩)
    -- an interruption runs on into `case 0`, which leaves the switch only
    | .eintr | .bytes 0 => s.test
    | .bytes n => WriteVars.test ⟨s.rp + n, s.size - n, s.sent ++ (buf.drop s.rp).take n⟩
  else .done none

/-- What holds while `tf_write` waits, behind what the descriptor had taken before. -/
structure WriteWaits (buf before : Bytes) (s : WriteVars) : Prop where
  inside : s.rp + s.size = buf.length
  sent : s.sent = before ++ buf.take s.rp

/-- What one turn makes of it. -/
def WriteTurns (buf before : Bytes) (s : WriteVars) (a : Answer) :
    Next WriteVars (Option WriteDone) → Prop
  | .again t => WriteWaits buf before t ∧ 0 < t.size ∧ t.size ≤ s.size ∧ a ≠ .failed ∧
      (a ≠ .interrupted → t.size < s.size)
  | .done none => False
  | .done (some r) => (r.ret = true ∧ a ≠ .failed ∧ r.sent = before ++ buf) ∨
      (r.ret = false ∧ a = .failed ∧ r.sent = s.sent)

theorem WriteWaits.test {buf before : Bytes} {s t : WriteVars} {a : Answer}
    (h : WriteWaits buf before t) (hle : t.size ≤ s.size) (hfail : a ≠ .failed)
    (hlt : a ≠ .interrupted → 0 < t.size → t.size < s.size) :
    WriteTurns buf before s a t.test := by
  unfold WriteVars.test
  split
  · rename_i hmore
    exact ⟨h, hmore, hle, hfail, fun ha => hlt ha hmore⟩
  · refine .inl ⟨rfl, hfail, ?_⟩
    have hinside := h.inside
    rw [h.sent, List.take_of_length_le (by omega)]

theorem tfWriteTurn_turns {buf before : Bytes} {s : WriteVars} (h : WriteWaits buf before s)
    (a : Answer) : WriteTurns buf before s a (tfWriteTurn buf s a) := by
  have hinside := h.inside
  rw [tfWriteTurn, if_pos (Nat.le_of_eq hinside)]
  cases a with
  | failed => exact .inr ⟨rfl, rfl, rfl⟩
  | interrupted => exact h.test (Nat.le_refl _) nofun (fun ha => absurd rfl ha)
  | moved k =>
      have hpos := Answer.granted_pos (k := k)
      simp only [Answer.returned, Nat.min_self]
      cases hn : min (Answer.moved k).granted s.size with
      | zero => exact h.test (Nat.le_refl _) nofun (by omega)
      | succ n =>
          refine WriteWaits.test ⟨?_, ?_⟩ ?_ nofun ?_
          · simp only
            omega
          · simp only
            rw [h.sent, List.append_assoc, ← List.take_add]
          · exact Nat.sub_le _ _
          · simp only
            omega

end Tflib.File
