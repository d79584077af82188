import Tflib.Core.Trim
import Tflib.Util.Strings
import Mathlib.Logic.Relation

/-! # Trimming a string in place

`tf_strtrim` of `tf_util.c` copies the string onto itself without the blanks in
front of it and then erases those at its end. An access outside of the memory
that the string stands in is `none`.
-/

namespace Tflib.Util

open Tflib.Core

/-- The memory from the string on, the two cursors in it and the flag of the copying loop. -/
structure Trimming where
  cells : Region UInt8
  rp : Nat
  wp : Nat
  head : Bool

/-- The body of the loop for the byte `c` that `rp` points to. -/
def copyByte (signed : Bool) (c : UInt8) (t : Trimming) : Option Trimming :=
  if blankChar signed c then
    if !t.head then do
      let cells ← t.cells.store t.wp [some c]
      some ⟨cells, t.rp + 1, t.wp + 1, t.head⟩
    else some ⟨t.cells, t.rp + 1, t.wp, t.head⟩
  else do
    let cells ← t.cells.store t.wp [some c]
    some ⟨cells, t.rp + 1, t.wp + 1, false⟩

/-- The copying loop. Each turn reads a cell, so it has no more turns than the memory has cells. -/
def copyLoop (signed : Bool) : Nat → Trimming → Option Trimming
  | 0, _ => none
  | n + 1, t => do
      let c ← t.cells.get t.rp
      if charValue signed c ≠ 0 then do
        let t ← copyByte signed c t
        copyLoop signed n t
      else some t

/-- The loop that erases the blanks in front of `wp`. -/
def eraseLoop (signed : Bool) (cells : Region UInt8) : Nat → Option (Region UInt8)
  | 0 => some cells
  | wp + 1 => do
      let c ← cells.get wp
      if blankChar signed c then do
        let cells ← cells.store wp [some 0]
        eraseLoop signed cells wp
      else some cells

/-- `tf_strtrim`: the memory from the string on, afterwards. -/
def tfStrtrimChars (signed : Bool) (str : Region UInt8) : Option (Region UInt8) := do
  let t ← copyLoop signed (str.length + 1) ⟨str, 0, 0, true⟩
  let cells ← t.cells.store t.wp [some 0]
  eraseLoop signed cells t.wp

/-- A turn of the copying loop. -/
def CopyTurn (signed : Bool) (t t' : Trimming) : Prop :=
  ∃ c, t.cells.get t.rp = some c ∧ c ≠ 0 ∧ copyByte signed c t = some t'

/-! ## Copying -/

/-- The bytes `front` are read and the bytes `todo` are not. Behind what is copied stand cells of
bytes that are read. -/
structure Copied (front todo : Bytes) (behind : Region UInt8) (t : Trimming) : Prop where
  read : t.rp = front.length
  written : t.wp = (front.dropWhile isBlank).length
  empty : t.head = (front.dropWhile isBlank).isEmpty
  cells : ∃ gap : Region UInt8, (front.dropWhile isBlank).length + gap.length = front.length ∧
    t.cells = (front.dropWhile isBlank).map some ++ (gap ++ (todo.map some ++ behind))

namespace Copied

variable {front todo : Bytes} {behind : Region UInt8} {t : Trimming}

theorem start (s : Bytes) (behind : Region UInt8) :
    Copied [] s behind ⟨s.map some ++ behind, 0, 0, true⟩ :=
  ⟨rfl, rfl, rfl, [], rfl, rfl⟩

/-- The write position does not pass the read position. -/
theorem wp_le_rp (h : Copied front todo behind t) : t.wp ≤ t.rp := by
  rw [h.written, h.read]
  exact (List.dropWhile_suffix isBlank).length_le

theorem get {c : UInt8} (h : Copied front (c :: todo) behind t) : t.cells.get t.rp = some c := by
  obtain ⟨gap, hgap, hcells⟩ := h.cells
  have hplace : front.length = ((front.dropWhile isBlank).map some ++ gap).length := by
    rw [List.length_append, List.length_map, hgap]
  rw [Region.get, hcells, h.read, ← List.append_assoc, hplace, List.getElem?_append_right (Nat.le_refl _),
    Nat.sub_self]
  rfl

theorem get_end (h : Copied front [] (some 0 :: behind) t) : t.cells.get t.rp = some 0 := by
  have hnext : Copied front [0] behind t := ⟨h.read, h.written, h.empty, h.cells⟩
  exact hnext.get

/-- A byte is stored behind the others that are copied, over the first cell that is free. -/
theorem store {c : UInt8} (h : Copied front (c :: todo) behind t)
    (hkept : (front ++ [c]).dropWhile isBlank = front.dropWhile isBlank ++ [c]) :
    ∃ cells, t.cells.store t.wp [some c] = some cells ∧
      Copied (front ++ [c]) todo behind ⟨cells, t.rp + 1, t.wp + 1, false⟩ := by
  obtain ⟨gap, hgap, hcells⟩ := h.cells
  have hroom : [c].length ≤ (gap ++ ((c :: todo).map some ++ behind)).length := by
    simp only [List.length_append, List.length_map, List.length_cons, List.length_nil]
    omega
  have hstore := Region.store_behind (front.dropWhile isBlank) [c] _ hroom
  rw [← hcells, ← h.written] at hstore
  refine ⟨_, hstore, ?_, ?_, ?_, (gap ++ [some c]).drop 1, ?_, ?_⟩
  · simp [h.read]
  · simp [hkept, h.written]
  · simp [hkept]
  · simp only [hkept, List.length_append, List.length_drop, List.length_singleton]
    omega
  · rw [hkept]
    cases gap <;> simp

/-- The step of the loop. -/
theorem step (signed : Bool) {c : UInt8} (h : Copied front (c :: todo) behind t) :
    ∃ t', copyByte signed c t = some t' ∧ Copied (front ++ [c]) todo behind t' := by
  have hkept := @List.dropWhile_append _ isBlank front [c]
  unfold copyByte
  rw [blankChar_eq, h.empty]
  by_cases hblank : isBlank c = true
  · by_cases hhead : (front.dropWhile isBlank).isEmpty = true
    · -- a blank in front of everything else: only `rp` moves
      have hnil := List.isEmpty_iff.mp hhead
      rw [if_pos hhead, List.dropWhile_cons_of_pos hblank, List.dropWhile_nil] at hkept
      obtain ⟨gap, hgap, hcells⟩ := h.cells
      rw [hnil] at hgap hcells
      refine ⟨⟨t.cells, t.rp + 1, t.wp, true⟩, ?_, ?_, ?_, ?_, gap ++ [some c], ?_, ?_⟩
      · simp [hblank, hhead]
      · simp [h.read]
      · rw [hkept, h.written, hnil]
      · rw [hkept]
        rfl
      · simpa [hkept] using hgap
      · rw [hkept, hcells]
        simp
    · rw [if_neg hhead] at hkept
      obtain ⟨cells, hstore, hcopied⟩ := h.store hkept
      refine ⟨_, ?_, hcopied⟩
      simp [hblank, hhead, hstore]
  · have hkeep : (front ++ [c]).dropWhile isBlank = front.dropWhile isBlank ++ [c] := by
      rw [hkept, List.dropWhile_cons_of_neg hblank]
      split
      · rename_i hhead
        rw [List.isEmpty_iff.mp hhead, List.nil_append]
      · rfl
    obtain ⟨cells, hstore, hcopied⟩ := h.store hkeep
    refine ⟨_, ?_, hcopied⟩
    simp [hblank, hstore]

end Copied

/-- The loop copies what is left of the string. -/
theorem copyLoop_copied (signed : Bool) {front todo : Bytes} {behind : Region UInt8} {t : Trimming}
    (h : Copied front todo (some 0 :: behind) t) (hzero : 0 ∉ todo) {n : Nat} (hn : todo.length < n) :
    ∃ t', copyLoop signed n t = some t' ∧ Copied (front ++ todo) [] (some 0 :: behind) t' := by
  induction todo generalizing front t n with
  | nil =>
      obtain ⟨m, rfl⟩ := Nat.exists_eq_succ_of_ne_zero (Nat.ne_of_gt hn)
      refine ⟨t, ?_, by rwa [List.append_nil]⟩
      rw [copyLoop, h.get_end]
      exact if_neg (not_not.mpr ((charValue_eq_zero signed).mpr rfl))
  | cons c todo ih =>
      obtain ⟨m, rfl⟩ := Nat.exists_eq_succ_of_ne_zero (Nat.ne_of_gt (Nat.lt_of_le_of_lt (Nat.zero_le _) hn))
      have hc : charValue signed c ≠ 0 := fun hc =>
        hzero ((charValue_eq_zero signed).mp hc ▸ List.mem_cons_self)
      obtain ⟨next, hnext, hcopied⟩ := h.step signed
      obtain ⟨t', ht', hdone⟩ := ih hcopied (List.not_mem_of_not_mem_cons hzero)
        (Nat.lt_of_succ_lt_succ hn)
      refine ⟨t', ?_, by rwa [List.append_assoc] at hdone⟩
      rw [copyLoop, h.get]
      change (if charValue signed c ≠ 0 then _ else _) = _
      rw [if_pos hc, hnext]
      exact ht'

/-- Whatever the loop reaches, the write position has not passed the read position. -/
theorem wp_le_rp_of_turns {signed : Bool} {str : CString} {behind : Region UInt8} {t : Trimming}
    (h : Relation.ReflTransGen (CopyTurn signed) ⟨str.cells ++ behind, 0, 0, true⟩ t) : t.wp ≤ t.rp := by
  have hreached : ∃ front todo, 0 ∉ todo ∧ Copied front todo (some 0 :: behind) t := by
    induction h with
    | refl =>
        have hstart := Copied.start str.val (some 0 :: behind)
        refine ⟨[], str.val, str.2, ?_⟩
        simpa [CString.cells] using hstart
    | tail _ hturn ih =>
        obtain ⟨front, todo, hzero, hcopied⟩ := ih
        obtain ⟨c, hget, hc, hbyte⟩ := hturn
        cases todo with
        | nil =>
            rw [hcopied.get_end] at hget
            cases hget
            exact absurd rfl hc
        | cons d todo =>
            rw [hcopied.get] at hget
            cases hget
            obtain ⟨next, hnext, hcopied'⟩ := hcopied.step signed
            cases hbyte.symm.trans hnext
            exact ⟨_, todo, List.not_mem_of_not_mem_cons hzero, hcopied'⟩
  obtain ⟨front, todo, -, hcopied⟩ := hreached
  exact hcopied.wp_le_rp

/-! ## Erasing the tail -/

/-- The loop turns the blanks at the end into zeros. -/
theorem eraseLoop_eq (signed : Bool) (kept : Bytes) (hzero : 0 ∉ kept) (rest : Region UInt8) :
    ∃ gap : Region UInt8, (kept.rdropWhile isBlank).length + gap.length = kept.length ∧
      eraseLoop signed (kept.map some ++ some 0 :: rest) kept.length =
        some ((kept.rdropWhile isBlank).map some ++ some 0 :: (gap ++ rest)) := by
  induction kept using List.reverseRecOn generalizing rest with
  | nil => exact ⟨[], rfl, rfl⟩
  | append_singleton kept c ih =>
      have hget : Region.get ((kept ++ [c]).map some ++ some 0 :: rest) kept.length = some c := by
        simp [Region.get]
      rw [List.length_append, List.length_singleton, eraseLoop, hget]
      by_cases hblank : isBlank c = true
      · have hstore := Region.store_middle (kept.map some) [some c] [some 0] (some 0 :: rest) rfl
        obtain ⟨gap, hgap, hloop⟩ := ih (fun h => hzero (List.mem_append_left _ h)) (some 0 :: rest)
        rw [List.length_map] at hstore
        refine ⟨gap ++ [some 0], ?_, ?_⟩
        · rw [List.rdropWhile_concat_pos _ _ _ hblank, List.length_append, List.length_singleton]
          omega
        · rw [List.rdropWhile_concat_pos _ _ _ hblank, List.append_assoc]
          change (if blankChar signed c = true then _ else _) = _
          rw [blankChar_eq, if_pos hblank]
          simp only [List.map_append, List.map_cons, List.map_nil, List.append_assoc]
          rw [hstore]
          exact hloop
      · refine ⟨[], ?_, ?_⟩
        · rw [List.rdropWhile_concat_neg _ _ _ hblank, List.length_append]
          rfl
        · rw [List.rdropWhile_concat_neg _ _ _ hblank]
          change (if blankChar signed c = true then _ else _) = _
          rw [blankChar_eq, if_neg hblank]
          rfl

/-- The memory after the call: the trimmed string, its terminator, as many cells as bytes are trimmed,
and what stands behind the string. -/
theorem tfStrtrimChars_eq (signed : Bool) (str : CString) (behind : Region UInt8) :
    ∃ gap : Region UInt8, (tfStrtrim str).val.length + gap.length = str.val.length ∧
      tfStrtrimChars signed (str.cells ++ behind) = some ((tfStrtrim str).cells ++ (gap ++ behind)) := by
  have hstart := Copied.start str.val (some 0 :: behind)
  have hmemory : str.val.map some ++ some 0 :: behind = str.cells ++ behind := by simp [CString.cells]
  rw [hmemory] at hstart
  have hturns : str.val.length < (str.cells ++ behind).length + 1 := by
    simp only [CString.cells, List.length_append, List.length_map, List.length_singleton]
    omega
  obtain ⟨t, hloop, hcopied⟩ := copyLoop_copied signed hstart str.2 hturns
  obtain ⟨gap, hgap, hcells⟩ := hcopied.cells
  have hwritten := hcopied.written
  rw [List.nil_append] at hgap hcells hwritten
  -- the terminator goes over the first cell behind what is copied
  have hroom : [(0 : UInt8)].length ≤ (gap ++ some 0 :: behind).length := by
    simp only [List.length_append, List.length_cons, List.length_nil]
    omega
  have hstore := Region.store_behind (str.val.dropWhile isBlank) [0] _ hroom
  rw [List.map_append, List.append_assoc] at hstore
  have hrest : (gap ++ some 0 :: behind).drop 1 = (gap ++ [some 0]).drop 1 ++ behind := by
    cases gap <;> simp
  have hkept : 0 ∉ str.val.dropWhile isBlank := fun h =>
    str.2 ((List.dropWhile_suffix isBlank).subset h)
  obtain ⟨erased, herased, herase⟩ := eraseLoop_eq signed _ hkept ((gap ++ some 0 :: behind).drop 1)
  refine ⟨erased ++ (gap ++ [some 0]).drop 1, ?_, ?_⟩
  · change ((str.val.dropWhile isBlank).rdropWhile isBlank).length + _ = _
    simp only [List.length_append, List.length_drop, List.length_singleton]
    omega
  · rw [tfStrtrimChars, hloop]
    change (do
      let cells ← t.cells.store t.wp [some 0]
      eraseLoop signed cells t.wp) = _
    rw [hcells, hwritten]
    refine (congrArg (fun r => r >>= fun cells => eraseLoop signed cells _) hstore).trans ?_
    refine herase.trans ?_
    rw [hrest, CString.cells, List.map_append, List.append_assoc, List.append_assoc]
    rfl

/-- `tf_strtrim` trims the string where it stands: what it leaves is the trimmed string, the write position
never passes the read position, a second call changes nothing, and no byte above 127 is lost. -/
theorem tfStrtrimChars_in_place (signed : Bool) (str : CString) (behind : Region UInt8) :
    (∃ gap : Region UInt8, (tfStrtrim str).val.length + gap.length = str.val.length ∧
      tfStrtrimChars signed (str.cells ++ behind) = some ((tfStrtrim str).cells ++ (gap ++ behind)) ∧
      tfStrtrimChars signed ((tfStrtrim str).cells ++ (gap ++ behind)) =
        some ((tfStrtrim str).cells ++ (gap ++ behind))) ∧
    (tfStrtrim str).val = trim (fun c => 1 ≤ c && c ≤ 32) str.val ∧
    (∀ t, Relation.ReflTransGen (CopyTurn signed) ⟨str.cells ++ behind, 0, 0, true⟩ t → t.wp ≤ t.rp) ∧
    (tfStrtrim str).val.filter (127 < ·) = str.val.filter (127 < ·) := by
  have hagain : tfStrtrim (tfStrtrim str) = tfStrtrim str := Subtype.ext (trim_trim str.val)
  refine ⟨?_, ?_, fun t => wp_le_rp_of_turns, ?_⟩
  · obtain ⟨gap, hgap, hcall⟩ := tfStrtrimChars_eq signed str behind
    obtain ⟨none, hnone, hsecond⟩ := tfStrtrimChars_eq signed (tfStrtrim str) (gap ++ behind)
    rw [hagain] at hnone hsecond
    have hnil : none = [] := List.eq_nil_of_length_eq_zero (by omega)
    rw [hnil, List.nil_append] at hsecond
    exact ⟨gap, hgap, hcall, hsecond⟩
  · have hsame : isBlank = fun c => 1 ≤ c && c ≤ 32 := by
      funext c
      have hpos : 0 < c ↔ 1 ≤ c := by
        rw [UInt8.lt_iff_toNat_lt, UInt8.le_iff_toNat_le]
        exact Nat.lt_iff_add_one_le
      rw [isBlank, decide_eq_decide.mpr hpos]
      rfl
    rw [← hsame]
    rfl
  · refine filter_trim (fun c hblank => ?_) str.val
    have hle : c ≤ ' '.toUInt8 := of_decide_eq_true (Bool.and_eq_true_iff.mp hblank).2
    have hlow : ¬ 127 < c := UInt8.not_lt.mpr (UInt8.le_trans hle (by decide))
    exact decide_eq_false hlow

end Tflib.Util
