import Tflib.Util.Split

/-! # The `strsep` of SunOS

`tf_string.c` brings its own `strsep` for SunOS. It looks for the delimiters as
one string, where the standard function looks for any one of them. A pointer is
an address in the memory of the string; `none` is NULL.
-/

namespace Tflib.Data

open Tflib.Core Tflib.Util

/-- `strstr`: where `del` first stands in the string. -/
def strstr (del : Bytes) : Bytes → Option Nat
  | [] => if del = [] then some 0 else none
  | c :: s => if del <+: c :: s then some 0 else (strstr del s).map (· + 1)

/-- The string at an address, up to its terminator. -/
def stringAt (mem : Bytes) (a : Nat) : Bytes := (mem.drop a).takeWhile (· ≠ 0)

/-- `strsep`: the memory and the cursor afterwards, and the token. -/
def strsep (del : Bytes) (mem : Bytes) : Option Nat → Bytes × Option Nat × Option Nat
  | none => (mem, none, none)
  | some tok =>
      match strstr del (stringAt mem tok) with
      | some d => (mem.set (tok + d) 0, some (tok + d + 1), some tok)
      | none => (mem, none, some tok)

/-- The tokens of the calls up to the first that leaves NULL in the cursor; there are none if `n` calls do not
get there. -/
def strsepLoop (del : Bytes) : Nat → Bytes → Option Nat → Option (List Bytes)
  | _, _, none => some []
  | 0, _, some _ => none
  | n + 1, mem, some s => do
      let (mem, s, tok) := strsep del mem (some s)
      let tok ← tok
      let rest ← strsepLoop del n mem s
      some (stringAt mem tok :: rest)

/-! ## Occurrences -/

/-- The delimiter as a string is not found, or it is found behind some bytes. -/
theorem strstr_cases (x : UInt8) (del s : Bytes) :
    strstr (x :: del) s = none ∨ ∃ front behind, s = front ++ x :: behind ∧ del <+: behind ∧
      strstr (x :: del) s = some front.length := by
  induction s with
  | nil => exact .inl rfl
  | cons c s ih =>
      rw [strstr]
      by_cases hfound : x :: del <+: c :: s
      · obtain ⟨rfl, hbehind⟩ := List.cons_prefix_cons.mp hfound
        rw [if_pos hfound]
        exact .inr ⟨[], s, rfl, hbehind, rfl⟩
      · rw [if_neg hfound]
        rcases ih with hnone | ⟨front, behind, rfl, hbehind, hsome⟩
        · rw [hnone]
          exact .inl rfl
        · rw [hsome]
          exact .inr ⟨c :: front, behind, rfl, hbehind, rfl⟩

/-- A first byte that does not occur is not found. -/
theorem strstr_none {x : UInt8} {del s : Bytes} (h : x ∉ s) : strstr (x :: del) s = none := by
  rcases strstr_cases x del s with hnone | ⟨front, behind, rfl, -, -⟩
  · exact hnone
  · exact absurd (List.mem_append_right front List.mem_cons_self) h

/-- A single byte is found where it stands first. -/
theorem strstr_single {x : UInt8} {front : Bytes} (h : x ∉ front) (behind : Bytes) :
    strstr [x] (front ++ x :: behind) = some front.length := by
  induction front with
  | nil => exact if_pos (List.cons_prefix_cons.mpr ⟨rfl, List.nil_prefix⟩)
  | cons c front ih =>
      have hc : ¬ [x] <+: c :: (front ++ x :: behind) := fun hprefix =>
        h (List.mem_cons.mpr (.inl (List.cons_prefix_cons.mp hprefix).1))
      rw [List.cons_append, strstr, if_neg hc, ih (List.not_mem_of_not_mem_cons h)]
      rfl

/-! ## The loop -/

theorem stringAt_eq (pre : Bytes) {s : Bytes} (hzero : 0 ∉ s) (rest : Bytes) :
    stringAt (pre ++ (s ++ 0 :: rest)) pre.length = s := by
  have hplain : ∀ c ∈ s, decide (c ≠ 0) = true := fun c hc => decide_eq_true fun h => hzero (h ▸ hc)
  rw [stringAt, List.drop_left, List.takeWhile_append_of_pos hplain, List.takeWhile_cons_of_neg (by simp),
    List.append_nil]

theorem strsepLoop_last {del s : Bytes} (hzero : 0 ∉ s) (hnone : strstr del s = none) (pre : Bytes)
    (n : Nat) : strsepLoop del (n + 1) (pre ++ (s ++ [0])) (some pre.length) = some [s] := by
  have hstring := stringAt_eq pre hzero []
  rw [strsepLoop, strsep, hstring, hnone]
  change (do
    let rest ← strsepLoop del n (pre ++ (s ++ [0])) none
    some (stringAt (pre ++ (s ++ [0])) pre.length :: rest)) = _
  rw [hstring, strsepLoop]
  rfl

/-- Where the delimiter is found, the string in front of it is the token, and the loop goes on behind its
first byte. -/
theorem strsepLoop_found {x : UInt8} {del front behind : Bytes} (hzero : 0 ∉ front ++ x :: behind)
    (hfound : strstr del (front ++ x :: behind) = some front.length) (pre : Bytes) (n : Nat) :
    strsepLoop del (n + 1) (pre ++ (front ++ x :: behind ++ [0])) (some pre.length) =
      (strsepLoop del n (pre ++ (front ++ [0]) ++ (behind ++ [0]))
        (some (pre ++ (front ++ [0])).length)).map (front :: ·) := by
  have hstring := stringAt_eq pre hzero []
  have hset : (pre ++ (front ++ x :: behind ++ [0])).set (pre.length + front.length) 0 =
      pre ++ (front ++ 0 :: (behind ++ [0])) := by
    rw [List.set_append_right _ _ (Nat.le_add_right _ _), Nat.add_sub_cancel_left, List.append_assoc,
      List.set_append_right _ _ (Nat.le_refl _), Nat.sub_self]
    rfl
  have htoken := stringAt_eq pre (fun h => hzero (List.mem_append_left _ h)) (behind ++ [0])
  have hlength : pre.length + front.length + 1 = (pre ++ (front ++ [0])).length := by simp [Nat.add_assoc]
  have hmem : pre ++ (front ++ [0]) ++ (behind ++ [0]) = pre ++ (front ++ 0 :: (behind ++ [0])) := by simp
  rw [strsepLoop, strsep, hstring, hfound, hmem, ← hlength]
  change (do
    let rest ← strsepLoop del n _ _
    some (stringAt _ pre.length :: rest)) = _
  rw [hset, htoken]
  cases strsepLoop del n (pre ++ (front ++ 0 :: (behind ++ [0]))) (some (pre.length + front.length + 1)) <;>
    rfl

/-- A string without delimiters is one token. -/
theorem pieces_free {del s : Bytes} (h : ∀ c ∈ s, c ∉ del) :
    pieces del s = [s] ∧ s.countP del.contains = 0 := by
  have hplain : ∀ c ∈ s, del.contains c = false := fun c hc => by simpa using h c hc
  refine ⟨List.splitOnP_eq_singleton hplain, List.countP_eq_zero.mpr fun c hc => ?_⟩
  rw [hplain c hc]
  exact Bool.false_ne_true

/-- A delimiter of one byte cuts as the standard function does. -/
theorem strsepLoop_single (x : UInt8) {s : Bytes} (hzero : 0 ∉ s) (pre : Bytes) :
    strsepLoop [x] (s.countP [x].contains + 1) (pre ++ (s ++ [0])) (some pre.length) =
      some (pieces [x] s) := by
  induction hlen : s.length using Nat.strong_induction_on generalizing s pre with
  | _ len ih =>
      by_cases hx : x ∈ s
      · obtain ⟨front, behind, rfl, hfront⟩ := List.eq_append_cons_of_mem hx
        have hfree : ∀ c ∈ front, c ∉ [x] := fun c hc hmem =>
          hfront (List.mem_singleton.mp hmem ▸ hc)
        have hmem : [x].contains x = true := by simp
        have hzero' : 0 ∉ behind := fun h => hzero (List.mem_append_right _ (List.mem_cons_of_mem x h))
        have hshort : behind.length < len := by
          rw [← hlen, List.length_append, List.length_cons]
          omega
        have hpieces : pieces [x] (front ++ x :: behind) = front :: pieces [x] behind :=
          List.splitOnP_append_cons_of_forall_mem (fun c hc => by simpa using hfree c hc) x hmem behind
        rw [List.countP_append, (pieces_free hfree).2, Nat.zero_add, List.countP_cons_of_pos hmem,
          strsepLoop_found hzero (strstr_single hfront behind), ih _ hshort hzero' _ rfl, hpieces]
        rfl
      · have hfree : ∀ c ∈ s, c ∉ [x] := fun c hc hmem => hx (List.mem_singleton.mp hmem ▸ hc)
        rw [(pieces_free hfree).1, (pieces_free hfree).2, strsepLoop_last hzero (strstr_none hx)]

/-- A longer one leaves some of its bytes in the tokens. -/
theorem strsepLoop_leaves {x y : UInt8} {del s : Bytes} (hzero : 0 ∉ s)
    (hdel : ∃ c ∈ s, c ∈ x :: y :: del) (pre : Bytes) {n : Nat} {toks : List Bytes}
    (hloop : strsepLoop (x :: y :: del) n (pre ++ (s ++ [0])) (some pre.length) = some toks) :
    ∃ tok ∈ toks, ∃ c ∈ tok, c ∈ x :: y :: del := by
  induction n generalizing s pre toks with
  | zero => cases hloop
  | succ n ih =>
      rcases strstr_cases x (y :: del) s with hnone | ⟨front, behind, rfl, hbehind, hfound⟩
      · rw [strsepLoop_last hzero hnone] at hloop
        cases hloop
        exact ⟨s, List.mem_cons_self, hdel⟩
      · rw [strsepLoop_found hzero hfound] at hloop
        obtain ⟨rest, hrest, rfl⟩ := Option.map_eq_some_iff.mp hloop
        have hmem : y ∈ behind := hbehind.subset List.mem_cons_self
        have hzero' : 0 ∉ behind := fun h => hzero (List.mem_append_right _ (List.mem_cons_of_mem x h))
        obtain ⟨tok, htok, hleft⟩ :=
          ih hzero' ⟨y, hmem, List.mem_cons_of_mem x List.mem_cons_self⟩ _ hrest
        exact ⟨tok, List.mem_cons_of_mem front htok, hleft⟩

/-- All calls until the cursor is NULL, of which there are to be one more than delimiters, give the tokens of
the standard function. -/
def SameTokens (del s : CString) : Prop :=
  strsepLoop del.val (s.val.countP del.val.contains + 1) s.bytes (some 0) = some (pieces del.val s.val)

instance (del s : CString) : Decidable (SameTokens del s) := inferInstanceAs (Decidable (_ = _))

/-- The function does what the standard one does where the delimiter is a single byte, or none of its bytes
stands in the string. -/
theorem sameTokens_iff (del s : CString) (h : del.val ≠ []) :
    SameTokens del s ↔ del.val.length = 1 ∨ ∀ c ∈ s.val, c ∉ del.val := by
  obtain ⟨x, rest, hdel⟩ := List.exists_cons_of_ne_nil h
  unfold SameTokens
  rw [hdel]
  constructor
  · intro hsame
    cases rest with
    | nil => exact .inl rfl
    | cons y rest =>
        refine .inr fun c hc hmem => ?_
        obtain ⟨tok, htok, d, hd, hleft⟩ := strsepLoop_leaves s.2 ⟨c, hc, hmem⟩ [] hsame
        have hfree := splitOnP_free htok d hd
        simp only [List.contains_eq_mem, hleft, decide_true, Bool.true_eq_false] at hfree
  · intro hcase
    by_cases hfree : ∀ c ∈ s.val, c ∉ x :: rest
    · rw [(pieces_free hfree).1, (pieces_free hfree).2]
      exact strsepLoop_last s.2 (strstr_none fun hx => hfree x hx List.mem_cons_self) [] 0
    · have hone := hcase.resolve_right hfree
      obtain rfl : rest = [] := List.eq_nil_of_length_eq_zero (Nat.succ.inj hone)
      exact strsepLoop_single x s.2 []

theorem sameTokens_iff_comma : [','.toUInt8] ≠ [] ∧ (SameTokens ⟨[','.toUInt8], by decide⟩
    ⟨['a'.toUInt8, ','.toUInt8], by decide⟩ ↔ [','.toUInt8].length = 1 ∨
      ∀ c ∈ ['a'.toUInt8, ','.toUInt8], c ∉ [','.toUInt8]) :=
  ⟨by decide, sameTokens_iff ⟨_, by decide⟩ ⟨_, by decide⟩ (by decide)⟩

/-- The string `a b` with the delimiters blank and tab is one token. -/
theorem sameTokens_fails : ¬ ∀ del s : CString, del.val ≠ [] → SameTokens del s := by
  intro h
  have hsame := h ⟨[' '.toUInt8, 9], by decide⟩ ⟨['a'.toUInt8, ' '.toUInt8, 'b'.toUInt8], by decide⟩
    (by decide)
  exact absurd hsame (by decide)

end Tflib.Data
