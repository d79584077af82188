import Tflib.Core.Trim
import Tflib.Util.Numerals

/-! # Which strings `tf_strisnum` accepts

The function scans a string once and never goes back. A pointer to a string is
the memory from there on, and a read behind that memory is `none`.
-/

namespace Tflib.Util

open Tflib.Core

def digitChar (signed : Bool) (c : UInt8) : Bool :=
  '0'.toNat ≤ charValue signed c && charValue signed c ≤ '9'.toNat

/-- The loop over blanks. -/
def skipBlankChars (signed : Bool) : Bytes → Option Bytes
  | [] => none
  | c :: str => if blankChar signed c then skipBlankChars signed str else some (c :: str)

/-- The loop over digits, which sets `isnum`. -/
def skipDigits (signed : Bool) : Bool → Bytes → Option (Bool × Bytes)
  | _, [] => none
  | isnum, c :: str =>
      if digitChar signed c then skipDigits signed true str else some (isnum, c :: str)

/-- `if(*str == mark) str++;` -/
def skipMark (signed : Bool) (mark : UInt8) : Bytes → Option Bytes
  | [] => none
  | c :: str => some (if charValue signed c = mark.toNat then str else c :: str)

/-- `tf_strisnum` -/
def tfStrisnum (signed : Bool) (str : Bytes) : Option Bool := do
  let str ← skipBlankChars signed str
  let str ← skipMark signed '-'.toUInt8 str
  let (isnum, str) ← skipDigits signed false str
  let str ← skipMark signed '.'.toUInt8 str
  let (isnum, str) ← skipDigits signed isnum str
  let str ← skipBlankChars signed str
  let c ← str.head?
  some (isnum && charValue signed c = 0)

/-! ## The grammar -/

/-- The parts of a number, one after the other. -/
structure NumberParts (lead sign whole point fraction trail : Bytes) : Prop where
  lead_blank : ∀ c ∈ lead, isBlank c = true
  sign_eq : sign = [] ∨ sign = ['-'.toUInt8]
  whole_digits : ∀ c ∈ whole, isDigit c = true
  point_eq : point = [] ∨ point = ['.'.toUInt8]
  fraction_digits : ∀ c ∈ fraction, isDigit c = true
  some_digit : whole ≠ [] ∨ fraction ≠ []
  trail_blank : ∀ c ∈ trail, isBlank c = true

def IsNumber (s : Bytes) : Prop :=
  ∃ lead sign whole point fraction trail, NumberParts lead sign whole point fraction trail ∧
    s = lead ++ (sign ++ (whole ++ (point ++ (fraction ++ trail))))

/-! ## The scan -/

theorem digitChar_eq (signed : Bool) (c : UInt8) : digitChar signed c = isDigit c := by
  have hbetween : ('0'.toNat : Int) ≤ charValue signed c ∧ charValue signed c ≤ '9'.toNat ↔
      '0'.toNat ≤ c.toNat ∧ c.toNat ≤ '9'.toNat := charValue_between signed (by decide)
  have hlo : '0'.toUInt8 ≤ c ↔ '0'.toNat ≤ c.toNat := UInt8.le_iff_toNat_le
  have hhi : c ≤ '9'.toUInt8 ↔ c.toNat ≤ '9'.toNat := UInt8.le_iff_toNat_le
  rw [Bool.eq_iff_iff, digitChar, isDigit, Bool.and_eq_true, Bool.and_eq_true, decide_eq_true_iff,
    decide_eq_true_iff, decide_eq_true_iff, decide_eq_true_iff, hlo, hhi]
  exact hbetween

/-- What stands behind a mark, if there is one. -/
def behindMark (mark : UInt8) (s : Bytes) : Bytes := if s.head? = some mark then s.drop 1 else s

theorem skipBlankChars_eq (signed : Bool) (s rest : Bytes) :
    skipBlankChars signed (s ++ 0 :: rest) = some (s.dropWhile isBlank ++ 0 :: rest) := by
  induction s with
  | nil =>
      rw [List.nil_append, skipBlankChars, blankChar_eq]
      rfl
  | cons c s ih =>
      rw [List.cons_append, skipBlankChars, blankChar_eq, List.dropWhile_cons]
      split
      · exact ih
      · rfl

theorem skipDigits_eq (signed isnum : Bool) (s rest : Bytes) :
    skipDigits signed isnum (s ++ 0 :: rest) =
      some (isnum || s.takeWhile isDigit ≠ [], s.dropWhile isDigit ++ 0 :: rest) := by
  induction s generalizing isnum with
  | nil =>
      rw [List.nil_append, skipDigits, digitChar_eq]
      change some (isnum, 0 :: rest) = _
      simp
  | cons c s ih =>
      rw [List.cons_append, skipDigits, digitChar_eq, List.dropWhile_cons, List.takeWhile_cons]
      by_cases hdigit : isDigit c = true
      · rw [if_pos hdigit, if_pos hdigit, if_pos hdigit, ih]
        simp
      · rw [if_neg hdigit, if_neg hdigit, if_neg hdigit]
        simp

theorem skipMark_eq (signed : Bool) {mark : UInt8} (hpos : mark ≠ 0) (hlow : mark.toNat < 128)
    (s rest : Bytes) :
    skipMark signed mark (s ++ 0 :: rest) = some (behindMark mark s ++ 0 :: rest) := by
  have hiff : ∀ c, charValue signed c = mark.toNat ↔ c = mark := by
    intro c
    have hbetween := @charValue_between signed c mark.toNat mark.toNat hlow
    rw [← UInt8.toNat_inj]
    omega
  cases s with
  | nil =>
      rw [List.nil_append, skipMark, if_neg (mt (hiff 0).mp hpos.symm)]
      rfl
  | cons c s =>
      rw [List.cons_append, skipMark, behindMark, List.head?_cons]
      by_cases hc : c = mark
      · rw [if_pos ((hiff c).mpr hc), if_pos (congrArg some hc)]
        rfl
      · rw [if_neg (mt (hiff c).mp hc), if_neg (fun h => hc (Option.some.inj h))]
        rfl

theorem behindMark_split (mark : UInt8) (s : Bytes) :
    ∃ front, (front = [] ∨ front = [mark]) ∧ s = front ++ behindMark mark s := by
  unfold behindMark
  cases s with
  | nil => exact ⟨[], .inl rfl, by simp⟩
  | cons c s =>
      by_cases hc : c = mark
      · refine ⟨[mark], .inr rfl, ?_⟩
        rw [List.head?_cons, if_pos (congrArg some hc), hc]
        rfl
      · refine ⟨[], .inl rfl, ?_⟩
        rw [List.head?_cons, if_neg (fun h => hc (Option.some.inj h))]
        rfl

theorem behindMark_of_head {mark : UInt8} {s : Bytes} (h : ∀ c ∈ s.head?, c ≠ mark) :
    behindMark mark s = s := if_neg fun hmark => h mark hmark rfl

theorem behindMark_cons (mark : UInt8) (s : Bytes) : behindMark mark (mark :: s) = s := if_pos rfl

/-- The whole scan in terms of the string. -/
def scanned (s : Bytes) : Bool :=
  let core := behindMark '-'.toUInt8 (s.dropWhile isBlank)
  let rest := behindMark '.'.toUInt8 (core.dropWhile isDigit)
  (core.takeWhile isDigit ≠ [] || rest.takeWhile isDigit ≠ []) &&
    (rest.dropWhile isDigit).dropWhile isBlank = []

theorem behindMark_suffix (mark : UInt8) (s : Bytes) : behindMark mark s <:+ s := by
  obtain ⟨front, -, hsplit⟩ := behindMark_split mark s
  exact ⟨front, hsplit.symm⟩

/-- The byte at the end of a scan is the terminator where nothing of the string is left. -/
theorem head_scanned (signed : Bool) {tail : Bytes} (hzero : 0 ∉ tail) (rest : Bytes) :
    ∃ c, (tail ++ 0 :: rest).head? = some c ∧ (charValue signed c = 0 ↔ tail = []) := by
  cases tail with
  | nil => exact ⟨0, rfl, by simp [charValue_eq_zero]⟩
  | cons c tail =>
      have hc : c ≠ 0 := (List.ne_of_not_mem_cons hzero).symm
      exact ⟨c, rfl, by simp [charValue_eq_zero, hc]⟩

theorem tfStrisnum_eq (signed : Bool) (str : CString) (rest : Bytes) :
    tfStrisnum signed (str.val ++ 0 :: rest) = some (scanned str.val) := by
  have hminus := @skipMark_eq signed '-'.toUInt8 (by decide) (by decide)
  have hpoint := @skipMark_eq signed '.'.toUInt8 (by decide) (by decide)
  have hlead : str.val.dropWhile isBlank <:+ str.val := List.dropWhile_suffix isBlank
  have hcore := (behindMark_suffix '-'.toUInt8 _).trans hlead
  simp only [scanned, tfStrisnum, skipBlankChars_eq, hminus, hpoint, skipDigits_eq, Option.bind_eq_bind,
    Option.bind_some, Bool.false_or]
  generalize behindMark '-'.toUInt8 (str.val.dropWhile isBlank) = core at hcore ⊢
  have hrest := (behindMark_suffix '.'.toUInt8 _).trans ((List.dropWhile_suffix isDigit).trans hcore)
  generalize behindMark '.'.toUInt8 (core.dropWhile isDigit) = rest' at hrest ⊢
  have htail := (List.dropWhile_suffix isBlank).trans ((List.dropWhile_suffix isDigit).trans hrest)
  obtain ⟨c, hhead, hend⟩ := head_scanned signed (fun h => str.2 (htail.subset h)) rest
  rw [hhead, Option.bind_some, decide_eq_decide.mpr hend]

/-! ## The scan and the grammar -/

theorem isNumber_of_scanned {s : Bytes} (h : scanned s = true) : IsNumber s := by
  simp only [scanned, Bool.and_eq_true, Bool.or_eq_true, decide_eq_true_iff] at h
  obtain ⟨sign, hsign, hlead⟩ := behindMark_split '-'.toUInt8 (s.dropWhile isBlank)
  have hs := List.takeWhile_append_dropWhile (p := isBlank) (l := s)
  generalize behindMark '-'.toUInt8 (s.dropWhile isBlank) = core at h hlead
  obtain ⟨point, hpoint, hcore⟩ := behindMark_split '.'.toUInt8 (core.dropWhile isDigit)
  have hwhole := List.takeWhile_append_dropWhile (p := isDigit) (l := core)
  generalize behindMark '.'.toUInt8 (core.dropWhile isDigit) = rest at h hcore
  have hrest := List.takeWhile_append_dropWhile (p := isDigit) (l := rest)
  refine ⟨s.takeWhile isBlank, sign, core.takeWhile isDigit, point, rest.takeWhile isDigit,
    rest.dropWhile isDigit, ⟨fun c hc => List.mem_takeWhile_imp hc, hsign,
      fun c hc => List.mem_takeWhile_imp hc, hpoint, fun c hc => List.mem_takeWhile_imp hc, h.1,
      List.dropWhile_eq_nil_iff.mp h.2⟩, ?_⟩
  rw [hrest, ← hcore, hwhole, ← hlead, hs]

theorem blank_not_digit {c : UInt8} (h : isBlank c = true) : isDigit c = false := by
  by_contra hdigit
  rw [(digit_plain (Bool.not_eq_false _ ▸ hdigit)).1] at h
  cases h

namespace NumberParts

variable {lead sign whole point fraction trail : Bytes}

/-- The digits and the point that are behind the sign begin with a byte that is neither a blank nor a
sign. -/
theorem core_head (h : NumberParts lead sign whole point fraction trail) :
    ∀ c ∈ (whole ++ (point ++ (fraction ++ trail))).head?, isBlank c = false ∧ c ≠ '-'.toUInt8 := by
  have hdigit : ∀ d, isDigit d = true → isBlank d = false ∧ d ≠ '-'.toUInt8 := fun d hd =>
    ⟨(digit_plain hd).1, (digit_plain hd).2.1⟩
  cases whole with
  | cons d whole => exact fun c hc => Option.some.inj hc ▸ hdigit d (h.whole_digits d List.mem_cons_self)
  | nil =>
      rcases h.point_eq with rfl | rfl
      · cases fraction with
        | cons d fraction =>
            exact fun c hc => Option.some.inj hc ▸ hdigit d (h.fraction_digits d List.mem_cons_self)
        | nil => exact absurd h.some_digit (by simp)
      · exact fun c hc => Option.some.inj hc ▸ by decide

theorem behind_sign (h : NumberParts lead sign whole point fraction trail) :
    behindMark '-'.toUInt8 ((lead ++ (sign ++ (whole ++ (point ++ (fraction ++ trail))))).dropWhile
      isBlank) = whole ++ (point ++ (fraction ++ trail)) := by
  have hhead := h.core_head
  generalize whole ++ (point ++ (fraction ++ trail)) = core at hhead ⊢
  rcases h.sign_eq with rfl | rfl
  · rw [List.nil_append, (run_append h.lead_blank fun c hc => (hhead c hc).1).2]
    exact behindMark_of_head fun c hc => (hhead c hc).2
  · have hstop : ∀ c ∈ (['-'.toUInt8] ++ core).head?, isBlank c = false := fun c hc =>
      Option.some.inj hc ▸ by decide
    rw [(run_append h.lead_blank hstop).2]
    exact behindMark_cons _ core

/-- The parts are what the scan finds, but that it takes all digits for the whole part if there is no
point. -/
theorem scanned (h : NumberParts lead sign whole point fraction trail) :
    scanned (lead ++ (sign ++ (whole ++ (point ++ (fraction ++ trail))))) = true := by
  have htrail : ∀ c ∈ trail.head?, isDigit c = false := fun c hc =>
    blank_not_digit (h.trail_blank c (List.mem_of_mem_head? hc))
  have hend := List.dropWhile_eq_nil_iff.mpr h.trail_blank
  have hfraction := run_append h.fraction_digits htrail
  rw [Util.scanned, h.behind_sign]
  rcases h.point_eq with rfl | rfl
  · have hdigits : ∀ c ∈ whole ++ fraction, isDigit c = true := fun c hc =>
      (List.mem_append.mp hc).elim (h.whole_digits c) (h.fraction_digits c)
    have hrun := run_append hdigits htrail
    have hpoint : behindMark '.'.toUInt8 trail = trail := behindMark_of_head fun c hc hmark => by
      have hblank := h.trail_blank c (List.mem_of_mem_head? hc)
      rw [hmark] at hblank
      exact absurd hblank (by decide)
    have hne : whole ++ fraction ≠ [] := fun hnil =>
      h.some_digit.elim (· (List.append_eq_nil_iff.mp hnil).1) (· (List.append_eq_nil_iff.mp hnil).2)
    rw [List.nil_append, ← List.append_assoc, hrun.1, hrun.2, hpoint, dropWhile_of_head htrail, hend]
    simp [hne]
  · have hstop : ∀ c ∈ (['.'.toUInt8] ++ (fraction ++ trail)).head?, isDigit c = false := fun c hc =>
      Option.some.inj hc ▸ by decide
    have hrun := run_append h.whole_digits hstop
    have hpoint := behindMark_cons '.'.toUInt8 (fraction ++ trail)
    rw [hrun.1, hrun.2, List.singleton_append, hpoint, hfraction.1, hfraction.2, hend]
    simpa using h.some_digit

end NumberParts

/-- `tf_strisnum` accepts the strings of the grammar and no others, with either kind of `char`. -/
theorem tfStrisnum_iff (signed : Bool) (str : CString) (rest : Bytes) :
    ∃ isnum, tfStrisnum signed (str.val ++ 0 :: rest) = some isnum ∧
      (isnum = true ↔ IsNumber str.val) := by
  refine ⟨scanned str.val, tfStrisnum_eq signed str rest, isNumber_of_scanned, ?_⟩
  rintro ⟨lead, sign, whole, point, fraction, trail, hparts, hstr⟩
  rw [hstr]
  exact hparts.scanned

end Tflib.Util
