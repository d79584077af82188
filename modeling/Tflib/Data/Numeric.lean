import Tflib.Data.Printf

/-! # The numeric conversions of `tf_vstrprintf`

The integer conversions have no bound, the floating point conversions are cut
off by `snprintf`, and the binary conversion has at most 64 columns.
-/

namespace Tflib.Data

open Tflib.Core Tflib.Util Format

namespace Printf

variable {φ : Type}

/-! ## What a numeric conversion is to append -/

/-- A binary numeral with at least one digit, in a field of the given width. -/
def binaryText (num : Nat) (width : Int) (fill : UInt8) : Bytes :=
  let numeral := if num = 0 then ['0'.toUInt8] else binaryDigits num
  List.replicate (width.toNat - numeral.length) fill ++ numeral

/-- The character that fills the field of a binary numeral. -/
def fillChar (first : UInt8) : UInt8 := if first = '0'.toUInt8 then '0'.toUInt8 else ' '.toUInt8

/-- `t` is the text of the conversion that `cbuf` holds, for the argument `a`. That of `b` is not left
to `libc`: its field width is the number at the head of the flags and has to be an `int`, and a
negative one asks for no field. -/
inductive Denotes (libc : Libc φ) (cbuf : Region UInt8) (lnum : Nat) : UInt8 → Arg φ → Bytes → Prop
  | integer {c : UInt8} {a : Arg φ} {spec t : Bytes} (hc : c ∈ integerChars)
      (ha : vaInteger lnum [a] = some (a, [])) (hspec : cString cbuf = some spec)
      (ht : libc.text spec a = some t) : Denotes libc cbuf lnum c a t
  | float {c : UInt8} {a : Arg φ} {spec t : Bytes} (hc : c ∈ floatChars)
      (ha : vaFloat lnum [a] = some (a, [])) (hspec : cString cbuf = some spec)
      (ht : libc.text spec a = some t) : Denotes libc cbuf lnum c a t
  | binary {a : Arg φ} {width : Int} {first : UInt8} (ha : vaInteger lnum [a] = some (a, []))
      (hwidth : tfAtoi (cbuf.drop 1) = some width) (hlo : -2 ^ 31 ≤ width) (hhi : width < 2 ^ 31)
      (hfirst : cbuf.get 1 = some first) :
      Denotes libc cbuf lnum 'b'.toUInt8 a (binaryText (toUnsigned a).toNat width (fillChar first))

/-- The text, or its first 127 characters and a `*`. -/
def bounded (t : Bytes) : Bytes := if t.length ≤ 127 then t else t.take 127 ++ ['*'.toUInt8]

/-- The inputs that each scheme of bounding a conversion is right for. -/
structure Bounds (cbuf : Region UInt8) (c : UInt8) (a : Arg φ) (t : Bytes) : Prop where
  integer : c ∈ integerChars → t.length ≤ 127
  float : c ∈ floatChars → t.length ≠ 128
  binary : c = 'b'.toUInt8 → ∀ width ∈ tfAtoi (cbuf.drop 1), width ≤ 64 ∧
    ((toUnsigned a).toNat ≠ 0 ∨ width ≤ 0 ∨ cbuf.get 1 = some '0'.toUInt8)

/-! ## Taking the argument -/

theorem vaInteger_cons {lnum : Nat} {a : Arg φ} (h : vaInteger lnum [a] = some (a, []))
    (ap : List (Arg φ)) :
    vaInteger lnum (a :: ap) = some (a, ap) := by
  cases a with
  | longLong n =>
      have hnum : 1 < lnum := by simpa [vaInteger] using h
      exact if_pos hnum
  | long n =>
      have hnum : lnum = 1 := by simpa [vaInteger] using h
      exact if_pos hnum
  | int n =>
      have hnum : lnum = 0 := by simpa [vaInteger] using h
      exact if_pos hnum
  | string s => contradiction
  | double x => contradiction
  | longDouble x => contradiction

theorem vaFloat_cons {lnum : Nat} {a : Arg φ} (h : vaFloat lnum [a] = some (a, [])) (ap : List (Arg φ)) :
    vaFloat lnum (a :: ap) = some (a, ap) := by
  cases a with
  | longDouble x =>
      have hnum : ¬ lnum = 0 := by simpa [vaFloat] using h
      exact if_pos (Nat.pos_of_ne_zero hnum)
  | double x =>
      have hnum : lnum = 0 := by simpa [vaFloat] using h
      exact if_pos hnum
  | string s => contradiction
  | int n => contradiction
  | long n => contradiction
  | longLong n => contradiction

/-! ## The three schemes -/

section Scheme

variable {libc : Libc φ} {cbuf : Region UInt8} {lnum : Nat} {a : Arg φ} {spec t : Bytes} {xstr : TfStr}
  {bs : Bytes}

theorem sprintf_eq (hspec : cString cbuf = some spec) (ht : libc.text spec a = some t) :
    sprintf libc tbuf cbuf a =
      (tbuf.store 0 ((t ++ [0]).map some)).bind fun buf => some (buf, .ofNat t.length) := by
  simp [sprintf, hspec, ht]

/-- Nothing bounds what `sprintf` stores. -/
theorem putInteger_long (ha : vaInteger lnum [a] = some (a, [])) (hspec : cString cbuf = some spec)
    (ht : libc.text spec a = some t) (hlong : 127 < t.length) (ap : List (Arg φ)) :
    putInteger libc cbuf lnum xstr (a :: ap) = none := by
  have hfull : tbuf.store 0 ((t ++ [0]).map some) = none := by
    refine if_neg ?_
    rw [tbuf_length, List.length_map, List.length_append, List.length_singleton]
    omega
  simp only [putInteger, vaInteger_cons ha, sprintf_eq hspec ht, hfull, Option.bind_eq_bind, Option.bind_some,
    Option.bind_none]

theorem putInteger_iff (ha : vaInteger lnum [a] = some (a, [])) (hspec : cString cbuf = some spec)
    (ht : libc.text spec a = some t) (h : xstr.Holds bs) (hfit : Texts.Fits (bs.length + 128))
    (ap : List (Arg φ)) :
    (∃ x, putInteger libc cbuf lnum xstr (a :: ap) = some (x, ap) ∧ x.Holds (bs ++ bounded t)) ↔
      t.length ≤ 127 := by
  by_cases hshort : t.length ≤ 127
  · obtain ⟨buf, hstore, -, hbuf⟩ := tbuf_store (show (t ++ [0]).length ≤ 128 by
      rw [List.length_append, List.length_singleton]
      omega)
    have hfit' : Texts.Fits (bs.length + t.length) := by
      unfold Texts.Fits at hfit ⊢
      omega
    obtain ⟨x, hx, hholds⟩ := h.tfStrcat_begins hbuf.of_append hfit'
    refine ⟨fun _ => hshort, fun _ => ⟨x, ?_, ?_⟩⟩
    · simp only [putInteger, vaInteger_cons ha, sprintf_eq hspec ht, hstore, hx, Option.bind_eq_bind,
        Option.bind_some]
    · rwa [bounded, if_pos hshort]
  · refine iff_of_false ?_ hshort
    rintro ⟨x, hrun, -⟩
    rw [putInteger_long ha hspec ht (by omega)] at hrun
    contradiction

/-- What `snprintf` leaves in the buffer, and what is made of it. -/
theorem putFloat_eq (ha : vaFloat lnum [a] = some (a, [])) (hspec : cString cbuf = some spec)
    (ht : libc.text spec a = some t) (h : xstr.Holds bs) (hfit : Texts.Fits (bs.length + 128))
    (ap : List (Arg φ)) :
    ∃ x, putFloat libc cbuf lnum xstr (a :: ap) = some (x, ap) ∧
      x.Holds (bs ++ if t.length = 128 then t.take 127 ++ [0] else bounded t) := by
  obtain ⟨buf, hstore, hlen, hbuf⟩ := tbuf_store (show (t.take 127 ++ [0]).length ≤ 128 by
    rw [List.length_append, List.length_take, List.length_singleton]
    omega)
  have hsnprintf : snprintf libc tbuf tbuf.length cbuf a = some (buf, .ofNat t.length) := by
    simp only [snprintf, hspec, ht, tbuf_length, Option.bind_eq_bind, Option.bind_some]
    exact congrArg (Option.bind · fun buf => some (buf, Int32.ofNat t.length)) hstore
  have hpos : ¬ Int32.ofNat t.length < 0 := Int32.not_lt.mpr (ofNat_nonneg (libc.text_lt ht))
  have hsize : sizeT (.ofNat t.length) = t.length := sizeT_ofNat (libc.text_lt ht)
  unfold Texts.Fits at hfit
  simp only [putFloat, vaFloat_cons ha, hsnprintf, hsize, hlen, hpos, false_or, Option.bind_eq_bind,
    Option.bind_some]
  by_cases hlong : 128 < t.length
  · have hfront : (t.take 127).length = 127 := by
      rw [List.length_take]
      omega
    obtain ⟨starred, hstar, hlen', hstarred⟩ := hbuf.replace '*'.toUInt8
    rw [hfront] at hstar
    have hcut : (t.take 127 ++ ['*'.toUInt8]).length = 128 := by
      rw [List.length_append, hfront, List.length_singleton]
    obtain ⟨x, hx, hholds⟩ := h.tfStrcat_begins hstarred (by unfold Texts.Fits; omega)
    rw [hcut] at hx
    rw [if_pos hlong, if_neg (by omega), bounded, if_neg (by omega)]
    refine ⟨x, ?_, hholds⟩
    simp only [hstar, hlen', hlen, hx, Option.bind_some]
  · rw [if_neg hlong]
    by_cases hexact : t.length = 128
    · have hfull : (t.take 127 ++ [0]).length = t.length := by
        rw [List.length_append, List.length_take, List.length_singleton]
        omega
      obtain ⟨x, hx, hholds⟩ := h.tfStrcat_begins hbuf (by unfold Texts.Fits; omega)
      rw [hfull] at hx
      rw [if_pos hexact]
      exact ⟨x, by rw [hx, Option.bind_some], hholds⟩
    · have hshort : t.length ≤ 127 := by omega
      rw [List.take_of_length_le hshort] at hbuf
      obtain ⟨x, hx, hholds⟩ := h.tfStrcat_begins hbuf.of_append (by unfold Texts.Fits; omega)
      rw [if_neg hexact, bounded, if_pos hshort]
      exact ⟨x, by rw [hx, Option.bind_some], hholds⟩

/-- A text of exactly 128 characters loses its last one to the terminator of `snprintf`. -/
theorem putFloat_iff (ha : vaFloat lnum [a] = some (a, [])) (hspec : cString cbuf = some spec)
    (ht : libc.text spec a = some t) (h : xstr.Holds bs) (hfit : Texts.Fits (bs.length + 128))
    (ap : List (Arg φ)) :
    (∃ x, putFloat libc cbuf lnum xstr (a :: ap) = some (x, ap) ∧ x.Holds (bs ++ bounded t)) ↔
      t.length ≠ 128 := by
  obtain ⟨x, hx, hholds⟩ := putFloat_eq ha hspec ht h hfit ap
  by_cases hexact : t.length = 128
  · refine iff_of_false ?_ (by omega)
    rintro ⟨x', hx', hholds'⟩
    rw [hx, Option.some.injEq, Prod.mk.injEq] at hx'
    rw [if_pos hexact] at hholds
    rw [← hx'.1] at hholds'
    have hsame := List.append_cancel_left (hholds.unique hholds')
    rw [bounded, if_neg (by omega)] at hsame
    have hlast := List.append_cancel_left hsame
    exact absurd hlast (by decide)
  · rw [if_neg hexact] at hholds
    exact ⟨fun _ => hexact, fun _ => ⟨x, hx, hholds⟩⟩

end Scheme

theorem binaryText_length {num : Nat} (h : num < 2 ^ 64) (width : Int) (fill : UInt8) :
    width.toNat ≤ (binaryText num width fill).length ∧
      (binaryText num width fill).length ≤ max width.toNat 64 := by
  have hdigits := binaryDigits_length_le h
  have hnumeral : (if num = 0 then ['0'.toUInt8] else binaryDigits num).length ≤ 64 := by
    split
    · rw [List.length_singleton]
      omega
    · exact hdigits
  rw [binaryText, List.length_append, List.length_replicate]
  omega

/-- The columns stop at 64, and zero has no digit in them. -/
theorem strbin_eq_iff {num : Nat} (h : num < 2 ^ 64) (width : Int) (fill : UInt8) :
    strbin num width fill = bounded (binaryText num width fill) ↔
      width ≤ 64 ∧ (num ≠ 0 ∨ width ≤ 0 ∨ fill = '0'.toUInt8) := by
  obtain ⟨hlo, hhi⟩ := binaryText_length h width fill
  by_cases hwide : width ≤ 64
  · rw [bounded, if_pos (by omega)]
    by_cases hneg : width ≤ 0
    · have hnone : width.toNat = 0 := by omega
      refine iff_of_true ?_ ⟨hwide, .inr (.inl hneg)⟩
      rw [strbin, if_neg (by omega), binaryText, hnone, Nat.zero_sub]
      rfl
    · have hcols : min width.toNat 64 = width.toNat := by omega
      rw [strbin, if_pos (by omega), hcols]
      by_cases hzero : num = 0
      · subst hzero
        obtain ⟨n, hn⟩ : ∃ n, width.toNat = n + 1 := ⟨width.toNat - 1, by omega⟩
        rw [binaryText, if_pos rfl, hn, binaryDigits_zero, List.append_nil, List.length_nil, Nat.sub_zero,
          List.length_singleton, Nat.add_sub_cancel, List.replicate_succ']
        constructor
        · intro heq
          have hlast := List.append_cancel_left heq
          exact ⟨hwide, .inr (.inr (List.head_eq_of_cons_eq hlast))⟩
        · rintro ⟨-, hnum | hnone | hfill⟩
          · exact absurd rfl hnum
          · omega
          · rw [hfill]
      · rw [binaryText, if_neg hzero]
        exact iff_of_true rfl ⟨hwide, .inl hzero⟩
  · refine iff_of_false ?_ fun hall => hwide hall.1
    intro heq
    have hshort := strbin_length_le h width fill
    have hlong : 65 ≤ (bounded (binaryText num width fill)).length := by
      unfold bounded
      split
      · omega
      · rw [List.length_append, List.length_take, List.length_singleton]
        omega
    rw [← heq] at hlong
    omega

/-- Whatever the number and the flags are, the buffer is large enough for `tf_num2strbin`. -/
theorem putBinary_eq {cbuf : Region UInt8} {lnum : Nat} {a : Arg φ} {width : Int} {first : UInt8}
    {xstr : TfStr} {bs : Bytes} (ha : vaInteger lnum [a] = some (a, []))
    (hwidth : tfAtoi (cbuf.drop 1) = some width) (hfirst : cbuf.get 1 = some first) (h : xstr.Holds bs)
    (hfit : Texts.Fits (bs.length + 128)) (ap : List (Arg φ)) :
    ∃ x, putBinary cbuf lnum xstr (a :: ap) = some (x, ap) ∧
      x.Holds (bs ++ strbin (toUnsigned a).toNat (Int32.ofInt width).toInt (fillChar first)) := by
  have hroom : 65 ≤ tbuf.length := by
    rw [tbuf_length]
    omega
  obtain ⟨buf, hrun, hbuf, -⟩ := tfNum2strbin_eq (toUnsigned a) hroom
    (.ofInt width) (fillChar first)
  have hshort := strbin_length_le (toUnsigned a).toNat_lt (Int32.ofInt width).toInt (fillChar first)
  unfold Texts.Fits at hfit
  obtain ⟨x, hx, hholds⟩ := h.tfStrcat_begins hbuf.of_append (by unfold Texts.Fits; omega)
  refine ⟨x, ?_, hholds⟩
  unfold fillChar at hrun hx
  simp only [putBinary, vaInteger_cons ha, hwidth, hfirst, hrun, hx, Option.bind_eq_bind, Option.bind_some]

theorem fillChar_eq_zero (first : UInt8) : fillChar first = '0'.toUInt8 ↔ first = '0'.toUInt8 := by
  unfold fillChar
  split
  · rename_i h
    exact iff_of_true rfl h
  · rename_i h
    exact iff_of_false (by decide) h

/-! ## Every numeric conversion -/

section Convert

variable (libc : Libc φ) (signed : Bool) (cbuf : Region UInt8) (lnum : Nat) (xstr : TfStr)
  (ap : List (Arg φ))

theorem convert_integer {c : UInt8} (hc : c ∈ integerChars) :
    convert libc signed (xstr, ap) (.conversion cbuf lnum c) = putInteger libc cbuf lnum xstr ap := by
  have hs : c ≠ 's'.toUInt8 := by
    rintro rfl
    exact absurd hc (by decide)
  rw [convert, if_neg hs, if_pos (List.contains_iff_mem.mpr hc)]

theorem convert_float {c : UInt8} (hc : c ∈ floatChars) :
    convert libc signed (xstr, ap) (.conversion cbuf lnum c) = putFloat libc cbuf lnum xstr ap := by
  have hall : ∀ c ∈ floatChars, c ≠ 's'.toUInt8 ∧ ¬ integerChars.contains c = true :=
    forall_mem_of_all (by decide)
  obtain ⟨hs, hinteger⟩ := hall c hc
  rw [convert, if_neg hs, if_neg hinteger, if_pos (List.contains_iff_mem.mpr hc)]

theorem convert_binary :
    convert libc signed (xstr, ap) (.conversion cbuf lnum 'b'.toUInt8) = putBinary cbuf lnum xstr ap := rfl

end Convert

/-- The number behind the `%` of a conversion. -/
def specWidth (spec : Bytes) : Nat :=
  ((spec.drop 1).takeWhile fun c => '0'.toUInt8 ≤ c && c ≤ '9'.toUInt8).foldl
    (fun n c => 10 * n + (c.toNat - 48)) 0

def plainText : Arg Unit → Bytes
  | .int n => (Nat.toDigits 10 n.toNat).map fun c => .ofNat c.toNat
  | .double _ => literal "0.000000"
  | _ => []

/-- A `libc` for unsigned decimal numbers and for zero as a floating point number, each in a field of
the width that the conversion gives. -/
def plainLibc : Libc Unit where
  text spec a :=
    if max (specWidth spec) (plainText a).length < 2 ^ 31 then
      some (List.replicate (specWidth spec - (plainText a).length) ' '.toUInt8 ++ plainText a)
    else none
  text_lt := by
    intro spec a t h
    split at h
    · cases h
      rw [List.length_append, List.length_replicate]
      omega
    · contradiction

theorem fits_tbuf : Texts.Fits (([] : Bytes).length + 128) := show 0 + 128 + 1 < 2 ^ 31 by decide

end Printf

end Tflib.Data
