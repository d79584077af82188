import Tflib.Core.Escape
import Tflib.Data.Printf

/-! # The escaping conversions of `tf_vstrprintf`

`@` writes the meta characters of XML as entities and leaves most control
characters out. `?` writes everything but letters, digits and three marks as a
percent sign and two digits.
-/

namespace Tflib.Data

open Tflib.Core Tflib.Core.Escape Format

namespace Printf

variable {φ : Type}

/-! ## Character by character -/

/-- `put` appends the text `write c` of the character that `tmp` points to. -/
def Writes (put : TfStr → Region UInt8 → UInt8 → Option TfStr) (write : UInt8 → Bytes) : Prop :=
  ∀ {xstr : TfStr} {bs : Bytes} {c : UInt8} {tmp : Region UInt8}, xstr.Holds bs → c ≠ 0 →
    Texts.Fits (bs.length + (write c).length) →
      ∃ x, put xstr (some c :: tmp) c = some x ∧ x.Holds (bs ++ write c)

section Loop

variable {put : TfStr → Region UInt8 → UInt8 → Option TfStr} {write : UInt8 → Bytes}

theorem Writes.charLoop (h : Writes put write) {s : Bytes} (hzero : 0 ∉ s) {xstr : TfStr} {bs : Bytes}
    (hholds : xstr.Holds bs) (hfit : Texts.Fits (bs.length + (s.flatMap write).length)) :
    ∃ x, charLoop put ((s ++ [0]).map some) xstr = some x ∧ x.Holds (bs ++ s.flatMap write) := by
  induction s generalizing xstr bs with
  | nil => exact ⟨xstr, rfl, by rwa [List.flatMap_nil, List.append_nil]⟩
  | cons c s ih =>
      have hc : c ≠ 0 := (List.ne_of_not_mem_cons hzero).symm
      rw [List.flatMap_cons, List.length_append] at hfit
      unfold Texts.Fits at hfit
      obtain ⟨mid, hmid, hbegins⟩ := h hholds hc (show Texts.Fits _ by unfold Texts.Fits; omega)
      obtain ⟨x, hx, hends⟩ := ih (List.not_mem_of_not_mem_cons hzero) hbegins (by
        rw [List.length_append]
        unfold Texts.Fits
        omega)
      refine ⟨x, ?_, ?_⟩
      · rw [List.cons_append, List.map_cons, Printf.charLoop]
        simp only [Option.bind_eq_bind, Option.bind_some, if_neg hc]
        rw [hmid]
        exact hx
      · rwa [List.flatMap_cons, ← List.append_assoc]

theorem Writes.putChars (h : Writes put write) (s : CString) {xstr : TfStr} {bs : Bytes}
    (hholds : xstr.Holds bs) (hfit : Texts.Fits (bs.length + (s.val.flatMap write).length))
    (ap : List (Arg φ)) :
    ∃ x, putChars put xstr (.string (some s) :: ap) = some (x, ap) ∧
      x.Holds (bs ++ s.val.flatMap write) := by
  obtain ⟨x, hx, hends⟩ := h.charLoop s.2 hholds hfit
  refine ⟨x, ?_, hends⟩
  change (Printf.charLoop put s.cells xstr).bind _ = _
  rw [show Printf.charLoop put s.cells xstr = some x from hx]
  rfl

end Loop

/-! ## Entities -/

/-- The entities that `@` writes, with the characters they stand for. -/
def entities : List (Bytes × UInt8) := [(literal "&amp;", '&'.toUInt8), (literal "&lt;", '<'.toUInt8),
  (literal "&gt;", '>'.toUInt8), (literal "&quot;", '"'.toUInt8)]

/-- All but the control characters that `@` leaves out. -/
def keepsXml (c : UInt8) : Bool := !((0x1 ≤ c && c ≤ 0x8) || (0x0e ≤ c && c ≤ 0x1f))

/-- The text of a character. -/
def xmlText (c : UInt8) : Bytes :=
  if c = '&'.toUInt8 then literal "&amp;"
  else if c = '<'.toUInt8 then literal "&lt;"
  else if c = '>'.toUInt8 then literal "&gt;"
  else if c = '"'.toUInt8 then literal "&quot;"
  else if keepsXml c then [c]
  else []

/-- The comparisons of a `char` find the same control characters whether it has a sign or not. -/
theorem control_iff (signed : Bool) {c : UInt8} (hc : c ≠ 0) :
    ¬ (0 ≤ charValue signed c ∧ charValue signed c ≤ 0x8 ∨
      0x0e ≤ charValue signed c ∧ charValue signed c ≤ 0x1f) ↔ keepsXml c = true := by
  have hpos : c.toNat ≠ 0 := fun h => hc (UInt8.toNat_inj.mp h)
  have hlt := c.toNat_lt
  have hcases := charValue_cases signed c
  simp only [keepsXml, Bool.not_eq_true', Bool.or_eq_false_iff, Bool.and_eq_false_iff,
    decide_eq_false_iff_not, UInt8.le_iff_toNat_le, UInt8.reduceToNat]
  omega

theorem xmlText_entity : ∀ e ∈ entities, xmlText e.2 = e.1 := by decide

theorem xmlText_plain {c : UInt8} (h : ∀ e ∈ entities, c ≠ e.2) :
    xmlText c = if keepsXml c then [c] else [] := by
  simp only [entities, List.forall_mem_cons] at h
  rw [xmlText, if_neg h.1, if_neg h.2.1, if_neg h.2.2.1, if_neg h.2.2.2.1]

theorem putXmlChar_entity (signed : Bool) (xstr : TfStr) (tmp : Region UInt8) {e : Bytes × UInt8}
    (he : e ∈ entities) :
    putXmlChar signed xstr tmp e.2 = xstr.tfStrcat (e.1.map some) (.ofNat e.1.length) := by
  simp only [entities, List.mem_cons, List.not_mem_nil, or_false] at he
  rcases he with rfl | rfl | rfl | rfl
  all_goals rfl

theorem putXmlChar_plain (signed : Bool) (xstr : TfStr) (tmp : Region UInt8) {c : UInt8} (hc : c ≠ 0)
    (h : ∀ e ∈ entities, c ≠ e.2) :
    putXmlChar signed xstr tmp c = if keepsXml c then xstr.tfStrcat tmp 1 else some xstr := by
  simp only [entities, List.forall_mem_cons] at h
  rw [putXmlChar, if_neg h.1, if_neg h.2.1, if_neg h.2.2.1, if_neg h.2.2.2.1]
  simp only [control_iff signed hc]

theorem putXmlChar_writes (signed : Bool) : Writes (putXmlChar signed) xmlText := by
  intro xstr bs c tmp h hc hfit
  by_cases hentity : ∃ e ∈ entities, c = e.2
  · obtain ⟨e, he, rfl⟩ := hentity
    rw [xmlText_entity e he] at hfit ⊢
    rw [putXmlChar_entity signed xstr _ he]
    exact h.tfStrcat_begins (List.prefix_refl _) hfit
  · have hplain : ∀ e ∈ entities, c ≠ e.2 := fun e he heq => hentity ⟨e, he, heq⟩
    rw [xmlText_plain hplain] at hfit ⊢
    rw [putXmlChar_plain signed xstr _ hc hplain]
    by_cases hkeeps : keepsXml c = true
    · rw [if_pos hkeeps] at hfit ⊢
      rw [if_pos hkeeps]
      have hbegins : Region.Begins (some c :: tmp) [c] := ⟨tmp, rfl⟩
      exact h.tfStrcat_begins hbegins hfit
    · rw [if_neg hkeeps, if_neg hkeeps]
      exact ⟨xstr, rfl, by rwa [List.append_nil]⟩

theorem entities_free : PrefixFree entities := by
  unfold PrefixFree
  decide

/-- Replacing the entities reads an escaped text back. -/
theorem xmlText_reads : Reads xmlText keepsXml (unescape entities) where
  nil := by rw [unescape]
  kept := by
    intro c hkeeps rest
    by_cases hentity : ∃ e ∈ entities, c = e.2
    · obtain ⟨e, he, rfl⟩ := hentity
      have hcode : ∀ e ∈ entities, e.1 ≠ [] := by decide
      rw [xmlText_entity e he]
      exact unescape_code entities_free he (hcode e he) rest
    · have hplain : ∀ e ∈ entities, c ≠ e.2 := fun e he heq => hentity ⟨e, he, heq⟩
      have hhead : ∀ e ∈ entities, e.1 ≠ [] ∧ e.1.head? = some '&'.toUInt8 := by decide
      have hamp : c ≠ '&'.toUInt8 := hplain (literal "&amp;", '&'.toUInt8) List.mem_cons_self
      rw [xmlText_plain hplain, if_pos hkeeps]
      refine unescape_plain (fun e he => ⟨(hhead e he).1, fun h => hamp ?_⟩) rest
      rw [(hhead e he).2, Option.some.injEq] at h
      exact h.symm
  dropped := by
    intro c hkeeps
    have hkept : ∀ e ∈ entities, keepsXml e.2 = true := by decide
    have hplain : ∀ e ∈ entities, c ≠ e.2 := fun e he heq => by
      rw [heq, hkept e he] at hkeeps
      contradiction
    rw [xmlText_plain hplain, hkeeps]
    rfl

theorem xmlText_cases (c : UInt8) : (∃ e ∈ entities, c = e.2 ∧ xmlText c = e.1) ∨
    (∀ e ∈ entities, c ≠ e.2) ∧ (xmlText c = [c] ∨ xmlText c = []) := by
  by_cases hentity : ∃ e ∈ entities, c = e.2
  · obtain ⟨e, he, rfl⟩ := hentity
    exact .inl ⟨e, he, rfl, xmlText_entity e he⟩
  · have hplain : ∀ e ∈ entities, c ≠ e.2 := fun e he heq => hentity ⟨e, he, heq⟩
    refine .inr ⟨hplain, ?_⟩
    rw [xmlText_plain hplain]
    split
    · exact .inl rfl
    · exact .inr rfl

/-- No character of an escaped text is a meta character other than `&`. -/
theorem xmlText_plainChars {c d : UInt8} (h : d ∈ xmlText c) :
    d ≠ '<'.toUInt8 ∧ d ≠ '>'.toUInt8 ∧ d ≠ '"'.toUInt8 := by
  rcases xmlText_cases c with ⟨e, he, -, htext⟩ | ⟨hplain, htext | htext⟩
  · have hall : ∀ e ∈ entities, ∀ d ∈ e.1, d ≠ '<'.toUInt8 ∧ d ≠ '>'.toUInt8 ∧ d ≠ '"'.toUInt8 := by
      decide +kernel
    rw [htext] at h
    exact hall e he d h
  · rw [htext, List.mem_singleton] at h
    subst h
    simp only [entities, List.forall_mem_cons] at hplain
    exact ⟨hplain.2.1, hplain.2.2.1, hplain.2.2.2.1⟩
  · rw [htext] at h
    exact absurd h List.not_mem_nil

theorem xmlText_amp (s : Bytes) {front behind : Bytes}
    (h : s.flatMap xmlText = front ++ '&'.toUInt8 :: behind) :
    ∃ e ∈ entities, e.1 <+: '&'.toUInt8 :: behind := by
  have htail : ∀ c, '&'.toUInt8 ∉ (xmlText c).tail := by
    intro c
    rcases xmlText_cases c with ⟨e, he, -, htext⟩ | ⟨-, htext | htext⟩
    · have hall : ∀ e ∈ entities, '&'.toUInt8 ∉ e.1.tail := by decide
      rw [htext]
      exact hall e he
    · rw [htext]
      exact List.not_mem_nil
    · rw [htext]
      exact List.not_mem_nil
  obtain ⟨c, -, hprefix, hhead⟩ := mark_begins htail h
  rcases xmlText_cases c with ⟨e, he, -, htext⟩ | ⟨hplain, htext | htext⟩
  · exact ⟨e, he, htext ▸ hprefix⟩
  · rw [htext, List.head?_cons, Option.some.injEq] at hhead
    exact absurd hhead (hplain (literal "&amp;", '&'.toUInt8) List.mem_cons_self)
  · rw [htext] at hhead
    cases hhead

/-- A letter, a digit or one of the three marks. -/
def PlainUrlChar (c : UInt8) : Prop :=
  ('A'.toUInt8 ≤ c ∧ c ≤ 'Z'.toUInt8) ∨ ('a'.toUInt8 ≤ c ∧ c ≤ 'z'.toUInt8) ∨
    ('0'.toUInt8 ≤ c ∧ c ≤ '9'.toUInt8) ∨ c = '_'.toUInt8 ∨ c = '-'.toUInt8 ∨ c = '.'.toUInt8

/-- An upper case hexadecimal digit. -/
def UpperHex (c : UInt8) : Prop :=
  ('0'.toUInt8 ≤ c ∧ c ≤ '9'.toUInt8) ∨ ('A'.toUInt8 ≤ c ∧ c ≤ 'F'.toUInt8)

/-- Plain characters, and groups of a percent sign and two digits. -/
inductive UrlText : Bytes → Prop
  | nil : UrlText []
  | plain {c : UInt8} {rest : Bytes} (hc : PlainUrlChar c) (hrest : UrlText rest) : UrlText (c :: rest)
  | group {high low : UInt8} {rest : Bytes} (hhigh : UpperHex high) (hlow : UpperHex low)
      (hrest : UrlText rest) : UrlText ('%'.toUInt8 :: high :: low :: rest)

/-- The value of a hexadecimal digit of either case. -/
def hexValue (c : UInt8) : Option Nat :=
  if '0'.toUInt8 ≤ c ∧ c ≤ '9'.toUInt8 then some (c.toNat - 48)
  else if 'A'.toUInt8 ≤ c ∧ c ≤ 'F'.toUInt8 then some (c.toNat - 55)
  else if 'a'.toUInt8 ≤ c ∧ c ≤ 'f'.toUInt8 then some (c.toNat - 87)
  else none

/-- Every percent sign in front of two digits is replaced, with them, by the byte they stand for. -/
def percentDecode : Bytes → Bytes
  | c :: high :: low :: text =>
      if c = '%'.toUInt8 then
        match hexValue high, hexValue low with
        | some m, some n => .ofNat (16 * m + n) :: percentDecode text
        | _, _ => c :: percentDecode (high :: low :: text)
      else c :: percentDecode (high :: low :: text)
  | c :: text => c :: percentDecode text
  | [] => []

/-- The text of a character. -/
def urlText (c : UInt8) : Bytes := if isUrlChar c then [c] else percentText c

theorem isUrlChar_iff (c : UInt8) : isUrlChar c = true ↔ PlainUrlChar c := by
  have hmark : (c != 0 && strchr (literal "_-.") c) = true ↔
      c = '_'.toUInt8 ∨ c = '-'.toUInt8 ∨ c = '.'.toUInt8 := by
    have hset : literal "_-." = ['_'.toUInt8, '-'.toUInt8, '.'.toUInt8] := rfl
    rw [hset, strchr, Bool.and_eq_true, bne_iff_ne, Bool.or_eq_true, List.contains_iff_mem, beq_iff_eq]
    constructor
    · rintro ⟨hzero, hmem | h⟩
      · simpa using hmem
      · exact absurd h hzero
    · intro h
      refine ⟨?_, .inl (by simpa using h)⟩
      rintro rfl
      exact absurd h (by decide)
  rw [isUrlChar, Bool.or_eq_true, hmark]
  simp only [PlainUrlChar, Bool.or_eq_true, Bool.and_eq_true, decide_eq_true_eq, or_assoc]

theorem hexDigit_spec {n : Nat} (h : n < 16) : UpperHex (hexDigit n) ∧ hexValue (hexDigit n) = some n := by
  have hall : ∀ n : Fin 16, (('0'.toUInt8 ≤ hexDigit n ∧ hexDigit n ≤ '9'.toUInt8) ∨
      ('A'.toUInt8 ≤ hexDigit n ∧ hexDigit n ≤ 'F'.toUInt8)) ∧
        hexValue (hexDigit n) = some n.val := by decide
  exact hall ⟨n, h⟩

theorem percentDecode_group {high low : UInt8} {m n : Nat} (hhigh : hexValue high = some m)
    (hlow : hexValue low = some n) (text : Bytes) :
    percentDecode ('%'.toUInt8 :: high :: low :: text) = .ofNat (16 * m + n) :: percentDecode text := by
  rw [percentDecode, if_pos rfl, hhigh, hlow]

theorem percentDecode_plain {c : UInt8} (hc : c ≠ '%'.toUInt8) (text : Bytes) :
    percentDecode (c :: text) = c :: percentDecode text := by
  match text with
  | [] => rfl
  | [_] => rfl
  | _ :: _ :: _ => rw [percentDecode, if_neg hc]

theorem urlText_percent {c : UInt8} (h : isUrlChar c = true) : c ≠ '%'.toUInt8 := by
  rintro rfl
  exact absurd h (by decide)

/-- Percent decoding reads an escaped text back. -/
theorem urlText_reads : Reads urlText (fun _ => true) percentDecode where
  nil := rfl
  kept := by
    intro c _ rest
    have hc := c.toNat_lt
    unfold urlText
    split
    · rename_i hplain
      exact percentDecode_plain (urlText_percent hplain) rest
    · have hgroup := percentDecode_group (hexDigit_spec (show c.toNat / 16 < 16 by omega)).2
        (hexDigit_spec (show c.toNat % 16 < 16 by omega)).2 rest
      rw [Nat.div_add_mod, UInt8.ofNat_toNat] at hgroup
      exact hgroup
  dropped := fun _ h => (nomatch h)

theorem urlText_urlText (s : Bytes) : UrlText (s.flatMap urlText) := by
  induction s with
  | nil => exact .nil
  | cons c s ih =>
      have hc := c.toNat_lt
      rw [List.flatMap_cons, urlText]
      split
      · rename_i hplain
        exact .plain ((isUrlChar_iff c).mp hplain) ih
      · exact .group (hexDigit_spec (by omega)).1 (hexDigit_spec (by omega)).1 ih

theorem putUrlChar_writes : Writes putUrlChar urlText := by
  intro xstr bs c tmp h hc hfit
  unfold putUrlChar
  unfold urlText at hfit ⊢
  by_cases hplain : isUrlChar c = true
  · rw [if_pos hplain] at hfit ⊢
    rw [if_pos hplain]
    have hbegins : Region.Begins (some c :: tmp) [c] := ⟨tmp, rfl⟩
    exact h.tfStrcat_begins hbegins hfit
  · rw [if_neg hplain] at hfit ⊢
    rw [if_neg hplain]
    have hshort : (percentText c ++ [0]).length ≤ 128 := Nat.le_of_ble_eq_true rfl
    obtain ⟨buf, hstore, -, hbuf⟩ := tbuf_store hshort
    obtain ⟨x, hx, hholds⟩ := h.tfStrcat_begins hbuf.of_append hfit
    refine ⟨x, ?_, hholds⟩
    simp only [hstore, Option.bind_eq_bind, Option.bind_some]
    exact hx

end Printf

end Tflib.Data
