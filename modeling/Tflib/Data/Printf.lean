import Tflib.Data.Format
import Tflib.Data.Str
import Tflib.Util.Numbers

/-! # `tf_vstrprintf`

The text of a conversion that is left to `sprintf` or `snprintf` is a parameter.
The arguments are the list that `va_arg` takes them from; taking one of another
type is a fault.
-/

namespace Tflib.Data

open Tflib.Core Tflib.Util Format

/-- An argument as it is passed; the type of floating point numbers is left open. -/
inductive Arg (φ : Type)
  | string (s : Option CString)
  | int (n : UInt32)
  | long (n : UInt64)
  | longLong (n : UInt64)
  | double (x : φ)
  | longDouble (x : φ)

/-- What `libc` makes of one conversion: its text is shorter than `int` can count, and there is none
where the call returns a negative number. -/
structure Libc (φ : Type) where
  text : Bytes → Arg φ → Option Bytes
  text_lt : ∀ {spec : Bytes} {a : Arg φ} {t : Bytes}, text spec a = some t → t.length < 2 ^ 31

namespace Printf

variable {φ : Type}

/-- The string that a `char *` points to. -/
def cString : Region UInt8 → Option Bytes
  | [] => none
  | cell :: mem => do
      let c ← cell
      if c = 0 then some []
      else do
        let s ← cString mem
        some (c :: s)

/-- `sprintf(buf, format, a)`: the buffer and the result. -/
def sprintf (libc : Libc φ) (buf format : Region UInt8) (a : Arg φ) : Option (Region UInt8 × Int32) := do
  let spec ← cString format
  match libc.text spec a with
  | none => some (buf, -1)
  | some t => do
      let buf ← buf.store 0 ((t ++ [0]).map some)
      some (buf, .ofNat t.length)

/-- `snprintf(buf, n, format, a)` for a positive `n`. -/
def snprintf (libc : Libc φ) (buf : Region UInt8) (n : Nat) (format : Region UInt8) (a : Arg φ) :
    Option (Region UInt8 × Int32) := do
  let spec ← cString format
  match libc.text spec a with
  | none => some (buf, -1)
  | some t => do
      let buf ← buf.store 0 ((t.take (n - 1) ++ [0]).map some)
      some (buf, .ofNat t.length)

/-! ## The arguments -/

def vaString : List (Arg φ) → Option (Option CString × List (Arg φ))
  | .string s :: ap => some (s, ap)
  | _ => none

/-- The integer that `lnum` asks for. -/
def vaInteger (lnum : Nat) : List (Arg φ) → Option (Arg φ × List (Arg φ))
  | .longLong n :: ap => if 2 ≤ lnum then some (.longLong n, ap) else none
  | .long n :: ap => if lnum = 1 then some (.long n, ap) else none
  | .int n :: ap => if lnum = 0 then some (.int n, ap) else none
  | _ => none

/-- The floating point number that `lnum` asks for. -/
def vaFloat (lnum : Nat) : List (Arg φ) → Option (Arg φ × List (Arg φ))
  | .longDouble x :: ap => if 1 ≤ lnum then some (.longDouble x, ap) else none
  | .double x :: ap => if lnum = 0 then some (.double x, ap) else none
  | _ => none

/-- An integer as the `uint64_t` parameter of `tf_num2strbin`. -/
def toUnsigned : Arg φ → UInt64
  | .int n => n.toUInt64
  | .long n => n
  | .longLong n => n
  | _ => 0

/-- `tmp`, with the text that stands for `NULL`. -/
def orNull (s : Option CString) : CString := s.getD ⟨literal "(null)", by decide⟩

/-! ## The conversions -/

/-- `char tbuf[TFNUMBUFSIZ*4]` -/
def tbuf : Region UInt8 := Region.fresh (tfNumBufSiz * 4)

/-- `d`, `o`, `u`, `x`, `X` and `c` -/
def putInteger (libc : Libc φ) (cbuf : Region UInt8) (lnum : Nat) (xstr : TfStr) (ap : List (Arg φ)) :
    Option (TfStr × List (Arg φ)) := do
  let (a, ap) ← vaInteger lnum ap
  let (tbuf, tlen) ← sprintf libc tbuf cbuf a
  let xstr ← xstr.tfStrcat tbuf tlen
  some (xstr, ap)

/-- `e`, `E`, `f`, `g` and `G` -/
def putFloat (libc : Libc φ) (cbuf : Region UInt8) (lnum : Nat) (xstr : TfStr) (ap : List (Arg φ)) :
    Option (TfStr × List (Arg φ)) := do
  let (a, ap) ← vaFloat lnum ap
  let (tbuf, tlen) ← snprintf libc tbuf tbuf.length cbuf a
  if tlen < 0 ∨ tbuf.length < sizeT tlen then do
    let tbuf ← tbuf.store (tbuf.length - 1) [some '*'.toUInt8]
    let xstr ← xstr.tfStrcat tbuf (.ofNat tbuf.length)
    some (xstr, ap)
  else do
    let xstr ← xstr.tfStrcat tbuf tlen
    some (xstr, ap)

/-- `b` -/
def putBinary (cbuf : Region UInt8) (lnum : Nat) (xstr : TfStr) (ap : List (Arg φ)) :
    Option (TfStr × List (Arg φ)) := do
  let (a, ap) ← vaInteger lnum ap
  let col ← tfAtoi (cbuf.drop 1)
  let first ← cbuf.get 1
  let fc := if first = '0'.toUInt8 then '0'.toUInt8 else ' '.toUInt8
  let (tbuf, tlen) ← tfNum2strbin (toUnsigned a) tbuf (.ofInt col) fc
  let xstr ← xstr.tfStrcat tbuf tlen
  some (xstr, ap)

/-- One round of the loop for `@`; `tmp` begins with the character `c`. -/
def putXmlChar (signed : Bool) (xstr : TfStr) (tmp : Region UInt8) (c : UInt8) : Option TfStr :=
  if c = '&'.toUInt8 then xstr.tfStrcat ((literal "&amp;").map some) 5
  else if c = '<'.toUInt8 then xstr.tfStrcat ((literal "&lt;").map some) 4
  else if c = '>'.toUInt8 then xstr.tfStrcat ((literal "&gt;").map some) 4
  else if c = '"'.toUInt8 then xstr.tfStrcat ((literal "&quot;").map some) 6
  else if ¬ (0 ≤ charValue signed c ∧ charValue signed c ≤ 0x8 ∨
      0x0e ≤ charValue signed c ∧ charValue signed c ≤ 0x1f) then xstr.tfStrcat tmp 1
  else some xstr

/-- A digit of `%02X`. -/
def hexDigit (n : Nat) : UInt8 := if n < 10 then .ofNat (48 + n) else .ofNat (55 + n)

/-- The text of `%%%02X`. -/
def percentText (c : UInt8) : Bytes := ['%'.toUInt8, hexDigit (c.toNat / 16), hexDigit (c.toNat % 16)]

/-- The characters that `?` leaves as they are. -/
def isUrlChar (c : UInt8) : Bool :=
  ('A'.toUInt8 ≤ c && c ≤ 'Z'.toUInt8) || ('a'.toUInt8 ≤ c && c ≤ 'z'.toUInt8) ||
    ('0'.toUInt8 ≤ c && c ≤ '9'.toUInt8) || (c != 0 && strchr (literal "_-.") c)

/-- One round of the loop for `?`. -/
def putUrlChar (xstr : TfStr) (tmp : Region UInt8) (c : UInt8) : Option TfStr :=
  if isUrlChar c then xstr.tfStrcat tmp 1
  else do
    let tbuf ← tbuf.store 0 ((percentText c ++ [0]).map some)
    xstr.tfStrcat tbuf (.ofNat (percentText c).length)

/-- `while(*tmp)`, with `put` for the body. -/
def charLoop (put : TfStr → Region UInt8 → UInt8 → Option TfStr) : Region UInt8 → TfStr → Option TfStr
  | [], _ => none
  | cell :: tmp, xstr => do
      let c ← cell
      if c = 0 then some xstr
      else do
        let xstr ← put xstr (cell :: tmp) c
        charLoop put tmp xstr

def putString (xstr : TfStr) (ap : List (Arg φ)) : Option (TfStr × List (Arg φ)) := do
  let (s, ap) ← vaString ap
  let xstr ← xstr.tfStrcat2 (orNull s)
  some (xstr, ap)

/-- `@` and `?` -/
def putChars (put : TfStr → Region UInt8 → UInt8 → Option TfStr) (xstr : TfStr) (ap : List (Arg φ)) :
    Option (TfStr × List (Arg φ)) := do
  let (s, ap) ← vaString ap
  let xstr ← charLoop put (orNull s).cells xstr
  some (xstr, ap)

def integerChars : Bytes := literal "douxXc"

def floatChars : Bytes := literal "eEfgG"

/-- What `tf_vstrprintf` does with a piece of its format; other conversion characters do nothing. -/
def convert (libc : Libc φ) (signed : Bool) :
    TfStr × List (Arg φ) → Piece → Option (TfStr × List (Arg φ))
  | (xstr, ap), .text c => do
      let xstr ← xstr.tfStrcat [some c] 1
      some (xstr, ap)
  | (xstr, ap), .conversion cbuf lnum c =>
      if c = 's'.toUInt8 then putString xstr ap
      else if integerChars.contains c then putInteger libc cbuf lnum xstr ap
      else if floatChars.contains c then putFloat libc cbuf lnum xstr ap
      else if c = '@'.toUInt8 then putChars (putXmlChar signed) xstr ap
      else if c = '?'.toUInt8 then putChars putUrlChar xstr ap
      else if c = 'b'.toUInt8 then putBinary cbuf lnum xstr ap
      else if c = '%'.toUInt8 then do
        let xstr ← xstr.tfStrcat ((literal "%").map some) 1
        some (xstr, ap)
      else some (xstr, ap)

/-- `tf_vstrprintf`: the string and the arguments that are left. -/
def tfVstrprintf (libc : Libc φ) (signed : Bool) (xstr : TfStr) (format : Region UInt8)
    (ap : List (Arg φ)) : Option (TfStr × List (Arg φ)) :=
  formatLoop (convert libc signed) format (xstr, ap)

/-- `tf_sprintf`: the region of a new string. -/
def tfSprintf (libc : Libc φ) (signed : Bool) (format : Region UInt8) (ap : List (Arg φ)) :
    Option (Region UInt8) := do
  let xstr ← TfStr.tfStrnew
  let (xstr, _) ← tfVstrprintf libc signed xstr format ap
  some xstr.ptr

/-- A call that stays within its format and `cbuf` has a well formed format. -/
theorem wellFormed_of_tfVstrprintf {libc : Libc φ} {signed : Bool} {xstr : TfStr} {fmt : CString}
    {ap : List (Arg φ)} {r : TfStr × List (Arg φ)}
    (h : tfVstrprintf libc signed xstr fmt.cells ap = some r) :
    WellFormed fmt.val :=
  wellFormed_of_formatLoop _ fmt.2 h

theorem tbuf_length : tbuf.length = 128 := Region.fresh_length 128

theorem tbuf_store {cs : Bytes} (h : cs.length ≤ 128) :
    ∃ buf, tbuf.store 0 (cs.map some) = some buf ∧ buf.length = 128 ∧ buf.Begins cs := by
  obtain ⟨buf, hstore, hlen, hbuf⟩ := (Region.begins_nil tbuf).store cs (by
    rw [tbuf_length, List.length_nil]
    omega)
  exact ⟨buf, hstore, hlen.trans tbuf_length, hbuf⟩

/-- A new string. -/
def emptyStr : TfStr := ⟨0, 16, some 0 :: Region.fresh 15⟩

theorem tfStrnew_eq : TfStr.tfStrnew = some emptyStr := by decide

theorem emptyStr_holds : emptyStr.Holds [] := ⟨rfl, TfStr.fits_nil, ⟨Region.fresh 15, rfl⟩, by decide⟩

end Printf

end Tflib.Data
