import Tflib.Data.Printf

/-! # The log functions of `tf_log.c`

A message and a dump are put together in buffers on the stack, with `sprintf`
and `strcat`, which do not look how long a buffer is. A store that leaves its
buffer is `none`. `sprintf(buf, "%s...", buf)` writes the text that stands in
the buffer over itself and then the rest.
-/

namespace Tflib.Util.Log

open Tflib.Core Tflib.Data Tflib.Data.Printf

/-- `TF_MAX_ERROR_STR` -/
def tfMaxErrorStr : Nat := 2048

/-- `LOG_LEVEL_EN` -/
inductive Level
  | debug
  | info
  | notice
  | warn
  | error
  | crit
  | alert
  | emerg
  deriving DecidableEq, Repr

def Level.number : Level → Nat
  | debug => 0
  | info => 1
  | notice => 2
  | warn => 3
  | error => 4
  | crit => 5
  | alert => 6
  | emerg => 7

/-- `err_levels` -/
def errLevels : Level → Bytes
  | .debug => literal "[DBG]"
  | .info => literal "[INF]"
  | .notice => literal "[NTC]"
  | .warn => literal "[WAR]"
  | .error => literal "[ERR]"
  | .crit => literal "[CRT]"
  | .alert => literal "[ALT]"
  | .emerg => literal "[EMG]"

/-- What `localtime` gives of `struct tm`. -/
structure Tm where
  tmMon : Fin 12
  tmMday : Fin 32
  tmHour : Fin 24
  tmMin : Fin 60
  tmSec : Fin 61

/-- `struct tf_log_st`; `file` tells that it is not NULL. -/
structure TfLog where
  level : UInt8
  opened : Bool
  file : Bool

/-- What the functions find around them. -/
structure Surroundings where
  tfLog : TfLog
  now : Tm
  tid : Nat
  strerror : Int32 → CString

/-- What is written to the standard error output and to the log file. -/
structure Output where
  stderr : Bytes
  file : Option Bytes
  deriving DecidableEq, Repr

/-! ## Messages -/

/-- A number that does not have more than `width` digits, as `%0<width>d` prints it. -/
def padded : Nat → Nat → Bytes
  | 0, _ => []
  | width + 1, n => padded width (n / 10) ++ ['0'.toUInt8 + .ofNat (n % 10)]

/-- `tf_datetime_mmddhhmiss` -/
def tfDatetimeMmddhhmiss (tm : Tm) : Bytes :=
  padded 2 (tm.tmMon + 1) ++ padded 2 tm.tmMday ++ padded 2 tm.tmHour ++ padded 2 tm.tmMin ++
    padded 2 tm.tmSec

def header (env : Surroundings) (logLevel : Level) : Bytes :=
  errLevels logLevel ++ literal "[" ++ tfDatetimeMmddhhmiss env.now ++ literal "-" ++
    padded 3 (env.tid % 1000) ++ literal "] "

/-- Text with its terminator at a place of a buffer. -/
def put (buf : Region UInt8) (place : Nat) (text : Bytes) : Option (Region UInt8) :=
  buf.store place ((text ++ [0]).map some)

def strcat (buf : Region UInt8) (text : Bytes) : Option (Region UInt8) := do
  let front ← cString buf
  put buf front.length text

/-- `if(error_no > 0)` -/
def putError (env : Surroundings) (errorNo : Int32) (outbuf : Region UInt8) : Option (Region UInt8) :=
  if 0 < errorNo then do
    let outbuf ← strcat outbuf (literal ":")
    strcat outbuf (env.strerror errorNo).val
  else some outbuf

/-- The text is written out. -/
def writeOut (buf : Region UInt8) (filed : Bool) : Option Output := do
  let line ← cString buf
  some ⟨line, if filed then some line else none⟩

/-- `log_write`; the formatted message is `text`, which may have zeros in it. -/
def logWrite (env : Surroundings) (errorNo : Int32) (logLevel : Level) (text : Bytes) : Option Output := do
  let outbuf ← put (Region.fresh tfMaxErrorStr) 0 (header env logLevel)
  let front ← cString outbuf
  let outbuf ← put outbuf front.length text
  let outbuf ← putError env errorNo outbuf
  writeOut outbuf (env.tfLog.opened && env.tfLog.file && env.tfLog.level.toNat ≤ logLevel.number)

def debug (env : Surroundings) (err : Int32) (text : Bytes) : Option Output := logWrite env err .debug text

def info (env : Surroundings) (err : Int32) (text : Bytes) : Option Output := logWrite env err .info text

def notice (env : Surroundings) (err : Int32) (text : Bytes) : Option Output := logWrite env err .notice text

def warn (env : Surroundings) (err : Int32) (text : Bytes) : Option Output := logWrite env err .warn text

def error (env : Surroundings) (err : Int32) (text : Bytes) : Option Output := logWrite env err .error text

def crit (env : Surroundings) (err : Int32) (text : Bytes) : Option Output := logWrite env err .crit text

def alert (env : Surroundings) (err : Int32) (text : Bytes) : Option Output := logWrite env err .alert text

def emerg (env : Surroundings) (err : Int32) (text : Bytes) : Option Output := logWrite env err .emerg text

/-! ## Dumps -/

/-- The two buffers of `dump`. -/
structure DumpBufs where
  buf : Region UInt8
  buf2 : Region UInt8

/-- `memset(buf, 0, sizeof(buf))` -/
def zeroed (size : Nat) : Region UInt8 := List.replicate size (some 0)

/-- `sprintf(buf, "%s...", buf)` -/
def extend (buf : Region UInt8) (text : Bytes) : Option (Region UInt8) := do
  let front ← cString buf
  put buf 0 (front ++ text)

def extendBoth (bufs : DumpBufs) (text text2 : Bytes) : Option DumpBufs := do
  let buf ← extend bufs.buf text
  let buf2 ← extend bufs.buf2 text2
  some ⟨buf, buf2⟩

/-- `isprint` in the C locale -/
def isprint (c : UInt8) : Bool := 0x20 ≤ c && c ≤ 0x7e

/-- `" %02X"` -/
def hexText (b : UInt8) : Bytes := [' '.toUInt8, hexDigit (b.toNat / 16), hexDigit (b.toNat % 16)]

def shown (b : UInt8) : Bytes := if isprint b then [b] else ['.'.toUInt8]

/-- `if(((i+1)%8) == 0)` -/
def putGap (bufs : DumpBufs) (i : Nat) : Option DumpBufs :=
  if (i + 1) % 8 = 0 then extendBoth bufs (literal " ") (literal " ") else some bufs

/-- `if(((i+1)%16) == 0)` -/
def putRow (bufs : DumpBufs) (i : Nat) : Option DumpBufs :=
  if (i + 1) % 16 = 0 then do
    let row ← cString bufs.buf2
    let buf ← extend bufs.buf (literal " " ++ row ++ ['\n'.toUInt8])
    some ⟨buf, zeroed tfMaxErrorStr⟩
  else some bufs

/-- The body of the loop for byte `i`. -/
def dumpByte (bufs : DumpBufs) (i : Nat) (b : UInt8) : Option DumpBufs := do
  let bufs ← extendBoth bufs (hexText b) (shown b)
  let bufs ← putGap bufs i
  putRow bufs i

def dumpLoop (bufs : DumpBufs) (i : Nat) : Bytes → Option DumpBufs
  | [] => some bufs
  | b :: data => do
      let bufs ← dumpByte bufs i b
      dumpLoop bufs (i + 1) data

/-- `if((i%8) == 0)` -/
def padGap (buf : Region UInt8) (i : Nat) : Option (Region UInt8) :=
  if i % 8 = 0 then extend buf (literal " ") else some buf

/-- `while((i%16)!=0)` -/
def padLoop (buf : Region UInt8) (i : Nat) : Option (Region UInt8) :=
  if i % 16 ≠ 0 then do
    let buf ← extend buf (literal "   ")
    let buf ← padGap buf i
    padLoop buf (i + 1)
  else some buf
termination_by (16 - i % 16) % 16
decreasing_by omega

/-- What follows the loop over the bytes, when a row is not full. -/
def dumpRest (bufs : DumpBufs) : Option (Region UInt8) := do
  let row ← cString bufs.buf2
  if 0 < row.length then do
    let i := if 8 < row.length then row.length - 1 else row.length
    let buf ← extend bufs.buf (literal " ")
    let buf ← padLoop buf i
    extend buf (literal " " ++ row)
  else some bufs.buf

/-- The bytes of the block, of which the first is handled apart. -/
def dumpBytes : Bytes → Option DumpBufs
  | [] => some ⟨zeroed (tfMaxErrorStr * 4), zeroed tfMaxErrorStr⟩
  | b :: data => do
      let buf ← put (zeroed (tfMaxErrorStr * 4)) 0 (hexText b)
      let buf2 ← put (zeroed tfMaxErrorStr) 0 (shown b)
      dumpLoop ⟨buf, buf2⟩ 1 data

/-- `dump` of a block of `len` bytes. -/
def dump (tfLog : TfLog) (data : Bytes) : Option Output := do
  let bufs ← dumpBytes data
  let buf ← dumpRest bufs
  writeOut buf (tfLog.opened && tfLog.file)

/-! ## Texts in a buffer -/

/-- The buffer has `size` cells and a text of `len` bytes in it. -/
structure Holds (size len : Nat) (buf : Region UInt8) : Prop where
  size_eq : buf.length = size
  text : ∃ t : Bytes, t.length = len ∧ 0 ∉ t ∧ buf.Begins (t ++ [0])

theorem cString_begins {t : Bytes} (hzero : 0 ∉ t) {buf : Region UInt8} (h : buf.Begins (t ++ [0])) :
    cString buf = some t := by
  obtain ⟨rest, rfl⟩ := h
  induction t with
  | nil => rfl
  | cons c t ih =>
      have hc : c ≠ 0 := (List.ne_of_not_mem_cons hzero).symm
      have ht := ih (List.not_mem_of_not_mem_cons hzero)
      rw [List.cons_append, List.map_cons, List.cons_append, cString]
      change (if c = 0 then some [] else _) = _
      rw [if_neg hc, ht]
      rfl

theorem holds_zeroed (size : Nat) : Holds (size + 1) 0 (zeroed (size + 1)) := by
  refine ⟨List.length_replicate, [], rfl, List.not_mem_nil, List.replicate size (some 0), ?_⟩
  rw [zeroed, List.replicate_succ]
  rfl

/-- The result is a buffer with a text of `len` bytes if it has the room for it, and a fault otherwise. -/
structure Writes (size len : Nat) (r : Option (Region UInt8)) : Prop where
  fits : len < size → ∃ buf, r = some buf ∧ Holds size len buf
  leaves : size ≤ len → r = none

theorem Holds.writes {size len : Nat} {buf : Region UInt8} (h : Holds size len buf) :
    Writes size len (some buf) := by
  refine ⟨fun _ => ⟨buf, rfl, h⟩, fun hle => ?_⟩
  obtain ⟨t, ht, -, hbegins⟩ := h.text
  have hroom := hbegins.length_le
  rw [List.length_append, List.length_singleton, h.size_eq] at hroom
  omega

/-- One store after the other. -/
theorem Writes.bind {size len len' : Nat} {r : Option (Region UInt8)}
    {f : Region UInt8 → Option (Region UInt8)} (h : Writes size len r) (hle : len ≤ len')
    (hf : ∀ buf, Holds size len buf → Writes size len' (f buf)) : Writes size len' (r >>= f) := by
  rcases Nat.lt_or_ge len size with hlt | hge
  · obtain ⟨buf, rfl, hbuf⟩ := h.fits hlt
    exact hf buf hbuf
  · rw [h.leaves hge]
    exact ⟨fun hlt => absurd hlt (by omega), fun _ => rfl⟩

/-- A text ends at its first zero. -/
def cut (text : Bytes) : Bytes := text.takeWhile (· ≠ 0)

theorem cut_text (text : Bytes) : 0 ∉ cut text := fun h => by
  have hne := List.mem_takeWhile_imp h
  simp at hne

theorem cut_of_text {text : Bytes} (h : 0 ∉ text) : cut text = text :=
  List.takeWhile_eq_self_iff.mpr fun _ hc => decide_eq_true (ne_of_mem_of_not_mem hc h)

theorem cut_begins (text : Bytes) : cut text ++ [0] <+: text ++ [0] := by
  induction text with
  | nil => exact List.prefix_rfl
  | cons c text ih =>
      rw [cut, List.takeWhile_cons]
      by_cases hc : c = 0
      · rw [hc]
        exact ⟨text ++ [0], rfl⟩
      · rw [if_pos (decide_eq_true hc), List.cons_append, List.cons_append]
        exact List.cons_prefix_cons.mpr ⟨rfl, ih⟩

/-- Formatted text, which may have zeros in it, is stored as a whole and ends at the first of them. -/
theorem put_formatted {size : Nat} {buf : Region UInt8} (hsize : buf.length = size) {front : Bytes}
    (hfront : 0 ∉ front) (hbegins : buf.Begins front) (text : Bytes) :
    (front.length + text.length < size → ∃ buf', put buf front.length text = some buf' ∧
      Holds size (front.length + (cut text).length) buf') ∧
    (size ≤ front.length + text.length → put buf front.length text = none) := by
  have hlength : (text ++ [0]).length = text.length + 1 := by
    rw [List.length_append, List.length_singleton]
  refine ⟨fun hlt => ?_, fun hge => ?_⟩
  · obtain ⟨buf', hstore, hsize', hbegins'⟩ := hbegins.store (text ++ [0]) (by omega)
    refine ⟨buf', hstore, hsize'.trans hsize, front ++ cut text, List.length_append, ?_, ?_⟩
    · exact fun h => (List.mem_append.mp h).elim hfront (cut_text text)
    · obtain ⟨rest, hrest⟩ := cut_begins text
      rw [← hrest, ← List.append_assoc, ← List.append_assoc] at hbegins'
      exact hbegins'.of_append
  · rw [put, Region.store, List.length_map, hlength, if_neg (by omega)]

/-- Text that is put behind other text. -/
theorem put_writes {size : Nat} {buf : Region UInt8} (hsize : buf.length = size) {front text : Bytes}
    (hfront : 0 ∉ front) (htext : 0 ∉ text) (hbegins : buf.Begins front) :
    Writes size (front.length + text.length) (put buf front.length text) := by
  have h := put_formatted hsize hfront hbegins text
  rw [cut_of_text htext] at h
  exact ⟨h.1, h.2⟩

/-- Text at the beginning of a buffer. -/
theorem put_front_writes {size : Nat} {buf : Region UInt8} (hsize : buf.length = size) {text : Bytes}
    (htext : 0 ∉ text) : Writes size text.length (put buf 0 text) := by
  have hput := put_writes hsize List.not_mem_nil htext (Region.begins_nil buf)
  rwa [List.length_nil, Nat.zero_add] at hput

theorem strcat_writes {size len : Nat} {buf : Region UInt8} (h : Holds size len buf) {text : Bytes}
    (htext : 0 ∉ text) : Writes size (len + text.length) (strcat buf text) := by
  obtain ⟨t, rfl, hzero, hbegins⟩ := h.text
  rw [strcat, cString_begins hzero hbegins]
  exact put_writes h.size_eq hzero htext hbegins.of_append

theorem extend_writes {size len : Nat} {buf : Region UInt8} (h : Holds size len buf) {text : Bytes}
    (htext : 0 ∉ text) : Writes size (len + text.length) (extend buf text) := by
  obtain ⟨t, rfl, hzero, hbegins⟩ := h.text
  have hboth : 0 ∉ t ++ text := fun h0 => (List.mem_append.mp h0).elim hzero htext
  have hput := put_front_writes h.size_eq hboth
  rw [List.length_append] at hput
  rw [extend, cString_begins hzero hbegins]
  exact hput

/-! ## The length of a message -/

theorem padded_length (width n : Nat) : (padded width n).length = width := by
  induction width generalizing n with
  | zero => rfl
  | succ width ih => rw [padded, List.length_append, ih, List.length_singleton]

theorem padded_digits (width n : Nat) : 0 ∉ padded width n := by
  induction width generalizing n with
  | zero => exact List.not_mem_nil
  | succ width ih =>
      have hdigit : ∀ d < 10, (0 : UInt8) ≠ '0'.toUInt8 + .ofNat d := by decide
      rw [padded, List.mem_append, List.mem_singleton, not_or]
      exact ⟨ih _, hdigit _ (Nat.mod_lt n (by decide))⟩

theorem header_length (env : Surroundings) (logLevel : Level) : (header env logLevel).length = 22 := by
  have hlevel : (errLevels logLevel).length = 5 := by cases logLevel <;> rfl
  simp only [header, tfDatetimeMmddhhmiss, List.length_append, padded_length, hlevel]
  rfl

theorem header_text (env : Surroundings) (logLevel : Level) : 0 ∉ header env logLevel := by
  have hlevel : 0 ∉ errLevels logLevel := by cases logLevel <;> decide
  have hmarks : 0 ∉ literal "[" ∧ 0 ∉ literal "-" ∧ 0 ∉ literal "] " := by decide
  simp only [header, tfDatetimeMmddhhmiss, List.mem_append, hlevel, hmarks, padded_digits, or_self,
    not_false_iff]

theorem putError_writes (env : Surroundings) (errorNo : Int32) {size len : Nat} {buf : Region UInt8}
    (h : Holds size len buf) : Writes size
      (if 0 < errorNo then len + 1 + (env.strerror errorNo).val.length else len)
      (putError env errorNo buf) := by
  unfold putError
  split
  · exact (strcat_writes h (by decide)).bind (Nat.le_add_right _ _) fun _ hbuf =>
      strcat_writes hbuf (env.strerror errorNo).2
  · exact h.writes

/-- Where the buffer holds the text, it is written out. -/
theorem Writes.writeOut {size len : Nat} {r : Option (Region UInt8)} (h : Writes size len r)
    (filed : Bool) : (do let buf ← r; writeOut buf filed).isSome = true ↔ len < size := by
  rcases Nat.lt_or_ge len size with hlt | hge
  · obtain ⟨buf, rfl, hbuf⟩ := h.fits hlt
    obtain ⟨t, -, hzero, hbegins⟩ := hbuf.text
    change (Log.writeOut buf filed).isSome = true ↔ _
    rw [Log.writeOut, cString_begins hzero hbegins]
    exact iff_of_true rfl hlt
  · rw [h.leaves hge]
    exact iff_of_false Bool.false_ne_true (Nat.not_lt.mpr hge)

theorem logWrite_isSome (env : Surroundings) (errorNo : Int32) (logLevel : Level) (text : Bytes) :
    (logWrite env errorNo logLevel text).isSome = true ↔ 22 + text.length < 2048 ∧
      (0 < errorNo → 22 + (cut text).length + 1 + (env.strerror errorNo).val.length < 2048) := by
  have hlength := header_length env logLevel
  have hheader := put_front_writes (Region.fresh_length tfMaxErrorStr) (header_text env logLevel)
  rw [hlength] at hheader
  obtain ⟨outbuf, hput, hsize, t, ht, hzero, hbegins⟩ := hheader.fits (by decide)
  obtain ⟨hfits, hleaves⟩ := put_formatted hsize hzero hbegins.of_append text
  rw [logWrite, hput, Option.bind_eq_bind, Option.bind_some, cString_begins hzero hbegins,
    Option.bind_eq_bind, Option.bind_some]
  rw [ht] at hfits hleaves ⊢
  change _ ↔ 22 + text.length < tfMaxErrorStr ∧ (0 < errorNo → _ < tfMaxErrorStr)
  rcases Nat.lt_or_ge (22 + text.length) tfMaxErrorStr with hlt | hge
  · obtain ⟨outbuf', hput', hholds⟩ := hfits hlt
    have hshort : (cut text).length ≤ text.length := (List.takeWhile_prefix _).length_le
    have herror := (putError_writes env errorNo hholds).writeOut
      (env.tfLog.opened && env.tfLog.file && env.tfLog.level.toNat ≤ logLevel.number)
    rw [hput', Option.bind_some]
    refine herror.trans ?_
    split
    · rename_i hpos
      exact ⟨fun h => ⟨hlt, fun _ => h⟩, fun h => h.2 hpos⟩
    · rename_i hneg
      exact iff_of_true (by omega) ⟨hlt, fun h => absurd h hneg⟩
  · rw [hleaves hge]
    exact iff_of_false Bool.false_ne_true fun h => absurd h.1 (Nat.not_lt.mpr hge)

/-! ## The growth of a dump -/

/-- The bytes in `buf` after `n` bytes of the block: 70 for a full row, 3 for a byte and one behind eight. -/
def grown (n : Nat) : Nat := 70 * (n / 16) + 3 * (n % 16) + if 8 ≤ n % 16 then 1 else 0

/-- The bytes in `buf2`. -/
def column (n : Nat) : Nat := n % 16 + if 8 ≤ n % 16 then 1 else 0

theorem column_lt (n : Nat) : column n < 18 := by
  unfold column
  split <;> omega

/-- Both buffers hold texts of given lengths. -/
structure HoldsBoth (len len2 : Nat) (bufs : DumpBufs) : Prop where
  buf : Holds (tfMaxErrorStr * 4) len bufs.buf
  buf2 : Holds tfMaxErrorStr len2 bufs.buf2

/-- The same for a result; it is `buf` that may have no room. -/
structure WritesBoth (len len2 : Nat) (r : Option DumpBufs) : Prop where
  fits : len < tfMaxErrorStr * 4 → ∃ bufs, r = some bufs ∧ HoldsBoth len len2 bufs
  leaves : tfMaxErrorStr * 4 ≤ len → r = none

theorem HoldsBoth.writes {len len2 : Nat} {bufs : DumpBufs} (h : HoldsBoth len len2 bufs) :
    WritesBoth len len2 (some bufs) :=
  ⟨fun _ => ⟨bufs, rfl, h⟩, fun hge => absurd (h.buf.writes.leaves hge) (Option.some_ne_none _)⟩

theorem WritesBoth.bind {len len2 len' len2' : Nat} {r : Option DumpBufs}
    {f : DumpBufs → Option DumpBufs} (h : WritesBoth len len2 r) (hle : len ≤ len')
    (hf : ∀ bufs, HoldsBoth len len2 bufs → WritesBoth len' len2' (f bufs)) :
    WritesBoth len' len2' (r >>= f) := by
  rcases Nat.lt_or_ge len (tfMaxErrorStr * 4) with hlt | hge
  · obtain ⟨bufs, rfl, hbufs⟩ := h.fits hlt
    exact hf bufs hbufs
  · rw [h.leaves hge]
    exact ⟨fun hlt => absurd hlt (by omega), fun _ => rfl⟩

theorem extendBoth_writes {len len2 : Nat} {bufs : DumpBufs} (h : HoldsBoth len len2 bufs)
    {text text2 : Bytes} (htext : 0 ∉ text) (htext2 : 0 ∉ text2)
    (hroom : len2 + text2.length < tfMaxErrorStr) :
    WritesBoth (len + text.length) (len2 + text2.length) (extendBoth bufs text text2) := by
  have hfirst := extend_writes h.buf htext
  obtain ⟨buf2, hbuf2, hholds2⟩ := (extend_writes h.buf2 htext2).fits hroom
  refine ⟨fun hlt => ?_, fun hge => ?_⟩
  · obtain ⟨buf, hbuf, hholds⟩ := hfirst.fits hlt
    refine ⟨⟨buf, buf2⟩, ?_, hholds, hholds2⟩
    rw [extendBoth, hbuf, hbuf2]
    rfl
  · rw [extendBoth, hfirst.leaves hge]
    rfl

theorem hexText_text (b : UInt8) : 0 ∉ hexText b := by
  have hdigit : ∀ n < 16, (0 : UInt8) ≠ hexDigit n := by decide
  have hhi : b.toNat / 16 < 16 := Nat.div_lt_of_lt_mul b.toNat_lt
  rw [hexText, List.mem_cons, List.mem_cons, List.mem_singleton, not_or, not_or]
  exact ⟨by decide, hdigit _ hhi, hdigit _ (Nat.mod_lt _ (by decide))⟩

theorem shown_text (b : UInt8) : 0 ∉ shown b ∧ (shown b).length = 1 := by
  unfold shown
  split
  · rename_i hprint
    refine ⟨fun h => ?_, rfl⟩
    rw [← List.mem_singleton.mp h] at hprint
    exact absurd hprint (by decide)
  · exact ⟨by decide, rfl⟩

theorem putGap_writes {len len2 : Nat} {bufs : DumpBufs} (h : HoldsBoth len len2 bufs)
    (hroom : len2 + 1 < tfMaxErrorStr) (i : Nat) :
    WritesBoth (len + if (i + 1) % 8 = 0 then 1 else 0) (len2 + if (i + 1) % 8 = 0 then 1 else 0)
      (putGap bufs i) := by
  unfold putGap
  split
  · exact @extendBoth_writes _ _ _ h (literal " ") (literal " ") (by decide) (by decide) hroom
  · exact h.writes

theorem putRow_writes {len len2 : Nat} {bufs : DumpBufs} (h : HoldsBoth len len2 bufs) (i : Nat) :
    WritesBoth (if (i + 1) % 16 = 0 then len + (len2 + 2) else len) (if (i + 1) % 16 = 0 then 0 else len2)
      (putRow bufs i) := by
  unfold putRow
  split
  · obtain ⟨row, rfl, hzero, hbegins⟩ := h.buf2.text
    have hline : 0 ∉ literal " " ++ row ++ ['\n'.toUInt8] := by
      rw [List.mem_append, List.mem_append, not_or, not_or]
      exact ⟨⟨by decide, hzero⟩, by decide⟩
    have hlength : (literal " " ++ row ++ ['\n'.toUInt8]).length = row.length + 2 := by
      rw [List.length_append, List.length_append, Nat.add_comm (literal " ").length]
      rfl
    have hextend := extend_writes h.buf hline
    rw [hlength] at hextend
    rw [cString_begins hzero hbegins, Option.bind_eq_bind, Option.bind_some]
    refine ⟨fun hlt => ?_, fun hge => ?_⟩
    · obtain ⟨buf, hbuf, hholds⟩ := hextend.fits hlt
      refine ⟨⟨buf, zeroed tfMaxErrorStr⟩, ?_, hholds, holds_zeroed 2047⟩
      rw [hbuf]
      rfl
    · rw [hextend.leaves hge]
      rfl
  · exact h.writes

/-- The step: one more byte of the block. -/
theorem dumpByte_writes {n : Nat} {bufs : DumpBufs} (h : HoldsBoth (grown n) (column n) bufs) (b : UInt8) :
    WritesBoth (grown (n + 1)) (column (n + 1)) (dumpByte bufs n b) := by
  obtain ⟨hshown, hone⟩ := shown_text b
  have hcolumn := column_lt n
  have hthree : (hexText b).length = 3 := rfl
  have hbytes := extendBoth_writes h (hexText_text b) hshown
    (by rw [hone]; exact Nat.lt_trans (Nat.succ_lt_succ hcolumn) (by decide))
  rw [hone, hthree] at hbytes
  have hgrown : grown (n + 1) = if (n + 1) % 16 = 0 then
      grown n + 3 + (if (n + 1) % 8 = 0 then 1 else 0) +
        (column n + 1 + (if (n + 1) % 8 = 0 then 1 else 0) + 2)
      else grown n + 3 + if (n + 1) % 8 = 0 then 1 else 0 := by
    unfold grown column
    repeat' split
    all_goals omega
  have hnext : column (n + 1) = if (n + 1) % 16 = 0 then 0
      else column n + 1 + if (n + 1) % 8 = 0 then 1 else 0 := by
    unfold column
    repeat' split
    all_goals omega
  rw [hgrown, hnext]
  refine hbytes.bind ?_ fun bufs hbufs => ?_
  · repeat' split
    all_goals omega
  · refine (putGap_writes hbufs (Nat.lt_trans (Nat.add_lt_add_right hcolumn 2) (by decide)) n).bind ?_
      fun bufs hbufs => putRow_writes hbufs n
    repeat' split
    all_goals omega

theorem grown_le {m n : Nat} (h : m ≤ n) : grown m ≤ grown n := by
  unfold grown
  repeat' split
  all_goals omega

theorem dumpLoop_writes {n : Nat} {bufs : DumpBufs} (h : HoldsBoth (grown n) (column n) bufs) (data : Bytes) :
    WritesBoth (grown (n + data.length)) (column (n + data.length)) (dumpLoop bufs n data) := by
  induction data generalizing n bufs with
  | nil => exact h.writes
  | cons b data ih =>
      have hlength : n + (b :: data).length = n + 1 + data.length := by
        rw [List.length_cons]
        omega
      rw [hlength]
      exact (dumpByte_writes h b).bind (grown_le (Nat.le_add_right _ _)) fun bufs hbufs => ih hbufs

/-- The whole block. -/
theorem dumpBytes_writes (data : Bytes) :
    WritesBoth (grown data.length) (column data.length) (dumpBytes data) := by
  have hstart : HoldsBoth 0 0 ⟨zeroed (tfMaxErrorStr * 4), zeroed tfMaxErrorStr⟩ :=
    ⟨holds_zeroed 8191, holds_zeroed 2047⟩
  cases data with
  | nil => exact hstart.writes
  | cons b data =>
      obtain ⟨hshown, hone⟩ := shown_text b
      have hfirst := put_front_writes hstart.buf.size_eq (hexText_text b)
      have hsecond := put_front_writes hstart.buf2.size_eq hshown
      change Writes _ 3 _ at hfirst
      rw [hone] at hsecond
      obtain ⟨buf, hbuf, hholds⟩ := hfirst.fits (by decide)
      obtain ⟨buf2, hbuf2, hholds2⟩ := hsecond.fits (by decide)
      have hloop := @dumpLoop_writes 1 ⟨buf, buf2⟩ ⟨hholds, hholds2⟩ data
      rw [Nat.add_comm 1] at hloop
      rw [dumpBytes, hbuf, hbuf2]
      exact hloop

/-! ### The last row -/

/-- What `while((i%16)!=0)` puts behind the text. -/
def padLength (i : Nat) : Nat := if i % 16 = 0 then 0 else 3 * (16 - i % 16) + if i % 16 ≤ 8 then 1 else 0

theorem padGap_writes {size len : Nat} {buf : Region UInt8} (h : Holds size len buf) (i : Nat) :
    Writes size (len + if i % 8 = 0 then 1 else 0) (padGap buf i) := by
  unfold padGap
  split
  · exact @extend_writes _ _ _ h (literal " ") (by decide)
  · exact h.writes

theorem padLoop_writes {size len : Nat} {buf : Region UInt8} (h : Holds size len buf) (i : Nat) :
    Writes size (len + padLength i) (padLoop buf i) := by
  induction hturns : (16 - i % 16) % 16 using Nat.strong_induction_on generalizing i len buf with
  | _ turns ih =>
      rw [padLoop]
      by_cases hdone : i % 16 = 0
      · rw [if_neg (not_not.mpr hdone), padLength, if_pos hdone]
        exact h.writes
      · have hnext : padLength i = 3 + (if i % 8 = 0 then 1 else 0) + padLength (i + 1) := by
          unfold padLength
          repeat' split
          all_goals omega
        have hblanks := @extend_writes _ _ _ h (literal "   ") (by decide)
        change Writes size (len + 3) _ at hblanks
        rw [if_pos hdone, hnext]
        refine hblanks.bind (by omega) fun buf hbuf => ?_
        refine (padGap_writes hbuf i).bind (by omega) fun buf hbuf => ?_
        have hrest := ih _ (by omega) hbuf (i + 1) rfl
        have hsum : len + 3 + (if i % 8 = 0 then 1 else 0) + padLength (i + 1) =
            len + (3 + (if i % 8 = 0 then 1 else 0) + padLength (i + 1)) := by omega
        rwa [hsum] at hrest

/-- The text of a whole dump of `n` bytes. -/
def dumpLength (n : Nat) : Nat :=
  if n % 16 = 0 then grown n else grown n + 1 + padLength (n % 16) + (1 + column n)

theorem dumpRest_writes {n : Nat} {bufs : DumpBufs} (h : HoldsBoth (grown n) (column n) bufs) :
    Writes (tfMaxErrorStr * 4) (dumpLength n) (dumpRest bufs) := by
  obtain ⟨row, hrow, hzero, hbegins⟩ := h.buf2.text
  rw [dumpRest, cString_begins hzero hbegins, Option.bind_eq_bind, Option.bind_some, hrow, dumpLength]
  by_cases hfull : n % 16 = 0
  · have hempty : ¬ 0 < column n := by
      rw [column, hfull]
      decide
    rw [if_neg hempty, if_pos hfull]
    exact h.buf.writes
  · have hsome : 0 < column n := by
      unfold column
      omega
    have hplace : (if 8 < column n then column n - 1 else column n) = n % 16 := by
      unfold column
      repeat' split
      all_goals omega
    have hline : 0 ∉ literal " " ++ row := by
      rw [List.mem_append, not_or]
      exact ⟨by decide, hzero⟩
    have hlength : (literal " " ++ row).length = 1 + column n := by
      rw [List.length_append, hrow]
      rfl
    rw [if_pos hsome, if_neg hfull, hplace]
    have hblank := @extend_writes _ _ _ h.buf (literal " ") (by decide)
    change Writes _ (grown n + 1) _ at hblank
    refine hblank.bind (by omega) fun buf hbuf => ?_
    refine (padLoop_writes hbuf (n % 16)).bind (by omega) fun buf hbuf => ?_
    have hlast := extend_writes hbuf hline
    rwa [hlength] at hlast

/-- The buffer takes 117 full rows. -/
theorem dumpLength_lt_iff (n : Nat) : dumpLength n < 8192 ↔ n ≤ 1872 := by
  unfold dumpLength padLength grown column
  repeat' split
  all_goals omega

theorem dump_isSome (tfLog : TfLog) (data : Bytes) :
    (dump tfLog data).isSome = true ↔ data.length ≤ 1872 := by
  rw [← dumpLength_lt_iff]
  have hbytes := dumpBytes_writes data
  rcases Nat.lt_or_ge (grown data.length) (tfMaxErrorStr * 4) with hlt | hge
  · obtain ⟨bufs, hbufs, hholds⟩ := hbytes.fits hlt
    rw [dump, hbufs]
    exact (dumpRest_writes hholds).writeOut _
  · have hle : grown data.length ≤ dumpLength data.length := by
      unfold dumpLength
      split <;> omega
    rw [dump, hbytes.leaves hge]
    exact iff_of_false Bool.false_ne_true (Nat.not_lt.mpr (Nat.le_trans hge hle))

/-! ## All calls -/

/-- A call of one of the log functions. -/
inductive LogCall
  | message (logLevel : Level) (err : Int32) (text : Bytes)
  | dump (data : Bytes)

def LogCall.run (env : Surroundings) : LogCall → Option Output
  | .message .debug err text => debug env err text
  | .message .info err text => info env err text
  | .message .notice err text => notice env err text
  | .message .warn err text => warn env err text
  | .message .error err text => error env err text
  | .message .crit err text => crit env err text
  | .message .alert err text => alert env err text
  | .message .emerg err text => emerg env err text
  | .dump data => Log.dump env.tfLog data

/-- The header of 22 bytes, the message and the text of the error have room in `outbuf`; a dump has at most
1872 bytes. -/
def LogCall.Fits (env : Surroundings) : LogCall → Prop
  | .message _ err text => 22 + text.length < 2048 ∧
      (0 < err → 22 + (cut text).length + 1 + (env.strerror err).val.length < 2048)
  | .dump data => data.length ≤ 1872

/-- A call stays inside of its buffers where the text has room in them. -/
theorem run_isSome_iff (env : Surroundings) (call : LogCall) :
    (call.run env).isSome = true ↔ call.Fits env := by
  cases call with
  | message logLevel err text => cases logLevel <;> exact logWrite_isSome env err _ text
  | dump data => exact dump_isSome env.tfLog data

/-- A dump of 1873 bytes. -/
theorem run_leaves_dump : ¬ ∀ env call, (LogCall.run env call).isSome = true := by
  intro h
  have hdump := (dump_isSome ⟨0, false, false⟩ (List.replicate 1873 0)).mp
    (h ⟨⟨0, false, false⟩, ⟨0, 0, 0, 0, 0⟩, 1, fun _ => ⟨[], List.not_mem_nil⟩⟩ (.dump _))
  rw [List.length_replicate] at hdump
  exact absurd hdump (by decide)

end Tflib.Util.Log
