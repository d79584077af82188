import Tflib.Core.CString
import Mathlib.Data.List.TakeWhile

/-! # The format cursor of `tf_vstrprintf`

A format is read from the memory its pointer leads to; reading behind that
memory is a fault, and so is a store outside the 32 bytes of `cbuf`. What is
done with the pieces of the format is a parameter of the loop.
-/

namespace Tflib.Data

open Tflib.Core

universe u

/-- The bytes of a string literal without its terminator. -/
def literal (s : String) : Bytes := s.toList.map fun c => .ofNat c.toNat

namespace Format

/-- `TFNUMBUFSIZ` -/
def tfNumBufSiz : Nat := 32

/-- `strchr(set, c) != NULL`: the terminator of the set is found as well. -/
def strchr (set : Bytes) (c : UInt8) : Bool := set.contains c || c == 0

/-- The characters that may stand between `%` and the conversion character. -/
def flagChars : Bytes := literal "0123456789 .+-hlLz"

/-- What one round of the outer loop acts upon. -/
inductive Piece
  | text (c : UInt8)
  /-- `cbuf`, `lnum` and the conversion character -/
  | conversion (cbuf : Region UInt8) (lnum : Nat) (c : UInt8)

/-- The inner loop: `format`, `cbuf`, `cblen` and `lnum` behind it. -/
def flagLoop : Region UInt8 → Region UInt8 → Nat → Nat →
    Option (Region UInt8 × Region UInt8 × Nat × Nat)
  | [], _, _, _ => none
  | cell :: format, cbuf, cblen, lnum => do
      let c ← cell
      if strchr flagChars c ∧ c ≠ 0 ∧ cblen < tfNumBufSiz - 1 then
        let lnum := if c = 'l'.toUInt8 ∨ c = 'L'.toUInt8 then lnum + 1 else lnum
        let cbuf ← cbuf.store cblen [some c]
        flagLoop format cbuf (cblen + 1) lnum
      else some (cell :: format, cbuf, cblen, lnum)

/-- Behind the inner loop: the conversion character and the terminator go into `cbuf`. -/
def endConversion : Region UInt8 × Region UInt8 × Nat × Nat → Option (Piece × Region UInt8)
  | (format, cbuf, cblen, lnum) => do
      let c ← format.get 0
      let cbuf ← cbuf.store cblen [some c]
      let cbuf ← cbuf.store (cblen + 1) [some 0]
      some (.conversion cbuf lnum c, format.drop 1)

/-- From the `%` up to the `switch`: the conversion and the memory behind its character. -/
def readConversion (format : Region UInt8) : Option (Piece × Region UInt8) := do
  let cbuf ← (Region.fresh tfNumBufSiz).store 0 [some '%'.toUInt8]
  let scanned ← flagLoop format cbuf 1 0
  endConversion scanned

theorem flagLoop_length {format cbuf format' cbuf' : Region UInt8} {cblen lnum cblen' lnum' : Nat}
    (h : flagLoop format cbuf cblen lnum = some (format', cbuf', cblen', lnum')) :
    format'.length ≤ format.length := by
  induction format generalizing cbuf cblen lnum with
  | nil => contradiction
  | cons cell format ih =>
      obtain ⟨c, rfl, h⟩ := Option.bind_eq_some_iff.mp h
      split at h
      · obtain ⟨next, -, h⟩ := Option.bind_eq_some_iff.mp h
        exact Nat.le_succ_of_le (ih h)
      · cases h
        exact Nat.le_refl _

theorem readConversion_length {format rest : Region UInt8} {p : Piece}
    (h : readConversion format = some (p, rest)) : rest.length ≤ format.length := by
  simp only [readConversion, Option.bind_eq_bind, Option.bind_eq_some_iff] at h
  obtain ⟨cbuf, -, ⟨format', cbuf', cblen, lnum⟩, hloop, h⟩ := h
  simp only [endConversion, Option.bind_eq_bind, Option.bind_eq_some_iff] at h
  obtain ⟨c, -, filled, -, closed, -, h⟩ := h
  cases h
  rw [List.length_drop]
  exact (Nat.sub_le _ _).trans (flagLoop_length hloop)

/-- The outer loop of `tf_vstrprintf`, with `put` for what it does with a piece. -/
def formatLoop {σ : Type u} (put : σ → Piece → Option σ) (format : Region UInt8) (s : σ) : Option σ :=
  match format with
  | [] => none
  | none :: _ => none
  | some c :: rest =>
      if c = 0 then some s
      else if c = '%'.toUInt8 then
        match h : readConversion rest with
        | none => none
        | some (piece, behind) => (put s piece).bind fun s =>
            have := readConversion_length h
            formatLoop put behind s
      else (put s (.text c)).bind fun s => formatLoop put rest s
termination_by format.length
decreasing_by
  all_goals
    simp only [List.length_cons]
    omega

/-! ## Formats that are read within their bounds -/

def isFlag (c : UInt8) : Bool := flagChars.contains c

/-- The letters that `lnum` counts. -/
def isLong (c : UInt8) : Bool := c == 'l'.toUInt8 || c == 'L'.toUInt8

/-- Every `%` is followed by at most 29 flag characters and a conversion character. -/
inductive WellFormed : Bytes → Prop
  | nil : WellFormed []
  | text {c : UInt8} {rest : Bytes} (hc : c ≠ '%'.toUInt8) (hrest : WellFormed rest) :
      WellFormed (c :: rest)
  | conversion {flags : Bytes} {c : UInt8} {rest : Bytes} (hflags : ∀ f ∈ flags, isFlag f = true)
      (hshort : flags.length ≤ 29) (hc : isFlag c = false) (hrest : WellFormed rest) :
      WellFormed ('%'.toUInt8 :: (flags ++ c :: rest))

theorem isFlag_zero : isFlag 0 = false := by decide

theorem strchr_flag (c : UInt8) : (strchr flagChars c = true ∧ c ≠ 0) ↔ isFlag c = true := by
  constructor
  · rintro ⟨hfound, hc⟩
    simpa [strchr, hc, isFlag] using hfound
  · intro h
    have hc : c ≠ 0 := by
      rintro rfl
      rw [isFlag_zero] at h
      contradiction
    exact ⟨by rw [strchr, show flagChars.contains c = true from h]; rfl, hc⟩

theorem flagLoop_flag {c : UInt8} (hc : isFlag c = true) {front : Bytes} {cbuf : Region UInt8}
    (hcbuf : cbuf.Begins front) (hroom : front.length < 31) (hlen : cbuf.length = tfNumBufSiz)
    (lnum : Nat) :
    ∃ cbuf', cbuf'.Begins (front ++ [c]) ∧ cbuf'.length = tfNumBufSiz ∧ ∀ format,
      flagLoop (some c :: format) cbuf front.length lnum =
        flagLoop format cbuf' (front.length + 1) (lnum + [c].countP isLong) := by
  obtain ⟨cbuf', hstore, hlen', hbegins⟩ := hcbuf.store [c] (by
    rw [hlen, List.length_singleton, tfNumBufSiz]
    omega)
  refine ⟨cbuf', hbegins, hlen'.trans hlen, fun format => ?_⟩
  have hcond : strchr flagChars c = true ∧ c ≠ 0 ∧ front.length < tfNumBufSiz - 1 :=
    ⟨((strchr_flag c).mpr hc).1, ((strchr_flag c).mpr hc).2, hroom⟩
  have hlong : (if c = 'l'.toUInt8 ∨ c = 'L'.toUInt8 then lnum + 1 else lnum) =
      lnum + [c].countP isLong := by
    by_cases h : c = 'l'.toUInt8 ∨ c = 'L'.toUInt8
    · rw [if_pos h, List.countP_singleton, if_pos (by simpa [isLong] using h)]
    · rw [if_neg h, List.countP_singleton, if_neg (by simpa [isLong] using h)]
      rfl
  change (if strchr flagChars c = true ∧ c ≠ 0 ∧ front.length < tfNumBufSiz - 1 then _ else _) = _
  rw [if_pos hcond, hlong, show cbuf.store front.length [some c] = some cbuf' from hstore]
  rfl

/-- Flag characters go into `cbuf` one by one as long as there is room. -/
theorem flagLoop_flags {flags : Bytes} (hflags : ∀ f ∈ flags, isFlag f = true) {front : Bytes}
    {cbuf : Region UInt8} (hcbuf : cbuf.Begins front) (hroom : front.length + flags.length ≤ 31)
    (hlen : cbuf.length = tfNumBufSiz) (lnum : Nat) :
    ∃ cbuf', cbuf'.Begins (front ++ flags) ∧ cbuf'.length = tfNumBufSiz ∧ ∀ tail,
      flagLoop (flags.map some ++ tail) cbuf front.length lnum =
        flagLoop tail cbuf' (front.length + flags.length) (lnum + flags.countP isLong) := by
  induction flags generalizing front cbuf lnum with
  | nil => exact ⟨cbuf, by rwa [List.append_nil], hlen, fun tail => rfl⟩
  | cons f flags ih =>
      rw [List.length_cons] at hroom
      obtain ⟨mid, hmid, hlen', hstep⟩ :=
        flagLoop_flag (hflags f List.mem_cons_self) hcbuf (by omega) hlen lnum
      obtain ⟨cbuf', hbegins, hlen'', hloop⟩ := ih (fun x hx => hflags x (List.mem_cons_of_mem f hx)) hmid
        (by rw [List.length_append, List.length_singleton]; omega) hlen' (lnum + [f].countP isLong)
      refine ⟨cbuf', ?_, hlen'', fun tail => ?_⟩
      · rwa [List.append_assoc] at hbegins
      · have hcount : (f :: flags).countP isLong = [f].countP isLong + flags.countP isLong := by
          rw [← List.countP_append, List.singleton_append]
        have htail := hloop tail
        rw [List.length_append, List.length_singleton] at htail
        rw [List.map_cons, List.cons_append, hstep, htail, List.length_cons, hcount, Nat.add_assoc,
          Nat.add_assoc, Nat.add_comm 1]

theorem flagLoop_stop {c : UInt8} {cblen : Nat} (h : isFlag c = false ∨ 31 ≤ cblen)
    (format cbuf : Region UInt8) (lnum : Nat) :
    flagLoop (some c :: format) cbuf cblen lnum = some (some c :: format, cbuf, cblen, lnum) := by
  have hcond : ¬ (strchr flagChars c = true ∧ c ≠ 0 ∧ cblen < tfNumBufSiz - 1) := by
    rintro ⟨hfound, hc, hlt⟩
    rcases h with h | h
    · rw [(strchr_flag c).mp ⟨hfound, hc⟩] at h
      contradiction
    · rw [tfNumBufSiz] at hlt
      omega
  exact if_neg hcond

/-! ### One conversion -/

theorem readConversion_flags {flags : Bytes} (hflags : ∀ f ∈ flags, isFlag f = true)
    (hshort : flags.length ≤ 30) :
    ∃ cbuf, cbuf.Begins ('%'.toUInt8 :: flags) ∧ cbuf.length = tfNumBufSiz ∧ ∀ tail,
      readConversion (flags.map some ++ tail) =
        (flagLoop tail cbuf (flags.length + 1) (flags.countP isLong)).bind endConversion := by
  obtain ⟨start, hstart, hlen, hbegins⟩ := (Region.begins_nil (Region.fresh tfNumBufSiz)).store
    ['%'.toUInt8] (by decide)
  obtain ⟨cbuf, hcbuf, hlen', hloop⟩ := flagLoop_flags hflags hbegins
    (by rw [List.nil_append, List.length_singleton]; omega) (hlen.trans (Region.fresh_length _)) 0
  refine ⟨cbuf, hcbuf, hlen', fun tail => ?_⟩
  have hread := hloop tail
  rw [List.nil_append, List.length_singleton, Nat.zero_add, Nat.add_comm] at hread
  rw [readConversion, show (Region.fresh tfNumBufSiz).store 0 [some '%'.toUInt8] = some start from hstart]
  exact congrArg (Option.bind · endConversion) hread

/-- What the loop reads of a conversion within the bounds, whatever follows it. -/
theorem readConversion_eq {flags : Bytes} (hflags : ∀ f ∈ flags, isFlag f = true)
    (hshort : flags.length ≤ 29) {c : UInt8} (hc : isFlag c = false) :
    ∃ cbuf, cbuf.Begins ('%'.toUInt8 :: flags ++ [c, 0]) ∧ ∀ behind,
      readConversion (flags.map some ++ some c :: behind) =
        some (.conversion cbuf (flags.countP isLong) c, behind) := by
  obtain ⟨cbuf, hcbuf, hlen, hread⟩ := readConversion_flags hflags (by omega)
  obtain ⟨filled, hfill, hlen', hfilled⟩ := hcbuf.store [c] (by
    rw [hlen, List.length_cons, List.length_singleton, tfNumBufSiz]
    omega)
  obtain ⟨closed, hclose, -, hclosed⟩ := hfilled.store [0] (by
    rw [hlen', hlen, List.length_append, List.length_cons, List.length_singleton, tfNumBufSiz]
    simp only [List.length_singleton]
    omega)
  rw [List.append_assoc] at hclosed
  rw [List.length_append] at hclose
  refine ⟨closed, hclosed, fun behind => ?_⟩
  rw [hread, flagLoop_stop (.inl hc)]
  change (cbuf.store (flags.length + 1) [some c]).bind _ = _
  rw [show cbuf.store (flags.length + 1) [some c] = some filled from hfill]
  change (filled.store (flags.length + 1 + 1) [some 0]).bind _ = _
  rw [show filled.store (flags.length + 1 + 1) [some 0] = some closed from hclose]
  rfl

/-- Behind 30 flag characters there is no room for the terminator in `cbuf`. -/
theorem readConversion_long {flags : Bytes} (hflags : ∀ f ∈ flags, isFlag f = true)
    (hlong : flags.length = 30) (tail : Region UInt8) :
    readConversion (flags.map some ++ tail) = none := by
  obtain ⟨cbuf, -, hlen, hread⟩ := readConversion_flags hflags (by omega)
  rw [hread, hlong]
  match tail with
  | [] => rfl
  | none :: _ => rfl
  | some c :: behind =>
      rw [flagLoop_stop (.inr (by omega)), Option.bind_some]
      cases hstore : cbuf.store 31 [some c] with
      | none => simp [endConversion, Region.get, hstore]
      | some filled =>
          have hfull : filled.store 32 [some 0] = none := by
            refine if_neg ?_
            rw [Region.store_length hstore, hlen, tfNumBufSiz, List.length_singleton]
            omega
          simp [endConversion, Region.get, hstore, hfull]

/-- The flag characters at the head of a text. -/
theorem exists_flags (bs : Bytes) :
    ∃ flags tail, bs = flags ++ tail ∧ (∀ f ∈ flags, isFlag f = true) ∧
      ∀ c ∈ tail.head?, isFlag c = false := by
  refine ⟨_, _, List.takeWhile_append_dropWhile.symm, fun f hf => List.mem_takeWhile_imp hf, ?_⟩
  intro c hc
  have hhead := List.head?_dropWhile_not isFlag bs
  rw [Option.mem_def.mp hc] at hhead
  exact hhead

/-! ### The outer loop -/

section Loop

variable {σ : Type u} (put : σ → Piece → Option σ)

theorem formatLoop_zero (rest : Region UInt8) (s : σ) : formatLoop put (some 0 :: rest) s = some s := by
  rw [formatLoop, if_pos rfl]

theorem formatLoop_text {c : UInt8} (hzero : c ≠ 0) (hc : c ≠ '%'.toUInt8) (rest : Region UInt8) (s : σ) :
    formatLoop put (some c :: rest) s = (put s (.text c)).bind (formatLoop put rest) := by
  rw [formatLoop, if_neg hzero, if_neg hc]

theorem formatLoop_conversion (rest : Region UInt8) (s : σ) :
    formatLoop put (some '%'.toUInt8 :: rest) s =
      (readConversion rest).bind fun read => (put s read.1).bind (formatLoop put read.2) := by
  rw [formatLoop, if_neg (by decide), if_pos rfl]
  split
  · rename_i h
    rw [h]
    rfl
  · rename_i h
    exact (congrArg (Option.bind · fun read => (put s read.1).bind (formatLoop put read.2)) h).symm

/-- A run that has only the format to read finds it well formed, whatever is put. -/
theorem wellFormed_of_formatLoop {fmt : Bytes} (hzero : 0 ∉ fmt) {s s' : σ}
    (h : formatLoop put ((fmt ++ [0]).map some) s = some s') : WellFormed fmt := by
  induction hn : fmt.length using Nat.strong_induction_on generalizing fmt s with
  | _ n ih =>
      cases fmt with
      | nil => exact .nil
      | cons c fmt =>
          rw [List.length_cons] at hn
          have hc : c ≠ 0 := (List.ne_of_not_mem_cons hzero).symm
          have hfmt : 0 ∉ fmt := List.not_mem_of_not_mem_cons hzero
          rw [List.cons_append, List.map_cons] at h
          by_cases hpercent : c = '%'.toUInt8
          · subst hpercent
            rw [formatLoop_conversion] at h
            obtain ⟨flags, tail, rfl, hflags, htail⟩ := exists_flags fmt
            rw [List.append_assoc, List.map_append] at h
            by_cases hshort : flags.length ≤ 29
            · cases tail with
              | nil =>
                  -- the conversion ends with the terminator, and the loop goes on behind it
                  obtain ⟨cbuf, -, hscan⟩ := readConversion_eq hflags hshort isFlag_zero
                  rw [List.nil_append, List.map_singleton, hscan, Option.bind_some] at h
                  obtain ⟨mid, -, hrest⟩ := Option.bind_eq_some_iff.mp h
                  rw [formatLoop] at hrest
                  cases hrest
              | cons d rest =>
                  have hd := htail d rfl
                  obtain ⟨cbuf, -, hscan⟩ := readConversion_eq hflags hshort hd
                  rw [List.cons_append, List.map_cons, hscan, Option.bind_some] at h
                  obtain ⟨mid, -, hrest⟩ := Option.bind_eq_some_iff.mp h
                  rw [List.length_append, List.length_cons] at hn
                  exact .conversion hflags hshort hd (ih _ (by omega)
                    (fun h => hfmt (List.mem_append_right _ (List.mem_cons_of_mem d h))) hrest rfl)
            · rw [← List.take_append_drop 30 flags, List.map_append, List.append_assoc,
                readConversion_long (fun f hf => hflags f (List.mem_of_mem_take hf))
                  (by rw [List.length_take]; omega)] at h
              contradiction
          · rw [formatLoop_text put hc hpercent] at h
            obtain ⟨mid, -, h⟩ := Option.bind_eq_some_iff.mp h
            exact .text hpercent (ih _ (by omega) hfmt h rfl)

end Loop

/-- The scan stays within the format and within `cbuf` exactly for the formats that are well formed. -/
theorem formatLoop_inside_iff {σ : Type u} (f : σ → Piece → σ) (fmt : CString) (s : σ) :
    (∃ s', ∀ behind, formatLoop (fun s p => some (f s p)) (fmt.cells ++ behind) s = some s') ↔
      WellFormed fmt.val := by
  constructor
  · rintro ⟨s', h⟩
    have hexact := h []
    rw [List.append_nil] at hexact
    exact wellFormed_of_formatLoop _ fmt.2 hexact
  · obtain ⟨fmt, hzero⟩ := fmt
    intro hwell
    dsimp only at hwell
    induction hwell generalizing s with
    | nil => exact ⟨s, fun behind => formatLoop_zero _ behind s⟩
    | @text c rest hc hrest ih =>
        have hc0 : c ≠ 0 := (List.ne_of_not_mem_cons hzero).symm
        obtain ⟨s', h⟩ := ih (f s (.text c)) (List.not_mem_of_not_mem_cons hzero)
        exact ⟨s', fun behind => (formatLoop_text _ hc0 hc _ s).trans (h behind)⟩
    | @conversion flags c rest hflags hshort hc hrest ih =>
        obtain ⟨cbuf, -, hread⟩ := readConversion_eq hflags hshort hc
        obtain ⟨s', h⟩ := ih (f s (.conversion cbuf (flags.countP isLong) c)) fun h =>
          hzero (List.mem_cons_of_mem _ (List.mem_append_right _ (List.mem_cons_of_mem c h)))
        refine ⟨s', fun behind => ?_⟩
        have hcells : ((flags ++ c :: rest) ++ [0]).map some ++ behind =
            flags.map some ++ some c :: ((rest ++ [0]).map some ++ behind) := by simp
        change formatLoop _ (some '%'.toUInt8 :: (((flags ++ c :: rest) ++ [0]).map some ++ behind)) s = _
        rw [formatLoop_conversion, hcells, hread]
        exact h behind

/-- The formats `%`, behind which the loop reads on, and `%` with 30 zeros, for which it stores behind
`cbuf`; the pieces are counted. -/
theorem formatLoop_percent :
    formatLoop (fun n _ => some (n + 1)) ((literal "%" ++ [0]).map some) 0 = none ∧
      formatLoop (fun n _ => some (n + 1)) ((literal "%" ++ [0]).map some ++ [some 1, some 0]) 0 = some 2 ∧
      formatLoop (fun n _ => some (n + 1))
        ((literal "%000000000000000000000000000000d" ++ [0]).map some) 0 = none := by
  have hmark : literal "%" = ['%'.toUInt8] := rfl
  have hlong : literal "%000000000000000000000000000000d" =
      '%'.toUInt8 :: literal "000000000000000000000000000000d" := rfl
  rw [hmark, hlong]
  refine ⟨?_, ?_, ?_⟩
  · refine (formatLoop_conversion _ [some 0] 0).trans ?_
    change formatLoop _ [] 1 = none
    rw [formatLoop]
  · refine (formatLoop_conversion _ [some 0, some 1, some 0] 0).trans ?_
    change formatLoop _ [some 1, some 0] 1 = some 2
    rw [formatLoop_text _ (by decide) (by decide), Option.bind_some, formatLoop_zero]
  · exact (formatLoop_conversion _ _ 0).trans rfl

end Format

end Tflib.Data
