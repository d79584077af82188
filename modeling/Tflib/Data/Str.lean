import Tflib.Core.CString
import Tflib.Core.Machine
import Tflib.Core.Pool

/-! # The extensible strings of `tf_string.c`

`size` and `asize` are 32-bit unsigned, and the sizes that the operations
compute are `int`. `asize` is the length of the region after most constructors
and one less after `tf_strfrommalloc`. An operation whose assertion fails, or
that leaves a region, yields `none`.
-/

namespace Tflib.Data

open Tflib.Core

/-- `struct tf_str_st`; `ptr` is the region that the pointer leads to. -/
structure TfStr where
  size : UInt32
  asize : UInt32
  ptr : Region UInt8
deriving DecidableEq

/-- `TF_STR_UNIT` -/
def tfStrUnit : Int32 := 16

namespace TfStr

def tfStrnew : Option TfStr := do
  let ptr ← alloc tfStrUnit
  let ptr ← ptr.store 0 [some 0]
  some ⟨0, tfStrUnit.toUInt32, ptr⟩

def tfStrnew2 (str : CString) : Option TfStr := do
  let size := str.strlen
  let asize := max (size + 1) tfStrUnit
  let cells ← str.cells.load 0 (sizeT (size + 1))
  let ptr ← alloc asize
  let ptr ← ptr.store 0 cells
  some ⟨size.toUInt32, asize.toUInt32, ptr⟩

def tfStrnew3 (asiz : Int32) : Option TfStr :=
  if 0 ≤ asiz then do
    let asiz := max asiz tfStrUnit
    let ptr ← alloc asiz
    let ptr ← ptr.store 0 [some 0]
    some ⟨0, asiz.toUInt32, ptr⟩
  else none

/-- The maximum is taken of unsigned numbers here. -/
def tfStrdup (xstr : TfStr) : Option TfStr := do
  let asize := (max (xstr.size + 1) tfStrUnit.toUInt32).toInt32
  let cells ← xstr.ptr.load 0 (xstr.size + 1).toNat
  let ptr ← alloc asize
  let ptr ← ptr.store 0 cells
  some ⟨xstr.size, asize.toUInt32, ptr⟩

/-- `asize` counts one byte less than the region has. -/
def tfStrfrommalloc (ptr : Region UInt8) (size : Int32) : Option TfStr := do
  let ptr ← realloc ptr (size + 1)
  let ptr ← ptr.store (sizeT size) [some 0]
  some ⟨size.toUInt32, size.toUInt32, ptr⟩

/-- `int nsize`; it is only ever compared with `asize` and assigned to it. -/
def nsize (xstr : TfStr) (size : Int32) : UInt32 := xstr.size + size.toUInt32 + 1

end TfStr

/-- The doubling loop of `tf_strcat` and `tf_strcat2`: the `asize` it ends with. -/
def growLoop (asize nsize : UInt32) : UInt32 :=
  if asize < nsize then
    let doubled := asize * 2
    growLoop (if doubled < nsize then nsize else doubled) nsize
  else asize
termination_by nsize.toNat - asize.toNat
decreasing_by
  -- One round is enough, even where the product wraps.
  have hlt := UInt32.lt_iff_toNat_lt.mp ‹asize < nsize›
  split
  · omega
  · have hge := UInt32.le_iff_toNat_le.mp (UInt32.not_lt.mp ‹¬ asize * 2 < nsize›)
    omega

namespace TfStr

def grow (xstr : TfStr) (nsize : UInt32) : TfStr :=
  if xstr.asize < nsize then
    let asize := growLoop xstr.asize nsize
    { xstr with asize := asize, ptr := xstr.ptr.resize asize.toNat }
  else xstr

/-- The region is written twice: the bytes, and behind them the zero. -/
def tfStrcat (xstr : TfStr) (ptr : Region UInt8) (size : Int32) : Option TfStr :=
  if 0 ≤ size then do
    let xstr := xstr.grow (xstr.nsize size)
    let cells ← ptr.load 0 (sizeT size)
    let buf ← xstr.ptr.store xstr.size.toNat cells
    let newsize := xstr.size + size.toUInt32
    let buf ← buf.store newsize.toNat [some 0]
    some ⟨newsize, xstr.asize, buf⟩
  else none

/-- The terminator of `str` is copied with its bytes. -/
def tfStrcat2 (xstr : TfStr) (str : CString) : Option TfStr := do
  let size := str.strlen
  let xstr := xstr.grow (xstr.nsize size)
  let cells ← str.cells.load 0 (sizeT (size + 1))
  let buf ← xstr.ptr.store xstr.size.toNat cells
  some ⟨xstr.size + size.toUInt32, xstr.asize, buf⟩

def tfStrptr (xstr : TfStr) : Region UInt8 := xstr.ptr

def tfStrsize (xstr : TfStr) : Int32 := xstr.size.toInt32

def tfStrclear (xstr : TfStr) : Option TfStr := do
  let buf ← xstr.ptr.store 0 [some 0]
  some ⟨0, xstr.asize, buf⟩

end TfStr

/-! ## Histories -/

/-- The strings made so far are named by the order they were made in. Regions
are given by the bytes they begin with and by what follows. -/
inductive StrEvent
  | new
  | new2 (str : CString)
  | new3 (asiz : Int32)
  | dup (i : Nat)
  | frommalloc (bs : Bytes) (rest : Region UInt8)
  | cat (i : Nat) (bs : Bytes) (rest : Region UInt8)
  | cat2 (i : Nat) (str : CString)
  | clear (i : Nat)

open TfStr in
def applyStr (pool : List TfStr) : StrEvent → Option (List TfStr)
  | .new => Pool.create pool tfStrnew
  | .new2 str => Pool.create pool (tfStrnew2 str)
  | .new3 asiz => Pool.create pool (tfStrnew3 asiz)
  | .dup i => Pool.create pool (pool[i]?.bind tfStrdup)
  | .frommalloc bs rest => Pool.create pool (tfStrfrommalloc (bs.map some ++ rest) (.ofNat bs.length))
  | .cat i bs rest => Pool.update pool i (tfStrcat · (bs.map some ++ rest) (.ofNat bs.length))
  | .cat2 i str => Pool.update pool i (tfStrcat2 · str)
  | .clear i => Pool.update pool i tfStrclear

/-! ## What a string is for -/

namespace Texts

def step (texts : List Bytes) : StrEvent → List Bytes
  | .new => texts ++ [[]]
  | .new2 str => texts ++ [str.val]
  | .new3 _ => texts ++ [[]]
  | .dup i => texts ++ [texts.getD i []]
  | .frommalloc bs _ => texts ++ [bs]
  | .cat i bs _ => texts.set i (texts.getD i [] ++ bs)
  | .cat2 i str => texts.set i (texts.getD i [] ++ str.val)
  | .clear i => texts.set i []

/-- A content of `n` bytes and its terminator stay within `int`. -/
def Fits (n : Nat) : Prop := n + 1 < 2 ^ 31

/-- The named string exists, the assertions hold, and the content stays within `int`. -/
def Admits (texts : List Bytes) : StrEvent → Prop
  | .new => True
  | .new2 str => Fits str.val.length
  | .new3 asiz => 0 ≤ asiz
  | .dup i => i < texts.length
  | .frommalloc bs _ => Fits bs.length
  | .cat i bs _ => i < texts.length ∧ Fits ((texts.getD i []).length + bs.length)
  | .cat2 i str => i < texts.length ∧ Fits ((texts.getD i []).length + str.val.length)
  | .clear i => i < texts.length

end Texts

/-- Byte strings that are made, appended to and emptied. -/
def byteStrings : Machine (List Bytes) StrEvent where
  step := Texts.step
  admits := Texts.Admits

/-! ## Growing -/

theorem growLoop_ge (asize nsize : UInt32) : nsize ≤ growLoop asize nsize := by
  fun_induction growLoop asize nsize with
  | case1 asize hlt doubled ih => exact ih
  | case2 asize hge => exact UInt32.not_lt.mp hge

/-- The product of a round does not wrap where the needed size is within `int`. -/
theorem doubled_toNat {asize nsize : UInt32} (hfit : nsize.toNat < 2 ^ 31) (h : asize < nsize) :
    (asize * 2).toNat = 2 * asize.toNat := by
  have hlt := UInt32.lt_iff_toNat_lt.mp h
  rw [UInt32.toNat_mul]
  change asize.toNat * 2 % 2 ^ 32 = _
  omega

namespace TfStr

theorem fits_nil : Texts.Fits ([] : Bytes).length := by
  unfold Texts.Fits
  rw [List.length_nil]
  omega

/-- `xstr` holds the bytes `bs` and their terminator. -/
structure Holds (xstr : TfStr) (bs : Bytes) : Prop where
  size : xstr.size = UInt32.ofNat bs.length
  fits : Texts.Fits bs.length
  begins : xstr.ptr.Begins (bs ++ [0])
  room : xstr.asize.toNat ≤ xstr.ptr.length

/-- The same up to the largest length, where the zero behind the bytes is not counted by an `int`
any more. -/
structure Spells (xstr : TfStr) (bs : Bytes) : Prop where
  size : xstr.size = UInt32.ofNat bs.length
  short : bs.length < 2 ^ 31
  begins : xstr.ptr.Begins (bs ++ [0])
  room : xstr.asize.toNat ≤ xstr.ptr.length

theorem Holds.spells {xstr : TfStr} {bs : Bytes} (h : xstr.Holds bs) : xstr.Spells bs :=
  ⟨h.size, Nat.lt_of_succ_lt h.fits, h.begins, h.room⟩

theorem Spells.size_toNat {xstr : TfStr} {bs : Bytes} (h : xstr.Spells bs) :
    xstr.size.toNat = bs.length := by
  have hshort := h.short
  rw [h.size, toNat_ofNat (by omega)]

theorem Holds.size_toNat {xstr : TfStr} {bs : Bytes} (h : xstr.Holds bs) :
    xstr.size.toNat = bs.length := h.spells.size_toNat

theorem Holds.length_lt {xstr : TfStr} {bs : Bytes} (h : xstr.Holds bs) :
    bs.length + 1 ≤ xstr.ptr.length := by
  have hlen := h.begins.length_le
  rwa [List.length_append] at hlen

theorem Spells.nsize_toNat {xstr : TfStr} {bs : Bytes} (h : xstr.Spells bs) {n : Nat}
    (hn : bs.length + n < 2 ^ 31) : (xstr.nsize (.ofNat n)).toNat = bs.length + n + 1 := by
  have hsum : xstr.nsize (.ofNat n) = UInt32.ofNat (bs.length + n + 1) := by
    rw [nsize, h.size, toUInt32_ofNat, UInt32.ofNat_add, UInt32.ofNat_add]
    rfl
  rw [hsum, toNat_ofNat (by omega)]

theorem Holds.nsize_toNat {xstr : TfStr} {bs : Bytes} (h : xstr.Holds bs) {n : Nat}
    (hfit : Texts.Fits (bs.length + n)) :
    (xstr.nsize (.ofNat n)).toNat = bs.length + n + 1 :=
  h.spells.nsize_toNat (Nat.lt_of_succ_lt hfit)

/-- After growing there is room for the needed size, and nothing else has changed. -/
theorem Spells.grow {xstr : TfStr} {bs : Bytes} (h : xstr.Spells bs) {n : UInt32}
    (hn : bs.length + 1 ≤ n.toNat) :
    (xstr.grow n).Spells bs ∧ n.toNat ≤ (xstr.grow n).ptr.length := by
  unfold TfStr.grow
  split
  · have hge := UInt32.le_iff_toNat_le.mp (growLoop_ge xstr.asize n)
    have hlen := Region.resize_length xstr.ptr (growLoop xstr.asize n).toNat
    refine ⟨⟨h.size, h.short, h.begins.resize ?_, ?_⟩, ?_⟩
    · rw [List.length_append]
      exact hn.trans hge
    · exact hlen.ge
    · exact hge.trans hlen.ge
  · rename_i hroom
    have hle := UInt32.le_iff_toNat_le.mp (UInt32.not_lt.mp hroom)
    exact ⟨h, hle.trans h.room⟩

theorem Holds.grow {xstr : TfStr} {bs : Bytes} (h : xstr.Holds bs) {n : UInt32}
    (hn : bs.length + 1 ≤ n.toNat) :
    (xstr.grow n).Holds bs ∧ n.toNat ≤ (xstr.grow n).ptr.length := by
  obtain ⟨hgrown, hroom⟩ := h.spells.grow hn
  exact ⟨⟨hgrown.size, h.fits, hgrown.begins, hgrown.room⟩, hroom⟩

/-- A string holds one content only. -/
theorem Holds.unique {xstr : TfStr} {bs cs : Bytes} (h : xstr.Holds bs) (h' : xstr.Holds cs) :
    bs = cs := by
  have hlen : bs.length = cs.length := h.size_toNat.symm.trans h'.size_toNat
  have hbs := h.begins.of_append.take
  rw [hlen, h'.begins.of_append.take] at hbs
  exact (List.map_injective_iff.mpr (Option.some_injective _) hbs).symm

/-! ## The operations -/

/-- A new region that holds `bs`. -/
theorem holds_fresh {bs : Bytes} (hfit : Texts.Fits bs.length) {asize : Int32} {n : Nat}
    (hasize : asize = .ofNat n) (hn : n < 2 ^ 31) (hroom : bs.length + 1 ≤ n) :
    ∃ ptr : Region UInt8, alloc asize = some (Region.fresh n : Region UInt8) ∧
      (Region.fresh n).store 0 ((bs ++ [0]).map some) = some ptr ∧
      Holds ⟨.ofNat bs.length, asize.toUInt32, ptr⟩ bs := by
  have hlen : (Region.fresh n : Region UInt8).length = n := Region.fresh_length n
  obtain ⟨ptr, hstore, hptr, hbegins⟩ :=
    (Region.begins_nil (Region.fresh n)).store (bs ++ [0])
      (by rw [hlen, List.length_append, List.length_nil, Nat.zero_add]; exact hroom)
  subst hasize
  refine ⟨ptr, alloc_ofNat hn, hstore, rfl, hfit, hbegins, ?_⟩
  rw [hptr, hlen, toUInt32_ofNat, toNat_ofNat (by omega)]

theorem tfStrnew3_holds {asiz : Int32} (h : 0 ≤ asiz) : ∃ x, tfStrnew3 asiz = some x ∧ x.Holds [] := by
  have hnat : asiz = .ofNat asiz.toInt.toNat := by
    apply Int32.toInt_inj.mp
    have hpos := Int32.le_iff_toInt_le.mp h
    have hlt := asiz.toInt_lt
    rw [toInt_ofNat (by omega)]
    exact (Int.toNat_of_nonneg hpos).symm
  have hmax : max asiz tfStrUnit = .ofNat (max asiz.toInt.toNat 16) := by
    have hlt := asiz.toInt_lt
    rw [← max_ofNat (by omega) (by omega), ← hnat]
    rfl
  have hlt := asiz.toInt_lt
  obtain ⟨ptr, halloc, hstore, hholds⟩ :=
    @holds_fresh [] fits_nil _ _ hmax (by omega) (by rw [List.length_nil]; omega)
  refine ⟨_, ?_, hholds⟩
  change Region.store _ 0 [some 0] = some ptr at hstore
  simp only [tfStrnew3, if_pos h, halloc, hstore, Option.bind_eq_bind, Option.bind_some]
  rfl

theorem tfStrnew_holds : ∃ x, tfStrnew = some x ∧ x.Holds [] := by
  obtain ⟨ptr, halloc, hstore, hholds⟩ :=
    @holds_fresh [] fits_nil tfStrUnit 16 rfl (by omega) (by rw [List.length_nil]; omega)
  refine ⟨_, ?_, hholds⟩
  change Region.store _ 0 [some 0] = some ptr at hstore
  simp only [tfStrnew, halloc, hstore, Option.bind_eq_bind, Option.bind_some]
  rfl

theorem tfStrnew2_holds {str : CString} (hfit : Texts.Fits str.val.length) :
    ∃ x, tfStrnew2 str = some x ∧ x.Holds str.val := by
  have hlt := hfit
  unfold Texts.Fits at hlt
  have hmax : max (str.strlen + 1) tfStrUnit = .ofNat (max (str.val.length + 1) 16) := by
    rw [← max_ofNat (by omega) (by omega), ← ofNat_add_one]
    rfl
  obtain ⟨ptr, halloc, hstore, hholds⟩ := holds_fresh hfit hmax (by omega) (by omega)
  refine ⟨_, ?_, hholds⟩
  simp only [tfStrnew2, str.load_cells hlt, halloc, hstore, Option.bind_eq_bind, Option.bind_some]
  rfl

theorem Holds.tfStrdup {xstr : TfStr} {bs : Bytes} (h : xstr.Holds bs) :
    ∃ x, xstr.tfStrdup = some x ∧ x.Holds bs := by
  have hlt := h.fits
  unfold Texts.Fits at hlt
  have hsize : (xstr.size + 1).toNat = bs.length + 1 := by
    rw [UInt32.toNat_add, h.size_toNat]
    change (bs.length + 1) % 2 ^ 32 = _
    omega
  have hmax : (max (xstr.size + 1) tfStrUnit.toUInt32).toInt32 = .ofNat (max (bs.length + 1) 16) := by
    have hu : max (xstr.size + 1) tfStrUnit.toUInt32 = .ofNat (max (bs.length + 1) 16) := by
      apply UInt32.toNat_inj.mp
      rw [toNat_ofNat (by omega), ← hsize]
      exact UInt32.toNat_max _ _
    rw [hu]
    rfl
  obtain ⟨ptr, halloc, hstore, hholds⟩ := holds_fresh h.fits hmax (by omega) (by omega)
  have hload : xstr.ptr.load 0 (xstr.size + 1).toNat = some ((bs ++ [0]).map some) := by
    have hcells := h.begins.load
    rwa [List.length_append, List.length_singleton, ← hsize] at hcells
  refine ⟨_, ?_, hholds⟩
  simp only [TfStr.tfStrdup, hload, halloc, hstore, Option.bind_eq_bind, Option.bind_some]
  rw [h.size]

theorem tfStrfrommalloc_holds {bs : Bytes} (rest : Region UInt8) (hfit : Texts.Fits bs.length) :
    ∃ x, tfStrfrommalloc (bs.map some ++ rest) (.ofNat bs.length) = some x ∧ x.Holds bs := by
  have hlt := hfit
  unfold Texts.Fits at hlt
  have hbegins : (Region.resize (bs.map some ++ rest) (bs.length + 1)).Begins bs :=
    Region.Begins.resize (List.prefix_append _ _) (by omega)
  have hlen := Region.resize_length (bs.map some ++ rest) (bs.length + 1)
  obtain ⟨ptr, hstore, hptr, hwhole⟩ := hbegins.store [0] (by rw [hlen]; rfl)
  change Region.store _ _ [some 0] = some ptr at hstore
  refine ⟨⟨.ofNat bs.length, .ofNat bs.length, ptr⟩, ?_, rfl, hfit, hwhole, ?_⟩
  · simp only [tfStrfrommalloc, ofNat_add_one, realloc_ofNat _ hlt,
      sizeT_ofNat (Nat.lt_of_succ_lt hlt), hstore, Option.bind_eq_bind, Option.bind_some]
    rfl
  · rw [toNat_ofNat (by omega), hptr, hlen]
    omega

theorem Holds.size_add {xstr : TfStr} {bs : Bytes} (h : xstr.Holds bs) (n : Nat) :
    xstr.size + (Int32.ofNat n).toUInt32 = .ofNat (bs.length + n) := by
  rw [h.size, toUInt32_ofNat, UInt32.ofNat_add]

/-- Storing behind the content, over its terminator. -/
theorem Spells.append {xstr : TfStr} {bs : Bytes} (h : xstr.Spells bs) (cs : Bytes)
    (room : bs.length + cs.length ≤ xstr.ptr.length) :
    ∃ buf, xstr.ptr.store xstr.size.toNat (cs.map some) = some buf ∧
      buf.length = xstr.ptr.length ∧ buf.Begins (bs ++ cs) := by
  rw [h.size_toNat]
  exact h.begins.of_append.store cs room

theorem Holds.append {xstr : TfStr} {bs : Bytes} (h : xstr.Holds bs) (cs : Bytes)
    (room : bs.length + cs.length ≤ xstr.ptr.length) :
    ∃ buf, xstr.ptr.store xstr.size.toNat (cs.map some) = some buf ∧
      buf.length = xstr.ptr.length ∧ buf.Begins (bs ++ cs) := h.spells.append cs room

/-- Appending works up to the largest length. -/
theorem Spells.tfStrcat {xstr : TfStr} {bs cs : Bytes} (h : xstr.Spells bs) (rest : Region UInt8)
    (hlt : bs.length + cs.length < 2 ^ 31) :
    ∃ x, xstr.tfStrcat (cs.map some ++ rest) (.ofNat cs.length) = some x ∧ x.Spells (bs ++ cs) := by
  have hn := h.nsize_toNat hlt
  obtain ⟨hgrown, hroom⟩ := h.grow (n := xstr.nsize (.ofNat cs.length)) (by omega)
  rw [hn] at hroom
  have hload : Region.load (cs.map some ++ rest) 0 (sizeT (.ofNat cs.length)) = some (cs.map some) := by
    rw [sizeT_ofNat (by omega)]
    exact Region.Begins.load (List.prefix_append _ _)
  obtain ⟨buf, hstore, hbuf, hbegins⟩ := hgrown.append cs (by omega)
  obtain ⟨ptr, hterm, hptr, hwhole⟩ := hbegins.store [0]
    (by rw [List.length_append, List.length_singleton, hbuf]; exact hroom)
  change Region.store _ _ [some 0] = some ptr at hterm
  have hsize : (xstr.grow (xstr.nsize (.ofNat cs.length))).size + (Int32.ofNat cs.length).toUInt32 =
      .ofNat (bs.length + cs.length) := by
    rw [hgrown.size, toUInt32_ofNat, UInt32.ofNat_add]
  have hnat : (UInt32.ofNat (bs.length + cs.length)).toNat = (bs ++ cs).length := by
    rw [toNat_ofNat (by omega), List.length_append]
  refine ⟨⟨.ofNat (bs.length + cs.length), (xstr.grow (xstr.nsize (.ofNat cs.length))).asize, ptr⟩,
    ?_, ?_, ?_, hwhole, ?_⟩
  · simp only [TfStr.tfStrcat, if_pos (ofNat_nonneg (show cs.length < 2 ^ 31 by omega)), hload, hstore,
      hsize, hnat, hterm, Option.bind_eq_bind, Option.bind_some]
  · rw [List.length_append]
  · rw [List.length_append]
    exact hlt
  · rw [hptr, hbuf]
    exact hgrown.room

theorem Holds.tfStrcat {xstr : TfStr} {bs cs : Bytes} (h : xstr.Holds bs) (rest : Region UInt8)
    (hfit : Texts.Fits (bs.length + cs.length)) :
    ∃ x, xstr.tfStrcat (cs.map some ++ rest) (.ofNat cs.length) = some x ∧ x.Holds (bs ++ cs) := by
  obtain ⟨x, hcat, hx⟩ := h.spells.tfStrcat rest (Nat.lt_of_succ_lt hfit)
  refine ⟨x, hcat, hx.size, ?_, hx.begins, hx.room⟩
  rw [List.length_append]
  exact hfit

theorem Holds.tfStrcat_begins {xstr : TfStr} {bs cs : Bytes} (h : xstr.Holds bs) {buf : Region UInt8}
    (hbuf : buf.Begins cs) (hfit : Texts.Fits (bs.length + cs.length)) :
    ∃ x, xstr.tfStrcat buf (.ofNat cs.length) = some x ∧ x.Holds (bs ++ cs) := by
  obtain ⟨rest, rfl⟩ := hbuf
  exact h.tfStrcat rest hfit

theorem Holds.tfStrcat2 {xstr : TfStr} {bs : Bytes} (h : xstr.Holds bs) {str : CString}
    (hfit : Texts.Fits (bs.length + str.val.length)) :
    ∃ x, xstr.tfStrcat2 str = some x ∧ x.Holds (bs ++ str.val) := by
  have hlt := hfit
  unfold Texts.Fits at hlt
  have hn := h.nsize_toNat hfit
  obtain ⟨hgrown, hroom⟩ := h.grow (n := xstr.nsize str.strlen) (by rw [CString.strlen]; omega)
  rw [CString.strlen, hn] at hroom
  obtain ⟨buf, hstore, hbuf, hbegins⟩ := hgrown.append (str.val ++ [0])
    (by rw [List.length_append, List.length_singleton]; exact hroom)
  rw [← List.append_assoc] at hbegins
  have hsize : (xstr.grow (xstr.nsize str.strlen)).size + str.strlen.toUInt32 =
      .ofNat (bs.length + str.val.length) := hgrown.size_add str.val.length
  refine ⟨⟨.ofNat (bs.length + str.val.length), (xstr.grow (xstr.nsize str.strlen)).asize, buf⟩,
    ?_, ?_, ?_, hbegins, ?_⟩
  · simp only [TfStr.tfStrcat2, str.load_cells (by omega), hstore, hsize, Option.bind_eq_bind,
      Option.bind_some]
  · rw [List.length_append]
  · rw [List.length_append]
    exact hfit
  · rw [hbuf]
    exact hgrown.room

theorem Holds.tfStrclear {xstr : TfStr} {bs : Bytes} (h : xstr.Holds bs) :
    ∃ x, xstr.tfStrclear = some x ∧ x.Holds [] := by
  have hlen := h.length_lt
  obtain ⟨buf, hstore, hbuf, hbegins⟩ :=
    (Region.begins_nil xstr.ptr).store [0] (by rw [List.length_nil, List.length_singleton]; omega)
  change Region.store _ 0 [some 0] = some buf at hstore
  refine ⟨⟨0, xstr.asize, buf⟩, ?_, rfl, fits_nil, hbegins, ?_⟩
  · simp only [TfStr.tfStrclear, hstore, Option.bind_eq_bind, Option.bind_some]
  · rw [hbuf]
    exact h.room

/-! ## Every history -/

theorem getD_of_lt {texts : List Bytes} {i : Nat} (h : i < texts.length) :
    texts[i]? = some (texts.getD i []) := by
  rw [List.getD_eq_getElem?_getD, List.getElem?_eq_getElem h]
  rfl

/-- One operation. -/
theorem applyStr_holds (pool : List TfStr) (texts : List Bytes) (e : StrEvent)
    (h : List.Forall₂ Holds pool texts) (admitted : byteStrings.admits texts e) :
    ∃ pool', applyStr pool e = some pool' ∧ List.Forall₂ Holds pool' (byteStrings.step texts e) := by
  cases e with
  | new => exact Pool.related_create h tfStrnew_holds
  | new2 str => exact Pool.related_create h (tfStrnew2_holds admitted)
  | new3 asiz => exact Pool.related_create h (tfStrnew3_holds admitted)
  | dup i =>
      obtain ⟨x, hx, hholds⟩ := Pool.related_get h (getD_of_lt admitted)
      refine Pool.related_create h ?_
      rw [hx]
      exact hholds.tfStrdup
  | frommalloc bs rest => exact Pool.related_create h (tfStrfrommalloc_holds rest admitted)
  | cat i bs rest =>
      exact Pool.related_update h (getD_of_lt admitted.1) fun x hx => hx.tfStrcat rest admitted.2
  | cat2 i str =>
      exact Pool.related_update h (getD_of_lt admitted.1) fun x hx => hx.tfStrcat2 admitted.2
  | clear i => exact Pool.related_update h (getD_of_lt admitted) fun x hx => hx.tfStrclear

/-- The string reads as `bs`, its region has room for one byte more, and that byte is zero. -/
def ReadsAs (xstr : TfStr) (bs : Bytes) : Prop :=
  xstr.tfStrsize = .ofNat bs.length ∧ xstr.size.toNat = bs.length ∧
    xstr.tfStrptr.load 0 bs.length = some (bs.map some) ∧
    bs.length + 1 ≤ xstr.tfStrptr.length ∧ xstr.tfStrptr.get bs.length = some 0

/-- For every append that is still within `int`, the doubling loop ends with the
needed size, and no product that it can compute on the way wraps. -/
def GrowsSafely (xstr : TfStr) (bs : Bytes) : Prop :=
  ∀ n, Texts.Fits (bs.length + n) →
    (xstr.nsize (.ofNat n)).toNat = bs.length + n + 1 ∧
    xstr.nsize (.ofNat n) ≤ growLoop xstr.asize (xstr.nsize (.ofNat n)) ∧
    ∀ asize, asize < xstr.nsize (.ofNat n) → (asize * 2).toNat = 2 * asize.toNat

theorem Holds.readsAs {xstr : TfStr} {bs : Bytes} (h : xstr.Holds bs) : xstr.ReadsAs bs := by
  refine ⟨?_, h.size_toNat, h.begins.of_append.load, h.length_lt, h.begins.get⟩
  rw [tfStrsize, h.size]
  rfl

theorem Holds.growsSafely {xstr : TfStr} {bs : Bytes} (h : xstr.Holds bs) : xstr.GrowsSafely bs := by
  intro n hfit
  have hn := h.nsize_toNat hfit
  refine ⟨hn, growLoop_ge _ _, fun asize hlt => ?_⟩
  unfold Texts.Fits at hfit
  exact doubled_toNat (by omega) hlt

/-- The strings of `tf_string.c` refine byte strings: in every history none of
their operations leaves a region, and each string reads as what was put into it. -/
theorem str_refines {es : List StrEvent} {texts : List Bytes} (h : byteStrings.Runs [] es texts) :
    ∃ pool, es.foldlM applyStr [] = some pool ∧
      List.Forall₂ (fun xstr bs => xstr.ReadsAs bs ∧ xstr.GrowsSafely bs) pool texts := by
  obtain ⟨pool, hfold, hpool⟩ := h.simulate applyStr_holds List.Forall₂.nil
  exact ⟨pool, hfold, hpool.imp fun _ _ hholds => ⟨hholds.readsAs, hholds.growsSafely⟩⟩

/-- A string made from a region of its own size, appended to, copied and cleared. -/
theorem str_refines_copied :
    ∃ pool, [.frommalloc [97] [], .cat 0 [98, 0] [], .dup 0, .cat2 1 ⟨[99], by decide⟩,
        .clear 0].foldlM applyStr [] = some pool ∧
      List.Forall₂ (fun xstr bs => xstr.ReadsAs bs ∧ xstr.GrowsSafely bs) pool
        [[], [97, 98, 0, 99]] :=
  str_refines
    (.cons (by decide : 1 + 1 < 2 ^ 31)
      (.cons (by decide : 0 < 1 ∧ 1 + 2 + 1 < 2 ^ 31)
        (.cons (by decide : 0 < 1)
          (.cons (by decide : 1 < 2 ∧ 3 + 1 + 1 < 2 ^ 31)
            (.cons (by decide : 0 < 2) (.nil _))))))

end TfStr

end Tflib.Data
