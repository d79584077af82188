import Tflib.Data.List
import Tflib.Util.VarNum

/-! # Serialised lists

`tf_list_dump` writes every element behind its length, a variable-length number,
and `tf_list_load` reads them back. Neither of them checks a bound.
-/

namespace Tflib.Data

open Tflib.Core Tflib.Util

namespace TfList

/-! ## The code -/

/-- `tsiz`, an `int`: four bytes are set aside for the length of every element. -/
def dumpSize (nodes : List ListNode) : Int32 :=
  nodes.foldl (fun tsiz node => tsiz + (node.size + 4)) 0

/-- One round of the second loop of `tf_list_dump`, with the buffer and the place `wp` in it. -/
def dumpNode (buf : Region UInt8) (wp : Nat) (node : ListNode) : Option (Region UInt8 × Nat) := do
  let code := setVnumBuf node.size
  let buf ← buf.store wp (code.map some)
  let wp := wp + code.length
  let cells ← node.ptr.load 0 (sizeT node.size)
  let buf ← buf.store wp cells
  some (buf, wp + sizeT node.size)

/-- The buffer and `*sp`. -/
def tfListDump (list : TfList) : Option (Region UInt8 × Int32) := do
  let array ← list.array.load list.start list.num
  let nodes ← array.mapM id
  let buf ← alloc (dumpSize nodes + 1)
  let (buf, wp) ← nodes.foldlM (fun s node => dumpNode s.1 s.2 node) (buf, 0)
  some (buf, .ofNat wp)

/-- `anum *= 2`, an `int`, where the array is full. -/
def double (list : TfList) : Option TfList :=
  if list.anum ≤ list.num then do
    let anum := Int32.ofNat list.anum * 2
    let array ← realloc list.array anum
    some { list with array := array, anum := sizeT anum }
  else some list

/-- One element of `vsiz` bytes at `rp`. -/
def loadElem (list : TfList) (rp : Bytes) (vsiz : Int32) : Option TfList := do
  let list ← list.double
  let node ← copyBytes (rp.map some) vsiz
  let array ← list.array.store list.num [some node]
  some { list with array := array, num := list.num + 1 }

/-- The loop of `tf_list_load`; `rp` is the input from the cursor on. -/
def loadLoop (list : TfList) (rp : Bytes) : Option TfList :=
  if rp = [] then some list
  else
    match _hread : readVnumBuf rp with
    | none => none
    | some (vsiz, step) => do
        let behind := rp.drop step
        let list ← list.loadElem behind vsiz
        loadLoop list (behind.drop (sizeT vsiz))
termination_by rp.length
decreasing_by
  obtain ⟨code, rest, hcode, rfl, -, rfl⟩ := readVnumBuf_eq_some _hread
  have hpos := hcode.length_pos
  simp only [List.length_drop, List.length_append]
  omega

def tfListLoad (ptr : Region UInt8) (size : Int32) : Option TfList :=
  if 0 ≤ size then do
    let anum := size.toInt.toNat / 4 + 1
    let array ← alloc (.ofNat anum)
    let cells ← ptr.load 0 (sizeT size)
    let input ← cells.mapM id
    loadLoop ⟨array, anum, 0, 0⟩ input
  else none

end TfList

/-! ## The format -/

/-- The input is these elements, each behind its length narrowed to an `int`. -/
inductive Records : Bytes → List Bytes → Prop
  | nil : Records [] []
  | cons {code body rest : Bytes} {elems : List Bytes} :
      IsCode code → (Int32.ofNat (codeValue code)).toInt = body.length → Records rest elems →
      Records (code ++ (body ++ rest)) (body :: elems)

/-- A serialisation that can be loaded. The second part is about the capacity, which
starts at a quarter of the input's size and must not be doubled beyond an `int`. -/
def WellFormed (input : Bytes) : Prop :=
  ∃ elems, Records input elems ∧ (elems.length ≤ 2 ^ 30 ∨ input.length < 2 ^ 31 - 4)

theorem Records.length_le {input : Bytes} {elems : List Bytes} (h : Records input elems) :
    elems.length ≤ input.length := by
  induction h with
  | nil => exact Nat.le_refl _
  | @cons code body rest elems hcode hvalue hrest ih =>
      have hpos := hcode.length_pos
      simp only [List.length_append, List.length_cons]
      omega

/-- Every element is a contiguous part of the input. -/
theorem Records.part {input : Bytes} {elems : List Bytes} (h : Records input elems) {bs : Bytes}
    (hbs : bs ∈ elems) : bs <:+: input := by
  induction h with
  | nil => exact absurd hbs List.not_mem_nil
  | @cons code body rest elems hcode hvalue hrest ih =>
      rcases List.mem_cons.mp hbs with rfl | hmem
      · exact ⟨code, rest, List.append_assoc _ _ _⟩
      · refine (ih hmem).trans ⟨code ++ body, [], ?_⟩
        rw [List.append_nil, List.append_assoc]

theorem Records.inv {input : Bytes} {elems : List Bytes} (h : Records input elems) :
    (input = [] ∧ elems = []) ∨ ∃ code body rest elems', IsCode code ∧
      (Int32.ofNat (codeValue code)).toInt = body.length ∧ Records rest elems' ∧
      input = code ++ (body ++ rest) ∧ elems = body :: elems' := by
  cases h with
  | nil => exact .inl ⟨rfl, rfl⟩
  | cons hcode hvalue hrest => exact .inr ⟨_, _, _, _, hcode, hvalue, hrest, rfl, rfl⟩

/-- The format is unambiguous. -/
theorem Records.unique {input : Bytes} {elems elems' : List Bytes} (h : Records input elems)
    (h' : Records input elems') : elems = elems' := by
  induction h generalizing elems' with
  | nil =>
      rcases h'.inv with ⟨-, rfl⟩ | ⟨code, body, rest, elems', hcode, -, -, hinput, -⟩
      · rfl
      · exact absurd hinput.symm (hcode.append_ne_nil _)
  | @cons code body rest elems hcode hvalue hrest ih =>
      rcases h'.inv with ⟨hinput, -⟩ | ⟨code', body', rest', elems', hcode', hvalue', hrest', hinput, rfl⟩
      · exact absurd hinput (hcode.append_ne_nil _)
      · obtain ⟨rfl, hsame⟩ := hcode.append_inj hcode' hinput
        have hlen : body.length = body'.length := by
          rw [hvalue] at hvalue'
          exact Int.natCast_inj.mp hvalue'
        obtain ⟨rfl, rfl⟩ := List.append_inj hsame hlen
        rw [ih hrest']

/-! ## Loading -/

/-- `m` more elements fit behind the first `n` when the capacity `a` is doubled as an `int`. -/
def Grows (a n : Nat) : Nat → Prop
  | 0 => True
  | m + 1 => if n < a then Grows a (n + 1) m else 2 * a < 2 ^ 31 ∧ Grows (2 * a) (n + 1) m

/-- The last capacity is the first one doubled `k` times. -/
theorem grows_iff {a n m : Nat} (h : n ≤ a) (hpos : 0 < a) :
    Grows a n m ↔ ∃ k, n + m ≤ a * 2 ^ k ∧ (k = 0 ∨ a * 2 ^ k < 2 ^ 31) := by
  induction m generalizing a n with
  | zero => exact ⟨fun _ => ⟨0, by omega, .inl rfl⟩, fun _ => trivial⟩
  | succ m ih =>
      rw [Grows]
      have hsum : n + 1 + m = n + (m + 1) := by omega
      split
      · rename_i hlt
        rw [ih hlt hpos, hsum]
      · rename_i hfull
        rw [ih (by omega) (by omega), hsum]
        constructor
        · rintro ⟨hdouble, k, hle, hk⟩
          refine ⟨k + 1, ?_, .inr ?_⟩
          · rw [Nat.pow_succ]
            calc n + (m + 1) ≤ 2 * a * 2 ^ k := hle
              _ = a * (2 ^ k * 2) := by ring
          · rcases hk with rfl | hk
            · omega
            · calc a * 2 ^ (k + 1) = 2 * a * 2 ^ k := by ring
                _ < 2 ^ 31 := hk
        · rintro ⟨k, hle, hk⟩
          cases k with
          | zero => omega
          | succ k =>
              have hsplit : a * 2 ^ (k + 1) = 2 * a * 2 ^ k := by ring
              have hk : a * 2 ^ (k + 1) < 2 ^ 31 := hk.resolve_left (Nat.succ_ne_zero k)
              have hone : 2 * a ≤ 2 * a * 2 ^ k := Nat.le_mul_of_pos_right _ (Nat.two_pow_pos k)
              rw [hsplit] at hle hk
              exact ⟨by omega, k, hle, .inr hk⟩

/-- The capacity that `tf_list_load` starts with. -/
theorem grows_load {size m : Nat} (hsize : size < 2 ^ 31) (hm : m ≤ size) :
    Grows (size / 4 + 1) 0 m ↔ m ≤ 2 ^ 30 ∨ size < 2 ^ 31 - 4 := by
  rw [grows_iff (Nat.zero_le _) (by omega : 0 < size / 4 + 1), Nat.zero_add]
  constructor
  · rintro ⟨k, hle, hk⟩
    by_cases hsmall : size < 2 ^ 31 - 4
    · exact .inr hsmall
    · left
      have ha : size / 4 + 1 = 2 ^ 29 := by omega
      rw [ha] at hle hk
      match k with
      | 0 => omega
      | 1 => omega
      | k + 2 =>
          have hpow : 2 ^ 29 * 2 ^ (k + 2) = 2 ^ 31 * 2 ^ k := by ring
          have hpos := Nat.two_pow_pos k
          rw [hpow] at hk
          omega
  · intro h
    by_cases hsmall : size / 4 + 1 < 2 ^ 29
    · exact ⟨2, by omega, .inr (by omega)⟩
    · exact ⟨1, by omega, .inr (by omega)⟩

namespace TfList

theorem Holds.double {list : TfList} {elems : List Bytes} (h : list.Holds elems) (hpos : 0 < list.anum)
    (hcap : list.anum < 2 ^ 31) (room : elems.length < list.anum ∨ 2 * list.anum < 2 ^ 31) :
    ∃ list', list.double = some list' ∧ list'.Holds elems ∧
      list'.anum = (if elems.length < list.anum then list.anum else 2 * list.anum) ∧
      elems.length < list'.anum := by
  have hnum := h.num_eq
  unfold TfList.double
  split
  · rename_i hfull
    have hfull' : ¬ elems.length < list.anum := by omega
    have hdouble : Int32.ofNat list.anum * 2 = .ofNat (2 * list.anum) := by
      rw [Nat.mul_comm, Int32.ofNat_mul]
      rfl
    have hfit := room.resolve_left hfull'
    obtain ⟨hstart, hsize, nodes, hbegins, hlen, hnodes⟩ := h
    have hresize := Region.resize_length list.array (2 * list.anum)
    have hle := hbegins.length_le
    refine ⟨{ list with array := list.array.resize (2 * list.anum), anum := 2 * list.anum }, ?_, ?_, ?_, ?_⟩
    · simp only [hdouble, realloc_ofNat _ hfit, sizeT_ofNat hfit, Option.bind_eq_bind, Option.bind_some]
    · exact ⟨hstart, hresize, nodes, hbegins.resize (by omega), hlen, hnodes⟩
    · rw [if_neg hfull']
    · change elems.length < 2 * list.anum
      omega
  · have hroom : elems.length < list.anum := by omega
    exact ⟨list, rfl, h, by rw [if_pos hroom], hroom⟩

theorem double_eq_none {list : TfList} (hfull : list.anum ≤ list.num) (hcap : list.anum < 2 ^ 31)
    (hover : 2 ^ 31 ≤ 2 * list.anum) : list.double = none := by
  have hdouble : Int32.ofNat list.anum * 2 = .ofNat (2 * list.anum) := by
    rw [Nat.mul_comm, Int32.ofNat_mul]
    rfl
  have hnone : realloc list.array (.ofNat (2 * list.anum)) = none :=
    if_neg (neg_ofNat hover (by omega))
  simp only [TfList.double, if_pos hfull, hdouble, hnone, Option.bind_eq_bind, Option.bind_none]

theorem Holds.loadElem {list : TfList} {elems : List Bytes} (h : list.Holds elems)
    (hpos : 0 < list.anum) (hcap : list.anum < 2 ^ 31)
    (room : elems.length < list.anum ∨ 2 * list.anum < 2 ^ 31) {body : Bytes}
    (fits : body.length + 1 < 2 ^ 31) (rest : Bytes) :
    ∃ list', list.loadElem (body ++ rest) (.ofNat body.length) = some list' ∧
      list'.Holds (elems ++ [body]) ∧
      list'.anum = (if elems.length < list.anum then list.anum else 2 * list.anum) ∧
      0 < list'.anum ∧ list'.anum < 2 ^ 31 := by
  obtain ⟨doubled, hdouble, hholds, hanum, hroom⟩ := h.double hpos hcap room
  have hptr : Region.Begins ((body ++ rest).map some) body := by
    rw [List.map_append]
    exact List.prefix_append _ _
  obtain ⟨node, hcopy, hnode⟩ := copyBytes_holds hptr fits
  obtain ⟨array, hstore, hlist⟩ := hholds.append (hholds.capacity ▸ hroom) hnode
  refine ⟨_, ?_, hlist, hanum, Nat.zero_lt_of_lt hroom, ?_⟩
  · simp only [TfList.loadElem, hdouble, hcopy, hholds.num_eq, hholds.start, hstore,
      Option.bind_eq_bind, Option.bind_some]
  · change doubled.anum < 2 ^ 31
    rw [hanum]
    split
    · exact hcap
    · exact room.resolve_left ‹_›

/-- What it takes to load an element. -/
theorem Holds.of_loadElem {list list' : TfList} {elems : List Bytes} (h : list.Holds elems)
    (hcap : list.anum < 2 ^ 31) {rp : Bytes} (hrp : rp.length < 2 ^ 31) {vsiz : Int32}
    (hload : list.loadElem rp vsiz = some list') :
    (elems.length < list.anum ∨ 2 * list.anum < 2 ^ 31) ∧
      ∃ body rest, rp = body ++ rest ∧ vsiz = .ofNat body.length ∧ sizeT vsiz = body.length := by
  have hnum := h.num_eq
  simp only [TfList.loadElem, Option.bind_eq_bind, Option.bind_eq_some_iff] at hload
  obtain ⟨doubled, hdouble, node, hcopy, -⟩ := hload
  simp only [copyBytes, Option.bind_eq_bind, Option.bind_eq_some_iff] at hcopy
  obtain ⟨-, -, cells, hcells, -⟩ := hcopy
  constructor
  · by_cases hroom : elems.length < list.anum
    · exact .inl hroom
    · by_cases hfit : 2 * list.anum < 2 ^ 31
      · exact .inr hfit
      · rw [double_eq_none (by omega) hcap (by omega)] at hdouble
        contradiction
  · have hle : sizeT vsiz ≤ rp.length := by
      unfold Region.load at hcells
      split at hcells
      · rename_i hle
        rwa [Nat.zero_add, List.length_map] at hle
      · contradiction
    have hlen : (rp.take (sizeT vsiz)).length = sizeT vsiz := List.length_take_of_le hle
    refine ⟨rp.take (sizeT vsiz), rp.drop (sizeT vsiz), (List.take_append_drop _ _).symm, ?_, hlen.symm⟩
    rw [hlen]
    exact eq_ofNat_of_sizeT (by omega)

/-- Elements that are there are loaded, by induction on them. -/
theorem Holds.loadLoop {list : TfList} {before : List Bytes} (h : list.Holds before)
    (hpos : 0 < list.anum) (hcap : list.anum < 2 ^ 31) {rp : Bytes} {elems : List Bytes}
    (hrec : Records rp elems) (hrp : rp.length < 2 ^ 31)
    (hgrows : Grows list.anum before.length elems.length) :
    ∃ list', list.loadLoop rp = some list' ∧ list'.Holds (before ++ elems) := by
  induction hrec generalizing list before with
  | nil =>
      refine ⟨list, ?_, ?_⟩
      · rw [TfList.loadLoop, if_pos rfl]
      · rwa [List.append_nil]
  | @cons code body rest elems hcode hvalue hrest ih =>
      have hcpos := hcode.length_pos
      simp only [List.length_append] at hrp
      have hvsiz : Int32.ofNat (codeValue code) = .ofNat body.length := by
        apply Int32.toInt_inj.mp
        rw [hvalue, toInt_ofNat (by omega)]
      have hroom : before.length < list.anum ∨ 2 * list.anum < 2 ^ 31 := by
        rw [List.length_cons, Grows] at hgrows
        split at hgrows
        · exact .inl ‹_›
        · exact .inr hgrows.1
      obtain ⟨next, hload, hnext, hanum, hnpos, hncap⟩ :=
        h.loadElem hpos hcap hroom (show body.length + 1 < 2 ^ 31 by omega) rest
      have hmore : Grows next.anum (before ++ [body]).length elems.length := by
        rw [List.length_cons, Grows] at hgrows
        rw [hanum, List.length_append, List.length_singleton]
        split at hgrows
        · rwa [if_pos ‹_›]
        · rw [if_neg ‹_›]
          exact hgrows.2
      obtain ⟨list', hloop, hlist⟩ := ih hnext hnpos hncap (by omega) hmore
      refine ⟨list', ?_, ?_⟩
      · rw [TfList.loadLoop, if_neg (hcode.append_ne_nil _), readVnumBuf_code hcode]
        simp only [hvsiz, List.drop_left, hload, sizeT_ofNat (show body.length < 2 ^ 31 by omega), hloop,
          Option.bind_eq_bind, Option.bind_some]
      · rwa [List.append_assoc] at hlist

/-- What is loaded was there, by induction on the input. -/
theorem Holds.of_loadLoop {list list' : TfList} {before : List Bytes} (h : list.Holds before)
    (hpos : 0 < list.anum) (hcap : list.anum < 2 ^ 31) {rp : Bytes} (hrp : rp.length < 2 ^ 31)
    (hloop : list.loadLoop rp = some list') :
    ∃ elems, Records rp elems ∧ Grows list.anum before.length elems.length := by
  induction hn : rp.length using Nat.strong_induction_on generalizing list before rp with
  | _ n ih =>
      subst hn
      rw [TfList.loadLoop] at hloop
      split at hloop
      · rename_i hnil
        exact ⟨[], hnil ▸ .nil, trivial⟩
      · split at hloop
        · contradiction
        · rename_i vsiz step hread
          obtain ⟨code, rest, hcode, rfl, rfl, rfl⟩ := readVnumBuf_eq_some hread
          have hcpos := hcode.length_pos
          simp only [List.drop_left, Option.bind_eq_bind, Option.bind_eq_some_iff] at hloop
          obtain ⟨next, hload, hloop⟩ := hloop
          rw [List.length_append] at hrp
          obtain ⟨hroom, body, behind, rfl, hvsiz, hsize⟩ := h.of_loadElem hcap (by omega) hload
          rw [List.length_append] at hrp
          obtain ⟨next', hload', hnext, hanum, hnpos, hncap⟩ :=
            h.loadElem hpos hcap hroom (show body.length + 1 < 2 ^ 31 by omega) behind
          rw [← hvsiz, hload] at hload'
          cases hload'
          rw [hsize, List.drop_left] at hloop
          obtain ⟨elems, hrec, hgrows⟩ := ih behind.length (by simp only [List.length_append]; omega)
            hnext hnpos hncap (by omega) hloop rfl
          refine ⟨body :: elems, .cons hcode ?_ hrec, ?_⟩
          · rw [hvsiz, toInt_ofNat (by omega)]
          · rw [List.length_append, List.length_singleton, hanum] at hgrows
            rw [List.length_cons, Grows]
            split
            · rwa [if_pos ‹_›] at hgrows
            · rename_i hfull
              rw [if_neg hfull] at hgrows
              exact ⟨hroom.resolve_left hfull, hgrows⟩

theorem mapM_some {α : Type} (xs : List α) : (xs.map some).mapM id = some xs := by
  induction xs with
  | nil => rfl
  | cons x xs ih =>
      rw [List.map_cons, List.mapM_cons, ih]
      rfl

theorem tfListLoad_eq {ptr : Region UInt8} {input : Bytes} (hptr : ptr.Begins input)
    (h : input.length < 2 ^ 31) :
    tfListLoad ptr (.ofNat input.length) =
      loadLoop ⟨Region.fresh (input.length / 4 + 1), input.length / 4 + 1, 0, 0⟩ input := by
  have hanum : input.length / 4 + 1 < 2 ^ 31 := by omega
  simp only [tfListLoad, if_pos (ofNat_nonneg h), toInt_ofNat h, Int.toNat_natCast, sizeT_ofNat h,
    alloc_ofNat hanum, hptr.load, mapM_some, Option.bind_eq_bind, Option.bind_some]

/-- Loading a well-formed input yields its elements. -/
theorem tfListLoad_holds {ptr : Region UInt8} {input : Bytes} (hptr : ptr.Begins input)
    (h : input.length < 2 ^ 31) {elems : List Bytes} (hrec : Records input elems)
    (hcount : elems.length ≤ 2 ^ 30 ∨ input.length < 2 ^ 31 - 4) :
    ∃ list, tfListLoad ptr (.ofNat input.length) = some list ∧ list.Holds elems := by
  rw [tfListLoad_eq hptr h]
  exact (holds_empty _).loadLoop (Nat.succ_pos _) (by change input.length / 4 + 1 < _; omega) hrec h
    ((grows_load h hrec.length_le).mpr hcount)

theorem wellFormed_of_load {ptr : Region UInt8} {input : Bytes} (hptr : ptr.Begins input)
    (h : input.length < 2 ^ 31) {list : TfList}
    (hload : tfListLoad ptr (.ofNat input.length) = some list) : WellFormed input := by
  rw [tfListLoad_eq hptr h] at hload
  obtain ⟨elems, hrec, hgrows⟩ := (holds_empty _).of_loadLoop (Nat.succ_pos _)
    (by change input.length / 4 + 1 < _; omega) h hload
  exact ⟨elems, hrec, (grows_load h hrec.length_le).mp hgrows⟩

/-- Every element has a size that is not negative and is a contiguous part of the input. -/
def Parts (list : TfList) (input : Bytes) : Prop :=
  ∀ i < list.num, ∃ node bs, list.array.get (i + list.start) = some node ∧ bs <:+: input ∧
    node.size.toInt = bs.length ∧ node.ptr.load 0 (sizeT node.size) = some (bs.map some)

theorem Holds.parts {list : TfList} {elems : List Bytes} (h : list.Holds elems) {input : Bytes}
    (hrec : Records input elems) : list.Parts input := by
  intro i hi
  rw [h.num_eq] at hi
  obtain ⟨node, hget, hnode⟩ := h.node (List.getElem?_eq_getElem hi)
  have hfits := hnode.fits
  refine ⟨node, elems[i], hget, hrec.part (List.getElem_mem hi), ?_, ?_⟩
  · rw [hnode.size, toInt_ofNat (by omega)]
  · rw [hnode.size, sizeT_ofNat (by omega)]
    exact hnode.begins.of_append.load

/-- `tf_list_load` stays inside of its input, and its elements are parts of it, exactly
where the input is well formed. -/
theorem load_iff (input : Bytes) (h : input.length < 2 ^ 31) :
    (∃ list, tfListLoad (input.map some) (.ofNat input.length) = some list ∧ list.Parts input) ↔
      WellFormed input := by
  have hptr : Region.Begins (input.map some) input := List.prefix_refl _
  constructor
  · rintro ⟨list, hload, -⟩
    exact wellFormed_of_load hptr h hload
  · rintro ⟨elems, hrec, hcount⟩
    obtain ⟨list, hload, hlist⟩ := tfListLoad_holds hptr h hrec hcount
    exact ⟨list, hload, hlist.parts hrec⟩

/-- One element of two bytes and an empty one. -/
theorem load_iff_two :
    ∃ list, tfListLoad ([2, 97, 98, 0].map some) (.ofNat 4) = some list ∧
      list.Parts [2, 97, 98, 0] := by
  refine (load_iff [2, 97, 98, 0] (by decide)).mpr ⟨[[97, 98], []], ?_, .inl (by decide)⟩
  exact @Records.cons [2] [97, 98] [0] [[]] (.last (by decide)) (by decide)
    (@Records.cons [0] [] [] [] (.last (by decide)) (by decide) .nil)

/-- A length that has no end. -/
theorem tfListLoad_truncated : tfListLoad ([0x80].map some) (.ofNat 1) = none := by
  have hread : readVnumBuf [0x80] = none := by decide
  have heq := tfListLoad_eq (List.prefix_refl (([0x80] : Bytes).map some)) (by decide)
  rw [List.length_singleton] at heq
  rw [heq, loadLoop, if_neg (List.cons_ne_nil _ _), hread]

theorem load_truncated :
    ¬ ∃ list, tfListLoad ([0x80].map some) (.ofNat 1) = some list ∧ list.Parts [0x80] := by
  rintro ⟨list, hload, -⟩
  rw [tfListLoad_truncated] at hload
  contradiction

end TfList

/-! ## Dumping -/

/-- The elements, each behind its length. -/
def serial (elems : List Bytes) : Bytes :=
  elems.flatMap fun bs => setVnumBuf (.ofNat bs.length) ++ bs

/-- The sum of the lengths' sizes and the lengths. -/
def serialSize (elems : List Bytes) : Nat :=
  (elems.map fun bs => calcVnumSize bs.length + bs.length).sum

/-- What `tf_list_dump` sets aside for them. -/
def setAside (elems : List Bytes) : Nat := (elems.map fun bs => bs.length + 4).sum

theorem serial_cons (bs : Bytes) (elems : List Bytes) :
    serial (bs :: elems) = setVnumBuf (.ofNat bs.length) ++ (bs ++ serial elems) := by
  rw [serial, List.flatMap_cons, List.append_assoc]
  rfl

theorem serial_length {elems : List Bytes} (h : ∀ bs ∈ elems, bs.length < 2 ^ 31) :
    (serial elems).length = serialSize elems := by
  induction elems with
  | nil => rfl
  | cons bs elems ih =>
      have hsize := setVnumBuf_length (h bs List.mem_cons_self)
      rw [serial_cons, List.length_append, List.length_append, hsize,
        ih fun x hx => h x (List.mem_cons_of_mem bs hx), serialSize, serialSize, List.map_cons,
        List.sum_cons, Nat.add_assoc]

theorem records_serial {elems : List Bytes} (h : ∀ bs ∈ elems, bs.length < 2 ^ 31) :
    Records (serial elems) elems := by
  induction elems with
  | nil => exact .nil
  | cons bs elems ih =>
      have hlen := h bs List.mem_cons_self
      obtain ⟨hcode, hvalue⟩ := setVnumBuf_code hlen
      rw [serial_cons]
      refine .cons hcode ?_ (ih fun x hx => h x (List.mem_cons_of_mem bs hx))
      rw [hvalue, toInt_ofNat hlen]

namespace TfList

theorem dumpSize_eq {nodes : List ListNode} {elems : List Bytes}
    (h : List.Forall₂ ListNode.Holds nodes elems) :
    dumpSize nodes = .ofNat (setAside elems) := by
  suffices hfold : ∀ n, nodes.foldl (fun tsiz node => tsiz + (node.size + 4)) (Int32.ofNat n) =
      .ofNat (n + setAside elems) by
    have hzero := hfold 0
    rwa [Nat.zero_add] at hzero
  induction h with
  | nil => exact fun n => rfl
  | @cons node bs nodes elems hnode hnodes ih =>
      intro n
      have hround : Int32.ofNat n + (node.size + 4) = .ofNat (n + (bs.length + 4)) := by
        rw [hnode.size, Int32.ofNat_add n, Int32.ofNat_add bs.length]
        rfl
      rw [List.foldl_cons, hround, ih, setAside, setAside, List.map_cons, List.sum_cons, Nat.add_assoc]

/-- The bytes that one element takes. -/
def elemSize (bs : Bytes) : Nat := (setVnumBuf (.ofNat bs.length)).length + bs.length

/-- One element is written where there is room for it. -/
theorem dumpNode_some {node : ListNode} {bs : Bytes} (h : node.Holds bs) {buf : Region UInt8}
    {done : Bytes} (hbuf : buf.Begins done) (room : done.length + elemSize bs ≤ buf.length) :
    ∃ buf', dumpNode buf done.length node = some (buf', done.length + elemSize bs) ∧
      buf'.length = buf.length ∧ buf'.Begins (done ++ (setVnumBuf (.ofNat bs.length) ++ bs)) := by
  unfold elemSize at room
  have hsize : sizeT (.ofNat bs.length) = bs.length := sizeT_ofNat (Nat.lt_of_succ_lt h.fits)
  have hload : node.ptr.load 0 bs.length = some (bs.map some) := h.begins.of_append.load
  obtain ⟨coded, hcode, hcoded, hbegins⟩ := hbuf.store (setVnumBuf (.ofNat bs.length)) (by omega)
  obtain ⟨buf', hbody, hbuf', hwhole⟩ := hbegins.store bs (by rw [List.length_append, hcoded]; omega)
  rw [List.length_append] at hbody
  refine ⟨buf', ?_, hbuf'.trans hcoded, ?_⟩
  · simp only [dumpNode, h.size, hsize, hcode, hload, hbody, Option.bind_eq_bind, Option.bind_some]
    rw [elemSize, Nat.add_assoc]
  · rwa [List.append_assoc] at hwhole

theorem dumpNode_none {node : ListNode} {bs : Bytes} (h : node.Holds bs) {buf : Region UInt8} {wp : Nat}
    (hover : buf.length < wp + elemSize bs) : dumpNode buf wp node = none := by
  unfold elemSize at hover
  have hsize : sizeT (.ofNat bs.length) = bs.length := sizeT_ofNat (Nat.lt_of_succ_lt h.fits)
  have hload : node.ptr.load 0 bs.length = some (bs.map some) := h.begins.of_append.load
  rw [Option.eq_none_iff_forall_ne_some]
  intro out hout
  simp only [dumpNode, h.size, hsize, hload, Option.bind_eq_bind, Option.bind_some,
    Option.bind_eq_some_iff] at hout
  obtain ⟨coded, hcode, buf', hbody, -⟩ := hout
  have hlen := Region.store_length hcode
  have hle := Region.le_of_store hbody
  rw [List.length_map] at hle
  omega

/-- All elements are written where there is room for all of them, and else the buffer is left. -/
theorem dumpNodes {nodes : List ListNode} {elems : List Bytes}
    (h : List.Forall₂ ListNode.Holds nodes elems) {buf : Region UInt8} {done : Bytes}
    (hbuf : buf.Begins done) :
    (done.length + (serial elems).length ≤ buf.length →
      ∃ buf', nodes.foldlM (fun s node => dumpNode s.1 s.2 node) (buf, done.length) =
          some (buf', done.length + (serial elems).length) ∧
        buf'.Begins (done ++ serial elems)) ∧
    (buf.length < done.length + (serial elems).length →
      nodes.foldlM (fun s node => dumpNode s.1 s.2 node) (buf, done.length) = none) := by
  induction h generalizing buf done with
  | nil =>
      refine ⟨fun _ => ⟨buf, rfl, ?_⟩, fun hover => ?_⟩
      · rw [serial, List.flatMap_nil, List.append_nil]
        exact hbuf
      · have hle := hbuf.length_le
        rw [serial, List.flatMap_nil, List.length_nil] at hover
        omega
  | @cons node bs nodes elems hnode hnodes ih =>
      have hlen : (serial (bs :: elems)).length = elemSize bs + (serial elems).length := by
        rw [serial_cons, List.length_append, List.length_append, elemSize, Nat.add_assoc]
      rw [hlen, List.foldlM_cons]
      by_cases hroom : done.length + elemSize bs ≤ buf.length
      · obtain ⟨next, hnext, hsame, hbegins⟩ := dumpNode_some hnode hbuf hroom
        have hdone : (done ++ (setVnumBuf (.ofNat bs.length) ++ bs)).length =
            done.length + elemSize bs := by
          rw [List.length_append, List.length_append, elemSize]
        obtain ⟨hfits, hover⟩ := ih hbegins
        rw [hdone, hsame] at hfits hover
        rw [hnext, ← Nat.add_assoc]
        refine ⟨fun hle => ?_, hover⟩
        obtain ⟨buf', hfold, hwhole⟩ := hfits hle
        refine ⟨buf', hfold, ?_⟩
        rwa [List.append_assoc, List.append_assoc, ← serial_cons] at hwhole
      · rw [dumpNode_none hnode (Nat.lt_of_not_le hroom)]
        exact ⟨fun hle => absurd hle (by omega), fun _ => rfl⟩

/-- What is set aside, as an `int`, and the byte that is allocated behind it hold the serialisation. -/
def DumpFits (elems : List Bytes) : Prop :=
  setAside elems % 2 ^ 32 + 1 < 2 ^ 31 ∧ serialSize elems ≤ setAside elems % 2 ^ 32 + 1

theorem Holds.length_lt {list : TfList} {elems : List Bytes} (h : list.Holds elems) :
    ∀ bs ∈ elems, bs.length < 2 ^ 31 := fun bs hbs => Nat.lt_of_succ_lt (h.fits bs hbs)

/-- The dump is the loop that writes the elements into the allocated buffer. -/
theorem Holds.tfListDump_eq {list : TfList} {elems : List Bytes} (h : list.Holds elems) :
    ∃ nodes, List.Forall₂ ListNode.Holds nodes elems ∧
      list.tfListDump = (alloc (.ofNat (setAside elems % 2 ^ 32 + 1)) >>= fun buf =>
        nodes.foldlM (fun s node => dumpNode s.1 s.2 node) (buf, 0) >>= fun s =>
          some (s.1, .ofNat s.2)) := by
  obtain ⟨hstart, -, nodes, hbegins, hlen, hnodes⟩ := h
  have hload : list.array.load list.start list.num = some (nodes.map some) := by
    rw [hstart, ← hlen]
    exact hbegins.load
  have hsize : dumpSize nodes + 1 = .ofNat (setAside elems % 2 ^ 32 + 1) := by
    rw [dumpSize_eq hnodes, ← ofNat_add_one, ofNat_mod]
  refine ⟨nodes, hnodes, ?_⟩
  simp only [TfList.tfListDump, hload, mapM_some, hsize, Option.bind_eq_bind, Option.bind_some]

theorem Holds.tfListDump {list : TfList} {elems : List Bytes} (h : list.Holds elems)
    (room : DumpFits elems) :
    ∃ buf, list.tfListDump = some (buf, .ofNat (serialSize elems)) ∧ buf.Begins (serial elems) := by
  have hsize := serial_length h.length_lt
  obtain ⟨nodes, hnodes, hdump⟩ := h.tfListDump_eq
  obtain ⟨hfits, -⟩ := dumpNodes hnodes (Region.begins_nil (Region.fresh (setAside elems % 2 ^ 32 + 1)))
  rw [List.length_nil, Nat.zero_add, hsize, Region.fresh_length, List.nil_append] at hfits
  obtain ⟨buf, hfold, hbegins⟩ := hfits room.2
  refine ⟨buf, ?_, hbegins⟩
  rw [hdump, alloc_ofNat room.1]
  simp only [hfold, Option.bind_eq_bind, Option.bind_some]

theorem Holds.dumpFits {list : TfList} {elems : List Bytes} (h : list.Holds elems)
    {out : Region UInt8 × Int32} (hdump : list.tfListDump = some out) : DumpFits elems := by
  have hsize := serial_length h.length_lt
  obtain ⟨nodes, hnodes, heq⟩ := h.tfListDump_eq
  have hmod := Nat.mod_lt (setAside elems) (by decide : 0 < 2 ^ 32)
  rw [heq] at hdump
  by_cases hcap : setAside elems % 2 ^ 32 + 1 < 2 ^ 31
  · refine ⟨hcap, Nat.le_of_not_lt fun hover => ?_⟩
    obtain ⟨-, hnone⟩ := dumpNodes hnodes (Region.begins_nil (Region.fresh (setAside elems % 2 ^ 32 + 1)))
    rw [List.length_nil, Nat.zero_add, hsize, Region.fresh_length] at hnone
    rw [alloc_ofNat hcap] at hdump
    simp only [hnone hover, Option.bind_eq_bind, Option.bind_some, Option.bind_none] at hdump
    contradiction
  · exfalso
    by_cases hneg : setAside elems % 2 ^ 32 + 1 < 2 ^ 32
    · have hnone : (alloc (.ofNat (setAside elems % 2 ^ 32 + 1)) : Option (Region UInt8)) = none :=
        if_neg (neg_ofNat (by omega) hneg)
      rw [hnone] at hdump
      contradiction
    · -- All bits of the number are ones, and nothing is allocated.
      have hfull : setAside elems % 2 ^ 32 + 1 = 2 ^ 32 := by omega
      obtain ⟨-, hnone⟩ := dumpNodes hnodes (Region.begins_nil (Region.fresh 0))
      rw [hfull, ← ofNat_mod, Nat.mod_self, alloc_ofNat (by decide)] at hdump
      cases elems with
      | nil => exact absurd hfull (by decide)
      | cons bs elems =>
          have hcode := (setVnumBuf_code (h.length_lt bs List.mem_cons_self)).1
          have hpos := List.length_pos_iff.mpr (hcode.append_ne_nil (bs ++ serial elems))
          rw [← serial_cons] at hpos
          rw [List.length_nil, Nat.zero_add, Region.fresh_length] at hnone
          simp only [hnone hpos, Option.bind_eq_bind, Option.bind_some, Option.bind_none] at hdump
          contradiction

/-! ### The room that short lengths leave -/

/-- The elements whose length takes five bytes. -/
def longElems (elems : List Bytes) : Nat := elems.countP fun bs => 2 ^ 28 ≤ bs.length

/-- What the lengths of less than four bytes leave of the four bytes set aside for each. -/
def spare (elems : List Bytes) : Nat := (elems.map fun bs => 4 - calcVnumSize bs.length).sum

theorem calcVnumSize_spare (n : Nat) :
    calcVnumSize n + (4 - calcVnumSize n) = 4 + if 2 ^ 28 ≤ n then 1 else 0 := by
  unfold calcVnumSize
  split
  · split <;> omega
  · split
    · split <;> omega
    · split
      · split <;> omega
      · split <;> split <;> omega

theorem serialSize_spare (elems : List Bytes) :
    serialSize elems + spare elems = setAside elems + longElems elems := by
  induction elems with
  | nil => rfl
  | cons bs elems ih =>
      have hcode := calcVnumSize_spare bs.length
      simp only [serialSize, spare, setAside, longElems, List.map_cons, List.sum_cons,
        List.countP_cons, decide_eq_true_eq] at ih hcode ⊢
      omega

/-- The dump stays inside its buffer exactly where the number that is allocated is an `int`, and
the five-byte lengths, with what the sum has lost by wrapping around, take up no more than
one byte beyond what the short lengths leave. -/
theorem dump_inside_iff {list : TfList} {elems : List Bytes} (h : list.Holds elems) :
    (∃ out, list.tfListDump = some out) ↔
      setAside elems % 2 ^ 32 + 1 < 2 ^ 31 ∧
        longElems elems + 2 ^ 32 * (setAside elems / 2 ^ 32) ≤ spare elems + 1 := by
  have hsize := serialSize_spare elems
  have hsplit := Nat.div_add_mod (setAside elems) (2 ^ 32)
  constructor
  · intro ⟨out, hout⟩
    obtain ⟨hcap, hroom⟩ := h.dumpFits hout
    exact ⟨hcap, by omega⟩
  · intro ⟨hcap, hroom⟩
    obtain ⟨buf, hdump, -⟩ := h.tfListDump ⟨hcap, by omega⟩
    exact ⟨_, hdump⟩

/-- An empty element and one of two bytes. -/
theorem dump_inside_two : ∃ list : TfList, list.Holds [[], [97, 98]] ∧
    ∃ out, list.tfListDump = some out := by
  have hptr : ∀ bs : Bytes, Region.Begins (bs.map some) bs := fun bs => List.prefix_refl _
  obtain ⟨one, -, hone⟩ := tfListNew_holds.tfListPush (hptr []) (by decide)
  obtain ⟨two, -, htwo⟩ := hone.tfListPush (hptr [97, 98]) (by decide)
  exact ⟨two, htwo, (dump_inside_iff htwo).mpr ⟨by decide, by decide⟩⟩

/-- What is dumped is loaded again, and the size that is reported is its own, exactly where
the buffer is large enough and the loaded array can grow. -/
theorem dump_load_iff {list : TfList} {elems : List Bytes} (h : list.Holds elems)
    (fits : serialSize elems < 2 ^ 31) :
    (∃ buf list', list.tfListDump = some (buf, .ofNat (serialSize elems)) ∧
      tfListLoad buf (.ofNat (serialSize elems)) = some list' ∧ list'.Holds elems) ↔
    DumpFits elems ∧ (elems.length ≤ 2 ^ 30 ∨ serialSize elems < 2 ^ 31 - 4) := by
  have hsize := serial_length h.length_lt
  have hrec := records_serial h.length_lt
  rw [← hsize] at fits
  constructor
  · rintro ⟨buf, list', hdump, hload, -⟩
    have hroom := h.dumpFits hdump
    obtain ⟨buf', hdump', hbegins⟩ := h.tfListDump hroom
    rw [hdump] at hdump'
    cases hdump'
    rw [← hsize] at hload
    obtain ⟨elems', hrec', hcount⟩ := wellFormed_of_load hbegins fits hload
    rw [hrec'.unique hrec, hsize] at hcount
    exact ⟨hroom, hcount⟩
  · rintro ⟨hroom, hcount⟩
    rw [← hsize] at hcount
    obtain ⟨buf, hdump, hbegins⟩ := h.tfListDump hroom
    obtain ⟨list', hload, hlist⟩ := tfListLoad_holds hbegins fits hrec hcount
    rw [hsize] at hload
    exact ⟨buf, list', hdump, hload, hlist⟩

/-- An empty element, a zero byte and a text. -/
theorem dump_load_three : ∃ (list : TfList) (buf : Region UInt8) (list' : TfList),
    list.Holds [[], [0], [97, 98]] ∧ list.tfListDump = some (buf, .ofNat 6) ∧
      tfListLoad buf (.ofNat 6) = some list' ∧ list'.Holds [[], [0], [97, 98]] := by
  obtain ⟨list, h⟩ := @exists_holds [[], [0], [97, 98]] (by decide)
  obtain ⟨buf, list', hdump, hload, hlist⟩ :=
    (dump_load_iff h (by decide)).mpr ⟨⟨by decide, by decide⟩, .inl (by decide)⟩
  exact ⟨list, buf, list', h, hdump, hload, hlist⟩

/-- An element whose length takes five bytes. -/
def longElem : Bytes := List.replicate (2 ^ 28) 0

/-- Of the ten bytes for the lengths of two such elements, one has not been allocated. -/
theorem dump_overrun : ∃ list : TfList, list.Holds [longElem, longElem] ∧
    serialSize [longElem, longElem] < 2 ^ 31 ∧ list.tfListDump = none := by
  have hlen : longElem.length = 2 ^ 28 := List.length_replicate
  generalize longElem = bs at hlen ⊢
  obtain ⟨list, h⟩ := @exists_holds [bs, bs] (by simp [hlen])
  have hsize : serialSize [bs, bs] = 2 ^ 29 + 10 := by
    simp only [serialSize, List.map_cons, List.map_nil, List.sum_cons, List.sum_nil, hlen]
    rfl
  have haside : setAside [bs, bs] = 2 ^ 29 + 8 := by
    simp only [setAside, List.map_cons, List.map_nil, List.sum_cons, List.sum_nil, hlen]
    rfl
  refine ⟨list, h, by omega, ?_⟩
  rw [Option.eq_none_iff_forall_ne_some]
  intro out hdump
  have hroom := (h.dumpFits hdump).2
  change serialSize [bs, bs] ≤ setAside [bs, bs] % 2 ^ 32 + 1 at hroom
  omega

/-- The sum for three such elements is two bytes short of what the loop writes. -/
theorem dump_short : ∃ list : TfList, list.Holds [longElem, longElem, longElem] ∧
    serialSize [longElem, longElem, longElem] = setAside [longElem, longElem, longElem] + 3 ∧
    serialSize [longElem, longElem, longElem] < 2 ^ 31 ∧ list.tfListDump = none := by
  have hlen : longElem.length = 2 ^ 28 := List.length_replicate
  generalize longElem = bs at hlen ⊢
  obtain ⟨list, h⟩ := @exists_holds [bs, bs, bs] (by simp [hlen])
  have haside : setAside [bs, bs, bs] = 3 * 2 ^ 28 + 12 := by
    simp only [setAside, List.map_cons, List.map_nil, List.sum_cons, List.sum_nil, hlen]
    rfl
  have hsize : serialSize [bs, bs, bs] = 3 * 2 ^ 28 + 15 := by
    simp only [serialSize, List.map_cons, List.map_nil, List.sum_cons, List.sum_nil, hlen]
    rfl
  refine ⟨list, h, by omega, by omega, ?_⟩
  rw [Option.eq_none_iff_forall_ne_some]
  intro out hdump
  have hroom := (h.dumpFits hdump).2
  change serialSize [bs, bs, bs] ≤ setAside [bs, bs, bs] % 2 ^ 32 + 1 at hroom
  omega

end TfList

end Tflib.Data
