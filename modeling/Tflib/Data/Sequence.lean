import Tflib.Core.Machine
import Tflib.Data.Serial

/-! # Lists as sequences of byte strings

The lists made so far are named by the order they were made in. A history acts on
them, and on the sequences of byte strings that they stand for.
-/

namespace Tflib.Data

open Tflib.Core

/-- Regions are given by the bytes they begin with and by what follows. -/
inductive ListEvent
  | new
  | new2 (anum : Int32)
  | new3 (strs : List CString)
  | dup (i : Nat)
  | load (input : Bytes)
  | push (i : Nat) (bs : Bytes) (rest : Region UInt8)
  | push2 (i : Nat) (str : CString)
  | pop (i : Nat)
  | pop2 (i : Nat)
  | insert (i index : Nat) (bs : Bytes) (rest : Region UInt8)
  | insert2 (i index : Nat) (str : CString)
  | remove (i index : Nat)
  | remove2 (i index : Nat)
  | overwrite (i index : Nat) (bs : Bytes) (rest : Region UInt8)
  | overwrite2 (i index : Nat) (str : CString)
  | clear (i : Nat)

open TfList in
def applyList (pool : List TfList) : ListEvent → Option (List TfList)
  | .new => Pool.create pool (some tfListNew)
  | .new2 anum => Pool.create pool (some (tfListNew2 anum))
  | .new3 strs => Pool.create pool (tfListNew3 strs)
  | .dup i => Pool.create pool (pool[i]?.bind tfListDup)
  | .load input => Pool.create pool (tfListLoad (input.map some) (.ofNat input.length))
  | .push i bs rest => Pool.update pool i (tfListPush · (bs.map some ++ rest) (.ofNat bs.length))
  | .push2 i str => Pool.update pool i (tfListPush2 · str)
  | .pop i => Pool.update pool i fun list => list.tfListPop.map Prod.fst
  | .pop2 i => Pool.update pool i fun list => list.tfListPop2.map Prod.fst
  | .insert i index bs rest =>
      Pool.update pool i (tfListInsert · index (bs.map some ++ rest) (.ofNat bs.length))
  | .insert2 i index str => Pool.update pool i (tfListInsert2 · index str)
  | .remove i index => Pool.update pool i fun list => (list.tfListRemove index).map Prod.fst
  | .remove2 i index => Pool.update pool i fun list => (list.tfListRemove2 index).map Prod.fst
  | .overwrite i index bs rest =>
      Pool.update pool i (tfListOver · index (bs.map some ++ rest) (.ofNat bs.length))
  | .overwrite2 i index str => Pool.update pool i (tfListOver2 · index str)
  | .clear i => Pool.update pool i tfListClear

/-! ## What a list is for -/

namespace Sequences

open Classical in
/-- The elements of a serialisation. -/
noncomputable def decoded (input : Bytes) : List Bytes :=
  if h : ∃ elems, Records input elems then h.choose else []

theorem decoded_eq {input : Bytes} {elems : List Bytes} (h : Records input elems) :
    decoded input = elems := by
  have hex : ∃ elems, Records input elems := ⟨elems, h⟩
  rw [decoded, dif_pos hex]
  exact hex.choose_spec.unique h

noncomputable def step (lists : List (List Bytes)) : ListEvent → List (List Bytes)
  | .new => lists ++ [[]]
  | .new2 _ => lists ++ [[]]
  | .new3 strs => lists ++ [strs.map Subtype.val]
  | .dup i => lists ++ [lists.getD i []]
  | .load input => lists ++ [decoded input]
  | .push i bs _ => lists.set i (lists.getD i [] ++ [bs])
  | .push2 i str => lists.set i (lists.getD i [] ++ [str.val])
  | .pop i => lists.set i (lists.getD i []).dropLast
  | .pop2 i => lists.set i (lists.getD i []).dropLast
  | .insert i index bs _ => lists.set i ((lists.getD i []).insertIdx index bs)
  | .insert2 i index str => lists.set i ((lists.getD i []).insertIdx index str.val)
  | .remove i index => lists.set i ((lists.getD i []).eraseIdx index)
  | .remove2 i index => lists.set i ((lists.getD i []).eraseIdx index)
  | .overwrite i index bs _ => lists.set i ((lists.getD i []).set index bs)
  | .overwrite2 i index str => lists.set i ((lists.getD i []).set index str.val)
  | .clear i => lists.set i []

/-- A size and the zero behind it stay within `int`. -/
def Fits (bs : Bytes) : Prop := bs.length + 1 < 2 ^ 31

/-- The named list exists, and the sizes that are passed are within `int`. -/
def Admits (lists : List (List Bytes)) : ListEvent → Prop
  | .new => True
  | .new2 _ => True
  | .new3 strs => ∀ str ∈ strs, Fits str.val
  | .dup i => i < lists.length
  | .load input => input.length < 2 ^ 31
  | .push i bs _ => i < lists.length ∧ Fits bs
  | .push2 i str => i < lists.length ∧ Fits str.val
  | .pop i => i < lists.length
  | .pop2 i => i < lists.length
  | .insert i _ bs _ => i < lists.length ∧ Fits bs
  | .insert2 i _ str => i < lists.length ∧ Fits str.val
  | .remove i _ => i < lists.length
  | .remove2 i _ => i < lists.length
  | .overwrite i _ bs _ => i < lists.length ∧ Fits bs
  | .overwrite2 i _ str => i < lists.length ∧ Fits str.val
  | .clear i => i < lists.length

/-- Only well-formed serialisations are loaded. -/
def Loads (_ : List (List Bytes)) : ListEvent → Prop
  | .load input => WellFormed input
  | _ => True

end Sequences

noncomputable def sequences : Machine (List (List Bytes)) ListEvent where
  step := Sequences.step
  admits := Sequences.Admits

/-! ## The refinement -/

namespace TfList

theorem getD_of_lt {lists : List (List Bytes)} {i : Nat} (h : i < lists.length) :
    lists[i]? = some (lists.getD i []) := by
  rw [List.getD_eq_getElem?_getD, List.getElem?_eq_getElem h]
  rfl

/-- The list after an operation that also returns something. -/
theorem fst_of_out {β : Type} {op : Option (TfList × β)} {elems : List Bytes} {P : β → Prop}
    (h : ∃ list out, op = some (list, out) ∧ list.Holds elems ∧ P out) :
    ∃ list, op.map Prod.fst = some list ∧ list.Holds elems := by
  obtain ⟨list, out, rfl, hlist, -⟩ := h
  exact ⟨list, rfl, hlist⟩

/-- One operation. -/
theorem applyList_holds (pool : List TfList) (lists : List (List Bytes)) (e : ListEvent)
    (h : List.Forall₂ Holds pool lists) (admitted : (sequences.restrict Sequences.Loads).admits lists e) :
    ∃ pool', applyList pool e = some pool' ∧ List.Forall₂ Holds pool' (sequences.step lists e) := by
  obtain ⟨admitted, hload⟩ := admitted
  have hpre : ∀ (bs : Bytes) (rest : Region UInt8), Region.Begins (bs.map some ++ rest) bs :=
    fun bs rest => List.prefix_append _ _
  cases e with
  | new => exact Pool.related_create h ⟨_, rfl, tfListNew_holds⟩
  | new2 anum => exact Pool.related_create h ⟨_, rfl, tfListNew2_holds anum⟩
  | new3 strs => exact Pool.related_create h (tfListNew3_holds admitted)
  | dup i =>
      obtain ⟨list, hget, hlist⟩ := Pool.related_get h (getD_of_lt admitted)
      refine Pool.related_create h ?_
      rw [hget]
      exact hlist.tfListDup
  | load input =>
      obtain ⟨elems, hrec, hcount⟩ := hload
      refine Pool.related_create h ?_
      rw [Sequences.decoded_eq hrec]
      exact tfListLoad_holds (List.prefix_refl _) admitted hrec hcount
  | push i bs rest =>
      exact Pool.related_update h (getD_of_lt admitted.1) fun list hlist =>
        hlist.tfListPush (hpre bs rest) admitted.2
  | push2 i str =>
      exact Pool.related_update h (getD_of_lt admitted.1) fun list hlist => hlist.tfListPush2 admitted.2
  | pop i =>
      exact Pool.related_update h (getD_of_lt admitted) fun list hlist => fst_of_out hlist.tfListPop
  | pop2 i =>
      refine Pool.related_update h (getD_of_lt admitted) fun list hlist => ?_
      rw [tfListPop2_eq, Option.map_map]
      exact fst_of_out hlist.tfListPop
  | insert i index bs rest =>
      exact Pool.related_update h (getD_of_lt admitted.1) fun list hlist =>
        hlist.tfListInsert index (hpre bs rest) admitted.2
  | insert2 i index str =>
      exact Pool.related_update h (getD_of_lt admitted.1) fun list hlist =>
        hlist.tfListInsert2 index admitted.2
  | remove i index =>
      exact Pool.related_update h (getD_of_lt admitted) fun list hlist =>
        fst_of_out (hlist.tfListRemove index)
  | remove2 i index =>
      refine Pool.related_update h (getD_of_lt admitted) fun list hlist => ?_
      obtain ⟨list', out, hremove, hlist', -⟩ := hlist.tfListRemove index
      refine ⟨list', ?_, hlist'⟩
      simp only [tfListRemove2, hremove, Option.bind_eq_bind, Option.bind_some, Option.map_some]
  | overwrite i index bs rest =>
      exact Pool.related_update h (getD_of_lt admitted.1) fun list hlist =>
        hlist.tfListOver index (hpre bs rest) admitted.2
  | overwrite2 i index str =>
      exact Pool.related_update h (getD_of_lt admitted.1) fun list hlist =>
        hlist.tfListOver2 index admitted.2
  | clear i =>
      exact Pool.related_update h (getD_of_lt admitted) fun list hlist => hlist.tfListClear

/-- What is returned of an element: its size, and a region with its bytes and a zero behind them. -/
def Reads (bs : Bytes) (out : Region UInt8 × Int32) : Prop :=
  out.2.toInt = bs.length ∧ out.1.load 0 bs.length = some (bs.map some) ∧
    bs.length + 1 ≤ out.1.length ∧ out.1.get bs.length = some 0

/-- The accesses below `num` stay in the array, and `num`, `val` and `val2` read the sequence back. -/
structure Represents (list : TfList) (elems : List Bytes) : Prop where
  inside : list.start + list.num ≤ list.anum
  capacity : list.array.length = list.anum
  num : list.tfListNum = elems.length
  val : ∀ i, ∃ out, list.tfListVal i = some out ∧ Option.Rel Reads elems[i]? out ∧
    list.tfListVal2 i = some (out.map Prod.fst)

theorem Returns.reads {bs : Bytes} {out : Region UInt8 × Int32} (h : Returns bs out) : Reads bs out := by
  have hfits := h.fits
  have hlen := h.begins.length_le
  rw [List.length_append] at hlen
  refine ⟨?_, h.begins.of_append.load, hlen, h.begins.get⟩
  have hsize : out.2 = .ofNat bs.length := h.size
  rw [hsize, toInt_ofNat (by omega)]

theorem Holds.represents {list : TfList} {elems : List Bytes} (h : list.Holds elems) :
    list.Represents elems where
  inside := by
    obtain ⟨hstart, hcap, nodes, hbegins, hlen, -⟩ := h
    have hle := hbegins.length_le
    omega
  capacity := h.capacity
  num := h.num_eq
  val i := by
    obtain ⟨out, hval, hreturns⟩ := h.tfListVal i
    refine ⟨out, hval, ?_, ?_⟩
    · generalize elems[i]? = bs at hreturns ⊢
      cases hreturns with
      | none => exact .none
      | some hreturns => exact .some hreturns.reads
    · rw [tfListVal2_eq, hval]
      rfl

/-- A history of lists goes through, and ends with the sequences it ends with, exactly
where it loads nothing but well-formed serialisations. -/
theorem list_refines {es : List ListEvent} {lists : List (List Bytes)} (h : sequences.Runs [] es lists) :
    (∃ pool, es.foldlM applyList [] = some pool ∧ List.Forall₂ Represents pool lists) ↔
      ∀ input, .load input ∈ es → WellFormed input := by
  constructor
  · rintro ⟨pool, hfold, -⟩ input hmem
    obtain ⟨before, after, hop⟩ := Machine.exists_of_foldlM hfold hmem
    obtain ⟨_, hlen⟩ := h.exists_admitted hmem
    simp only [applyList, Pool.create, Option.bind_eq_bind, Option.bind_eq_some_iff] at hop
    obtain ⟨list, hload, -⟩ := hop
    exact wellFormed_of_load (List.prefix_refl _) hlen hload
  · intro hloads
    have hrun : (sequences.restrict Sequences.Loads).Runs [] es lists := by
      refine h.restrict fun e he s => ?_
      cases e with
      | load input => exact hloads input he
      | _ => trivial
    obtain ⟨pool, hfold, hpool⟩ := hrun.simulate applyList_holds List.Forall₂.nil
    exact ⟨pool, hfold, hpool.imp fun _ _ hlist => hlist.represents⟩

/-- A serialisation of two elements is loaded, copied, and its copy is changed. -/
theorem list_refines_loaded :
    ∃ pool, [.load [1, 97, 0], .dup 0, .insert 1 1 [98, 0] [], .overwrite2 1 0 ⟨[], by decide⟩,
        .remove2 1 2, .pop 0].foldlM applyList [] = some pool ∧
      List.Forall₂ Represents pool [[[97]], [[], [98, 0]]] := by
  have hrec : Records [1, 97, 0] [[97], []] :=
    @Records.cons [1] [97] [0] [[]] (.last (by decide)) (by decide)
      (@Records.cons [0] [] [] [] (.last (by decide)) (by decide) .nil)
  have hrun : sequences.Runs [] [.load [1, 97, 0], .dup 0, .insert 1 1 [98, 0] [],
      .overwrite2 1 0 ⟨[], by decide⟩, .remove2 1 2, .pop 0] [[[97]], [[], [98, 0]]] := by
    refine .cons (by decide : 3 < 2 ^ 31) ?_
    change sequences.Runs [Sequences.decoded [1, 97, 0]] _ _
    rw [Sequences.decoded_eq hrec]
    exact .cons (by decide : 0 < 1) (.cons (by decide : 1 < 2 ∧ 2 + 1 < 2 ^ 31)
      (.cons (by decide : 1 < 2 ∧ 0 + 1 < 2 ^ 31) (.cons (by decide : 1 < 2)
        (.cons (by decide : 0 < 2) (.nil _)))))
  refine (list_refines hrun).mpr fun input hmem => ?_
  simp only [List.mem_cons, reduceCtorEq, List.not_mem_nil, or_false, ListEvent.load.injEq] at hmem
  subst hmem
  exact ⟨_, hrec, .inl (by decide)⟩

/-- The history that loads a length without an end. -/
theorem list_truncated :
    sequences.Runs [] [.load [0x80]] (sequences.step [] (.load [0x80])) ∧
      [.load [0x80]].foldlM applyList [] = none := by
  refine ⟨.single (by decide : 1 < 2 ^ 31), ?_⟩
  have hload : tfListLoad (([0x80] : Bytes).map some) (.ofNat ([0x80] : Bytes).length) = none :=
    tfListLoad_truncated
  simp only [List.foldlM_cons, applyList, hload, Pool.create, Option.bind_eq_bind, Option.bind_none]

end TfList

end Tflib.Data
