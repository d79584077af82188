import Tflib.Core.CString
import Tflib.Core.Pool
import Mathlib.Data.List.InsertIdx

/-! # The array lists of `tf_list.c`

A list is an array of nodes with a capacity that is kept beside it; every node
has a region of its own. Counts are natural numbers and sizes are `int`. `none`
is a failed assertion or an access that leaves the array or a region.
-/

namespace Tflib.Data

open Tflib.Core

/-- `struct tf_list_node_st` -/
structure ListNode where
  ptr : Region UInt8
  size : Int32

/-- `struct tf_list_st` -/
structure TfList where
  array : Region ListNode
  anum : Nat
  start : Nat
  num : Nat

/-- `TF_LIST_UNIT` -/
def tfListUnit : Nat := 64

/-- A new region with `size` bytes and a zero behind them, which is stored on its own. -/
def copyBytes (ptr : Region UInt8) (size : Int32) : Option ListNode := do
  let buf ← alloc (size + 1)
  let cells ← ptr.load 0 (sizeT size)
  let buf ← buf.store 0 cells
  let buf ← buf.store (sizeT size) [some 0]
  some ⟨buf, size⟩

/-- A new region with `size` bytes and the byte behind them, copied in one go. -/
def copyString (ptr : Region UInt8) (size : Int32) : Option ListNode := do
  let buf ← alloc (size + 1)
  let cells ← ptr.load 0 (sizeT (size + 1))
  let buf ← buf.store 0 cells
  some ⟨buf, size⟩

/-- The region of a node before `size` bytes and a zero are written to it. -/
def ListNode.enlarge (node : ListNode) (size : Int32) : Option (Region UInt8) :=
  if node.size < size then realloc node.ptr (size + 1) else some node.ptr

namespace TfList

def tfListNew : TfList := ⟨Region.fresh tfListUnit, tfListUnit, 0, 0⟩

def tfListNew2 (anum : Int32) : TfList :=
  let anum := if anum < 1 then 1 else anum
  ⟨Region.fresh (sizeT anum), sizeT anum, 0, 0⟩

/-- What `tf_list_push`, `tf_list_push2`, `tf_list_insert` and `tf_list_insert2` do to a full array. -/
def grow (list : TfList) : TfList :=
  if list.anum ≤ list.start + list.num then
    let anum := list.anum + (list.num + 1)
    { list with anum := anum, array := list.array.resize anum }
  else list

def tfListPush (list : TfList) (ptr : Region UInt8) (size : Int32) : Option TfList :=
  if 0 ≤ size then do
    let index := list.start + list.num
    let list := list.grow
    let node ← copyBytes ptr size
    let array ← list.array.store index [some node]
    some { list with array := array, num := list.num + 1 }
  else none

def tfListPush2 (list : TfList) (str : CString) : Option TfList := do
  let index := list.start + list.num
  let list := list.grow
  let node ← copyString str.cells str.strlen
  let array ← list.array.store index [some node]
  some { list with array := array, num := list.num + 1 }

def tfListNew3 (strs : List CString) : Option TfList := strs.foldlM tfListPush2 tfListNew

def tfListDup (list : TfList) : Option TfList :=
  if list.num < 1 then some tfListNew
  else do
    let array ← list.array.load list.start list.num
    let nodes ← array.mapM fun cell => do
      let node ← cell
      copyString node.ptr node.size
    let narray ← (Region.fresh list.num).store 0 (nodes.map some)
    some ⟨narray, list.num, 0, list.num⟩

def tfListNum (list : TfList) : Nat := list.num

/-- The region and the size; the inner `none` is NULL. -/
def tfListVal (list : TfList) (index : Nat) : Option (Option (Region UInt8 × Int32)) :=
  if list.num ≤ index then some none
  else do
    let node ← list.array.get (index + list.start)
    some (some (node.ptr, node.size))

def tfListVal2 (list : TfList) (index : Nat) : Option (Option (Region UInt8)) :=
  if list.num ≤ index then some none
  else do
    let node ← list.array.get (index + list.start)
    some (some node.ptr)

/-- The shorter list and what is returned of the removed node. -/
def tfListPop (list : TfList) : Option (TfList × Option (Region UInt8 × Int32)) :=
  if list.num < 1 then some (list, none)
  else do
    let index := list.start + list.num - 1
    let node ← list.array.get index
    some ({ list with num := list.num - 1 }, some (node.ptr, node.size))

def tfListPop2 (list : TfList) : Option (TfList × Option (Region UInt8)) :=
  if list.num < 1 then some (list, none)
  else do
    let index := list.start + list.num - 1
    let node ← list.array.get index
    some ({ list with num := list.num - 1 }, some node.ptr)

/-- The nodes from `index` on are moved, and the node that `copy` makes takes their place. -/
def insertNode (list : TfList) (index : Nat) (copy : Option ListNode) : Option TfList :=
  if list.num < index then some list
  else do
    let index := index + list.start
    let list := list.grow
    let moved ← list.array.load index (list.start + list.num - index)
    let array ← list.array.store (index + 1) moved
    let node ← copy
    let array ← array.store index [some node]
    some { list with array := array, num := list.num + 1 }

def tfListInsert (list : TfList) (index : Nat) (ptr : Region UInt8) (size : Int32) : Option TfList :=
  if 0 ≤ size then list.insertNode index (copyBytes ptr size) else none

/-- The zero is stored on its own here as well. -/
def tfListInsert2 (list : TfList) (index : Nat) (str : CString) : Option TfList :=
  list.insertNode index (copyBytes str.cells str.strlen)

def tfListRemove (list : TfList) (index : Nat) : Option (TfList × Option (Region UInt8 × Int32)) :=
  if list.num ≤ index then some (list, none)
  else do
    let index := index + list.start
    let node ← list.array.get index
    let num := list.num - 1
    let moved ← list.array.load (index + 1) (list.start + num - index)
    let array ← list.array.store index moved
    some ({ list with array := array, num := num }, some (node.ptr, node.size))

def tfListRemove2 (list : TfList) (index : Nat) : Option (TfList × Option (Region UInt8)) := do
  let (list, node) ← list.tfListRemove index
  some (list, node.map Prod.fst)

/-- The node at `index` gets what `write` makes of its region, which is enlarged first if it has to be. -/
def overNode (list : TfList) (index : Nat) (size : Int32)
    (write : Region UInt8 → Option (Region UInt8)) : Option TfList :=
  if list.num ≤ index then some list
  else do
    let index := index + list.start
    let node ← list.array.get index
    let buf ← node.enlarge size
    let buf ← write buf
    let array ← list.array.store index [some ⟨buf, size⟩]
    some { list with array := array }

def tfListOver (list : TfList) (index : Nat) (ptr : Region UInt8) (size : Int32) : Option TfList :=
  if 0 ≤ size then
    list.overNode index size fun buf => do
      let cells ← ptr.load 0 (sizeT size)
      let buf ← buf.store 0 cells
      buf.store (sizeT size) [some 0]
  else none

def tfListOver2 (list : TfList) (index : Nat) (str : CString) : Option TfList :=
  list.overNode index str.strlen fun buf => do
    let cells ← str.cells.load 0 (sizeT (str.strlen + 1))
    buf.store 0 cells

/-- The regions of the nodes are freed. -/
def tfListClear (list : TfList) : Option TfList := do
  let _ ← list.array.load list.start list.num
  some { list with start := 0, num := 0 }

end TfList

/-! ## What a list holds -/

/-- The region holds the bytes `bs` and a zero behind them. -/
structure ListNode.Holds (node : ListNode) (bs : Bytes) : Prop where
  size : node.size = .ofNat bs.length
  fits : bs.length + 1 < 2 ^ 31
  begins : node.ptr.Begins (bs ++ [0])

/-- A node holds one content only. -/
theorem ListNode.Holds.unique {node : ListNode} {bs cs : Bytes} (h : node.Holds bs)
    (h' : node.Holds cs) : bs = cs := by
  have hfits := h.fits
  have hfits' := h'.fits
  have hlen : bs.length = cs.length := by
    have hsize := congrArg sizeT (h.size.symm.trans h'.size)
    rwa [sizeT_ofNat (by omega), sizeT_ofNat (by omega)] at hsize
  have hbs := h.begins.of_append.take
  rw [hlen, h'.begins.of_append.take] at hbs
  exact (List.map_injective_iff.mpr (Option.some_injective _) hbs).symm

/-- The nodes in use hold the byte strings `elems`, in order. -/
structure TfList.Holds (list : TfList) (elems : List Bytes) : Prop where
  start : list.start = 0
  capacity : list.array.length = list.anum
  nodes : ∃ nodes, list.array.Begins nodes ∧ nodes.length = list.num ∧
    List.Forall₂ ListNode.Holds nodes elems

theorem copyBytes_holds {ptr : Region UInt8} {bs : Bytes} (h : ptr.Begins bs)
    (fits : bs.length + 1 < 2 ^ 31) :
    ∃ node, copyBytes ptr (.ofNat bs.length) = some node ∧ node.Holds bs := by
  have hlen : (Region.fresh (bs.length + 1) : Region UInt8).length = bs.length + 1 :=
    Region.fresh_length _
  obtain ⟨buf, hcopy, hbuf, hbegins⟩ := (Region.begins_nil (Region.fresh (bs.length + 1))).store bs
    (by rw [hlen, List.length_nil]; omega)
  obtain ⟨buf', hzero, -, hwhole⟩ := hbegins.store [0] (by rw [hbuf, hlen]; rfl)
  change Region.store _ 0 (bs.map some) = some buf at hcopy
  change Region.store _ bs.length [some 0] = some buf' at hzero
  refine ⟨⟨buf', .ofNat bs.length⟩, ?_, rfl, fits, hwhole⟩
  simp only [copyBytes, ofNat_add_one, alloc_ofNat fits, sizeT_ofNat (Nat.lt_of_succ_lt fits), h.load,
    hcopy, hzero, Option.bind_eq_bind, Option.bind_some]

theorem copyString_holds {ptr : Region UInt8} {bs : Bytes} (h : ptr.Begins (bs ++ [0]))
    (fits : bs.length + 1 < 2 ^ 31) :
    ∃ node, copyString ptr (.ofNat bs.length) = some node ∧ node.Holds bs := by
  have hload : ptr.load 0 (bs.length + 1) = some ((bs ++ [0]).map some) := by
    have hwhole := h.load
    rwa [List.length_append] at hwhole
  obtain ⟨buf, hcopy, -, hbegins⟩ :=
    (Region.begins_nil (Region.fresh (bs.length + 1))).store (bs ++ [0])
      (by rw [Region.fresh_length, List.length_append, List.length_nil, List.length_singleton]; omega)
  change Region.store _ 0 _ = some buf at hcopy
  refine ⟨⟨buf, .ofNat bs.length⟩, ?_, rfl, fits, hbegins⟩
  simp only [copyString, ofNat_add_one, alloc_ofNat fits, sizeT_ofNat fits, hload, hcopy,
    Option.bind_eq_bind, Option.bind_some]

/-- An enlarged region has exactly the room; another one had room for the longer old bytes. -/
theorem ListNode.Holds.enlarge {node : ListNode} {old bs : Bytes} (h : node.Holds old)
    (fits : bs.length + 1 < 2 ^ 31) :
    ∃ buf, node.enlarge (.ofNat bs.length) = some buf ∧ bs.length + 1 ≤ buf.length := by
  unfold ListNode.enlarge
  split
  · rw [ofNat_add_one, realloc_ofNat _ fits]
    exact ⟨_, rfl, (Region.resize_length _ _).ge⟩
  · rename_i hle
    have hold := h.begins.length_le
    have hfits := h.fits
    rw [h.size, Int32.lt_iff_toInt_lt, toInt_ofNat (by omega), toInt_ofNat (by omega)] at hle
    rw [List.length_append, List.length_singleton] at hold
    exact ⟨node.ptr, rfl, by omega⟩

namespace TfList

theorem Holds.num_eq {list : TfList} {elems : List Bytes} (h : list.Holds elems) :
    list.num = elems.length := by
  obtain ⟨nodes, -, hnum, hnodes⟩ := h.nodes
  rw [← hnum, hnodes.length_eq]

/-- A list whose nodes in use are known. -/
theorem Holds.of_nodes {array : Region ListNode} {anum : Nat} {nodes : List ListNode}
    {elems : List Bytes} (capacity : array.length = anum) (begins : array.Begins nodes)
    (hnodes : List.Forall₂ ListNode.Holds nodes elems) {num : Nat} (hnum : num = nodes.length) :
    Holds ⟨array, anum, 0, num⟩ elems := ⟨rfl, capacity, nodes, begins, hnum.symm, hnodes⟩

theorem holds_empty (n : Nat) : Holds ⟨Region.fresh n, n, 0, 0⟩ [] :=
  .of_nodes (Region.fresh_length n) (Region.begins_nil _) .nil rfl

theorem tfListNew_holds : tfListNew.Holds [] := holds_empty tfListUnit

theorem tfListNew2_holds (anum : Int32) : (tfListNew2 anum).Holds [] := holds_empty _

/-- After growing there is room for one more node. -/
theorem Holds.grow {list : TfList} {elems : List Bytes} (h : list.Holds elems) :
    list.grow.Holds elems ∧ elems.length < list.grow.array.length := by
  have hnum := h.num_eq
  obtain ⟨hstart, hcap, nodes, hbegins, hlen, hnodes⟩ := h
  unfold TfList.grow
  split
  · have hsize := Region.resize_length list.array (list.anum + (list.num + 1))
    refine ⟨⟨hstart, hsize, nodes, hbegins.resize (by omega), hlen, hnodes⟩, ?_⟩
    change elems.length < (list.array.resize _).length
    omega
  · exact ⟨⟨hstart, hcap, nodes, hbegins, hlen, hnodes⟩, by omega⟩

theorem Holds.append {list : TfList} {elems : List Bytes} (h : list.Holds elems)
    (room : elems.length < list.array.length) {node : ListNode} {bs : Bytes} (hnode : node.Holds bs) :
    ∃ array, list.array.store elems.length [some node] = some array ∧
      Holds ⟨array, list.anum, 0, elems.length + 1⟩ (elems ++ [bs]) := by
  have hnum := h.num_eq
  obtain ⟨-, hcap, nodes, hbegins, hlen, hnodes⟩ := h
  have hcount : nodes.length = elems.length := hnodes.length_eq
  obtain ⟨array, hstore, harray, hwhole⟩ := hbegins.store [node]
    (by rw [List.length_singleton]; omega)
  rw [hcount] at hstore
  refine ⟨array, hstore, .of_nodes (harray.trans hcap) hwhole ?_ ?_⟩
  · exact List.rel_append hnodes (.cons hnode .nil)
  · rw [List.length_append, hcount]
    rfl

theorem Holds.tfListPush {list : TfList} {elems : List Bytes} (h : list.Holds elems)
    {ptr : Region UInt8} {bs : Bytes} (hptr : ptr.Begins bs) (fits : bs.length + 1 < 2 ^ 31) :
    ∃ list', list.tfListPush ptr (.ofNat bs.length) = some list' ∧ list'.Holds (elems ++ [bs]) := by
  obtain ⟨node, hcopy, hnode⟩ := copyBytes_holds hptr fits
  obtain ⟨hgrown, hroom⟩ := h.grow
  obtain ⟨array, hstore, hholds⟩ := hgrown.append hroom hnode
  have hindex : list.start + list.num = elems.length := by
    rw [h.start, h.num_eq, Nat.zero_add]
  refine ⟨_, ?_, hholds⟩
  simp only [TfList.tfListPush, if_pos (ofNat_nonneg (Nat.lt_of_succ_lt fits)), hindex, hcopy, hstore,
    Option.bind_eq_bind, Option.bind_some, hgrown.start, hgrown.num_eq]

theorem exists_holds {elems : List Bytes} (fits : ∀ e ∈ elems, e.length + 1 < 2 ^ 31) :
    ∃ list : TfList, list.Holds elems := by
  induction elems using List.reverseRecOn with
  | nil => exact ⟨_, tfListNew_holds⟩
  | append_singleton elems e ih =>
      obtain ⟨list, h⟩ := ih fun x hx => fits x (List.mem_append_left [e] hx)
      have he := fits e (List.mem_append_right elems List.mem_cons_self)
      obtain ⟨list', -, hholds⟩ := h.tfListPush (List.prefix_refl (e.map some)) he
      exact ⟨list', hholds⟩

theorem Holds.tfListPush2 {list : TfList} {elems : List Bytes} (h : list.Holds elems)
    {str : CString} (fits : str.val.length + 1 < 2 ^ 31) :
    ∃ list', list.tfListPush2 str = some list' ∧ list'.Holds (elems ++ [str.val]) := by
  obtain ⟨node, hcopy, hnode⟩ := copyString_holds (List.prefix_refl str.cells) fits
  obtain ⟨hgrown, hroom⟩ := h.grow
  obtain ⟨array, hstore, hholds⟩ := hgrown.append hroom hnode
  have hindex : list.start + list.num = elems.length := by
    rw [h.start, h.num_eq, Nat.zero_add]
  refine ⟨_, ?_, hholds⟩
  simp only [TfList.tfListPush2, CString.strlen, hindex, hcopy, hstore, Option.bind_eq_bind,
    Option.bind_some, hgrown.start, hgrown.num_eq]

theorem Holds.pushAll {list : TfList} {elems : List Bytes} (h : list.Holds elems)
    {strs : List CString} (fits : ∀ str ∈ strs, str.val.length + 1 < 2 ^ 31) :
    ∃ list', strs.foldlM TfList.tfListPush2 list = some list' ∧
      list'.Holds (elems ++ strs.map Subtype.val) := by
  induction strs generalizing list elems with
  | nil =>
      refine ⟨list, rfl, ?_⟩
      rwa [List.map_nil, List.append_nil]
  | cons str strs ih =>
      obtain ⟨next, hpush, hnext⟩ := h.tfListPush2 (fits str List.mem_cons_self)
      obtain ⟨list', hfold, hlist⟩ := ih hnext fun x hx => fits x (List.mem_cons_of_mem str hx)
      refine ⟨list', ?_, ?_⟩
      · rw [List.foldlM_cons, hpush]
        exact hfold
      · rwa [List.append_assoc] at hlist

theorem tfListNew3_holds {strs : List CString} (fits : ∀ str ∈ strs, str.val.length + 1 < 2 ^ 31) :
    ∃ list, tfListNew3 strs = some list ∧ list.Holds (strs.map Subtype.val) :=
  tfListNew_holds.pushAll fits

/-- The copies of nodes hold the same. -/
theorem copyNodes {nodes : List ListNode} {elems : List Bytes}
    (h : List.Forall₂ ListNode.Holds nodes elems) :
    ∃ copies, (nodes.map some).mapM
        (fun cell => cell.bind fun node => copyString node.ptr node.size) = some copies ∧
      List.Forall₂ ListNode.Holds copies elems := by
  induction h with
  | nil => exact ⟨[], rfl, .nil⟩
  | @cons node bs nodes elems hnode hnodes ih =>
      obtain ⟨copies, hmap, hcopies⟩ := ih
      obtain ⟨copied, hcopy, hcopied⟩ := copyString_holds hnode.begins hnode.fits
      rw [← hnode.size] at hcopy
      refine ⟨copied :: copies, ?_, .cons hcopied hcopies⟩
      rw [List.map_cons, List.mapM_cons, hmap]
      simp only [Option.bind_eq_bind, Option.bind_some, hcopy]
      rfl

theorem Holds.tfListDup {list : TfList} {elems : List Bytes} (h : list.Holds elems) :
    ∃ list', list.tfListDup = some list' ∧ list'.Holds elems := by
  have hnum := h.num_eq
  unfold TfList.tfListDup
  split
  · have hnil : elems = [] := List.length_eq_zero_iff.mp (by omega)
    exact ⟨_, rfl, hnil ▸ tfListNew_holds⟩
  · obtain ⟨hstart, hcap, nodes, hbegins, hlen, hnodes⟩ := h
    obtain ⟨copies, hmap, hcopies⟩ := copyNodes hnodes
    have hcount : copies.length = list.num := by rw [hcopies.length_eq, hnum]
    have hload : list.array.load list.start list.num = some (nodes.map some) := by
      rw [hstart, ← hlen]
      exact hbegins.load
    obtain ⟨narray, hstore, hnarray, hwhole⟩ :=
      (Region.begins_nil (Region.fresh list.num)).store copies
        (by rw [Region.fresh_length, List.length_nil]; omega)
    change Region.store _ 0 _ = some narray at hstore
    refine ⟨⟨narray, list.num, 0, list.num⟩, ?_, ?_⟩
    · simp only [hload, hmap, hstore, Option.bind_eq_bind, Option.bind_some]
    · exact .of_nodes (hnarray.trans (Region.fresh_length _)) hwhole hcopies hcount.symm

/-- The node in use at `i`. -/
theorem Holds.node {list : TfList} {elems : List Bytes} (h : list.Holds elems) {i : Nat} {bs : Bytes}
    (hi : elems[i]? = some bs) : ∃ node, list.array.get (i + list.start) = some node ∧ node.Holds bs := by
  obtain ⟨hstart, -, nodes, hbegins, -, hnodes⟩ := h
  obtain ⟨node, hget, hnode⟩ := Pool.related_get hnodes hi
  have hlt := (List.getElem?_eq_some_iff.mp hget).1
  refine ⟨node, ?_, hnode⟩
  rw [hstart, Nat.add_zero, hbegins.get_index hlt, hget]

/-- A list holds one sequence of elements only. -/
theorem Holds.unique {list : TfList} {elems others : List Bytes} (h : list.Holds elems)
    (h' : list.Holds others) : elems = others := by
  refine List.ext_getElem? fun i => ?_
  have hnum := h.num_eq.symm.trans h'.num_eq
  by_cases hi : i < elems.length
  · have hi' : i < others.length := by omega
    have hbs := List.getElem?_eq_getElem hi
    have hcs := List.getElem?_eq_getElem hi'
    obtain ⟨node, hget, hnode⟩ := h.node hbs
    obtain ⟨node', hget', hnode'⟩ := h'.node hcs
    obtain rfl : node' = node := Option.some.inj (hget'.symm.trans hget)
    rw [hbs, hcs, hnode.unique hnode']
  · rw [List.getElem?_eq_none (by omega), List.getElem?_eq_none (by omega)]

/-- The bytes of every element and the zero behind them have an `int` of bytes. -/
theorem Holds.fits {list : TfList} {elems : List Bytes} (h : list.Holds elems) :
    ∀ bs ∈ elems, bs.length + 1 < 2 ^ 31 := by
  intro bs hbs
  obtain ⟨i, hi⟩ := List.mem_iff_getElem?.mp hbs
  obtain ⟨node, -, hnode⟩ := h.node hi
  exact hnode.fits

/-- The nodes on both sides of the one in use at `i`. -/
theorem Holds.split {list : TfList} {elems : List Bytes} (h : list.Holds elems) {i : Nat}
    (hi : i < elems.length) :
    ∃ front node behind, list.array.Begins (front ++ node :: behind) ∧ front.length = i ∧
      front.length + (behind.length + 1) = list.num ∧
      List.Forall₂ ListNode.Holds front (elems.take i) ∧ node.Holds elems[i] ∧
      List.Forall₂ ListNode.Holds behind (elems.drop (i + 1)) := by
  obtain ⟨-, -, nodes, hbegins, hlen, hnodes⟩ := h
  have hcount : nodes.length = elems.length := hnodes.length_eq
  have hlt : i < nodes.length := by omega
  have hnode : nodes[i].Holds elems[i] := hnodes.get hlt hi
  refine ⟨nodes.take i, nodes[i], nodes.drop (i + 1), ?_, ?_, ?_, List.forall₂_take i hnodes, hnode,
    List.forall₂_drop (i + 1) hnodes⟩
  · rwa [← List.drop_eq_getElem_cons hlt, List.take_append_drop]
  · exact List.length_take_of_le (Nat.le_of_lt hlt)
  · rw [List.length_take_of_le (Nat.le_of_lt hlt), List.length_drop]
    omega

/-- What is returned of a node. -/
def Returns (bs : Bytes) (out : Region UInt8 × Int32) : Prop := ListNode.Holds ⟨out.1, out.2⟩ bs

theorem Holds.tfListPop {list : TfList} {elems : List Bytes} (h : list.Holds elems) :
    ∃ list' out, list.tfListPop = some (list', out) ∧ list'.Holds elems.dropLast ∧
      Option.Rel Returns elems.getLast? out := by
  have hnum := h.num_eq
  have hstart := h.start
  unfold TfList.tfListPop
  split
  · have hnil : elems = [] := List.length_eq_zero_iff.mp (by omega)
    subst hnil
    exact ⟨list, none, rfl, h, .none⟩
  · obtain ⟨front, node, behind, hbegins, hfront, hlen, hnodes, hnode, -⟩ :=
      h.split (i := elems.length - 1) (by omega)
    have hget : list.array.get (list.start + list.num - 1) = some node := by
      rw [hstart, Nat.zero_add, hnum, ← hfront, hbegins.get_index (by simp)]
      simp
    refine ⟨{ list with num := list.num - 1 }, some (node.ptr, node.size), ?_, ?_, ?_⟩
    · simp only [hget, Option.bind_eq_bind, Option.bind_some]
    · rw [List.dropLast_eq_take]
      exact ⟨hstart, h.capacity, front, hbegins.of_append, by change _ = list.num - 1; omega, hnodes⟩
    · rw [List.getLast?_eq_getElem?, List.getElem?_eq_getElem (by omega)]
      exact .some hnode

theorem tfListPop2_eq (list : TfList) :
    list.tfListPop2 = list.tfListPop.map fun x => (x.1, x.2.map Prod.fst) := by
  unfold tfListPop2 tfListPop
  split
  · rfl
  · dsimp only
    cases list.array.get (list.start + list.num - 1) <;> rfl

theorem insertIdx_eq (bs : Bytes) {elems : List Bytes} {i : Nat} (h : i ≤ elems.length) :
    elems.insertIdx i bs = elems.take i ++ bs :: elems.drop i := by
  induction elems generalizing i with
  | nil =>
      obtain rfl : i = 0 := Nat.le_zero.mp h
      rfl
  | cons x elems ih =>
      cases i with
      | zero => rfl
      | succ i =>
          rw [List.insertIdx_succ_cons, ih (Nat.le_of_succ_le_succ h), List.take_succ_cons,
            List.drop_succ_cons]
          rfl

/-- No effect where `i` is behind the end. -/
theorem Holds.insertNode {list : TfList} {elems : List Bytes} (h : list.Holds elems) (i : Nat)
    {copy : Option ListNode} {node : ListNode} {bs : Bytes} (hcopy : copy = some node)
    (hnode : node.Holds bs) :
    ∃ list', list.insertNode i copy = some list' ∧ list'.Holds (elems.insertIdx i bs) := by
  have hnum := h.num_eq
  unfold TfList.insertNode
  split
  · refine ⟨list, rfl, ?_⟩
    rwa [List.insertIdx_of_length_lt (by omega)]
  · obtain ⟨hgrown, hroom⟩ := h.grow
    obtain ⟨hstart, hcap, nodes, hbegins, hlen, hnodes⟩ := hgrown
    have hgnum := h.grow.1.num_eq
    have hi : i ≤ nodes.length := by omega
    have hfront : (nodes.take i).length = i := List.length_take_of_le hi
    have hbehind : (nodes.drop i).length = list.grow.num - i := by
      rw [List.length_drop, hlen]
    rw [← List.take_append_drop i nodes] at hbegins
    obtain ⟨moved, array, hmove, hput, harray, hwhole⟩ := hbegins.insert (by omega) node
    rw [hfront] at hmove hput
    have hload : list.grow.array.load i (list.grow.num - i) = some ((nodes.drop i).map some) := by
      have hpart := hbegins
      rw [← List.append_nil (nodes.drop i)] at hpart
      have hload := hpart.load_part
      rwa [hfront, hbehind] at hload
    refine ⟨⟨array, list.grow.anum, 0, list.grow.num + 1⟩, ?_, ?_⟩
    · simp only [h.start, hstart, Nat.add_zero, Nat.zero_add, hload, hmove, hcopy, hput,
        Option.bind_eq_bind, Option.bind_some]
    · rw [insertIdx_eq bs (by omega)]
      refine .of_nodes (harray.trans hcap) hwhole ?_ ?_
      · exact List.rel_append (List.forall₂_take i hnodes) (.cons hnode (List.forall₂_drop i hnodes))
      · rw [List.length_append, List.length_cons, hfront, hbehind]
        omega

theorem Holds.tfListInsert {list : TfList} {elems : List Bytes} (h : list.Holds elems) (i : Nat)
    {ptr : Region UInt8} {bs : Bytes} (hptr : ptr.Begins bs) (fits : bs.length + 1 < 2 ^ 31) :
    ∃ list', list.tfListInsert i ptr (.ofNat bs.length) = some list' ∧
      list'.Holds (elems.insertIdx i bs) := by
  obtain ⟨node, hcopy, hnode⟩ := copyBytes_holds hptr fits
  rw [TfList.tfListInsert, if_pos (ofNat_nonneg (Nat.lt_of_succ_lt fits))]
  exact h.insertNode i hcopy hnode

theorem Holds.tfListInsert2 {list : TfList} {elems : List Bytes} (h : list.Holds elems) (i : Nat)
    {str : CString} (fits : str.val.length + 1 < 2 ^ 31) :
    ∃ list', list.tfListInsert2 i str = some list' ∧ list'.Holds (elems.insertIdx i str.val) := by
  have hptr : str.cells.Begins (str.val ++ [0]) := List.prefix_refl _
  obtain ⟨node, hcopy, hnode⟩ := copyBytes_holds hptr.of_append fits
  exact h.insertNode i hcopy hnode

/-- No effect where `i` is not in use. -/
theorem Holds.tfListRemove {list : TfList} {elems : List Bytes} (h : list.Holds elems) (i : Nat) :
    ∃ list' out, list.tfListRemove i = some (list', out) ∧ list'.Holds (elems.eraseIdx i) ∧
      Option.Rel Returns elems[i]? out := by
  have hnum := h.num_eq
  have hstart := h.start
  unfold TfList.tfListRemove
  split
  · refine ⟨list, none, rfl, ?_, ?_⟩
    · rwa [List.eraseIdx_of_length_le (by omega)]
    · rw [List.getElem?_eq_none (by omega)]
      exact .none
  · obtain ⟨front, node, behind, hbegins, hfront, hlen, hnodes, hnode, hrest⟩ :=
      h.split (i := i) (by omega)
    obtain ⟨hload, array, hstore, harray, hwhole⟩ := hbegins.remove
    have hget : list.array.get i = some node := by
      rw [← hfront, hbegins.get_index (by simp)]
      simp
    have hmoved : list.num - 1 - i = behind.length := by omega
    rw [hfront] at hload hstore
    refine ⟨{ list with array := array, num := list.num - 1 }, some (node.ptr, node.size), ?_, ?_, ?_⟩
    · simp only [hstart, Nat.add_zero, Nat.zero_add, hget, hmoved, hload, hstore, Option.bind_eq_bind,
        Option.bind_some]
    · rw [List.eraseIdx_eq_take_drop_succ]
      refine ⟨hstart, harray.trans h.capacity, front ++ behind, hwhole, ?_, ?_⟩
      · rw [List.length_append]
        change _ = list.num - 1
        omega
      · exact List.rel_append hnodes hrest
    · rw [List.getElem?_eq_getElem (by omega)]
      exact .some hnode

/-- The node at `i` is exchanged for one that holds `bs`; no effect where `i` is not in use. -/
theorem Holds.overNode {list : TfList} {elems : List Bytes} (h : list.Holds elems) (i : Nat)
    {write : Region UInt8 → Option (Region UInt8)} {bs : Bytes} (fits : bs.length + 1 < 2 ^ 31)
    (hwrite : ∀ buf : Region UInt8, bs.length + 1 ≤ buf.length →
      ∃ buf', write buf = some buf' ∧ buf'.Begins (bs ++ [0])) :
    ∃ list', list.overNode i (.ofNat bs.length) write = some list' ∧ list'.Holds (elems.set i bs) := by
  have hnum := h.num_eq
  have hstart := h.start
  unfold TfList.overNode
  split
  · refine ⟨list, rfl, ?_⟩
    rwa [List.set_eq_of_length_le (by omega)]
  · obtain ⟨front, node, behind, hbegins, hfront, hlen, hnodes, hnode, hrest⟩ :=
      h.split (i := i) (by omega)
    have hget : list.array.get i = some node := by
      rw [← hfront, hbegins.get_index (by simp)]
      simp
    obtain ⟨buf, hbuf, hroom⟩ := hnode.enlarge fits
    obtain ⟨buf', hwritten, hbegun⟩ := hwrite buf hroom
    obtain ⟨array, hput, harray, hwhole⟩ := hbegins.replace ⟨buf', .ofNat bs.length⟩
    rw [hfront] at hput
    refine ⟨{ list with array := array }, ?_, ?_⟩
    · simp only [hstart, Nat.add_zero, hget, hbuf, hwritten, hput, Option.bind_eq_bind,
        Option.bind_some]
    · rw [List.set_eq_take_cons_drop _ (by omega)]
      refine ⟨hstart, harray.trans h.capacity, _, hwhole, ?_, ?_⟩
      · rw [List.length_append, List.length_cons]
        exact hlen
      · exact List.rel_append hnodes (.cons ⟨rfl, fits, hbegun⟩ hrest)

theorem Holds.tfListOver {list : TfList} {elems : List Bytes} (h : list.Holds elems) (i : Nat)
    {ptr : Region UInt8} {bs : Bytes} (hptr : ptr.Begins bs) (fits : bs.length + 1 < 2 ^ 31) :
    ∃ list', list.tfListOver i ptr (.ofNat bs.length) = some list' ∧
      list'.Holds (elems.set i bs) := by
  rw [TfList.tfListOver, if_pos (ofNat_nonneg (Nat.lt_of_succ_lt fits))]
  refine h.overNode i fits fun buf hroom => ?_
  obtain ⟨copied, hcopy, hlen, hbegins⟩ := (Region.begins_nil buf).store bs
    (by rw [List.length_nil]; omega)
  obtain ⟨whole, hzero, -, hwhole⟩ := hbegins.store [0] (by rw [hlen]; exact hroom)
  change Region.store _ 0 _ = some copied at hcopy
  change Region.store _ bs.length [some 0] = some whole at hzero
  refine ⟨whole, ?_, hwhole⟩
  simp only [sizeT_ofNat (Nat.lt_of_succ_lt fits), hptr.load, hcopy, hzero, Option.bind_eq_bind,
    Option.bind_some]

theorem Holds.tfListOver2 {list : TfList} {elems : List Bytes} (h : list.Holds elems) (i : Nat)
    {str : CString} (fits : str.val.length + 1 < 2 ^ 31) :
    ∃ list', list.tfListOver2 i str = some list' ∧ list'.Holds (elems.set i str.val) := by
  refine h.overNode i fits fun buf hroom => ?_
  obtain ⟨copied, hcopy, -, hbegins⟩ := (Region.begins_nil buf).store (str.val ++ [0])
    (by rw [List.length_append, List.length_nil, List.length_singleton]; omega)
  refine ⟨copied, ?_, hbegins⟩
  simp only [str.load_cells fits, Option.bind_eq_bind, Option.bind_some]
  exact hcopy

theorem Holds.tfListClear {list : TfList} {elems : List Bytes} (h : list.Holds elems) :
    ∃ list', list.tfListClear = some list' ∧ list'.Holds [] := by
  obtain ⟨hstart, hcap, nodes, hbegins, hlen, hnodes⟩ := h
  have hload : list.array.load list.start list.num = some (nodes.map some) := by
    rw [hstart, ← hlen]
    exact hbegins.load
  refine ⟨{ list with start := 0, num := 0 }, ?_, rfl, hcap, [], Region.begins_nil _, rfl, .nil⟩
  simp only [TfList.tfListClear, hload, Option.bind_eq_bind, Option.bind_some]

/-- What reads back: the bytes at `i`, with a zero behind them. -/
theorem Holds.tfListVal {list : TfList} {elems : List Bytes} (h : list.Holds elems) (i : Nat) :
    ∃ out, list.tfListVal i = some out ∧ Option.Rel Returns elems[i]? out := by
  have hnum := h.num_eq
  unfold TfList.tfListVal
  split
  · refine ⟨none, rfl, ?_⟩
    rw [List.getElem?_eq_none (by omega)]
    exact .none
  · obtain ⟨node, hget, hnode⟩ := h.node (List.getElem?_eq_getElem (show i < elems.length by omega))
    refine ⟨some (node.ptr, node.size), ?_, ?_⟩
    · simp only [hget, Option.bind_eq_bind, Option.bind_some]
    · rw [List.getElem?_eq_getElem (by omega)]
      exact .some hnode

theorem tfListVal2_eq (list : TfList) (i : Nat) :
    list.tfListVal2 i = (list.tfListVal i).map (Option.map Prod.fst) := by
  unfold tfListVal2 tfListVal
  split
  · rfl
  · cases list.array.get (i + list.start) <;> rfl

end TfList

end Tflib.Data
