import Tflib.Core.Ordering
import Tflib.Data.Serial
import Tflib.Util.Strings

/-! # Sorted lists

`tf_list_sort`, the two searches and the comparison they rest on. The linear
search compares with `memcmp`, the binary one with `tf_list_elemcmp`.
-/

namespace Tflib.Data

open Tflib.Core Tflib.Util

/-- The `for` loop of `tf_list_elemcmp` from index `i`, with `n` rounds to go; the
inner `none` is its end. -/
def elemcmpFrom (ao bo : Region UInt8) (i : Nat) : Nat → Option (Option Int)
  | 0 => some none
  | n + 1 => do
      let x ← ao.get i
      let y ← bo.get i
      if x > y then some (some 1)
      else if x < y then some (some (-1))
      else elemcmpFrom ao bo (i + 1) n

def tfListElemcmp (a b : ListNode) : Option Int := do
  let size := if a.size < b.size then a.size else b.size
  match ← elemcmpFrom a.ptr b.ptr 0 size.toInt.toNat with
  | some r => some r
  | none => some (a.size - b.size).toInt

/-- `memcmp` on two regions, of which `n` bytes are read. -/
def memcmpAt (a b : Region UInt8) (n : Nat) : Option Int := do
  let cells ← a.load 0 n
  let xs ← cells.mapM id
  let cells ← b.load 0 n
  let ys ← cells.mapM id
  memcmp xs ys n

namespace TfList

def tfListSort (lib : SortLib) (list : TfList) : Option TfList := do
  let cells ← list.array.load list.start list.num
  let nodes ← cells.mapM id
  let nodes ← lib.qsort tfListElemcmp nodes
  let array ← list.array.store list.start (nodes.map some)
  some { list with array := array }

/-- The loop of `tf_listl_search` from place `i`, with `n` rounds to go. -/
def lsearchFrom (list : TfList) (ptr : Region UInt8) (size : Int32) (i : Nat) : Nat → Option Int
  | 0 => some (-1)
  | n + 1 => do
      let node ← list.array.get i
      if node.size = size then
        let r ← memcmpAt node.ptr ptr (sizeT size)
        if r = 0 then some (i - list.start) else lsearchFrom list ptr size (i + 1) n
      else lsearchFrom list ptr size (i + 1) n

def tfListlSearch (list : TfList) (ptr : Region UInt8) (size : Int32) : Option Int :=
  if 0 ≤ size then lsearchFrom list ptr size list.start list.num else none

def tfListBsearch (lib : SortLib) (list : TfList) (ptr : Region UInt8) (size : Int32) : Option Int :=
  if 0 ≤ size then do
    let cells ← list.array.load list.start list.num
    let nodes ← cells.mapM id
    let res ← lib.bsearch tfListElemcmp ⟨ptr, size⟩ nodes
    match res with
    | some i => some i
    | none => some (-1)
  else none

end TfList

/-! ## Comparing bytes -/

/-- The first difference decides, and without one the lengths. -/
def compareBytes : Bytes → Bytes → Int
  | x :: xs, y :: ys => if x > y then 1 else if x < y then -1 else compareBytes xs ys
  | [], ys => -ys.length
  | x :: xs, [] => (x :: xs).length

theorem compareBytes_neg (xs ys : Bytes) : compareBytes ys xs = -compareBytes xs ys := by
  fun_induction compareBytes xs ys with
  | case1 x xs y ys hgt => rw [compareBytes, if_neg (UInt8.lt_asymm hgt), if_pos hgt]
  | case2 x xs y ys hle hlt =>
      rw [compareBytes, if_pos hlt]
      rfl
  | case3 x xs y ys hle hge ih => rw [compareBytes, if_neg hge, if_neg hle, ih]
  | case4 ys => cases ys <;> simp [compareBytes]
  | case5 x xs => simp [compareBytes]

theorem compareBytes_eq_zero (xs ys : Bytes) : compareBytes xs ys = 0 ↔ xs = ys := by
  fun_induction compareBytes xs ys with
  | case1 x xs y ys hgt => simp [(UInt8.ne_of_lt hgt).symm]
  | case2 x xs y ys hle hlt => simp [UInt8.ne_of_lt hlt]
  | case3 x xs y ys hle hge ih =>
      have hxy : x = y := UInt8.le_antisymm (UInt8.not_lt.mp hle) (UInt8.not_lt.mp hge)
      simp [hxy, ih]
  | case4 ys => cases ys <;> simp; omega
  | case5 x xs => simp; omega

theorem compareBytes_trans (xs ys zs : Bytes) (hxy : compareBytes xs ys ≤ 0)
    (hyz : compareBytes ys zs ≤ 0) : compareBytes xs zs ≤ 0 := by
  fun_induction compareBytes xs ys generalizing zs with
  | case1 x xs y ys hgt => contradiction
  | case2 x xs y ys hle hlt =>
      cases zs with
      | nil =>
          simp only [compareBytes, List.length_cons] at hyz
          omega
      | cons z zs =>
          rw [compareBytes] at hyz ⊢
          have hyz' : ¬ y > z := by
            intro h
            rw [if_pos h] at hyz
            contradiction
          have hxz : x < z := UInt8.lt_of_lt_of_le hlt (UInt8.not_lt.mp hyz')
          rw [if_neg (UInt8.lt_asymm hxz), if_pos hxz]
          decide
  | case3 x xs y ys hle hge ih =>
      obtain rfl : x = y := UInt8.le_antisymm (UInt8.not_lt.mp hle) (UInt8.not_lt.mp hge)
      cases zs with
      | nil =>
          simp only [compareBytes, List.length_cons] at hyz
          omega
      | cons z zs =>
          rw [compareBytes] at hyz ⊢
          by_cases hgt : x > z
          · rw [if_pos hgt] at hyz
            contradiction
          · rw [if_neg hgt] at hyz ⊢
            by_cases hlt : x < z
            · rw [if_pos hlt]
              decide
            · rw [if_neg hlt] at hyz ⊢
              exact ih zs hxy hyz
  | case4 ys =>
      cases zs with
      | nil => exact Int.le_refl _
      | cons z zs =>
          rw [compareBytes]
          omega
  | case5 x xs =>
      rw [List.length_cons] at hxy
      omega

theorem compareBytes_consistent : Consistent compareBytes where
  flip xs ys := by
    rw [compareBytes_neg xs ys]
    omega
  trans := compareBytes_trans

/-! ## The comparison of nodes -/

/-- The node's region begins with the bytes `bs`; nothing has to stand behind them. -/
structure ListNode.Reads (node : ListNode) (bs : Bytes) : Prop where
  size : node.size = .ofNat bs.length
  fits : bs.length < 2 ^ 31
  begins : node.ptr.Begins bs

theorem ListNode.Holds.reads {node : ListNode} {bs : Bytes} (h : node.Holds bs) : node.Reads bs :=
  ⟨h.size, Nat.lt_of_succ_lt h.fits, h.begins.of_append⟩

/-- The bytes that a node's region and size stand for. -/
def ListNode.bytes (node : ListNode) : Bytes := (node.ptr.take (sizeT node.size)).map (·.getD 0)

theorem ListNode.Reads.bytes_eq {node : ListNode} {bs : Bytes} (h : node.Reads bs) :
    node.bytes = bs := by
  rw [ListNode.bytes, h.size, sizeT_ofNat h.fits, h.begins.take, List.map_map]
  exact List.map_id bs

theorem elemcmpFrom_eq {ao bo : Region UInt8} {front front' xs ys : Bytes}
    (ha : ao.Begins (front ++ xs)) (hb : bo.Begins (front' ++ ys))
    (hfront : front'.length = front.length) :
    ∃ r, elemcmpFrom ao bo front.length (min xs.length ys.length) = some r ∧
      r.getD ((xs.length : Int) - ys.length) = compareBytes xs ys := by
  induction xs generalizing ys front front' with
  | nil => exact ⟨none, by simp [elemcmpFrom], by simp [compareBytes]⟩
  | cons x xs ih =>
      cases ys with
      | nil => exact ⟨none, by simp [elemcmpFrom], by simp [compareBytes]⟩
      | cons y ys =>
          rw [List.append_cons] at ha hb
          have hx := ha.of_append.get
          have hy := hb.of_append.get
          obtain ⟨r, hr, hvalue⟩ := ih ha hb (by simp [hfront])
          rw [List.length_append, List.length_singleton] at hr
          rw [hfront] at hy
          rw [List.length_cons, List.length_cons, Nat.succ_min_succ, elemcmpFrom, hx, hy, compareBytes]
          simp only [Option.bind_eq_bind, Option.bind_some]
          by_cases hgt : x > y
          · exact ⟨some 1, by rw [if_pos hgt], by rw [if_pos hgt]; rfl⟩
          · rw [if_neg hgt, if_neg hgt]
            by_cases hlt : x < y
            · exact ⟨some (-1), by rw [if_pos hlt], by rw [if_pos hlt]; rfl⟩
            · rw [if_neg hlt, if_neg hlt]
              refine ⟨r, hr, ?_⟩
              rw [← hvalue]
              push_cast
              congr 1
              omega

theorem toInt_sub_ofNat {m n : Nat} (hm : m < 2 ^ 31) (hn : n < 2 ^ 31) :
    (Int32.ofNat m - Int32.ofNat n).toInt = (m : Int) - n := by
  rw [Int32.toInt_sub, toInt_ofNat hm, toInt_ofNat hn, Int.bmod]
  omega

theorem tfListElemcmp_eq {a b : ListNode} {xs ys : Bytes} (ha : a.Reads xs) (hb : b.Reads ys) :
    tfListElemcmp a b = some (compareBytes xs ys) := by
  have hsize : (if a.size < b.size then a.size else b.size).toInt.toNat =
      min xs.length ys.length := by
    have hlt : a.size < b.size ↔ xs.length < ys.length := by
      rw [ha.size, hb.size, Int32.lt_iff_toInt_lt, toInt_ofNat ha.fits, toInt_ofNat hb.fits]
      exact Int.ofNat_lt
    by_cases h : xs.length < ys.length
    · rw [if_pos (hlt.mpr h), ha.size, toInt_ofNat ha.fits]
      omega
    · rw [if_neg (mt hlt.mp h), hb.size, toInt_ofNat hb.fits]
      omega
  obtain ⟨r, hr, hvalue⟩ := elemcmpFrom_eq (show a.ptr.Begins ([] ++ xs) from ha.begins)
    (show b.ptr.Begins ([] ++ ys) from hb.begins) rfl
  rw [List.length_nil] at hr
  rw [tfListElemcmp]
  simp only [hsize, hr, Option.bind_eq_bind, Option.bind_some]
  cases r with
  | some r => exact congrArg some hvalue
  | none =>
      rw [ha.size, hb.size, toInt_sub_ofNat ha.fits hb.fits]
      exact congrArg some hvalue

/-- The comparison as a function of the nodes. -/
theorem consistent_nodes : Consistent fun a b : ListNode => compareBytes a.bytes b.bytes where
  flip a b := compareBytes_consistent.flip a.bytes b.bytes
  trans a b d := compareBytes_consistent.trans a.bytes b.bytes d.bytes

/-! ## The linear search -/

theorem memcmp_eq {xs ys : Bytes} (h : xs.length = ys.length) :
    ∃ r, memcmp xs ys xs.length = some r ∧ (r = 0 ↔ xs = ys) := by
  induction xs generalizing ys with
  | nil =>
      cases ys with
      | nil => exact ⟨0, rfl, by simp⟩
      | cons y ys => contradiction
  | cons x xs ih =>
      cases ys with
      | nil => contradiction
      | cons y ys =>
          by_cases hxy : x = y
          · obtain ⟨r, hr, hiff⟩ := ih (Nat.succ.inj h)
            exact ⟨r, by simp [memcmp, hxy, hr], by simp [hxy, hiff]⟩
          · refine ⟨x.toNat - y.toNat, by simp [memcmp, hxy], ?_⟩
            have hne : x.toNat ≠ y.toNat := fun h => hxy (UInt8.toNat_inj.mp h)
            simp only [List.cons.injEq, hxy, false_and, iff_false]
            omega

theorem memcmpAt_eq {a b : Region UInt8} {xs ys : Bytes} (ha : a.Begins xs) (hb : b.Begins ys)
    (h : xs.length = ys.length) :
    ∃ r, memcmpAt a b xs.length = some r ∧ (r = 0 ↔ xs = ys) := by
  obtain ⟨r, hr, hiff⟩ := memcmp_eq h
  refine ⟨r, ?_, hiff⟩
  have hb' := hb.load
  rw [← h] at hb'
  simp only [memcmpAt, ha.load, hb', TfList.mapM_some, Option.bind_eq_bind, Option.bind_some, hr]

namespace TfList

/-- `r` is an index of `key`, or -1 where there is none. -/
def FoundAt (elems : List Bytes) (key : Bytes) (r : Int) : Prop :=
  r = -1 ∧ key ∉ elems ∨ ∃ i : Nat, r = i ∧ elems[i]? = some key

/-- `r` is the smallest index of `key`, or -1 where there is none. -/
def FirstAt (elems : List Bytes) (key : Bytes) (r : Int) : Prop :=
  r = -1 ∧ key ∉ elems ∨
    ∃ i : Nat, r = i ∧ elems[i]? = some key ∧ ∀ j < i, elems[j]? ≠ some key

theorem Holds.lsearchFrom {list : TfList} {elems : List Bytes} (h : list.Holds elems)
    {ptr : Region UInt8} {key : Bytes} (hptr : ptr.Begins key) (fits : key.length < 2 ^ 31) (n i : Nat)
    (hn : i + n = elems.length) (hbefore : ∀ j < i, elems[j]? ≠ some key) :
    ∃ r, list.lsearchFrom ptr (.ofNat key.length) i n = some r ∧ FirstAt elems key r := by
  induction n generalizing i with
  | zero =>
      refine ⟨-1, rfl, .inl ⟨rfl, fun hmem => ?_⟩⟩
      obtain ⟨j, hj⟩ := List.mem_iff_getElem?.mp hmem
      obtain ⟨hlt, -⟩ := List.getElem?_eq_some_iff.mp hj
      exact hbefore j (by omega) hj
  | succ n ih =>
      have hi : elems[i]? = some elems[i] := List.getElem?_eq_getElem (by omega)
      obtain ⟨node, hget, hnode⟩ := h.node hi
      rw [h.start, Nat.add_zero] at hget
      have hnext : elems[i] ≠ key → ∀ j < i + 1, elems[j]? ≠ some key := by
        intro hne j hj
        by_cases hji : j = i
        · rw [hji, hi]
          exact fun heq => hne (Option.some.inj heq)
        · exact hbefore j (by omega)
      have hsize : node.size = .ofNat key.length ↔ elems[i].length = key.length := by
        rw [hnode.size, ← Int32.toInt_inj, toInt_ofNat (Nat.lt_of_succ_lt hnode.fits), toInt_ofNat fits]
        exact Int.ofNat_inj
      rw [TfList.lsearchFrom, hget]
      simp only [Option.bind_eq_bind, Option.bind_some]
      by_cases hlen : elems[i].length = key.length
      · obtain ⟨r, hr, hzero⟩ := memcmpAt_eq hnode.reads.begins hptr hlen
        rw [if_pos (hsize.mpr hlen), sizeT_ofNat fits, ← hlen, hr]
        simp only [Option.bind_some]
        by_cases hkey : elems[i] = key
        · rw [if_pos (hzero.mpr hkey), h.start]
          refine ⟨i, ?_, .inr ⟨i, rfl, by rw [hi, hkey], hbefore⟩⟩
          simp
        · rw [if_neg (mt hzero.mp hkey), hlen]
          exact ih (i + 1) (by omega) (hnext hkey)
      · rw [if_neg (mt hsize.mp hlen)]
        exact ih (i + 1) (by omega) (hnext fun heq => hlen (congrArg List.length heq))

theorem Holds.tfListlSearch {list : TfList} {elems : List Bytes} (h : list.Holds elems)
    {ptr : Region UInt8} {key : Bytes} (hptr : ptr.Begins key) (fits : key.length < 2 ^ 31) :
    ∃ r, list.tfListlSearch ptr (.ofNat key.length) = some r ∧ FirstAt elems key r := by
  rw [TfList.tfListlSearch, if_pos (ofNat_nonneg fits), h.start, h.num_eq]
  exact h.lsearchFrom hptr fits elems.length 0 (Nat.zero_add _) fun j hj => absurd hj (Nat.not_lt_zero j)

theorem FoundAt.eq_neg_one_iff {elems : List Bytes} {key : Bytes} {r : Int} (h : FoundAt elems key r) :
    r = -1 ↔ key ∉ elems := by
  rcases h with ⟨rfl, habsent⟩ | ⟨i, rfl, hi⟩
  · exact ⟨fun _ => habsent, fun _ => rfl⟩
  · have hmem : key ∈ elems := List.mem_of_getElem? hi
    exact ⟨fun h => absurd h (by omega), fun habsent => absurd hmem habsent⟩

theorem FirstAt.found {elems : List Bytes} {key : Bytes} {r : Int} (h : FirstAt elems key r) :
    FoundAt elems key r :=
  h.imp id fun ⟨i, hr, hi, _⟩ => ⟨i, hr, hi⟩

/-! ## Sorting and the binary search -/

theorem map_bytes {nodes : List ListNode} {elems : List Bytes}
    (h : List.Forall₂ ListNode.Holds nodes elems) : nodes.map ListNode.bytes = elems := by
  induction h with
  | nil => rfl
  | cons hnode _ ih => rw [List.map_cons, hnode.reads.bytes_eq, ih]

theorem holds_bytes {nodes : List ListNode} {elems : List Bytes}
    (h : List.Forall₂ ListNode.Holds nodes elems) : ∀ node ∈ nodes, node.Holds node.bytes := by
  induction h with
  | nil => exact fun node hmem => absurd hmem List.not_mem_nil
  | @cons node bs nodes elems hnode hnodes ih =>
      intro x hx
      rcases List.mem_cons.mp hx with rfl | hx
      · rwa [hnode.reads.bytes_eq]
      · exact ih x hx

/-- The nodes in use, as the functions that hand the array to the library read them. -/
theorem Holds.load_nodes {list : TfList} {elems : List Bytes} (h : list.Holds elems) :
    ∃ nodes, list.array.load 0 list.num = some (nodes.map some) ∧ list.array.Begins nodes ∧
      nodes.length = list.num ∧ List.Forall₂ ListNode.Holds nodes elems := by
  obtain ⟨-, -, nodes, hbegins, hlen, hnodes⟩ := h
  refine ⟨nodes, ?_, hbegins, hlen, hnodes⟩
  rw [← hlen]
  exact hbegins.load

theorem Holds.tfListSort {list : TfList} {elems : List Bytes} (h : list.Holds elems) (lib : SortLib) :
    ∃ sorted elems', list.tfListSort lib = some sorted ∧ sorted.Holds elems' ∧ elems'.Perm elems ∧
      elems'.Pairwise fun xs ys => compareBytes xs ys ≤ 0 := by
  obtain ⟨nodes, hload, hbegins, hlen, hnodes⟩ := h.load_nodes
  have hholds := holds_bytes hnodes
  obtain ⟨sorted, hsort, hperm, hsorted⟩ := lib.sorts tfListElemcmp
    (fun a b => compareBytes a.bytes b.bytes) nodes consistent_nodes fun a ha b hb =>
      tfListElemcmp_eq (hholds a ha).reads (hholds b hb).reads
  have hroom : ([] : List ListNode).length + sorted.length ≤ list.array.length := by
    rw [List.length_nil, Nat.zero_add, hperm.length_eq]
    exact hbegins.length_le
  obtain ⟨array, hstore, harray, hwhole⟩ := Region.Begins.overwrite
    (show list.array.Begins ([] ++ nodes) from hbegins) sorted hroom
  rw [List.length_nil] at hstore
  refine ⟨{ list with array := array }, sorted.map ListNode.bytes, ?_, ?_, ?_, ?_⟩
  · simp only [TfList.tfListSort, h.start, hload, mapM_some, hsort, hstore, Option.bind_eq_bind,
      Option.bind_some]
  · refine ⟨h.start, harray.trans h.capacity, sorted, hwhole, hperm.length_eq.trans hlen, ?_⟩
    rw [List.forall₂_map_right_iff, List.forall₂_same]
    exact fun node hnode => hholds node (hperm.mem_iff.mp hnode)
  · rw [← map_bytes hnodes]
    exact hperm.map _
  · rw [List.pairwise_map]
    exact hsorted

theorem Holds.tfListBsearch {list : TfList} {elems : List Bytes} (h : list.Holds elems)
    (hsorted : elems.Pairwise fun xs ys => compareBytes xs ys ≤ 0) (lib : SortLib)
    {ptr : Region UInt8} {key : Bytes} (hptr : ptr.Begins key) (fits : key.length < 2 ^ 31) :
    ∃ r, list.tfListBsearch lib ptr (.ofNat key.length) = some r ∧
      FoundAt elems key r := by
  obtain ⟨nodes, hload, -, -, hnodes⟩ := h.load_nodes
  have hholds := holds_bytes hnodes
  have helems := map_bytes hnodes
  have hkey : ListNode.Reads ⟨ptr, .ofNat key.length⟩ key := ⟨rfl, fits, hptr⟩
  rw [← helems, List.pairwise_map] at hsorted
  have hsigns := consistent_nodes.signs ⟨ptr, .ofNat key.length⟩ hsorted
  rw [hkey.bytes_eq] at hsigns
  obtain ⟨res, hres, habsent, hfound⟩ := lib.finds tfListElemcmp ⟨ptr, .ofNat key.length⟩
    (fun node => compareBytes key node.bytes) nodes
    (fun node hnode => tfListElemcmp_eq hkey (hholds node hnode).reads) hsigns
  have hrun : list.tfListBsearch lib ptr (.ofNat key.length) = some (match res with
      | some i => i
      | none => -1) := by
    simp only [TfList.tfListBsearch, if_pos (ofNat_nonneg fits), h.start, hload, mapM_some, hres,
      Option.bind_eq_bind, Option.bind_some]
    cases res <;> rfl
  refine ⟨_, hrun, ?_⟩
  cases res with
  | none =>
      refine .inl ⟨rfl, fun hmem => ?_⟩
      obtain ⟨node, hnode, hbytes⟩ := List.mem_map.mp (helems ▸ hmem)
      exact habsent rfl node hnode ((compareBytes_eq_zero _ _).mpr hbytes.symm)
  | some i =>
      obtain ⟨node, hnode, hzero⟩ := hfound i rfl
      refine .inr ⟨i, rfl, ?_⟩
      rw [← helems, List.getElem?_map, hnode]
      exact congrArg some ((compareBytes_eq_zero _ _).mp hzero).symm

/-- `tf_list_elemcmp` is a total preorder of the nodes' bytes that is zero on equal bytes alone. -/
def ElemcmpOrders : Prop :=
  ∃ c : Bytes → Bytes → Int, Consistent c ∧ (∀ xs ys, c xs ys = 0 ↔ xs = ys) ∧
    ∀ a b : ListNode, ∀ xs ys, a.Reads xs → b.Reads ys → tfListElemcmp a b = some (c xs ys)

/-- The comparison orders byte strings, the linear search finds the first place of a key in any
list, and in a list that was sorted both searches find the key or both do not. -/
theorem searches_agree (lib : SortLib) {list : TfList} {elems : List Bytes} (h : list.Holds elems) :
    ElemcmpOrders ∧
    (∀ ptr key, Region.Begins ptr key → key.length < 2 ^ 31 →
      ∃ r, list.tfListlSearch ptr (.ofNat key.length) = some r ∧ FirstAt elems key r) ∧
    ∃ sorted elems', list.tfListSort lib = some sorted ∧ sorted.Holds elems' ∧ elems'.Perm elems ∧
      ∀ ptr key, Region.Begins ptr key → key.length < 2 ^ 31 →
        ∃ l b, sorted.tfListlSearch ptr (.ofNat key.length) = some l ∧ FirstAt elems' key l ∧
          sorted.tfListBsearch lib ptr (.ofNat key.length) = some b ∧ (b = -1 ↔ l = -1) ∧
          (b ≠ -1 → ∃ i : Nat, b = i ∧ elems'[i]? = some key) := by
  refine ⟨⟨compareBytes, compareBytes_consistent, compareBytes_eq_zero, ?_⟩, ?_, ?_⟩
  · exact fun a b xs ys ha hb => tfListElemcmp_eq ha hb
  · exact fun ptr key hptr fits => h.tfListlSearch hptr fits
  · obtain ⟨sorted, elems', hsort, hholds, hperm, hsorted⟩ := h.tfListSort lib
    refine ⟨sorted, elems', hsort, hholds, hperm, fun ptr key hptr fits => ?_⟩
    obtain ⟨l, hl, hfirst⟩ := hholds.tfListlSearch hptr fits
    obtain ⟨b, hb, hfound⟩ := hholds.tfListBsearch hsorted lib hptr fits
    refine ⟨l, b, hl, hfirst, hb, ?_, ?_⟩
    · rw [hfirst.found.eq_neg_one_iff, hfound.eq_neg_one_iff]
    · exact fun hne => hfound.resolve_left fun hnone => hne hnone.1

/-- Three words, one of them the beginning of another. -/
theorem searches_agree_three : ∃ list : TfList, list.Holds [[98], [97, 0], [97]] ∧
    ∃ sorted elems', list.tfListSort referenceLib = some sorted ∧ sorted.Holds elems' ∧
      elems'.Perm [[98], [97, 0], [97]] ∧
      ∃ b, sorted.tfListBsearch referenceLib ([97, 0].map some) (.ofNat 2) = some b ∧ b ≠ -1 := by
  have hptr : ∀ bs : Bytes, Region.Begins (bs.map some) bs := fun bs => List.prefix_refl _
  obtain ⟨one, -, hone⟩ := tfListNew_holds.tfListPush (hptr [98]) (by decide)
  obtain ⟨two, -, htwo⟩ := hone.tfListPush (hptr [97, 0]) (by decide)
  obtain ⟨three, -, hthree⟩ := htwo.tfListPush (hptr [97]) (by decide)
  obtain ⟨-, -, sorted, elems', hsort, hholds, hperm, hsearch⟩ := searches_agree referenceLib hthree
  obtain ⟨l, b, -, hfirst, hb, hiff, -⟩ := hsearch _ [97, 0] (hptr _) (by decide)
  refine ⟨three, hthree, sorted, elems', hsort, hholds, hperm, b, hb, ?_⟩
  rw [Ne, hiff, hfirst.found.eq_neg_one_iff, hperm.mem_iff]
  decide

end TfList

end Tflib.Data
