import Tflib.Core.Split
import Tflib.Data.Format
import Tflib.Data.Serial

/-! # Splitting and joining strings

`tf_strsplit` and `tf_strjoin` of `tf_util.c`, over the lists of `tf_list.c`. An
overflow of `int` is a fault, and so is an access outside a region.
-/

namespace Tflib.Util

open Tflib.Core Tflib.Data Tflib.Data.Format

/-- `a + b` as an `int`. -/
def addInt32 (a b : Int32) : Option Int32 :=
  if -2 ^ 31 ≤ a.toInt + b.toInt ∧ a.toInt + b.toInt < 2 ^ 31 then some (a + b) else none

/-- `tf_list_push`, where `anum += num + 1` is a sum of `int`. -/
def pushPiece (list : TfList) (sp : Region UInt8) (size : Int32) : Option TfList := do
  let _ ← if list.anum ≤ list.start + list.num then intOf (list.anum + (list.num + 1))
    else some list.anum
  list.tfListPush sp size

/-- The two loops of `tf_strsplit`; `sp` is where the piece begins, `n` is `str - sp`. -/
def splitLoop (delims : Bytes) : Region UInt8 → Region UInt8 → Nat → TfList → Option TfList
  | [], _, _, _ => none
  | cell :: str, sp, n, list => do
      let c ← cell
      if c ≠ 0 ∧ ¬ strchr delims c = true then splitLoop delims str sp (n + 1) list
      else do
        let list ← pushPiece list sp (.ofNat n)
        if c = 0 then some list else splitLoop delims str str 0 list

def tfStrsplit (str : Region UInt8) (delims : CString) : Option TfList :=
  splitLoop delims.val str str 0 TfList.tfListNew

/-- `size += TFLISTVALSIZ(list, i)` for the elements from `i` on. -/
def joinSize (list : TfList) : Nat → Nat → Int32 → Option Int32
  | 0, _, size => some size
  | n + 1, i, size => do
      let node ← list.array.get (i + list.start)
      let size ← addInt32 size node.size
      joinSize list n (i + 1) size

/-- The elements from `i` on are copied to the buffer, with a delimiter in front of all but the first. -/
def joinLoop (list : TfList) (delim : UInt8) : Nat → Nat → Nat → Region UInt8 →
    Option (Region UInt8 × Nat)
  | 0, _, wp, buf => some (buf, wp)
  | n + 1, i, wp, buf => do
      let buf ← if 0 < i then buf.store wp [some delim] else some buf
      let wp := if 0 < i then wp + 1 else wp
      let val ← list.tfListVal i
      let (vbuf, vsiz) ← val
      let cells ← vbuf.load 0 (sizeT vsiz)
      let buf ← buf.store wp cells
      joinLoop list delim n (i + 1) (wp + sizeT vsiz) buf

def tfStrjoin (list : TfList) (delim : UInt8) : Option (Region UInt8) := do
  let num ← intOf list.tfListNum
  let size ← addInt32 (.ofNat num) 1
  let size ← joinSize list num 0 size
  let buf ← alloc size
  let (buf, wp) ← joinLoop list delim num 0 0 buf
  buf.store wp [some 0]

/-! ## Splitting -/

/-- The pieces of a string between the bytes of `delims`. -/
def pieces (delims s : Bytes) : List Bytes := s.splitOnP delims.contains

/-- The pieces with the bytes `ds` between them. -/
def weave (elems : List Bytes) (ds : Bytes) : Bytes :=
  (List.zipWith (· ++ ·) elems (ds.map (fun d => [d]) ++ [[]])).flatten

/-- `elems` are what lies between the bytes of `delims` in `s`. -/
structure Cut (delims s : Bytes) (elems : List Bytes) : Prop where
  count : elems.length = s.countP delims.contains + 1
  free : ∀ e ∈ elems, ∀ c ∈ e, c ∉ delims
  back : weave elems (s.filter delims.contains) = s

theorem Cut.eq_pieces {delims s : Bytes} {elems : List Bytes} (h : Cut delims s elems) :
    elems = pieces delims s := by
  have hplain : ∀ e ∈ elems, ∀ c ∈ e, delims.contains c = false := by
    intro e he c hc
    rw [← Bool.not_eq_true, List.contains_iff_mem]
    exact h.free e he c hc
  have hcount : elems.length = (s.filter delims.contains).length + 1 := by
    rw [h.count, List.countP_eq_length_filter]
  have hsplit := splitOnP_unique hcount hplain fun d hd => (List.mem_filter.mp hd).2
  rw [← hsplit]
  exact congrArg (pieces delims) h.back

theorem cut_pieces (delims s : Bytes) : Cut delims s (pieces delims s) where
  count := splitOnP_length s
  free e he c hc hmem := by
    have hplain := splitOnP_free he c hc
    rw [List.contains_iff_mem.mpr hmem] at hplain
    cases hplain
  back := List.splitOnP_spec s

/-! ## The lists that are made -/

/-- The largest capacity: a new list has `65 - 1` nodes, and `65 * 2 ^ k - 1` after it has grown `k`
times. -/
def maxPieces : Nat := 65 * 2 ^ 24 - 1

/-- A list that was made by adding the elements one after another. -/
structure Pushed (list : TfList) (elems : List Bytes) : Prop where
  holds : list.Holds elems
  room : list.num ≤ list.anum
  grown : ∃ k ≤ 24, list.anum + 1 = 65 * 2 ^ k

theorem pushed_new : Pushed TfList.tfListNew [] :=
  ⟨TfList.tfListNew_holds, Nat.zero_le _, 0, Nat.zero_le _, rfl⟩

theorem Pushed.length_le {list : TfList} {elems : List Bytes} (h : Pushed list elems) :
    elems.length ≤ maxPieces := by
  obtain ⟨k, hk, hgrown⟩ := h.grown
  have hpow : 2 ^ k ≤ 2 ^ 24 := Nat.pow_le_pow_right (by omega) hk
  have hroom := h.room
  have hnum := h.holds.num_eq
  unfold maxPieces
  omega

/-- The list is made if it has no more than `maxPieces` elements. -/
def Makes (out : Option TfList) (elems : List Bytes) : Prop :=
  (elems.length ≤ maxPieces ∧ ∃ list, out = some list ∧ Pushed list elems) ∨
    (maxPieces < elems.length ∧ out = none)

theorem tfListPush_sizes {list list' : TfList} {sp : Region UInt8} {size : Int32}
    (h : list.tfListPush sp size = some list') :
    list'.anum = list.grow.anum ∧ list'.num = list.grow.num + 1 := by
  unfold TfList.tfListPush at h
  split at h
  · simp only [Option.bind_eq_bind, Option.bind_eq_some_iff] at h
    obtain ⟨node, -, array, -, hlist⟩ := h
    cases hlist
    exact ⟨rfl, rfl⟩
  · cases h

theorem Pushed.push {list : TfList} {elems : List Bytes} (h : Pushed list elems)
    {sp : Region UInt8} {bs : Bytes} (hsp : sp.Begins bs) (fits : bs.length + 1 < 2 ^ 31) :
    Makes (pushPiece list sp (.ofNat bs.length)) (elems ++ [bs]) := by
  obtain ⟨k, hk, hgrown⟩ := h.grown
  obtain ⟨list', hpush, hholds⟩ := h.holds.tfListPush hsp fits
  obtain ⟨hanum, hnum⟩ := tfListPush_sizes hpush
  have hroom := h.room
  have hstart := h.holds.start
  have hcount : (elems ++ [bs]).length = list.num + 1 := by
    rw [List.length_append, List.length_singleton, ← h.holds.num_eq]
  have hpow : 2 ^ k ≤ 2 ^ 24 := Nat.pow_le_pow_right (by decide) hk
  unfold pushPiece Makes maxPieces
  rw [hcount]
  by_cases hfull : list.anum ≤ list.start + list.num
  · rw [if_pos hfull]
    rw [TfList.grow, if_pos hfull] at hanum hnum
    change list'.anum = list.anum + (list.num + 1) at hanum
    change list'.num = list.num + 1 at hnum
    by_cases hlast : k = 24
    · -- the sum that doubles the capacity is not an `int` any more
      subst hlast
      refine .inr ⟨by omega, ?_⟩
      rw [intOf, if_neg (by omega)]
      rfl
    · have hpow : 2 ^ (k + 1) ≤ 2 ^ 24 := Nat.pow_le_pow_right (by decide) (by omega)
      rw [Nat.pow_succ] at hpow
      refine .inl ⟨by omega, list', ?_, hholds, by omega, k + 1, by omega, ?_⟩
      · rw [intOf_of_lt (by omega), hpush]
        rfl
      · rw [hanum, Nat.pow_succ]
        omega
  · rw [if_neg hfull]
    rw [TfList.grow, if_neg hfull] at hanum hnum
    refine .inl ⟨by omega, list', ?_, hholds, by omega, k, hk, ?_⟩
    · rw [hpush]
      rfl
    · rw [hanum]
      exact hgrown

theorem not_strchr {delims : Bytes} {c : UInt8} (hc : c ≠ 0) :
    (c ≠ 0 ∧ ¬ strchr delims c = true) ↔ delims.contains c = false := by
  simp [strchr, hc]

section Loop

variable {delims : Bytes} {c : UInt8} (str sp : Region UInt8) (n : Nat) (list : TfList)

theorem splitLoop_zero :
    splitLoop delims (some 0 :: str) sp n list = pushPiece list sp (.ofNat n) := by
  have hstop : ¬ ((0 : UInt8) ≠ 0 ∧ ¬ strchr delims 0 = true) := fun hne => hne.1 rfl
  rw [splitLoop, Option.bind_eq_bind, Option.bind_some, if_neg hstop]
  simp only [if_pos]
  exact Option.bind_fun_some _

theorem splitLoop_plain (hc : c ≠ 0) (hmem : delims.contains c = false) :
    splitLoop delims (some c :: str) sp n list = splitLoop delims str sp (n + 1) list :=
  if_pos ((not_strchr hc).mpr hmem)

theorem splitLoop_delim (hc : c ≠ 0) (hmem : delims.contains c = true) :
    splitLoop delims (some c :: str) sp n list =
      (pushPiece list sp (.ofNat n)).bind (splitLoop delims str str 0) := by
  have hstop : ¬ (c ≠ 0 ∧ ¬ strchr delims c = true) := by
    rw [not_strchr hc, hmem]
    exact Bool.true_eq_false.mp
  rw [splitLoop, Option.bind_eq_bind, Option.bind_some, if_neg hstop]
  simp only [if_neg hc]
  rfl

end Loop

section Pieces

variable {delims : Bytes} {c : UInt8} (s cur : Bytes)

theorem modifyHead_nil_append (elems : List Bytes) : elems.modifyHead ([] ++ ·) = elems :=
  congrFun List.modifyHead_id elems

theorem pieces_plain (hmem : delims.contains c = false) :
    (pieces delims (c :: s)).modifyHead (cur ++ ·) =
      (pieces delims s).modifyHead ((cur ++ [c]) ++ ·) := by
  have hnext : (cur ++ ·) ∘ List.cons c = ((cur ++ [c]) ++ ·) :=
    funext fun piece => List.append_cons cur c piece
  rw [pieces, List.splitOnP_cons_eq_if_modifyHead, hmem, if_neg Bool.false_ne_true,
    List.modifyHead_modifyHead, hnext, ← pieces]

theorem pieces_delim (hmem : delims.contains c = true) :
    (pieces delims (c :: s)).modifyHead (cur ++ ·) = cur :: pieces delims s := by
  rw [pieces, List.splitOnP_cons_eq_if_modifyHead, hmem, if_pos rfl, List.modifyHead_cons,
    List.append_nil, ← pieces]

end Pieces

/-- The loop with the beginning `cur` of a piece behind it. -/
theorem splitLoop_makes (delims : Bytes) {s : Bytes} (hzero : 0 ∉ s) (behind : Region UInt8)
    {sp : Region UInt8} {cur : Bytes} (hsp : sp.Begins (cur ++ (s ++ [0]))) {list : TfList}
    {elems : List Bytes} (h : Pushed list elems)
    (fits : ∀ e ∈ (pieces delims s).modifyHead (cur ++ ·), e.length + 1 < 2 ^ 31) :
    Makes (splitLoop delims ((s ++ [0]).map some ++ behind) sp cur.length list)
      (elems ++ (pieces delims s).modifyHead (cur ++ ·)) := by
  induction s generalizing sp cur list elems with
  | nil =>
      have hpieces : (pieces delims []).modifyHead (cur ++ ·) = [cur] := by
        rw [pieces, List.splitOnP_nil, List.modifyHead_cons, List.append_nil]
      rw [hpieces] at fits ⊢
      have hloop := @splitLoop_zero delims behind sp cur.length list
      exact hloop.symm ▸ h.push hsp.of_append (fits cur List.mem_cons_self)
  | cons c s ih =>
      have hc : c ≠ 0 := (List.ne_of_not_mem_cons hzero).symm
      have hrest : 0 ∉ s := List.not_mem_of_not_mem_cons hzero
      rw [List.cons_append, List.map_cons, List.cons_append]
      cases hmem : delims.contains c with
      | false =>
          rw [pieces_plain s cur hmem] at fits ⊢
          rw [splitLoop_plain _ _ _ _ hc hmem]
          rw [List.cons_append, List.append_cons] at hsp
          have hloop := ih hrest hsp h fits
          rwa [List.length_append, List.length_singleton] at hloop
      | true =>
          rw [pieces_delim s cur hmem] at fits ⊢
          rw [splitLoop_delim _ _ _ _ hc hmem, List.append_cons elems cur]
          have hbegins : Region.Begins ((s ++ [0]).map some ++ behind) ([] ++ (s ++ [0])) :=
            List.prefix_append _ _
          rcases h.push hsp.of_append (fits cur List.mem_cons_self) with
            ⟨-, mid, hpush, hmid⟩ | ⟨hlong, hpush⟩
          · have hloop := @ih hrest _ [] hbegins _ _ hmid
            rw [modifyHead_nil_append] at hloop
            rw [hpush]
            exact hloop fun e he => fits e (List.mem_cons_of_mem cur he)
          · refine .inr ⟨?_, ?_⟩
            · rw [List.length_append]
              omega
            · rw [hpush]
              rfl

/-- A string in any memory. -/
theorem tfStrsplit_makes (delims : CString) {s : Bytes} (hzero : 0 ∉ s) {str : Region UInt8}
    (hstr : str.Begins (s ++ [0])) (fits : ∀ e ∈ pieces delims.val s, e.length + 1 < 2 ^ 31) :
    Makes (tfStrsplit str delims) (pieces delims.val s) := by
  obtain ⟨behind, rfl⟩ := hstr
  have hbegins : Region.Begins ((s ++ [0]).map some ++ behind) ([] ++ (s ++ [0])) :=
    List.prefix_append _ _
  have hloop := @splitLoop_makes delims.val s hzero behind _ [] hbegins _ _ pushed_new
  rw [modifyHead_nil_append] at hloop
  exact hloop fits

/-! ## Joining -/

/-- What `tf_strjoin` allocates: a byte for every element besides its own, and the zero. -/
def joinedSize (elems : List Bytes) : Nat := (elems.map List.length).sum + elems.length + 1

theorem getElem?_middle (done : List Bytes) (e : Bytes) (todo : List Bytes) :
    (done ++ e :: todo)[done.length]? = some e := by
  rw [List.getElem?_append_right (Nat.le_refl _), Nat.sub_self, List.getElem?_cons_zero]

theorem addInt32_ofNat {a b : Nat} (ha : a < 2 ^ 31) (hb : b < 2 ^ 31) :
    addInt32 (.ofNat a) (.ofNat b) = if a + b < 2 ^ 31 then some (.ofNat (a + b)) else none := by
  rw [addInt32, toInt_ofNat ha, toInt_ofNat hb, Int32.ofNat_add]
  by_cases h : a + b < 2 ^ 31
  · rw [if_pos h, if_pos (by omega)]
  · rw [if_neg h, if_neg (by omega)]

theorem joinSize_eq {list : TfList} {done todo : List Bytes} (h : list.Holds (done ++ todo))
    {a : Nat} (ha : a < 2 ^ 31) :
    joinSize list todo.length done.length (.ofNat a) = if a + (todo.map List.length).sum < 2 ^ 31
      then some (.ofNat (a + (todo.map List.length).sum)) else none := by
  induction todo generalizing done a with
  | nil =>
      rw [List.map_nil, List.sum_nil, Nat.add_zero, if_pos ha]
      rfl
  | cons e todo ih =>
      obtain ⟨node, hget, hnode⟩ := h.node (getElem?_middle done e todo)
      have hfits := hnode.fits
      rw [List.length_cons, joinSize, hget, Option.bind_eq_bind, Option.bind_some, hnode.size,
        addInt32_ofNat ha (by omega), List.map_cons, List.sum_cons, ← Nat.add_assoc]
      by_cases hsum : a + e.length < 2 ^ 31
      · rw [List.append_cons] at h
        have hrest := ih h hsum
        rw [List.length_append, List.length_singleton] at hrest
        rw [if_pos hsum, Option.bind_eq_bind, Option.bind_some, hrest]
      · rw [if_neg hsum, if_neg (by omega)]
        rfl

/-- What stands in front of the next element. -/
def lead (d : UInt8) (done : List Bytes) : Bytes :=
  if 0 < done.length then [d].intercalate done ++ [d] else []

theorem intercalate_next (d : UInt8) (done : List Bytes) (e : Bytes) :
    [d].intercalate (done ++ [e]) = lead d done ++ e := by
  rw [intercalate_concat, lead]
  cases done with
  | nil => rfl
  | cons x xs =>
      rw [if_neg (List.cons_ne_nil x xs), if_pos (show 0 < (x :: xs).length from Nat.succ_pos _),
        List.append_assoc]

/-- More elements make a longer string. -/
theorem length_intercalate_le (d : UInt8) (done : List Bytes) (e : Bytes) (todo : List Bytes) :
    ([d].intercalate (done ++ [e])).length ≤ ([d].intercalate (done ++ e :: todo)).length := by
  have hone := length_intercalate d (List.append_ne_nil_of_right_ne_nil done (List.cons_ne_nil e []))
  have hall := length_intercalate d (List.append_ne_nil_of_right_ne_nil done (List.cons_ne_nil e todo))
  simp only [List.map_append, List.sum_append, List.map_cons, List.sum_cons, List.map_nil,
    List.sum_nil, List.length_append, List.length_cons, List.length_nil] at hone hall
  omega

/-- The delimiter. -/
theorem store_lead (d : UInt8) {done : List Bytes} {buf : Region UInt8}
    (hbuf : buf.Begins ([d].intercalate done)) (room : (lead d done).length ≤ buf.length) :
    ∃ buf', (if 0 < done.length then buf.store ([d].intercalate done).length [some d] else some buf) =
        some buf' ∧ buf'.length = buf.length ∧ buf'.Begins (lead d done) ∧
      (if 0 < done.length then ([d].intercalate done).length + 1 else ([d].intercalate done).length) =
        (lead d done).length := by
  unfold lead at room ⊢
  by_cases hmore : 0 < done.length
  · rw [if_pos hmore, List.length_append] at room
    simp only [if_pos hmore]
    obtain ⟨buf', hstore, hlen, hbegins⟩ := hbuf.store [d] room
    exact ⟨buf', hstore, hlen, hbegins, by rw [List.length_append]; rfl⟩
  · simp only [if_neg hmore]
    obtain rfl : done = [] := List.length_eq_zero_iff.mp (by omega)
    exact ⟨buf, rfl, rfl, Region.begins_nil buf, rfl⟩

theorem joinLoop_succ (list : TfList) (d : UInt8) (n i wp : Nat) (buf : Region UInt8) :
    joinLoop list d (n + 1) i wp buf =
      (if 0 < i then buf.store wp [some d] else some buf).bind fun buf =>
        (list.tfListVal i).bind fun val => val.bind fun (vbuf, vsiz) =>
          (vbuf.load 0 (sizeT vsiz)).bind fun cells =>
            (buf.store (if 0 < i then wp + 1 else wp) cells).bind fun buf =>
              joinLoop list d n (i + 1) ((if 0 < i then wp + 1 else wp) + sizeT vsiz) buf := by
  rw [joinLoop]
  split <;> rfl

/-- The loop with the elements `done` in the buffer. -/
theorem joinLoop_eq (d : UInt8) {list : TfList} {done todo : List Bytes}
    (h : list.Holds (done ++ todo)) {buf : Region UInt8} (hbuf : buf.Begins ([d].intercalate done))
    (room : ([d].intercalate (done ++ todo)).length ≤ buf.length) :
    ∃ buf', joinLoop list d todo.length done.length ([d].intercalate done).length buf =
        some (buf', ([d].intercalate (done ++ todo)).length) ∧
      buf'.length = buf.length ∧ buf'.Begins ([d].intercalate (done ++ todo)) := by
  induction todo generalizing done buf with
  | nil =>
      rw [List.append_nil]
      exact ⟨buf, rfl, rfl, hbuf⟩
  | cons e todo ih =>
      have hnext := intercalate_next d done e
      have hlong := length_intercalate_le d done e todo
      rw [hnext, List.length_append] at hlong
      obtain ⟨buf', hdelim, hlen, hlead, hwp⟩ := store_lead d hbuf (by omega)
      obtain ⟨out, hval, hout⟩ := h.tfListVal done.length
      rw [getElem?_middle] at hout
      obtain ⟨⟨vbuf, vsiz⟩, hnode, rfl⟩ : ∃ x, TfList.Returns e x ∧ some x = out := by
        cases hout with
        | some hret => exact ⟨_, hret, rfl⟩
      have hfits := hnode.fits
      have hsize : sizeT vsiz = e.length := by
        rw [show vsiz = .ofNat e.length from hnode.size, sizeT_ofNat (by omega)]
      have hcells : vbuf.load 0 e.length = some (e.map some) := hnode.begins.of_append.load
      obtain ⟨buf'', hstore, hlen', hbegins⟩ := hlead.store e (by omega)
      rw [← hnext] at hbegins
      rw [List.append_cons] at h room ⊢
      obtain ⟨whole, hloop, hlen'', hwhole⟩ := ih h hbegins (by omega)
      refine ⟨whole, ?_, by omega, hwhole⟩
      rw [hnext, List.length_append, List.length_append, List.length_singleton] at hloop
      rw [List.length_cons, joinLoop_succ, hdelim, hwp, hval, Option.bind_some]
      simp only [Option.bind_some, hsize, hcells, hstore]
      exact hloop

/-- The sum is computed in full, or the code does not come to the allocation. -/
theorem tfStrjoin_sum (d : UInt8) {list : TfList} {elems : List Bytes} (h : list.Holds elems) :
    tfStrjoin list d = (if joinedSize elems < 2 ^ 31 then some (Int32.ofNat (joinedSize elems))
        else none).bind fun size => (alloc size).bind fun buf =>
      (joinLoop list d elems.length 0 0 buf).bind fun (buf, wp) => buf.store wp [some 0] := by
  rw [tfStrjoin, TfList.tfListNum, h.num_eq]
  unfold intOf
  by_cases hnum : elems.length < 2 ^ 31
  · rw [if_pos hnum, Option.bind_eq_bind, Option.bind_some,
      show (1 : Int32) = .ofNat 1 from rfl, addInt32_ofNat hnum (by omega)]
    have hsum := fun ha => @joinSize_eq list [] elems h (elems.length + 1) ha
    have hsize : elems.length + 1 + (elems.map List.length).sum = joinedSize elems := by
      unfold joinedSize
      omega
    by_cases hone : elems.length + 1 < 2 ^ 31
    · rw [if_pos hone, Option.bind_eq_bind, Option.bind_some]
      rw [hsize] at hsum
      rw [← hsum hone]
      rfl
    · rw [if_neg hone, if_neg (by omega)]
      rfl
  · rw [if_neg hnum, if_neg (by unfold joinedSize; omega)]
    rfl

/-- An overflow of the size is the only thing that can go wrong. -/
theorem tfStrjoin_eq (d : UInt8) {list : TfList} {elems : List Bytes} (h : list.Holds elems) :
    (joinedSize elems < 2 ^ 31 ∧
        ∃ buf, tfStrjoin list d = some buf ∧ buf.length = joinedSize elems ∧
          buf.Begins ([d].intercalate elems ++ [0])) ∨
      (2 ^ 31 ≤ joinedSize elems ∧ tfStrjoin list d = none) := by
  have hnum := h.num_eq
  by_cases hsize : joinedSize elems < 2 ^ 31
  · left
    refine ⟨hsize, ?_⟩
    have hroom : ([d].intercalate ([] ++ elems)).length + 1 ≤ joinedSize elems := by
      rw [List.nil_append]
      cases elems with
      | nil => exact Nat.le_refl 1
      | cons e elems =>
          have hlen := length_intercalate d (List.cons_ne_nil e elems)
          unfold joinedSize
          omega
    obtain ⟨buf, hloop, hlen, hbuf⟩ := @joinLoop_eq d list [] elems h
      (Region.fresh (joinedSize elems)) (Region.begins_nil _)
      (by rw [Region.fresh_length]; omega)
    rw [Region.fresh_length] at hlen
    obtain ⟨out, hstore, hout, hwhole⟩ := hbuf.store [0] (by rw [hlen]; exact hroom)
    refine ⟨out, ?_, hout.trans hlen, hwhole⟩
    rw [tfStrjoin_sum d h, if_pos hsize, Option.bind_some, alloc_ofNat hsize, Option.bind_some]
    exact (congrArg (fun r => r.bind fun (buf, wp) => buf.store wp [some 0]) hloop).trans hstore
  · right
    refine ⟨by omega, ?_⟩
    rw [tfStrjoin_sum d h, if_neg hsize]
    rfl

theorem joinLoop_length {list : TfList} {d : UInt8} {n i wp end' : Nat} {buf buf' : Region UInt8}
    (h : joinLoop list d n i wp buf = some (buf', end')) : buf'.length = buf.length := by
  induction n generalizing i wp buf with
  | zero =>
      cases h
      rfl
  | succ n ih =>
      rw [joinLoop_succ] at h
      obtain ⟨front, hfront, h⟩ := Option.bind_eq_some_iff.mp h
      obtain ⟨val, -, h⟩ := Option.bind_eq_some_iff.mp h
      obtain ⟨⟨vbuf, vsiz⟩, -, h⟩ := Option.bind_eq_some_iff.mp h
      obtain ⟨cells, -, h⟩ := Option.bind_eq_some_iff.mp h
      obtain ⟨next, hstore, h⟩ := Option.bind_eq_some_iff.mp h
      have hlen : front.length = buf.length := by
        split at hfront
        · exact Region.store_length hfront
        · cases hfront
          rfl
      rw [ih h, Region.store_length hstore, hlen]

/-- The buffer has an `int` of bytes, whatever is joined. -/
theorem tfStrjoin_length {list : TfList} {d : UInt8} {buf : Region UInt8}
    (h : tfStrjoin list d = some buf) : buf.length < 2 ^ 31 := by
  simp only [tfStrjoin, Option.bind_eq_bind, Option.bind_eq_some_iff] at h
  obtain ⟨num, -, first, -, size, -, room, halloc, ⟨out, wp⟩, hloop, hstore⟩ := h
  rw [Region.store_length hstore, joinLoop_length hloop]
  unfold alloc at halloc
  split at halloc
  · cases halloc
    rw [Region.fresh_length, sizeT]
    have hlt := size.toInt_lt
    rename_i hpos
    rw [Int32.le_iff_toInt_le, Int32.toInt_zero] at hpos
    omega
  · cases halloc

/-! ## Back and forth -/

/-- The set `{d}`. -/
def single (d : UInt8) (hd : d ≠ 0) : CString := ⟨[d], fun h => hd (List.mem_singleton.mp h).symm⟩

theorem pieces_single (d : UInt8) (s : Bytes) : pieces [d] s = s.splitOn d := by
  rw [pieces, List.splitOn_eq_splitOnP]
  congr 1
  funext c
  simp [Bool.beq_eq_decide_eq]

/-- The list that is made holds what lies between the bytes of the set. -/
def Splits (s delims : CString) : Prop :=
  ∃ list elems, tfStrsplit s.cells delims = some list ∧ list.Holds elems ∧
    Cut delims.val s.val elems

/-- Splitting and joining gives the string back. -/
def Rejoins (s : CString) (d : UInt8) (hd : d ≠ 0) : Prop :=
  ∃ list buf, tfStrsplit s.cells (single d hd) = some list ∧ tfStrjoin list d = some buf ∧
    buf.Begins (s.val ++ [0])

/-- Joining and splitting gives the elements back. -/
def Resplits (list : TfList) (elems : List Bytes) (d : UInt8) (hd : d ≠ 0) : Prop :=
  ∃ buf list', tfStrjoin list d = some buf ∧ tfStrsplit buf (single d hd) = some list' ∧
    list'.Holds elems

/-- No part of `s` without a byte of `delims` is longer than an element of a list can be. -/
def RunsFit (s delims : Bytes) : Prop :=
  ∀ run, run <:+: s → (∀ c ∈ run, c ∉ delims) → run.length + 1 < 2 ^ 31

theorem runsFit_iff (s delims : Bytes) :
    RunsFit s delims ↔ ∀ e ∈ pieces delims s, e.length + 1 < 2 ^ 31 := by
  constructor
  · intro h e he
    exact h e (infix_of_splitOnP he) fun c hc => (cut_pieces delims s).free e he c hc
  · intro h run hrun hfree
    have hplain : ∀ c ∈ run, delims.contains c = false := fun c hc => by
      rw [← Bool.not_eq_true, List.contains_iff_mem]
      exact hfree c hc
    obtain ⟨piece, hpiece, hin⟩ := infix_piece hrun hplain
    have hlen := hin.length_le
    have hfits := h piece hpiece
    omega

theorem splits_iff (s delims : CString) :
    Splits s delims ↔ RunsFit s.val delims.val ∧ s.val.countP delims.val.contains < maxPieces := by
  have hcount := splitOnP_length (p := delims.val.contains) s.val
  change (pieces delims.val s.val).length = _ at hcount
  rw [runsFit_iff]
  constructor
  · rintro ⟨list, elems, hsplit, hholds, hcut⟩
    rw [hcut.eq_pieces] at hholds
    have hfits := hholds.fits
    refine ⟨hfits, ?_⟩
    rcases tfStrsplit_makes delims s.2 (List.prefix_refl _) hfits with ⟨hle, -⟩ | ⟨-, hnone⟩
    · omega
    · change tfStrsplit s.cells delims = none at hnone
      rw [hnone] at hsplit
      cases hsplit
  · rintro ⟨hfits, hfew⟩
    rcases tfStrsplit_makes delims s.2 (List.prefix_refl _) hfits with
      ⟨-, list, hsplit, hlist⟩ | ⟨hlong, -⟩
    · exact ⟨list, _, hsplit, hlist.holds, cut_pieces delims.val s.val⟩
    · omega

theorem joinedSize_pieces (d : UInt8) (s : Bytes) : joinedSize (pieces [d] s) = s.length + 2 := by
  have hlen := length_intercalate d (List.splitOnP_ne_nil [d].contains s)
  have hback : [d].intercalate (s.splitOn d) = s := List.intercalate_splitOn d
  rw [← pieces_single] at hback
  change ([d].intercalate (pieces [d] s)).length + 1 = _ at hlen
  rw [hback] at hlen
  change _ = ((pieces [d] s).map List.length).sum + (pieces [d] s).length at hlen
  unfold joinedSize
  omega

theorem rejoins_iff (s : CString) (d : UInt8) (hd : d ≠ 0) :
    Rejoins s d hd ↔ s.val.length + 2 < 2 ^ 31 ∧ s.val.count d < maxPieces := by
  have hcount : (pieces [d] s.val).length = s.val.count d + 1 := by
    rw [pieces_single, List.splitOn_eq_splitOnP, splitOnP_length, List.count]
  have hsize := joinedSize_pieces d s.val
  have hback : [d].intercalate (pieces [d] s.val) = s.val :=
    pieces_single d s.val ▸ List.intercalate_splitOn d
  have hmakes : s.val.length + 1 < 2 ^ 31 →
      Makes (tfStrsplit s.cells (single d hd)) (pieces [d] s.val) := by
    intro hshort
    refine tfStrsplit_makes (single d hd) s.2 (List.prefix_refl _) fun e he => ?_
    have hlen := (infix_of_splitOnP he).length_le
    omega
  constructor
  · rintro ⟨list, buf, hsplit, hjoin, hbegins⟩
    have hshort : s.val.length + 1 < 2 ^ 31 := by
      have hlen := hbegins.length_le
      have hbuf := tfStrjoin_length hjoin
      rw [List.length_append, List.length_singleton] at hlen
      omega
    rcases hmakes hshort with ⟨hfew, list', hlist, hpushed⟩ | ⟨-, hnone⟩
    · obtain rfl : list' = list := Option.some.inj (hlist.symm.trans hsplit)
      rcases tfStrjoin_eq d hpushed.holds with ⟨hroom, -⟩ | ⟨-, hnone⟩
      · omega
      · rw [hnone] at hjoin
        cases hjoin
    · rw [hnone] at hsplit
      cases hsplit
  · rintro ⟨hshort, hfew⟩
    rcases hmakes (by omega) with ⟨-, list, hsplit, hpushed⟩ | ⟨hmany, -⟩
    · rcases tfStrjoin_eq d hpushed.holds with ⟨-, buf, hjoin, -, hbegins⟩ | ⟨hlarge, -⟩
      · rw [hback] at hbegins
        exact ⟨list, buf, hsplit, hjoin, hbegins⟩
      · omega
    · omega

theorem resplits_iff {list : TfList} {elems : List Bytes} (h : list.Holds elems) (hne : elems ≠ [])
    {d : UInt8} (hd : d ≠ 0) (plain : ∀ e ∈ elems, 0 ∉ e ∧ d ∉ e) :
    Resplits list elems d hd ↔ joinedSize elems < 2 ^ 31 ∧ elems.length ≤ maxPieces := by
  have hpieces : pieces [d] ([d].intercalate elems) = elems := by
    rw [pieces_single]
    exact List.splitOn_intercalate d (fun e he => (plain e he).2) hne
  have hzero : 0 ∉ [d].intercalate elems := by
    intro hmem
    rcases mem_intercalate hmem with hz | ⟨e, he, hin⟩
    · exact hd hz.symm
    · exact (plain e he).1 hin
  have hmakes : ∀ buf : Region UInt8, buf.Begins ([d].intercalate elems ++ [0]) →
      Makes (tfStrsplit buf (single d hd)) elems := by
    intro buf hbuf
    have hmakes := tfStrsplit_makes (single d hd) hzero hbuf
    change (∀ e ∈ pieces [d] _, _) → Makes _ (pieces [d] _) at hmakes
    rw [hpieces] at hmakes
    exact hmakes h.fits
  constructor
  · rintro ⟨buf, list', hjoin, hsplit, -⟩
    rcases tfStrjoin_eq d h with ⟨hsize, out, hout, -, hbegins⟩ | ⟨-, hnone⟩
    · refine ⟨hsize, ?_⟩
      obtain rfl : out = buf := Option.some.inj (hout.symm.trans hjoin)
      rcases hmakes out hbegins with ⟨hle, -⟩ | ⟨-, hnone⟩
      · exact hle
      · rw [hnone] at hsplit
        cases hsplit
    · rw [hnone] at hjoin
      cases hjoin
  · rintro ⟨hsize, hfew⟩
    rcases tfStrjoin_eq d h with ⟨-, out, hout, -, hbegins⟩ | ⟨hlarge, -⟩
    · rcases hmakes out hbegins with ⟨-, list', hsplit, hlist⟩ | ⟨hlong, -⟩
      · exact ⟨out, list', hout, hsplit, hlist.holds⟩
      · omega
    · omega

/-- A join keeps to its buffer where the `int` that it allocates does not overflow. -/
theorem joins_iff {list : TfList} {elems : List Bytes} (h : list.Holds elems) (d : UInt8) :
    (tfStrjoin list d).isSome ↔ joinedSize elems < 2 ^ 31 := by
  rcases tfStrjoin_eq d h with ⟨hsize, buf, hjoin, -⟩ | ⟨hlarge, hnone⟩
  · rw [hjoin]
    exact ⟨fun _ => hsize, fun _ => rfl⟩
  · rw [hnone]
    constructor
    · intro hnot
      cases hnot
    · intro hsize
      exact absurd hsize (Nat.not_lt.mpr hlarge)

/-- Splitting and joining are inverse as long as no length and no count leaves `int`. -/
theorem split_join_iff (s delims : CString) (d : UInt8) {list : TfList} {elems : List Bytes}
    (h : list.Holds elems) :
    (Splits s delims ↔ RunsFit s.val delims.val ∧ s.val.countP delims.val.contains < maxPieces) ∧
    (∀ hd : d ≠ 0, Rejoins s d hd ↔ s.val.length + 2 < 2 ^ 31 ∧ s.val.count d < maxPieces) ∧
    (∀ hd : d ≠ 0, elems ≠ [] → (∀ e ∈ elems, 0 ∉ e ∧ d ∉ e) →
      (Resplits list elems d hd ↔ joinedSize elems < 2 ^ 31 ∧ elems.length ≤ maxPieces)) ∧
    ((tfStrjoin list d).isSome ↔ joinedSize elems < 2 ^ 31) :=
  ⟨splits_iff s delims, rejoins_iff s d, fun hd hne plain => resplits_iff h hne hd plain, joins_iff h d⟩

/-- `"a,,b"` -/
theorem split_join_two : ∃ list : TfList, list.Holds [[97], [], [98]] ∧
    Rejoins ⟨[97, 44, 44, 98], by decide⟩ 44 (by decide) ∧
    Resplits list [[97], [], [98]] 44 (by decide) := by
  obtain ⟨list, hholds⟩ := @TfList.exists_holds [[97], [], [98]] (by decide)
  obtain ⟨-, hrejoins, hresplits, -⟩ :=
    split_join_iff ⟨[97, 44, 44, 98], by decide⟩ ⟨[44], by decide⟩ 44 hholds
  exact ⟨list, hholds, (hrejoins (by decide)).mpr ⟨by decide, by decide⟩,
    (hresplits (by decide) (by decide) (by decide)).mpr ⟨by decide, by decide⟩⟩

/-- A string of one byte again and again. -/
def run (n : Nat) (c : UInt8) (hc : c ≠ 0) : CString :=
  ⟨List.replicate n c, fun h => hc (List.eq_of_mem_replicate h).symm⟩

theorem run_length (n : Nat) {c : UInt8} (hc : c ≠ 0) : (run n c hc).val.length = n :=
  List.length_replicate

/-- Without a delimiter the string is one element, which needs a byte for its zero. -/
theorem not_splits_of_long {s : CString} (h : 2 ^ 31 ≤ s.val.length + 1) :
    ¬ Splits s ⟨[], List.not_mem_nil⟩ := by
  rw [splits_iff]
  rintro ⟨hfits, -⟩
  have hlong := hfits s.val List.infix_rfl fun c _ => List.not_mem_nil
  omega

theorem splits_longRun : ¬ Splits (run (2 ^ 31 - 1) 97 (by decide)) ⟨[], List.not_mem_nil⟩ :=
  not_splits_of_long (Nat.le_of_eq (by rw [run_length]; rfl))

end Tflib.Util
