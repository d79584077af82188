import Tflib.Data.Str
import Tflib.File.Transfer
import Tflib.Util.Split

/-! # `tf_readlines`

The file is read in chunks, and every chunk is scanned byte by byte into the line
that is being gathered and the list of those that are complete. Where the
chunks end is the system's choice; what the list holds must not depend on it.
-/

namespace Tflib.File

open Tflib.Core Tflib.Core.Calls Tflib.Data Tflib.Util

/-- `list` and `xstr`. -/
structure Lines where
  list : TfList
  xstr : TfStr

namespace Lines

/-- `tf_list_push(list, tf_strptr(xstr), tf_strsize(xstr))`, where its sum of `int` may overflow. -/
def pushLine (v : Lines) : Option TfList := pushPiece v.list v.xstr.tfStrptr v.xstr.tfStrsize

/-- `switch(buf[i])` -/
def scanByte (v : Lines) (c : UInt8) : Option Lines :=
  if c = 13 then some v
  else if c = 10 then do
    let list ← v.pushLine
    let xstr ← v.xstr.tfStrclear
    some ⟨list, xstr⟩
  else do
    let xstr ← v.xstr.tfStrcat [some c] 1
    some ⟨v.list, xstr⟩

/-- The `for` loop over what one call has read. -/
def scan (v : Lines) (chunk : Bytes) : Option Lines := chunk.foldlM scanByte v

/-- The lines of everything that is read until the loop ends. -/
def scanAll (v : Lines) (bytes : Bytes) : Option TfList := do
  let v ← v.scan bytes
  v.pushLine

end Lines

/-- The call that `tf_readlines` waits for, with what is still to be read. -/
inductive LinesVars
  | opening (content : Bytes)
  | reading (v : Lines) (source : Bytes)

/-- From one call to the next. The result `none` is a fault, `some none` is NULL; what the last
`close` answers is not looked at. -/
def tfReadlinesTurn : LinesVars → Answer → Next LinesVars (Option (Option TfList))
  | .opening content, a =>
      if a.IsMoved then
        match TfStr.tfStrnew with
        | none => .done none
        | some xstr => .again (.reading ⟨TfList.tfListNew, xstr⟩ content)
      else .done (some none)
  | .reading v source, a =>
      match a.returned ioBufSize source.length with
      -- 0 and every -1 end the loop in the same way
      | .bytes 0 | .eintr | .error => .done (v.pushLine.map some)
      | .bytes n =>
          match v.scan (source.take n) with
          | none => .done none
          | some v => .again (.reading v (source.drop n))

/-- `tf_readlines` of a file that holds `content`, after the first `k` answers. -/
def tfReadlinesAfter (content : Bytes) (script : Nat → Answer) (k : Nat) :
    Next LinesVars (Option (Option TfList)) :=
  after tfReadlinesTurn (.again (.opening content)) script k

/-! ## What one chunk more or less makes of it -/

/-- The most that one read of the loop brings. -/
def Answer.chunk (a : Answer) : Nat := min a.granted ioBufSize

theorem Answer.chunk_pos {k : Nat} : 0 < (Answer.moved k).chunk := by
  have hpos := Answer.granted_pos (k := k)
  simp only [Answer.chunk, ioBufSize]
  omega

namespace Lines

theorem scan_append (v : Lines) (xs ys : Bytes) :
    v.scan (xs ++ ys) = (v.scan xs).bind fun v => v.scan ys := by
  rw [scan, List.foldlM_append]
  rfl

/-- The run behind the first `n` bytes. -/
def readTo (v : Lines) (source : Bytes) (n : Nat) : Next LinesVars (Option (Option TfList)) :=
  match v.scan (source.take n) with
  | none => .done none
  | some w => .again (.reading w (source.drop n))

end Lines

/-- The loop ends at answer `k`: all before it brought bytes, and it does not. -/
structure LoopEnds (source : Bytes) (script : Nat → Answer) (k : Nat) : Prop where
  moved : ∀ i < k, (script i).IsMoved
  more : ∀ i < k, tally Answer.chunk script i < source.length
  last : ¬ (script k).IsMoved ∨ source.length ≤ tally Answer.chunk script k

theorem loopEnds_exists (source : Bytes) (script : Nat → Answer) :
    ∃ k, LoopEnds source script k := by
  have hsome : ∃ k, ¬ (script k).IsMoved ∨ source.length ≤ tally Answer.chunk script k := by
    by_contra hnone
    have hall : ∀ k, (script k).IsMoved ∧ tally Answer.chunk script k < source.length := by
      intro k
      by_contra hk
      refine hnone ⟨k, ?_⟩
      rcases not_and_or.mp hk with h | h
      · exact .inl h
      · exact .inr (Nat.not_lt.mp h)
    have hgrow : ∀ k, k ≤ tally Answer.chunk script k := by
      intro k
      induction k with
      | zero => exact Nat.zero_le _
      | succ k ih =>
          have hmoved := (hall k).1
          cases ha : script k with
          | moved j =>
              have hpos := Answer.chunk_pos (k := j)
              rw [tally, ha]
              omega
          | interrupted =>
              rw [ha] at hmoved
              exact absurd hmoved id
          | failed =>
              rw [ha] at hmoved
              exact absurd hmoved id
    have := hgrow source.length
    have := (hall source.length).2
    omega
  classical
  refine ⟨Nat.find hsome, ?_, ?_, Nat.find_spec hsome⟩
  · intro i hi
    by_contra hmoved
    exact Nat.find_min hsome hi (.inl hmoved)
  · intro i hi
    by_contra hmore
    exact Nat.find_min hsome hi (.inr (Nat.not_lt.mp hmore))

/-- A read that brings bytes scans the next of them. -/
theorem turn_moved {v : Lines} {source : Bytes} {a : Answer} (ha : a.IsMoved) (hne : source ≠ []) :
    tfReadlinesTurn (.reading v source) a = v.readTo source (min a.chunk source.length) := by
  cases a with
  | interrupted => exact absurd ha id
  | failed => exact absurd ha id
  | moved k =>
      have hpos := Answer.chunk_pos (k := k)
      have hlen := List.length_pos_iff.mpr hne
      have hn : min (Answer.moved k).granted (min ioBufSize source.length) =
          min (Answer.moved k).chunk source.length := by
        rw [Answer.chunk, Nat.min_assoc]
      obtain ⟨m, hm⟩ : ∃ m, min (Answer.moved k).chunk source.length = m + 1 :=
        Nat.exists_eq_succ_of_ne_zero (by omega)
      simp only [tfReadlinesTurn, Answer.returned, hn, hm, Lines.readTo]

/-- A read that brings none ends the loop. -/
theorem turn_last {v : Lines} {source : Bytes} {a : Answer} (h : ¬ a.IsMoved ∨ source = []) :
    tfReadlinesTurn (.reading v source) a = .done (v.pushLine.map some) := by
  cases a with
  | interrupted => rfl
  | failed => rfl
  | moved k =>
      obtain rfl : source = [] := h.resolve_left (not_not.mpr trivial)
      simp only [tfReadlinesTurn, Answer.returned, List.length_nil, Nat.min_zero]

section

variable {source : Bytes} {script : Nat → Answer} {v : Lines}

/-- While it lasts, the loop has scanned what the answers have brought. -/
theorem after_reading {l : Nat} (hl : LoopEnds source script l) {k : Nat} (hk : k ≤ l) :
    after tfReadlinesTurn (.again (.reading v source)) script k =
      v.readTo source (min (tally Answer.chunk script k) source.length) := by
  induction k with
  | zero => simp [after, tally, Lines.readTo, Lines.scan]
  | succ k ih =>
      have hmore := hl.more k hk
      have hmoved := hl.moved k hk
      rw [after, ih (Nat.le_of_lt hk), Nat.min_eq_left (Nat.le_of_lt hmore)]
      have htake : source.take (min (tally Answer.chunk script (k + 1)) source.length) =
          source.take (tally Answer.chunk script k) ++
            (source.drop (tally Answer.chunk script k)).take (min (script k).chunk
              (source.drop (tally Answer.chunk script k)).length) := by
        rw [← List.take_add, tally, List.length_drop]
        congr 1
        omega
      have hdrop : source.drop (min (tally Answer.chunk script (k + 1)) source.length) =
          (source.drop (tally Answer.chunk script k)).drop (min (script k).chunk
              (source.drop (tally Answer.chunk script k)).length) := by
        rw [List.drop_drop, tally, List.length_drop]
        congr 1
        omega
      rw [Lines.readTo, Lines.readTo, htake, hdrop, Lines.scan_append]
      cases hw : v.scan (source.take (tally Answer.chunk script k)) with
      | none => rfl
      | some w =>
          have hne : source.drop (tally Answer.chunk script k) ≠ [] := by
            rw [Ne, List.drop_eq_nil_iff]
            omega
          simp only [Next.answer, Option.bind_some]
          rw [turn_moved hmoved hne, Lines.readTo]

/-- The bytes that are read in front of answer `k`. -/
def readBefore (source : Bytes) (script : Nat → Answer) (k : Nat) : Bytes :=
  source.take (min (tally Answer.chunk script k) source.length)

/-- The loop returns the lines of what it has read, wherever its chunks end. -/
theorem reading_ends {l : Nat} (hl : LoopEnds source script l) :
    after tfReadlinesTurn (.again (.reading v source)) script (l + 1) =
      .done ((v.scanAll (readBefore source script l)).map some) := by
  rw [after, after_reading hl (Nat.le_refl l), Lines.readTo, Lines.scanAll, readBefore]
  cases hw : v.scan (source.take (min (tally Answer.chunk script l) source.length)) with
  | none => rfl
  | some w =>
      have hlast : ¬ (script l).IsMoved ∨
          source.drop (min (tally Answer.chunk script l) source.length) = [] := by
        refine hl.last.imp id fun hend => ?_
        rw [List.drop_eq_nil_iff]
        omega
      simp only [Next.answer]
      rw [turn_last hlast]
      rfl

end

/-! ## What the list holds -/

/-- The bytes without `'\r'`. -/
def noReturns (bytes : Bytes) : Bytes := bytes.filter (· ≠ 13)

/-- The lines of a file: what lies between the `'\n'` of its bytes without `'\r'`. -/
def linesOf (content : Bytes) : List Bytes := pieces [10] (noReturns content)

namespace Lines

theorem pushLine_makes {v : Lines} {elems : List Bytes} {cur : Bytes} (hlist : Pushed v.list elems)
    (hcur : v.xstr.Holds cur) : Makes v.pushLine (elems ++ [cur]) := by
  have hsize : v.xstr.tfStrsize = .ofNat cur.length := hcur.readsAs.1
  rw [pushLine, hsize]
  exact hlist.push hcur.begins.of_append hcur.fits

theorem scanAll_cons (v : Lines) (c : UInt8) (bytes : Bytes) :
    v.scanAll (c :: bytes) = (v.scanByte c).bind fun v => v.scanAll bytes := by
  rw [scanAll, scan, List.foldlM_cons]
  cases v.scanByte c <;> rfl

theorem scanByte_plain {v : Lines} {cur : Bytes} (hcur : v.xstr.Holds cur) {c : UInt8}
    (hr : c ≠ 13) (hn : c ≠ 10) (fits : (cur ++ [c]).length + 1 < 2 ^ 31) :
    ∃ x, v.scanByte c = some ⟨v.list, x⟩ ∧ x.Holds (cur ++ [c]) := by
  rw [List.length_append] at fits
  obtain ⟨x, hcat, hx⟩ := hcur.tfStrcat_begins (show Region.Begins [some c] [c] from List.prefix_refl _) fits
  have hone : v.xstr.tfStrcat [some c] 1 = some x := hcat
  refine ⟨x, ?_, hx⟩
  rw [scanByte, if_neg hr, if_neg hn, hone]
  rfl

theorem linesOf_return (bytes : Bytes) : linesOf (13 :: bytes) = linesOf bytes := by
  rw [linesOf, noReturns, List.filter_cons_of_neg (by decide)]
  rfl

theorem linesOf_kept {c : UInt8} (hr : c ≠ 13) (bytes : Bytes) :
    linesOf (c :: bytes) = pieces [10] (c :: noReturns bytes) := by
  rw [linesOf, noReturns, List.filter_cons_of_pos (by simpa using hr)]
  rfl

/-- A line break ends the line that was begun as `cur`. -/
theorem linesOf_newline (cur bytes : Bytes) :
    (linesOf (10 :: bytes)).modifyHead (cur ++ ·) = cur :: linesOf bytes := by
  rw [linesOf_kept (by decide), pieces_delim _ cur (by decide)]
  rfl

/-- Any other byte goes on with it. -/
theorem linesOf_plain {c : UInt8} (hr : c ≠ 13) (hn : c ≠ 10) (cur bytes : Bytes) :
    (linesOf (c :: bytes)).modifyHead (cur ++ ·) = (linesOf bytes).modifyHead ((cur ++ [c]) ++ ·) := by
  have hmem : ([10] : Bytes).contains c = false := by simpa using hn
  rw [linesOf_kept hr, pieces_plain _ cur hmem]
  rfl

theorem length_lt_of_modifyHead {cur bytes : Bytes}
    (fits : ∀ e ∈ (linesOf bytes).modifyHead (cur ++ ·), e.length + 1 < 2 ^ 31) :
    cur.length + 1 < 2 ^ 31 := by
  have hne := List.splitOnP_ne_nil ([10] : Bytes).contains (noReturns bytes)
  obtain ⟨first, rest, hfirst⟩ := List.exists_cons_of_ne_nil hne
  have hlen := fits (cur ++ first) (by
    rw [linesOf, pieces, hfirst]
    exact List.mem_cons_self)
  rw [List.length_append] at hlen
  omega

/-- What a scan makes of the lines that the bytes hold, the first of them begun as `cur`. -/
theorem scanAll_makes {bytes cur : Bytes} {v : Lines} {elems : List Bytes}
    (hlist : Pushed v.list elems) (hcur : v.xstr.Holds cur)
    (fits : ∀ e ∈ (linesOf bytes).modifyHead (cur ++ ·), e.length + 1 < 2 ^ 31) :
    Makes (v.scanAll bytes) (elems ++ (linesOf bytes).modifyHead (cur ++ ·)) := by
  induction bytes generalizing cur v elems with
  | nil =>
      have hlines : (linesOf []).modifyHead (cur ++ ·) = [cur] := by
        rw [linesOf, noReturns, List.filter_nil, pieces, List.splitOnP_nil, List.modifyHead_cons,
          List.append_nil]
      rw [hlines]
      exact pushLine_makes hlist hcur
  | cons c bytes ih =>
      rw [scanAll_cons]
      by_cases hr : c = 13
      · subst hr
        rw [linesOf_return] at fits ⊢
        exact ih hlist hcur fits
      by_cases hn : c = 10
      · subst hn
        rw [linesOf_newline] at fits ⊢
        rw [scanByte, if_neg hr, if_pos rfl, List.append_cons elems cur]
        obtain ⟨x, hclear, hx⟩ := hcur.tfStrclear
        rcases pushLine_makes hlist hcur with ⟨-, list, hpush, hpushed⟩ | ⟨hmany, hnone⟩
        · have hrest := @ih [] ⟨list, x⟩ (elems ++ [cur]) hpushed hx
          rw [modifyHead_nil_append] at hrest
          rw [hpush, hclear]
          exact hrest fun e he => fits e (List.mem_cons_of_mem cur he)
        · refine .inr ⟨?_, ?_⟩
          · rw [List.length_append]
            omega
          · rw [hnone]
            rfl
      · rw [linesOf_plain hr hn] at fits ⊢
        obtain ⟨x, hbyte, hx⟩ := scanByte_plain hcur hr hn (length_lt_of_modifyHead fits)
        rw [hbyte, Option.bind_some]
        exact ih (v := ⟨v.list, x⟩) hlist hx fits

end Lines

/-- Every line fits into a string, and they all fit into a list. -/
def LinesFit (content : Bytes) : Prop :=
  RunsFit (noReturns content) [10] ∧ (noReturns content).count 10 < maxPieces

theorem linesOf_length (content : Bytes) :
    (linesOf content).length = (noReturns content).count 10 + 1 := by
  rw [linesOf, pieces_single, List.splitOn_eq_splitOnP, splitOnP_length, List.count]

/-- The lines of the content, where nothing stands in front of them. -/
theorem scanAll_new {bytes : Bytes} {xstr : TfStr} (hx : xstr.Holds [])
    (fits : ∀ e ∈ linesOf bytes, e.length + 1 < 2 ^ 31) :
    Makes (Lines.scanAll ⟨TfList.tfListNew, xstr⟩ bytes) (linesOf bytes) := by
  have h := @Lines.scanAll_makes bytes _ ⟨TfList.tfListNew, xstr⟩ _ pushed_new hx
  rw [modifyHead_nil_append] at h
  exact h fits

/-- The list is made, and holds the lines, exactly when they fit. -/
theorem scanAll_holds_iff {bytes : Bytes} {xstr : TfStr} (hx : xstr.Holds []) :
    (∃ list, Lines.scanAll ⟨TfList.tfListNew, xstr⟩ bytes = some list ∧
      list.Holds (linesOf bytes)) ↔ LinesFit bytes := by
  have hcount := linesOf_length bytes
  rw [LinesFit, runsFit_iff]
  constructor
  · rintro ⟨list, hscan, hholds⟩
    refine ⟨hholds.fits, ?_⟩
    rcases scanAll_new hx hholds.fits with ⟨hfew, -⟩ | ⟨-, hnone⟩
    · omega
    · rw [hnone] at hscan
      cases hscan
  · rintro ⟨hfits, hfew⟩
    rcases scanAll_new hx hfits with ⟨-, list, hscan, hpushed⟩ | ⟨hmany, -⟩
    · exact ⟨list, hscan, hpushed.holds⟩
    · omega

/-! ## However the file is cut -/

/-- `tf_readlines` returns `r`, at some point. -/
def ReadlinesEnds (content : Bytes) (script : Nat → Answer) (r : Option (Option TfList)) : Prop :=
  ∃ k, tfReadlinesAfter content script k = .done r

/-- Behind a successful `open` the loop runs on the other answers. -/
theorem readlines_opened (content : Bytes) {script : Nat → Answer} (h : (script 0).IsMoved)
    {xstr : TfStr} (hnew : TfStr.tfStrnew = some xstr) (k : Nat) :
    tfReadlinesAfter content script (k + 1) =
      after tfReadlinesTurn (.again (.reading ⟨TfList.tfListNew, xstr⟩ content))
        (fun i => script (i + 1)) k := by
  rw [tfReadlinesAfter, after_succ_start, Next.answer, tfReadlinesTurn, if_pos h, hnew]

/-- The same list for every way to cut the file, with its lines; and they join to the content. -/
def Collects (content : Bytes) : Prop :=
  ∃ list, (∀ cuts : Nat → Nat, ReadlinesEnds content (fun i => .moved (cuts i)) (some (some list))) ∧
    list.Holds (linesOf content) ∧
    (0 ∉ content → ∃ buf, tfStrjoin list 10 = some buf ∧ buf.Begins (noReturns content ++ [0]))

theorem readBefore_whole {source : Bytes} {script : Nat → Answer} {l : Nat}
    (hl : LoopEnds source script l) (hmoved : (script l).IsMoved) :
    readBefore source script l = source := by
  have hend := hl.last.resolve_left (not_not.mpr hmoved)
  rw [readBefore, Nat.min_eq_right hend, List.take_length]

/-- However it is cut, the file is scanned as a whole. -/
theorem readlines_cut (content : Bytes) (cuts : Nat → Nat) {xstr : TfStr}
    (hnew : TfStr.tfStrnew = some xstr) :
    ReadlinesEnds content (fun i => .moved (cuts i))
      ((Lines.scanAll ⟨TfList.tfListNew, xstr⟩ content).map some) := by
  obtain ⟨l, hl⟩ := loopEnds_exists content fun i => .moved (cuts (i + 1))
  have hend := reading_ends (v := ⟨TfList.tfListNew, xstr⟩) hl
  rw [readBefore_whole hl trivial,
    ← @readlines_opened content (fun i => .moved (cuts i)) trivial _ hnew] at hend
  exact ⟨_, hend⟩

theorem intercalate_linesOf (content : Bytes) :
    ([10] : Bytes).intercalate (linesOf content) = noReturns content := by
  rw [linesOf, pieces_single]
  exact List.intercalate_splitOn 10

/-- A collected file has no line that is too long, and not too many. -/
theorem linesFit_of_collects {content : Bytes} (h : Collects content) : LinesFit content := by
  obtain ⟨list, hends, hholds, -⟩ := h
  obtain ⟨xstr, hnew, hx⟩ := TfStr.tfStrnew_holds
  obtain ⟨k, hk⟩ := hends fun _ => 0
  obtain ⟨l, hl⟩ := readlines_cut content (fun _ => 0) hnew
  have hsame := done_unique hk hl
  cases hscan : Lines.scanAll ⟨TfList.tfListNew, xstr⟩ content with
  | none =>
      rw [hscan] at hsame
      cases hsame
  | some list' =>
      rw [hscan] at hsame
      cases hsame
      exact (scanAll_holds_iff hx).mp ⟨list, hscan, hholds⟩

/-- `tf_readlines` collects a file however it is cut, and its lines join to what was read, exactly
when no length and no count leaves `int`. -/
theorem readlines_collects_iff (content : Bytes) :
    Collects content ↔
      LinesFit content ∧ (0 ∉ content → (noReturns content).length + 2 < 2 ^ 31) := by
  have hsize : joinedSize (linesOf content) = (noReturns content).length + 2 :=
    joinedSize_pieces 10 (noReturns content)
  constructor
  · intro h
    refine ⟨linesFit_of_collects h, fun hzero => ?_⟩
    obtain ⟨list, -, hholds, hjoins⟩ := h
    obtain ⟨buf, hjoin, -⟩ := hjoins hzero
    rw [← hsize]
    exact (joins_iff hholds 10).mp (by rw [hjoin]; rfl)
  · rintro ⟨hfit, hjoins⟩
    obtain ⟨xstr, hnew, hx⟩ := TfStr.tfStrnew_holds
    obtain ⟨list, hscan, hholds⟩ := (scanAll_holds_iff hx).mpr hfit
    refine ⟨list, fun cuts => ?_, hholds, fun hzero => ?_⟩
    · have hends := readlines_cut content cuts hnew
      rwa [hscan] at hends
    · rcases tfStrjoin_eq 10 hholds with ⟨-, buf, hjoin, -, hbegins⟩ | ⟨hlarge, -⟩
      · rw [intercalate_linesOf] at hbegins
        exact ⟨buf, hjoin, hbegins⟩
      · have := hjoins hzero
        omega

/-- A file of one line that is a byte too long. -/
theorem readlines_longLine : ¬ Collects (List.replicate (2 ^ 31 - 1) 97) := by
  intro h
  have hfit := (linesFit_of_collects h).1
  have hsame : noReturns (List.replicate (2 ^ 31 - 1) 97) = List.replicate (2 ^ 31 - 1) 97 := by
    rw [noReturns, List.filter_eq_self]
    intro c hc
    rw [List.eq_of_mem_replicate hc]
    rfl
  rw [hsame] at hfit
  have hlong := hfit _ List.infix_rfl fun c hc hmem => by
    rw [List.eq_of_mem_replicate hc] at hmem
    exact absurd hmem (by decide)
  rw [List.length_replicate] at hlong
  omega

end Tflib.File
