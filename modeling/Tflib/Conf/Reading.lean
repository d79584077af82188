import Tflib.Conf.File
import Tflib.File.Lines

/-! # Reading a configuration file

`cfg_create` takes its lines from `tf_readlines`, which ends its loop in the same
way for the end of the file, for an interruption and for an error. What is read
until then is all the configuration there is.
-/

namespace Tflib.Conf

open Tflib.Core Tflib.Core.Calls Tflib.Data Tflib.File Tflib.Util

theorem notMem_takeWhile_ne (line : Bytes) : (0 : UInt8) ∉ line.takeWhile (· ≠ 0) := by
  intro h
  have hne := List.mem_takeWhile_imp h
  exact of_decide_eq_true hne rfl

/-- The bytes of a line in front of its first zero. -/
def cLine (line : Bytes) : CString := ⟨line.takeWhile (· ≠ 0), notMem_takeWhile_ne line⟩

/-- The C string at the front of a region. -/
def cString : Region UInt8 → Option CString
  | [] => none
  | cell :: cells => do
      let c ← cell
      if hc : c = 0 then some ⟨[], List.not_mem_nil⟩
      else do
        let s ← cString cells
        some ⟨c :: s.val, fun h => (List.mem_cons.mp h).elim (fun h0 => hc h0.symm) s.2⟩

/-- The loop of `cfg_create` over `n` lines from `i` on. -/
def cfgLines (list : TfList) : Nat → Nat → CfgState → Option CfgState
  | 0, _, s => some s
  | n + 1, i, s => do
      let node ← list.array.get (i + list.start)
      let line ← cString node.ptr
      let s ← cfgLine s line
      cfgLines list n (i + 1) s

/-- `cfg_create` with what `tf_readlines` has returned; the inner `none` is NULL. -/
def cfgCreateFile : Option TfList → Option (Option CfgState)
  | none => some none
  | some list => do
      let cfg ← cfgLines list list.num 0 ⟨[], [], none⟩
      some (some cfg)

theorem cString_begins {cells : Region UInt8} {line : Bytes} (h : cells.Begins (line ++ [0])) :
    cString cells = some (cLine line) := by
  obtain ⟨rest, rfl⟩ := h
  induction line with
  | nil => rfl
  | cons c line ih =>
      rw [List.cons_append, List.map_cons, List.cons_append, cString]
      by_cases hc : c = 0
      · subst hc
        rfl
      · rw [Option.bind_eq_bind, Option.bind_some, dif_neg hc, ih]
        have htake : (c :: line).takeWhile (· ≠ 0) = c :: line.takeWhile (· ≠ 0) :=
          List.takeWhile_cons_of_pos (by simpa using hc)
        exact congrArg some (Subtype.ext htake.symm)

/-- The loop reads the elements as C strings. -/
theorem cfgLines_eq {list : TfList} {done todo : List Bytes} (h : list.Holds (done ++ todo))
    (s : CfgState) :
    cfgLines list todo.length done.length s = (todo.map cLine).foldlM cfgLine s := by
  induction todo generalizing done s with
  | nil => rfl
  | cons line todo ih =>
      obtain ⟨node, hget, hnode⟩ := h.node (getElem?_middle done line todo)
      rw [List.append_cons] at h
      have hrest := ih h
      rw [List.length_append, List.length_singleton] at hrest
      rw [List.length_cons, cfgLines, hget, Option.bind_eq_bind, Option.bind_some,
        cString_begins hnode.begins, List.map_cons, List.foldlM_cons]
      exact congrArg (cfgLine s (cLine line)).bind (funext hrest)

theorem cfgCreateFile_holds {list : TfList} {elems : List Bytes} (h : list.Holds elems) :
    cfgCreateFile (some list) = (cfgCreate (elems.map cLine)).map some := by
  have hlines := @cfgLines_eq _ [] _ h ⟨[], [], none⟩
  rw [List.length_nil, ← h.num_eq] at hlines
  rw [cfgCreateFile, hlines, cfgCreate]
  cases (elems.map cLine).foldlM cfgLine ⟨[], [], none⟩ <;> rfl

/-! ## What is missing -/

/-- What is behind the bytes that the loop has read when it meets answer `k`. -/
def behind (content : Bytes) (script : Nat → Answer) (k : Nat) : Bytes :=
  content.drop (tally Answer.chunk script k)

/-- What reading a configuration is for: all lines or NULL, and so a configuration that is made
is the one that all lines make. -/
structure ReadsWhole (content : Bytes) (script : Nat → Answer) : Prop where
  lines : ∀ r, ReadlinesEnds content script r →
    r = some none ∨ ∃ list, r = some (some list) ∧ list.Holds (linesOf content)
  config : ∀ file cfg, ReadlinesEnds content script (some file) →
    cfgCreateFile file = some (some cfg) → cfgCreate ((linesOf content).map cLine) = some cfg

/-- The file cannot be opened; or its lines fit, and a read that fails has nothing but `'\r'` left
to read. -/
def NothingLost (content : Bytes) (script : Nat → Answer) : Prop :=
  ¬ (script 0).IsMoved ∨ (LinesFit content ∧ ∀ k, ¬ (script (k + 1)).IsMoved →
    ∀ c ∈ behind content (fun i => script (i + 1)) k, c = 13)

theorem noReturns_append (xs ys : Bytes) : noReturns (xs ++ ys) = noReturns xs ++ noReturns ys :=
  List.filter_append xs ys

theorem noReturns_eq_nil {bytes : Bytes} : noReturns bytes = [] ↔ ∀ c ∈ bytes, c = 13 := by
  simp [noReturns, List.filter_eq_nil_iff]

/-- What is read, and what is not. -/
theorem readBefore_append (content : Bytes) (script : Nat → Answer) (k : Nat) :
    readBefore content script k ++ behind content script k = content := by
  rw [readBefore, behind]
  rcases Nat.le_total (tally Answer.chunk script k) content.length with hle | hge
  · rw [Nat.min_eq_left hle, List.take_append_drop]
  · rw [Nat.min_eq_right hge, List.take_length, List.drop_eq_nil_of_le hge, List.append_nil]

/-- All that is read is all there is, up to `'\r'`. -/
theorem noReturns_readBefore {content : Bytes} {script : Nat → Answer} {l : Nat}
    (hl : LoopEnds content script l) :
    noReturns (readBefore content script l) = noReturns content ↔
      ∀ k, ¬ (script k).IsMoved → ∀ c ∈ behind content script k, c = 13 := by
  have hall := noReturns_append (readBefore content script l) (behind content script l)
  rw [readBefore_append] at hall
  rw [hall, List.self_eq_append_right, noReturns_eq_nil]
  constructor
  · intro h k hk c hc
    have hlk : l ≤ k := by
      by_contra hlt
      exact hk (hl.moved k (Nat.not_le.mp hlt))
    refine h c ((List.drop_suffix_drop_left content ?_).subset hc)
    exact tally_mono _ _ hlk
  · intro h c hc
    rcases hl.last with hfail | hend
    · exact h l hfail c hc
    · rw [behind, List.drop_eq_nil_of_le hend] at hc
      exact absurd hc List.not_mem_nil

/-- The lines tell the bytes, up to `'\r'`. -/
theorem noReturns_of_linesOf {xs ys : Bytes} (h : linesOf xs = linesOf ys) :
    noReturns xs = noReturns ys := by
  rw [← intercalate_linesOf xs, h, intercalate_linesOf]

theorem linesFit_congr {xs ys : Bytes} (h : noReturns xs = noReturns ys) :
    LinesFit xs ↔ LinesFit ys := by
  rw [LinesFit, h, LinesFit]

/-- The lines of a beginning are no longer than those of the whole. -/
theorem linesOf_fit_of_append {xs ys : Bytes} (h : ∀ e ∈ linesOf (xs ++ ys), e.length + 1 < 2 ^ 31) :
    ∀ e ∈ linesOf xs, e.length + 1 < 2 ^ 31 := by
  have hwhole := (runsFit_iff (noReturns (xs ++ ys)) [10]).mpr h
  refine (runsFit_iff (noReturns xs) [10]).mp fun run hrun hfree => hwhole run ?_ hfree
  rw [noReturns_append]
  exact hrun.trans (List.prefix_append _ _).isInfix

/-- A run whose file is opened, up to its end. -/
theorem readlines_ends {content : Bytes} {script : Nat → Answer} (h : (script 0).IsMoved) :
    ∃ l xstr, LoopEnds content (fun i => script (i + 1)) l ∧ xstr.Holds [] ∧
      ReadlinesEnds content script ((Lines.scanAll ⟨TfList.tfListNew, xstr⟩
        (readBefore content (fun i => script (i + 1)) l)).map some) := by
  obtain ⟨xstr, hnew, hx⟩ := TfStr.tfStrnew_holds
  obtain ⟨l, hl⟩ := loopEnds_exists content fun i => script (i + 1)
  have hend := reading_ends (v := ⟨TfList.tfListNew, xstr⟩) hl
  rw [← readlines_opened content h hnew] at hend
  exact ⟨l, xstr, hl, hx, _, hend⟩

/-- A file that is read whole loses nothing. -/
theorem nothingLost_of_readsWhole {content : Bytes} {script : Nat → Answer}
    (h : ReadsWhole content script) : NothingLost content script := by
  by_cases hopen : (script 0).IsMoved
  · obtain ⟨l, xstr, hl, hx, hends⟩ := @readlines_ends content _ hopen
    right
    have hlist : ∃ list, Lines.scanAll ⟨TfList.tfListNew, xstr⟩
        (readBefore content (fun i => script (i + 1)) l) = some list ∧
        list.Holds (linesOf content) := by
      rcases h.lines _ hends with hnull | ⟨list, hsome, hholds⟩
      · cases hscan : Lines.scanAll ⟨TfList.tfListNew, xstr⟩
          (readBefore content (fun i => script (i + 1)) l) <;> rw [hscan] at hnull <;> cases hnull
      · obtain ⟨list', hscan, hsame⟩ := Option.map_eq_some_iff.mp hsome
        cases hsame
        exact ⟨list, hscan, hholds⟩
    obtain ⟨list, hscan, hholds⟩ := hlist
    have hread := readBefore_append content (fun i => script (i + 1)) l
    have hfits := hholds.fits
    rw [← hread] at hfits
    have hpart := linesOf_fit_of_append hfits
    obtain ⟨-, list', hscan', hpushed⟩ : _ ∧ _ :=
      (scanAll_new hx hpart).resolve_right fun ⟨_, hnone⟩ => by rw [hnone] at hscan; cases hscan
    obtain rfl : list' = list := Option.some.inj (hscan'.symm.trans hscan)
    have hsame := noReturns_of_linesOf (hpushed.holds.unique hholds)
    refine ⟨(linesFit_congr hsame).mp ?_, (noReturns_readBefore hl).mp hsame⟩
    exact (scanAll_holds_iff hx).mp ⟨list', hscan, hpushed.holds⟩
  · exact .inl hopen

/-- Reading a configuration gives all its lines or NULL exactly when the file cannot be opened, or
its lines fit and no failing read leaves anything but `'\r'` behind it. -/
theorem readsWhole_iff (content : Bytes) (script : Nat → Answer) :
    ReadsWhole content script ↔ NothingLost content script := by
  refine ⟨nothingLost_of_readsWhole, fun h => ?_⟩
  have hlines : ∀ r, ReadlinesEnds content script r →
      r = some none ∨ ∃ list, r = some (some list) ∧ list.Holds (linesOf content) := by
    rintro r ⟨k, hk⟩
    by_cases hopen : (script 0).IsMoved
    · obtain ⟨hfit, hrest⟩ := h.resolve_left (not_not.mpr hopen)
      obtain ⟨l, xstr, hl, hx, j, hj⟩ := @readlines_ends content _ hopen
      have hsame := (noReturns_readBefore hl).mpr hrest
      have hlinesOf : linesOf (readBefore content (fun i => script (i + 1)) l) =
          linesOf content := by rw [linesOf, hsame, linesOf]
      obtain ⟨list, hscan, hholds⟩ := (scanAll_holds_iff hx).mpr ((linesFit_congr hsame).mpr hfit)
      rw [hscan] at hj
      rw [hlinesOf] at hholds
      exact .inr ⟨list, done_unique hk hj, hholds⟩
    · have hnull : tfReadlinesAfter content script 1 = .done (some none) := by
        rw [tfReadlinesAfter, after_succ_of_again rfl, tfReadlinesTurn, if_neg hopen]
      exact .inl (done_unique hk hnull)
  refine ⟨hlines, fun file cfg hends hcfg => ?_⟩
  rcases hlines _ hends with hnull | ⟨list, hlist, hholds⟩
  · cases hnull
    cases hcfg
  · cases hlist
    rw [cfgCreateFile_holds hholds] at hcfg
    obtain ⟨cfg', hcreate, hsame⟩ := Option.map_eq_some_iff.mp hcfg
    cases hsame
    exact hcreate

/-- `"a\n"`, whose first read is interrupted: an empty list of lines, and a configuration of it. -/
theorem readsWhole_interrupted :
    ¬ ReadsWhole [97, 10] (fun i => [.moved 0, .interrupted].getD i (.moved 0)) := by
  intro h
  have hlost := (nothingLost_of_readsWhole h).resolve_left (not_not.mpr trivial)
  exact absurd (hlost.2 0 id 97 List.mem_cons_self) (by decide)

end Tflib.Conf
