import Tflib.File.Transfer

/-! # `tf_copyfile`

One run of `tf_copyfile` is a chain of system calls: two opens, then reads, each
followed by the writes of `tf_write`, then two closes. The loop of `tf_write` is
the one of `Tflib.File.Transfer`, embedded in the state that waits for a write.
-/

namespace Tflib.File

open Tflib.Core Tflib.Core.Calls

/-- The call whose answer `tf_copyfile` waits for. -/
inductive Pending
  | openSrc
  | openDest
  /-- `close(ifd)` because `dest` could not be opened -/
  | closeUnused
  | read
  /-- inside `tf_write(ofd, buf, size)`, at its `rp` and `size` -/
  | write (buf : Bytes) (rp size : Nat)
  | closeDest
  | closeSrc
  deriving DecidableEq, Repr

structure Copy where
  pending : Pending
  err : Bool
  /-- what is still to be read from `src` -/
  source : Bytes
  /-- what the file `dest` holds -/
  dest : Bytes
  deriving DecidableEq, Repr

structure CopyDone where
  ret : Bool
  source : Bytes
  dest : Bytes
  deriving DecidableEq, Repr

/-- `err = true; break;` -/
def Copy.breakErr (s : Copy) : Copy := { s with pending := .closeDest, err := true }

/-- A `close` that is answered with `a`, and `if(close(..) == -1) err = true`. -/
def Copy.closed (s : Copy) (a : Answer) : Bool := s.err || !decide a.IsMoved

/-- From one call to the next. An open or a close succeeds when its answer is no -1. -/
def tfCopyfileTurn (s : Copy) (a : Answer) : Next Copy (Option CopyDone) :=
  match s.pending with
  | .openSrc =>
      if a.IsMoved then .again { s with pending := .openDest }
      else .done (some ⟨false, s.source, s.dest⟩)
  | .openDest =>
      -- `O_TRUNC`
      if a.IsMoved then .again { s with pending := .read, dest := [] }
      else .again { s with pending := .closeUnused }
  | .closeUnused => .done (some ⟨false, s.source, s.dest⟩)
  | .read =>
      match a.returned ioBufSize s.source.length with
      | .bytes 0 => .again { s with pending := .closeDest }
      | .bytes n =>
          .again { s with pending := .write (s.source.take n) 0 n, source := s.source.drop n }
      | .eintr => .again s
      | .error => .again s.breakErr
  | .write buf rp size =>
      match tfWriteTurn buf ⟨rp, size, s.dest⟩ a with
      | .again w => .again { s with pending := .write buf w.rp w.size, dest := w.sent }
      | .done none => .done none
      | .done (some w) =>
          let t : Copy := { s with pending := .read, dest := w.sent }
          .again (if w.ret then t else t.breakErr)
  | .closeDest => .again { s with pending := .closeSrc, err := s.closed a }
  | .closeSrc => .done (some ⟨!s.closed a, s.source, s.dest⟩)

/-- `tf_copyfile` after the first `k` answers, where `src` holds `content` and `dest` holds `old`. -/
def tfCopyfileAfter (content old : Bytes) (script : Nat → Answer) (k : Nat) :
    Next Copy (Option CopyDone) :=
  after tfCopyfileTurn (.again ⟨.openSrc, false, content, old⟩) script k

/-! ## What a copy must do -/

/-- The call fails: a read or write other than by `EINTR`, an open or close in any way. -/
def Copy.Fails (s : Copy) (a : Answer) : Prop :=
  match s.pending with
  | .read | .write _ _ _ => a = .failed
  | _ => ¬ a.IsMoved

/-- The bytes that are read but not yet written. -/
def Copy.buffered (s : Copy) : Bytes :=
  match s.pending with
  | .write buf rp _ => buf.drop rp
  | _ => []

/-- A failing call, or a read at the end of the source. -/
def Copy.Stops (s : Copy) (a : Answer) : Prop :=
  s.Fails a ∨ (s.pending = .read ∧ s.source = [] ∧ a.IsMoved)

def Copy.IsCopying (s : Copy) : Prop :=
  match s.pending with
  | .read | .write _ _ _ => True
  | _ => False

/-- The contract of `tf_copyfile`: true says that everything up to the end of the source was written
in order, false that some call failed; at every moment no byte is lost or doubled, nothing is done
behind the end or a failure but closing, and only interruptions without end keep it going. -/
structure Copies (content : Bytes) (script : Nat → Answer)
    (run : Nat → Next Copy (Option CopyDone)) (failed : Nat → Prop) : Prop where
  exact : ∀ k e, run k = .done e → ∃ r, e = some r ∧
    (r.ret = true → r.source = [] ∧ r.dest = content) ∧ (r.ret = false ↔ failed k)
  conserves : ∀ k s, run k = .again s → s.IsCopying → s.dest ++ s.buffered ++ s.source = content
  stops : ∀ k s, run k = .again s → s.Stops (script k) → ∃ r, run (k + 3) = .done (some r)
  ends : (∀ k, ∃ l, k ≤ l ∧ script l ≠ .interrupted) → ∃ k r, run k = .done (some r)

/-! ## Its invariant -/

/-- What holds while `tf_copyfile` waits; `bad` says that a call has failed. -/
def CopyWaits (content : Bytes) (bad : Prop) (s : Copy) : Prop :=
  match s.pending with
  | .openSrc | .openDest => s.err = false ∧ ¬ bad ∧ s.source = content
  | .closeUnused => bad
  | .read => s.err = false ∧ ¬ bad ∧ s.dest ++ s.source = content
  | .write buf rp size => s.err = false ∧ ¬ bad ∧ 0 < size ∧
      ∃ before, WriteWaits buf before ⟨rp, size, s.dest⟩ ∧ before ++ buf ++ s.source = content
  | .closeDest | .closeSrc => (s.err = true ↔ bad) ∧
      (s.err = false → s.source = [] ∧ s.dest = content)

def CopyHolds (content : Bytes) (bad : Prop) : Next Copy (Option CopyDone) → Prop
  | .again s => CopyWaits content bad s
  | .done none => False
  | .done (some r) => (r.ret = false ↔ bad) ∧ (r.ret = true → r.source = [] ∧ r.dest = content)

theorem CopyWaits.breakErr {content : Bytes} {bad : Prop} (s : Copy) (h : bad) :
    CopyWaits content bad s.breakErr := ⟨iff_of_true rfl h, nofun⟩

/-- A `close` keeps what the error flag says. -/
theorem Copy.closed_iff {s : Copy} {a : Answer} {bad : Prop} (h : s.err = true ↔ bad) :
    s.closed a = true ↔ bad ∨ ¬ a.IsMoved := by
  rw [Copy.closed, Bool.or_eq_true, h, Bool.not_eq_true', decide_eq_false_iff_not]

theorem Copy.err_of_not_closed {s : Copy} {a : Answer} (h : s.closed a = false) : s.err = false :=
  (Bool.or_eq_false_iff.mp h).1

/-- What a `read` can lead to. -/
theorem tfCopyfileTurn_read (err : Bool) (source dest : Bytes) (a : Answer) :
    (a = .failed ∧ tfCopyfileTurn ⟨.read, err, source, dest⟩ a =
      .again (Copy.breakErr ⟨.read, err, source, dest⟩)) ∨
    (a = .interrupted ∧ tfCopyfileTurn ⟨.read, err, source, dest⟩ a =
      .again ⟨.read, err, source, dest⟩) ∨
    (a.IsMoved ∧ source = [] ∧ tfCopyfileTurn ⟨.read, err, source, dest⟩ a =
      .again ⟨.closeDest, err, [], dest⟩) ∨
    (∃ n, a.IsMoved ∧ n < source.length ∧ tfCopyfileTurn ⟨.read, err, source, dest⟩ a =
      .again ⟨.write (source.take (n + 1)) 0 (n + 1), err, source.drop (n + 1), dest⟩) := by
  simp only [tfCopyfileTurn]
  cases a with
  | failed => exact .inl ⟨rfl, rfl⟩
  | interrupted => exact .inr (.inl ⟨rfl, rfl⟩)
  | moved k =>
      have hpos := Answer.granted_pos (k := k)
      simp only [Answer.returned]
      cases hn : min (Answer.moved k).granted (min ioBufSize source.length) with
      | zero =>
          have hnil : source = [] := by
            refine List.eq_nil_of_length_eq_zero ?_
            simp only [ioBufSize] at hn
            omega
          subst hnil
          exact .inr (.inr (.inl ⟨trivial, rfl, rfl⟩))
      | succ n => exact .inr (.inr (.inr ⟨n, trivial, by omega, rfl⟩))

theorem Answer.ne_failed_of_isMoved {a : Answer} (h : a.IsMoved) : a ≠ .failed := by
  rintro rfl
  exact h

/-- One answer keeps what holds, and its call is counted when it fails. -/
theorem tfCopyfileTurn_holds {content : Bytes} {bad : Prop} {s : Copy}
    (h : CopyWaits content bad s) (a : Answer) :
    CopyHolds content (bad ∨ s.Fails a) (tfCopyfileTurn s a) := by
  obtain ⟨pending, err, source, dest⟩ := s
  cases pending with
  | openSrc =>
      obtain ⟨herr, hbad, hsource⟩ := h
      simp only [tfCopyfileTurn, Copy.Fails]
      by_cases ha : a.IsMoved
      · rw [if_pos ha]
        exact ⟨herr, not_or.mpr ⟨hbad, not_not.mpr ha⟩, hsource⟩
      · rw [if_neg ha]
        exact ⟨iff_of_true rfl (.inr ha), fun h => absurd h Bool.false_ne_true⟩
  | openDest =>
      obtain ⟨herr, hbad, hsource⟩ := h
      simp only [tfCopyfileTurn, Copy.Fails]
      by_cases ha : a.IsMoved
      · rw [if_pos ha]
        exact ⟨herr, not_or.mpr ⟨hbad, not_not.mpr ha⟩, hsource⟩
      · rw [if_neg ha]
        exact Or.inr ha
  | closeUnused => exact ⟨iff_of_true rfl (.inl h), fun h => absurd h Bool.false_ne_true⟩
  | read =>
      obtain ⟨herr, hbad, hsum⟩ := h
      simp only [Copy.Fails]
      rcases tfCopyfileTurn_read err source dest a with
        ⟨rfl, hturn⟩ | ⟨rfl, hturn⟩ | ⟨hmoved, rfl, hturn⟩ | ⟨n, hmoved, hn, hturn⟩
      all_goals rw [hturn]
      · exact CopyWaits.breakErr _ (.inr rfl)
      · exact ⟨herr, not_or.mpr ⟨hbad, Answer.noConfusion⟩, hsum⟩
      · have hnext := not_or.mpr ⟨hbad, Answer.ne_failed_of_isMoved hmoved⟩
        rw [List.append_nil] at hsum
        refine ⟨iff_of_false ?_ hnext, fun _ => ⟨rfl, hsum⟩⟩
        rw [herr]
        exact Bool.noConfusion
      · have hlen : (source.take (n + 1)).length = n + 1 := by
          rw [List.length_take]
          omega
        have hnext := not_or.mpr ⟨hbad, Answer.ne_failed_of_isMoved hmoved⟩
        refine ⟨herr, hnext, Nat.succ_pos n, dest, ⟨?_, ?_⟩, ?_⟩
        · rw [hlen, Nat.zero_add]
        · rw [List.take_zero, List.append_nil]
        · rw [List.append_assoc, List.take_append_drop]
          exact hsum
  | write buf rp size =>
      obtain ⟨herr, hbad, hpos, before, hwrite, hsum⟩ := h
      have hturn := tfWriteTurn_turns hwrite a
      simp only [tfCopyfileTurn, Copy.Fails]
      cases hw : tfWriteTurn buf ⟨rp, size, dest⟩ a with
      | again w =>
          rw [hw] at hturn
          obtain ⟨hwaits, hmore, -, hfail, -⟩ := hturn
          exact ⟨herr, not_or.mpr ⟨hbad, hfail⟩, hmore, before, hwaits, hsum⟩
      | done e =>
          rw [hw] at hturn
          cases e with
          | none => exact hturn
          | some w =>
              rcases hturn with ⟨hret, hfail, hsent⟩ | ⟨hret, hfail, -⟩
              · simp only [hret, if_true]
                refine ⟨herr, not_or.mpr ⟨hbad, hfail⟩, ?_⟩
                rw [hsent]
                exact hsum
              · simp only [hret]
                exact CopyWaits.breakErr _ (.inr hfail)
  | closeDest =>
      refine ⟨Copy.closed_iff h.1, fun hclosed => h.2 (Copy.err_of_not_closed hclosed)⟩
  | closeSrc =>
      simp only [tfCopyfileTurn, Copy.Fails]
      refine ⟨?_, fun hret => h.2 (Copy.err_of_not_closed (by simpa using hret))⟩
      rw [Bool.not_eq_false']
      exact Copy.closed_iff h.1

section

variable {content old : Bytes} {script : Nat → Answer}

/-- A call of the run has failed. -/
def CopyFailed (content old : Bytes) (script : Nat → Answer) (k : Nat) : Prop :=
  Saw Copy.Fails tfCopyfileTurn (.again ⟨.openSrc, false, content, old⟩) script k

theorem tfCopyfileAfter_holds (k : Nat) :
    CopyHolds content (CopyFailed content old script k)
      (tfCopyfileAfter content old script k) := by
  refine after_invariant (I := fun k n => CopyHolds content (CopyFailed content old script k) n)
    ?_ ?_ ?_ k
  · have hstart : CopyWaits content (CopyFailed content old script 0)
        ⟨.openSrc, false, content, old⟩ := ⟨rfl, not_saw_zero, rfl⟩
    exact hstart
  · intro k s hs h
    have hbad : CopyFailed content old script (k + 1) ↔
        CopyFailed content old script k ∨ s.Fails (script k) := saw_succ_of_again hs
    rw [hbad]
    exact tfCopyfileTurn_holds h (script k)
  · intro k e he h
    have hbad : CopyFailed content old script (k + 1) ↔ CopyFailed content old script k :=
      saw_succ_of_done he
    rw [hbad]
    exact h

/-- How far the copy is from its end: each byte is read and written, then come the closes. -/
def Copy.toGo (s : Copy) : Nat :=
  match s.pending with
  | .openSrc => 2 * s.source.length + 5
  | .openDest => 2 * s.source.length + 4
  | .read => 2 * s.source.length + 3
  | .write _ _ size => 2 * s.source.length + size + 3
  | .closeDest => 2
  | .closeSrc => 1
  | .closeUnused => 1

/-- No answer takes the copy back, and only an interruption leaves it where it is. -/
theorem tfCopyfileTurn_toGo {bad : Prop} {s t : Copy} {a : Answer}
    (h : CopyWaits content bad s) (ht : tfCopyfileTurn s a = .again t) :
    t.toGo ≤ s.toGo ∧ (a ≠ .interrupted → t.toGo < s.toGo) := by
  obtain ⟨pending, err, source, dest⟩ := s
  cases pending with
  | openSrc =>
      simp only [tfCopyfileTurn] at ht
      split at ht
      · cases ht
        simp only [Copy.toGo]
        omega
      · cases ht
  | openDest =>
      simp only [tfCopyfileTurn] at ht
      split at ht
      · cases ht
        simp only [Copy.toGo]
        omega
      · cases ht
        simp only [Copy.toGo]
        omega
  | closeUnused => cases ht
  | read =>
      rcases tfCopyfileTurn_read err source dest a with
        ⟨-, hturn⟩ | ⟨rfl, hturn⟩ | ⟨-, rfl, hturn⟩ | ⟨n, -, hn, hturn⟩
      all_goals
        rw [hturn] at ht
        cases ht
      · simp only [Copy.breakErr, Copy.toGo]
        omega
      · exact ⟨Nat.le_refl _, fun ha => absurd rfl ha⟩
      · simp only [Copy.toGo]
        omega
      · simp only [Copy.toGo, List.length_drop]
        omega
  | write buf rp size =>
      obtain ⟨-, -, hpos, before, hwrite, -⟩ := h
      have hturn := tfWriteTurn_turns hwrite a
      simp only [tfCopyfileTurn] at ht
      cases hw : tfWriteTurn buf ⟨rp, size, dest⟩ a with
      | again w =>
          rw [hw] at ht hturn
          cases ht
          obtain ⟨-, -, hle, -, hlt⟩ := hturn
          simp only [Copy.toGo] at hle hlt ⊢
          exact ⟨by omega, fun ha => by have := hlt ha; omega⟩
      | done e =>
          rw [hw] at ht hturn
          cases e with
          | none => exact absurd hturn id
          | some w =>
              cases ht
              cases w.ret with
              | true => simp only [if_true, Copy.toGo]; omega
              | false => simp only [Bool.false_eq_true, if_false, Copy.breakErr, Copy.toGo]; omega
  | closeDest =>
      cases ht
      simp only [Copy.toGo]
      omega
  | closeSrc => cases ht

theorem copyWaits_of_again {k : Nat} {s : Copy}
    (h : tfCopyfileAfter content old script k = .again s) :
    CopyWaits content (CopyFailed content old script k) s := by
  have hholds := @tfCopyfileAfter_holds content old script k
  rwa [h] at hholds

/-- The last calls of a copy are its closes. -/
theorem done_of_closing {k : Nat} {s : Copy} (h : tfCopyfileAfter content old script k = .again s)
    (hc : s.pending = .closeDest) : ∃ r, tfCopyfileAfter content old script (k + 2) = .done r := by
  have hnext : tfCopyfileAfter content old script (k + 1) =
      .again { s with pending := .closeSrc, err := s.closed (script k) } := by
    rw [tfCopyfileAfter, after_succ_of_again h, tfCopyfileTurn, hc]
  exact ⟨_, after_succ_of_again hnext⟩

/-- Behind a failure and behind the end of the source come at most the closes. -/
theorem done_of_stops {k : Nat} {s : Copy} (h : tfCopyfileAfter content old script k = .again s)
    (hstop : s.Stops (script k)) :
    ∃ r, tfCopyfileAfter content old script (k + 3) = .done r := by
  have hwaits := copyWaits_of_again h
  have hnext : tfCopyfileAfter content old script (k + 1) = tfCopyfileTurn s (script k) :=
    after_succ_of_again h
  have soon : ∀ {r l}, tfCopyfileAfter content old script l = .done r → l ≤ k + 3 →
      ∃ r, tfCopyfileAfter content old script (k + 3) = .done r :=
    fun hr hl => ⟨_, after_of_done hr hl⟩
  obtain ⟨pending, err, source, dest⟩ := s
  cases pending with
  | openSrc =>
      have hfails : ¬ (script k).IsMoved := hstop.resolve_right fun h => by cases h.1
      simp only [tfCopyfileTurn, if_neg hfails] at hnext
      exact soon hnext (by omega)
  | openDest =>
      have hfails : ¬ (script k).IsMoved := hstop.resolve_right fun h => by cases h.1
      simp only [tfCopyfileTurn, if_neg hfails] at hnext
      exact soon (after_succ_of_again hnext) (by omega)
  | closeUnused => exact soon hnext (by omega)
  | read =>
      rcases tfCopyfileTurn_read err source dest (script k) with
        ⟨-, hturn⟩ | ⟨hint, -⟩ | ⟨-, -, hturn⟩ | ⟨n, hmoved, hn, -⟩
      · exact done_of_closing (hnext.trans hturn) rfl
      · rcases hstop with hfail | ⟨-, -, hmoved⟩
        · exact absurd (hint.symm.trans hfail) Answer.noConfusion
        · rw [hint] at hmoved
          exact absurd hmoved id
      · exact done_of_closing (hnext.trans hturn) rfl
      · rcases hstop with hfail | ⟨-, hnil, -⟩
        · exact absurd hfail (Answer.ne_failed_of_isMoved hmoved)
        · have hlen : source.length = 0 := congrArg List.length hnil
          omega
  | write buf rp size =>
      have hfailed : script k = .failed := hstop.resolve_right fun h => by cases h.1
      obtain ⟨-, -, -, before, hwrite, -⟩ := hwaits
      have hturn : tfWriteTurn buf ⟨rp, size, dest⟩ .failed = .done (some ⟨false, dest⟩) :=
        if_pos (Nat.le_of_eq hwrite.inside)
      simp only [tfCopyfileTurn, hfailed, hturn] at hnext
      exact done_of_closing hnext rfl
  | closeDest =>
      obtain ⟨r, hr⟩ := done_of_closing h rfl
      exact soon hr (by omega)
  | closeSrc => exact soon hnext (by omega)

end

/-- Whatever the calls answer, `tf_copyfile` keeps its contract. -/
theorem tfCopyfile_copies (content old : Bytes) (script : Nat → Answer) :
    Copies content script (tfCopyfileAfter content old script)
      (CopyFailed content old script) := by
  have hholds := @tfCopyfileAfter_holds content old script
  have returned : ∀ k e, tfCopyfileAfter content old script k = .done e →
      ∃ r, e = some r ∧ (r.ret = true → r.source = [] ∧ r.dest = content) ∧
        (r.ret = false ↔ CopyFailed content old script k) := by
    intro k e he
    have h := hholds k
    rw [he] at h
    cases e with
    | none => exact absurd h id
    | some r => exact ⟨r, rfl, h.2, h.1⟩
  refine ⟨returned, ?_, ?_, ?_⟩
  · intro k s hs hcopying
    have h := copyWaits_of_again hs
    obtain ⟨pending, err, source, dest⟩ := s
    cases pending with
    | read => simpa only [Copy.buffered, List.append_nil] using h.2.2
    | write buf rp size =>
        obtain ⟨-, -, -, before, hwrite, hsum⟩ := h
        have hsent : dest = before ++ buf.take rp := hwrite.sent
        simp only [Copy.buffered]
        rw [hsent, List.append_assoc before, List.take_append_drop]
        exact hsum
    | openSrc => exact absurd hcopying id
    | openDest => exact absurd hcopying id
    | closeUnused => exact absurd hcopying id
    | closeDest => exact absurd hcopying id
    | closeSrc => exact absurd hcopying id
  · intro k s hs hstop
    obtain ⟨e, he⟩ := done_of_stops hs hstop
    obtain ⟨r, rfl, -⟩ := returned _ e he
    exact ⟨r, he⟩
  · intro fair
    have hends : ∃ e, Ends tfCopyfileTurn (.again ⟨.openSrc, false, content, old⟩) script e := by
      refine @ends_fair _ _ _ _ _ _ (fun s => ∃ bad, CopyWaits content bad s) (· ≠ .interrupted)
        Copy.toGo ?_ ?_ fair
      · intro s hs
        cases hs
        exact ⟨False, rfl, not_false, rfl⟩
      · rintro s a t ⟨bad, h⟩ ht
        have hnext := tfCopyfileTurn_holds h a
        rw [ht] at hnext
        exact ⟨⟨_, hnext⟩, tfCopyfileTurn_toGo h ht⟩
    obtain ⟨e, k, he⟩ := hends
    obtain ⟨r, rfl, -⟩ := returned k e he
    exact ⟨k, r, he⟩

/-- Two bytes copied with a short write and an interruption. -/
example :
    let script : Nat → Answer := fun i =>
      [.moved 0, .moved 0, .moved 9, .moved 0, .interrupted].getD i (.moved 0)
    tfCopyfileAfter [65, 66] [1] script 9 = .done (some ⟨true, [], [65, 66]⟩) := by decide

end Tflib.File
