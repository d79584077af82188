import Tflib.Data.Str
import Tflib.File.Transfer

/-! # `tf_readfile`

The size of a file has 64 bits and the limit of `tf_readfile` is an `int`. The
buffer is allocated for the size, and what is asked for is computed from the limit
and the size after this was narrowed. A file that is opened as descriptor 0 is
taken for the standard input and read by another loop.
-/

namespace Tflib.File

open Tflib.Core Tflib.Core.Calls Tflib.Data

/-- `min(a, b)` of `int`. -/
def minInt (a b : Int32) : Int32 := if a < b then a else b

/-- `limit > 0 ? min((int)sbuf.st_size, limit) : sbuf.st_size`, as an `int`. -/
def fileLimit (size : Nat) (limit : Int32) : Int32 :=
  if 0 < limit then minInt (.ofNat size) limit else .ofNat size

/-- The region that is returned, and `*sp`. -/
structure WholeDone where
  buf : Region UInt8
  sp : Int32

/-- The call that `tf_readfile` waits for; `stdin` is the loop over descriptor 0. -/
inductive WholeVars
  | opening (content : Bytes)
  | stating (content : Bytes)
  | reading (limit : Int32) (wp : Nat) (buf : Region UInt8) (source : Bytes)
  | stdin (limit : Int32) (xstr : TfStr) (source : Bytes)

/-- The `size_t` that the next `read` is asked for. -/
def WholeVars.request : WholeVars → Nat
  | .reading limit wp _ _ => ((limit.toInt - wp) % 2 ^ 64).toNat
  | .stdin limit _ _ => sizeT (minInt (.ofNat ioBufSize) limit)
  | _ => 0

/-- The bytes that are stored so far. -/
def WholeVars.stored : WholeVars → Nat
  | .reading _ wp _ _ => wp
  | .stdin _ xstr _ => xstr.size.toNat
  | _ => 0

/-- What `read` returns; a count that is no `ssize_t` is refused. -/
def readReturned (a : Answer) (request available : Nat) : Returned :=
  if request < 2 ^ 63 then a.returned request available else .error

/-- From one call to the next, where `open` returns `fd` if it succeeds. The result `none` is a
fault, `some none` is NULL; what the last `close` answers is not looked at. -/
def tfReadfileTurn (fd : Nat) (limit : Int32) (s : WholeVars) (a : Answer) :
    Next WholeVars (Option (Option WholeDone)) :=
  match s with
  | .opening content =>
      if a.IsMoved then
        if fd = 0 then
          match TfStr.tfStrnew with
          | none => .done none
          | some xstr => .again (.stdin (if 0 < limit then limit else 2147483647) xstr content)
        else .again (.stating content)
      else .done (some none)
  | .stating content =>
      if a.IsMoved then
        .again (.reading (fileLimit content.length limit) 0 (Region.fresh (content.length + 1)) content)
      else .done (some none)
  | .reading left wp buf source =>
      match readReturned a s.request source.length with
      | .bytes 0 | .eintr | .error =>
          .done ((buf.store wp [some 0]).map fun buf => some ⟨buf, .ofNat wp⟩)
      | .bytes n =>
          match buf.store wp ((source.take n).map some) with
          | none => .done none
          | some buf => .again (.reading left (wp + n) buf (source.drop n))
  | .stdin left xstr source =>
      match readReturned a s.request source.length with
      | .bytes 0 | .eintr | .error => .done (some (some ⟨xstr.tfStrptr, xstr.tfStrsize⟩))
      | .bytes n =>
          match xstr.tfStrcat ((source.take n).map some) (.ofNat n) with
          | none => .done none
          | some xstr => .again (.stdin (left - .ofNat n) xstr (source.drop n))

/-- `tf_readfile` of a regular file that holds `content`, after the first `k` answers. -/
def tfReadfileAfter (fd : Nat) (content : Bytes) (limit : Int32) (script : Nat → Answer) (k : Nat) :
    Next WholeVars (Option (Option WholeDone)) :=
  after (tfReadfileTurn fd limit) (.again (.opening content)) script k

/-! ## What a limited read is for -/

/-- The bytes that are to be read. -/
def wanted (content : Bytes) (limit : Int32) : Nat := min content.length limit.toInt.toNat

/-- No more than the wanted bytes are asked for, no access leaves the buffer, what is returned is a
beginning of the file with a zero behind it, and all of the wanted bytes if no call fails. -/
structure ReadsLimited (fd : Nat) (content : Bytes) (limit : Int32) (script : Nat → Answer) :
    Prop where
  request : ∀ k s, tfReadfileAfter fd content limit script k = .again s →
    s.stored + s.request ≤ wanted content limit
  result : ∀ k e, tfReadfileAfter fd content limit script k = .done e → ∃ r, e = some r ∧
    ∀ w, r = some w → ∃ n ≤ wanted content limit, w.sp.toInt = n ∧
      w.buf.Begins (content.take n ++ [0])
  whole : (∀ i, (script i).IsMoved) → ∃ k w, tfReadfileAfter fd content limit script k =
    .done (some (some w)) ∧ w.sp.toInt = wanted content limit ∧
      w.buf.Begins (content.take (wanted content limit) ++ [0])

/-- The narrowed size does not come between: it is the size, or the limit is not above it. A file
that is opened as descriptor 0 must be as long as the limit. -/
def SizeKept (fd size : Nat) (limit : Int32) : Prop :=
  if fd = 0 then limit.toInt ≤ size else size < 2 ^ 31 ∨ limit ≤ .ofNat size

/-! ## The limit -/

theorem minInt_toInt (a b : Int32) : (minInt a b).toInt = min a.toInt b.toInt := by
  unfold minInt
  split
  · rename_i h
    rw [Int32.lt_iff_toInt_lt] at h
    omega
  · rename_i h
    rw [Int32.lt_iff_toInt_lt] at h
    omega

/-- A narrowed size is never more than the size. -/
theorem toInt_ofNat_le (size : Nat) : (Int32.ofNat size).toInt ≤ size := by
  rw [Int32.toInt_ofNat', Int.bmod]
  simp only [Int32.size]
  split <;> omega

theorem fileLimit_toInt {size : Nat} {limit : Int32} (h : 0 < limit) :
    (fileLimit size limit).toInt = min (Int32.ofNat size).toInt limit.toInt := by
  rw [fileLimit, if_pos h, minInt_toInt]

theorem toInt_pos {limit : Int32} (h : 0 < limit) : 0 < limit.toInt := by
  rwa [Int32.lt_iff_toInt_lt, Int32.toInt_zero] at h

/-- The limit that is used is the wanted one exactly when the size is kept. -/
theorem fileLimit_eq_wanted {content : Bytes} {limit : Int32} (h : 0 < limit) :
    (fileLimit content.length limit).toInt = wanted content limit ↔
      content.length < 2 ^ 31 ∨ limit ≤ .ofNat content.length := by
  have hpos := toInt_pos h
  have hlt := limit.toInt_lt
  rw [fileLimit_toInt h, wanted, Int32.le_iff_toInt_le]
  by_cases hsize : content.length < 2 ^ 31
  · rw [toInt_ofNat hsize]
    omega
  · omega

/-! ## Its invariant -/

/-- The bytes that the loops read at most. -/
def bound (fd : Nat) (content : Bytes) (limit : Int32) : Nat :=
  if fd = 0 then wanted content limit else (fileLimit content.length limit).toInt.toNat

/-- What holds while `tf_readfile` waits: the first bytes of the content are stored, and the limit
counts down or is what it was. -/
def WholeWaits (fd : Nat) (content : Bytes) (limit : Int32) : WholeVars → Prop
  | .opening source => source = content
  | .stating source => source = content ∧ fd ≠ 0
  | .reading left wp buf source => fd ≠ 0 ∧ left = fileLimit content.length limit ∧
      wp ≤ bound fd content limit ∧ buf.length = content.length + 1 ∧
      buf.Begins (content.take wp) ∧ source = content.drop wp
  | .stdin left xstr source => fd = 0 ∧ ∃ n ≤ bound fd content limit,
      left = .ofNat (limit.toInt.toNat - n) ∧ xstr.Spells (content.take n) ∧ source = content.drop n

/-- What it has returned; NULL for a failing call only, and fewer bytes likewise. -/
def WholeGives (fd : Nat) (content : Bytes) (limit : Int32) (moved : Prop) :
    Option (Option WholeDone) → Prop
  | none => False
  | some none => ¬ moved
  | some (some w) => ∃ n ≤ bound fd content limit, w.sp.toInt = n ∧
      w.buf.Begins (content.take n ++ [0]) ∧ (moved → n = bound fd content limit)

def WholeHolds (fd : Nat) (content : Bytes) (limit : Int32) (moved : Prop) :
    Next WholeVars (Option (Option WholeDone)) → Prop
  | .again s => WholeWaits fd content limit s
  | .done r => WholeGives fd content limit moved r

section

variable {fd : Nat} {content : Bytes} {limit : Int32}

/-- What the loops read at most is neither above the size nor above the limit. -/
theorem bound_le (hlimit : 0 < limit) : bound fd content limit ≤ wanted content limit := by
  have hpos := toInt_pos hlimit
  have hnarrow := toInt_ofNat_le content.length
  unfold bound
  split
  · exact Nat.le_refl _
  · rw [fileLimit_toInt hlimit, wanted]
    omega

theorem wanted_lt (content : Bytes) (limit : Int32) : wanted content limit < 2 ^ 31 := by
  have hlt := limit.toInt_lt
  rw [wanted]
  omega

/-- What `read` is asked for behind the first `n` bytes. -/
theorem request_reading {n : Nat} (h : fd ≠ 0) (hn : n ≤ bound fd content limit)
    (hnonneg : 0 ≤ (fileLimit content.length limit).toInt) (buf : Region UInt8) (source : Bytes) :
    (WholeVars.reading (fileLimit content.length limit) n buf source).request =
      bound fd content limit - n := by
  have hlt := (fileLimit content.length limit).toInt_lt
  rw [bound, if_neg h] at hn ⊢
  rw [WholeVars.request]
  omega

theorem request_stdin {m : Nat} (hm : m < 2 ^ 31) (xstr : TfStr) (source : Bytes) :
    (WholeVars.stdin (.ofNat m) xstr source).request = min ioBufSize m := by
  have hmin := minInt_toInt (.ofNat ioBufSize) (.ofNat m)
  rw [toInt_ofNat hm, toInt_ofNat (show ioBufSize < 2 ^ 31 by decide)] at hmin
  rw [WholeVars.request, sizeT, hmin]
  omega

/-- A short request is answered as it is. -/
theorem readReturned_of_lt {a : Answer} {request available : Nat} (h : request < 2 ^ 31) :
    readReturned a request available = a.returned request available := if_pos (by omega)

/-- The loop over the file ends, and the zero is stored behind what it has read. -/
theorem reading_gives {wp : Nat} {buf : Region UInt8} {moved : Prop}
    (hwp : wp ≤ bound fd content limit) (hle : bound fd content limit ≤ wanted content limit)
    (hlen : buf.length = content.length + 1) (hbuf : buf.Begins (content.take wp))
    (hmoved : moved → wp = bound fd content limit) :
    WholeGives fd content limit moved
      ((buf.store wp [some 0]).map fun buf => some ⟨buf, .ofNat wp⟩) := by
  have hshort := wanted_lt content limit
  have hsize : wp ≤ content.length := by
    rw [wanted] at hle
    omega
  have hfront : (content.take wp).length = wp := by rw [List.length_take, Nat.min_eq_left hsize]
  obtain ⟨buf', hstore, -, hbegins⟩ := hbuf.store [0]
    (by rw [hfront, hlen, List.length_singleton]; omega)
  rw [hfront] at hstore
  change buf.store wp [some 0] = some buf' at hstore
  rw [hstore]
  exact ⟨wp, hwp, toInt_ofNat (by omega), hbegins, hmoved⟩

/-- The loop over descriptor 0 ends. -/
theorem stdin_gives {n : Nat} {xstr : TfStr} {moved : Prop} (hn : n ≤ bound fd content limit)
    (hle : bound fd content limit ≤ wanted content limit) (hx : xstr.Spells (content.take n))
    (hmoved : moved → n = bound fd content limit) :
    WholeGives fd content limit moved (some (some ⟨xstr.tfStrptr, xstr.tfStrsize⟩)) := by
  have hshort := wanted_lt content limit
  have hfront : (content.take n).length = n := by
    rw [wanted] at hle
    rw [List.length_take]
    omega
  have hsp : xstr.tfStrsize = .ofNat n := by
    rw [TfStr.tfStrsize, hx.size, hfront]
    rfl
  exact ⟨n, hn, by rw [hsp, toInt_ofNat (by omega)], hx.begins, hmoved⟩

/-- What a successful read moves: nothing where nothing is asked for or left, else some bytes. -/
theorem returned_moved (k : Nat) (request available : Nat) :
    ∃ n, (Answer.moved k).returned request available = .bytes n ∧ n ≤ request ∧ n ≤ available ∧
      (n = 0 → request = 0 ∨ available = 0) := by
  have hpos := Answer.granted_pos (k := k)
  exact ⟨_, rfl, by omega, by omega, by omega⟩

theorem ofNat_sub {a b : Nat} (h : b ≤ a) : Int32.ofNat a - .ofNat b = .ofNat (a - b) := by
  obtain ⟨c, rfl⟩ := Nat.exists_eq_add_of_le' h
  rw [Int32.ofNat_add, Int32.add_sub_cancel, Nat.add_sub_cancel]

/-- One turn of the loop over the file. -/
theorem reading_holds (hlimit : 0 < limit)
    (hnonneg : fd ≠ 0 → 0 ≤ (fileLimit content.length limit).toInt) {left : Int32} {wp : Nat}
    {buf : Region UInt8} {source : Bytes}
    (h : WholeWaits fd content limit (.reading left wp buf source)) (a : Answer) :
    WholeHolds fd content limit a.IsMoved
      (tfReadfileTurn fd limit (.reading left wp buf source) a) := by
  obtain ⟨hfd, rfl, hwp, hlen, hbuf, rfl⟩ := h
  have hle := @bound_le fd content _ hlimit
  have hshort := wanted_lt content limit
  have hrequest := request_reading hfd hwp (hnonneg hfd) buf (content.drop wp)
  have hret := @readReturned_of_lt a (bound fd content limit - wp) (content.drop wp).length (by omega)
  simp only [tfReadfileTurn, hrequest, hret]
  cases a with
  | failed => exact reading_gives hwp hle hlen hbuf nofun
  | interrupted => exact reading_gives hwp hle hlen hbuf nofun
  | moved k =>
      obtain ⟨n, hn, hwant, hleft, hzero⟩ :=
        returned_moved k (bound fd content limit - wp) (content.drop wp).length
      have hsize : wanted content limit ≤ content.length := Nat.min_le_left _ _
      rw [List.length_drop] at hleft hzero
      rw [hn]
      cases n with
      | zero => exact reading_gives hwp hle hlen hbuf fun _ => by have := hzero rfl; omega
      | succ n =>
          have hfront : (content.take wp).length = wp := by
            rw [List.length_take]
            omega
          have hpart : ((content.drop wp).take (n + 1)).length = n + 1 := by
            rw [List.length_take, List.length_drop]
            omega
          obtain ⟨buf', hstore, hlen', hbegins⟩ := hbuf.store ((content.drop wp).take (n + 1))
            (by rw [hfront, hpart, hlen]; omega)
          rw [hfront] at hstore
          rw [← List.take_add] at hbegins
          simp only [hstore]
          exact ⟨hfd, rfl, by omega, hlen'.trans hlen, hbegins, List.drop_drop⟩

/-- One turn of the loop over descriptor 0. -/
theorem stdin_holds (hlimit : 0 < limit) {left : Int32} {xstr : TfStr} {source : Bytes}
    (h : WholeWaits fd content limit (.stdin left xstr source)) (a : Answer) :
    WholeHolds fd content limit a.IsMoved (tfReadfileTurn fd limit (.stdin left xstr source) a) := by
  obtain ⟨rfl, m, hm, rfl, hx, rfl⟩ := h
  have hle := @bound_le 0 content _ hlimit
  have hshort := wanted_lt content limit
  have hint := limit.toInt_lt
  have hrequest := request_stdin (m := limit.toInt.toNat - m) (by omega) xstr (content.drop m)
  have hret := @readReturned_of_lt a (min ioBufSize (limit.toInt.toNat - m)) (content.drop m).length
    (by rw [ioBufSize]; omega)
  simp only [tfReadfileTurn, hrequest, hret]
  cases a with
  | failed => exact stdin_gives hm hle hx nofun
  | interrupted => exact stdin_gives hm hle hx nofun
  | moved k =>
      obtain ⟨n, hn, hwant, hleft, hzero⟩ :=
        returned_moved k (min ioBufSize (limit.toInt.toNat - m)) (content.drop m).length
      have hbound : bound 0 content limit = min content.length limit.toInt.toNat := if_pos rfl
      rw [List.length_drop] at hleft hzero
      rw [ioBufSize] at hwant hzero
      rw [hn]
      cases n with
      | zero => exact stdin_gives hm hle hx fun _ => by have := hzero rfl; omega
      | succ n =>
          have hfront : (content.take m).length = m := by
            rw [List.length_take]
            omega
          have hpart : ((content.drop m).take (n + 1)).length = n + 1 := by
            rw [List.length_take, List.length_drop]
            omega
          obtain ⟨x, hcat, hspells⟩ := @TfStr.Spells.tfStrcat _ _ ((content.drop m).take (n + 1)) hx []
            (by rw [hfront, hpart]; omega)
          rw [List.append_nil, hpart] at hcat
          rw [← List.take_add] at hspells
          simp only [hcat]
          refine ⟨rfl, m + (n + 1), by omega, ?_, hspells, List.drop_drop⟩
          rw [ofNat_sub (by omega), Nat.sub_sub]

/-- One answer keeps what holds. -/
theorem tfReadfileTurn_holds (hlimit : 0 < limit)
    (hnonneg : fd ≠ 0 → 0 ≤ (fileLimit content.length limit).toInt) {s : WholeVars}
    (h : WholeWaits fd content limit s) (a : Answer) :
    WholeHolds fd content limit a.IsMoved (tfReadfileTurn fd limit s a) := by
  cases s with
  | opening source =>
      obtain rfl : source = content := h
      by_cases ha : a.IsMoved
      · rw [tfReadfileTurn, if_pos ha]
        by_cases hfd : fd = 0
        · obtain ⟨xstr, hnew, hx⟩ := TfStr.tfStrnew_holds
          have hpos := toInt_pos hlimit
          have hsame : limit = .ofNat (limit.toInt.toNat - 0) := by
            apply Int32.toInt_inj.mp
            have hlt := limit.toInt_lt
            rw [toInt_ofNat (by omega)]
            omega
          rw [if_pos hfd, hnew, if_pos hlimit]
          exact ⟨hfd, 0, Nat.zero_le _, hsame, hx.spells, rfl⟩
        · rw [if_neg hfd]
          exact ⟨rfl, hfd⟩
      · rw [tfReadfileTurn, if_neg ha]
        exact ha
  | stating source =>
      obtain ⟨rfl, hfd⟩ := h
      by_cases ha : a.IsMoved
      · rw [tfReadfileTurn, if_pos ha]
        exact ⟨hfd, rfl, Nat.zero_le _, Region.fresh_length _, Region.begins_nil _, rfl⟩
      · rw [tfReadfileTurn, if_neg ha]
        exact ha
  | reading left wp buf source => exact reading_holds hlimit hnonneg h a
  | stdin left xstr source => exact stdin_holds hlimit h a

variable {script : Nat → Answer}

theorem WholeGives.imp {p q : Prop} (hpq : q → p) {r : Option (Option WholeDone)}
    (h : WholeGives fd content limit p r) : WholeGives fd content limit q r := by
  cases r with
  | none => exact h
  | some r =>
      cases r with
      | none => exact fun hq => h (hpq hq)
      | some w =>
          obtain ⟨n, hn, hsp, hbuf, hmoved⟩ := h
          exact ⟨n, hn, hsp, hbuf, fun hq => hmoved (hpq hq)⟩

theorem tfReadfileAfter_holds (hlimit : 0 < limit)
    (hnonneg : fd ≠ 0 → 0 ≤ (fileLimit content.length limit).toInt) (k : Nat) :
    WholeHolds fd content limit (∀ i, (script i).IsMoved)
      (tfReadfileAfter fd content limit script k) := by
  refine after_invariant
    (I := fun _ n => WholeHolds fd content limit (∀ i, (script i).IsMoved) n) ?_ ?_ ?_ k
  · have hstart : WholeWaits fd content limit (.opening content) := rfl
    exact hstart
  · intro k s _ h
    have hstep := tfReadfileTurn_holds hlimit hnonneg h (script k)
    cases hturn : tfReadfileTurn fd limit s (script k) with
    | again t =>
        rw [hturn] at hstep
        exact hstep
    | done r =>
        rw [hturn] at hstep
        exact WholeGives.imp (fun hall => hall k) hstep
  · exact fun _ _ _ h => h

/-- What is still to be done, one for each byte and for each call in front of the loop. -/
def WholeVars.toGo : WholeVars → Nat
  | .opening source => source.length + 2
  | .stating source => source.length + 1
  | .reading _ _ _ source => source.length
  | .stdin _ _ source => source.length

theorem readReturned_pos {a : Answer} {request available n : Nat}
    (h : readReturned a request available = .bytes n) : n ≤ available := by
  unfold readReturned at h
  split at h
  · cases a with
    | failed => cases h
    | interrupted => cases h
    | moved k =>
        cases h
        omega
  · cases h

/-- Every answer that does not end it brings bytes or leads to the loop. -/
theorem tfReadfileTurn_toGo {s t : WholeVars} {a : Answer}
    (h : tfReadfileTurn fd limit s a = .again t) : t.toGo < s.toGo := by
  cases s with
  | opening source =>
      simp only [tfReadfileTurn] at h
      split at h
      · split at h
        · split at h
          · cases h
          · cases h
            exact Nat.lt_add_of_pos_right (by decide)
        · cases h
          exact Nat.lt_succ_self _
      · cases h
  | stating source =>
      simp only [tfReadfileTurn] at h
      split at h
      · cases h
        exact Nat.lt_succ_self _
      · cases h
  -- the two loops read alike
  | reading left wp buf source | stdin left xstr source =>
      simp only [tfReadfileTurn] at h
      split at h
      · cases h
      · cases h
      · cases h
      · rename_i n hpos hret
        have hle := readReturned_pos hret
        split at h
        · cases h
        · cases h
          simp only [WholeVars.toGo, List.length_drop]
          have hne : n ≠ 0 := hpos
          omega

theorem tfReadfileAfter_done (fd : Nat) (content : Bytes) (limit : Int32) (script : Nat → Answer) :
    ∃ r, tfReadfileAfter fd content limit script (content.length + 3) = .done r := by
  refine Next.IsDone.exists_eq (ends_within (I := fun _ => True) (m := WholeVars.toGo)
    (fun _ _ => trivial) (fun s a t _ ht => ⟨trivial, tfReadfileTurn_toGo ht⟩) ?_)
  intro s hs
  cases hs
  exact Nat.lt_succ_self _

/-- A limit that keeps the size is the bound of the loops, and it is not negative. -/
theorem SizeKept.bound_eq (hlimit : 0 < limit) (h : SizeKept fd content.length limit) :
    bound fd content limit = wanted content limit ∧
      (fd ≠ 0 → 0 ≤ (fileLimit content.length limit).toInt) := by
  unfold SizeKept at h
  by_cases hfd : fd = 0
  · exact ⟨if_pos hfd, fun hne => absurd hfd hne⟩
  · rw [if_neg hfd] at h
    have hsame := (fileLimit_eq_wanted hlimit).mpr h
    rw [bound, if_neg hfd, hsame]
    exact ⟨rfl, fun _ => Int.natCast_nonneg _⟩

/-- What a run without failing calls ends with. -/
theorem gives_bound (hlimit : 0 < limit)
    (hnonneg : fd ≠ 0 → 0 ≤ (fileLimit content.length limit).toInt)
    (hmoved : ∀ i, (script i).IsMoved) {k : Nat} {r : Option (Option WholeDone)}
    (h : tfReadfileAfter fd content limit script k = .done r) :
    ∃ w, r = some (some w) ∧ w.sp.toInt = bound fd content limit ∧
      w.buf.Begins (content.take (bound fd content limit) ++ [0]) := by
  have hgives := @tfReadfileAfter_holds _ _ _ script hlimit hnonneg k
  rw [h] at hgives
  cases r with
  | none => exact absurd hgives id
  | some r =>
      cases r with
      | none => exact absurd hmoved hgives
      | some w =>
          obtain ⟨n, -, hsp, hbuf, hn⟩ := hgives
          obtain rfl := hn hmoved
          exact ⟨w, rfl, hsp, hbuf⟩

theorem readsLimited_of_sizeKept (hlimit : 0 < limit) (h : SizeKept fd content.length limit)
    (script : Nat → Answer) : ReadsLimited fd content limit script := by
  obtain ⟨hbound, hnonneg⟩ := h.bound_eq hlimit
  have hholds := @tfReadfileAfter_holds _ _ _ script hlimit hnonneg
  refine ⟨?_, ?_, ?_⟩
  · intro k s hs
    have hwaits := hholds k
    rw [hs] at hwaits
    cases s with
    | opening source => exact Nat.zero_le _
    | stating source => exact Nat.zero_le _
    | reading left wp buf source =>
        obtain ⟨hfd, rfl, hwp, -⟩ := hwaits
        rw [request_reading hfd hwp (hnonneg hfd), WholeVars.stored, ← hbound]
        omega
    | stdin left xstr source =>
        obtain ⟨rfl, n, hn, rfl, hx, -⟩ := hwaits
        have hlong : limit.toInt ≤ content.length := h
        have hint := limit.toInt_lt
        have hlen := hx.size_toNat
        rw [hbound, wanted] at hn
        rw [List.length_take] at hlen
        rw [request_stdin (by omega), WholeVars.stored, hlen, wanted]
        omega
  · intro k e he
    have hgives := hholds k
    rw [he] at hgives
    cases e with
    | none => exact absurd hgives id
    | some r =>
        refine ⟨r, rfl, ?_⟩
        rintro w rfl
        obtain ⟨n, hn, hsp, hbuf, -⟩ := hgives
        exact ⟨n, hbound ▸ hn, hsp, hbuf⟩
  · intro hmoved
    obtain ⟨r, hr⟩ := tfReadfileAfter_done fd content limit script
    obtain ⟨w, rfl, hsp, hbuf⟩ := gives_bound hlimit hnonneg hmoved hr
    rw [hbound] at hsp hbuf
    exact ⟨_, w, hr, hsp, hbuf⟩

/-- A run in which every call succeeds. -/
def allMoved : Nat → Answer := fun _ => .moved 0

/-- The first request of a file's loop is its limit, which must not be negative. -/
theorem nonneg_of_readsLimited (hfd : fd ≠ 0)
    (h : ReadsLimited fd content limit allMoved) :
    0 ≤ (fileLimit content.length limit).toInt := by
  have htwo : tfReadfileAfter fd content limit allMoved 2 = .again
      (.reading (fileLimit content.length limit) 0 (Region.fresh (content.length + 1)) content) := by
    have hone : tfReadfileAfter fd content limit allMoved 1 = .again (.stating content) := by
      rw [tfReadfileAfter, after_succ_of_again rfl]
      exact if_neg hfd
    rw [tfReadfileAfter, after_succ_of_again hone]
    rfl
  have hrequest := h.request 2 _ htwo
  have hshort := wanted_lt content limit
  have hlo := (fileLimit content.length limit).le_toInt
  simp only [WholeVars.stored, WholeVars.request] at hrequest
  omega

/-- The last request of the loop over descriptor 0 finds the end of the limit, not of the file. -/
theorem long_of_readsLimited (hlimit : 0 < limit) (h : ReadsLimited 0 content limit allMoved) :
    limit.toInt ≤ content.length := by
  obtain ⟨r, hr⟩ := tfReadfileAfter_done 0 content limit allMoved
  obtain ⟨j, s, hs, hlast⟩ := exists_last rfl hr
  have hwaits := @tfReadfileAfter_holds _ content _ allMoved hlimit
    (fun hne => absurd rfl hne) j
  have hsame : after (tfReadfileTurn 0 limit) (.again (.opening content)) allMoved j =
    tfReadfileAfter 0 content limit allMoved j := rfl
  rw [← hsame, hs] at hwaits
  have hrequest := h.request j s hs
  cases s with
  | opening source =>
      obtain ⟨xstr, hnew, -⟩ := TfStr.tfStrnew_holds
      have hturn : tfReadfileTurn 0 limit (.opening source) (allMoved j) =
          .again (.stdin (if 0 < limit then limit else 2147483647) xstr source) := by
        rw [tfReadfileTurn, if_pos (show (allMoved j).IsMoved from trivial), if_pos rfl, hnew]
      rw [hturn] at hlast
      cases hlast
  | stating source => exact absurd rfl hwaits.2
  | reading left wp buf source => exact absurd rfl hwaits.1
  | stdin left xstr source =>
      have hturn := stdin_holds hlimit hwaits (allMoved j)
      obtain ⟨-, n, hn, rfl, hx, rfl⟩ := hwaits
      have hint := limit.toInt_lt
      have hwant := request_stdin (m := limit.toInt.toNat - n) (by omega) xstr (content.drop n)
      have hlen := hx.size_toNat
      have hbound : bound 0 content limit = wanted content limit := if_pos rfl
      rw [hbound, wanted] at hn
      rw [List.length_take] at hlen
      rw [hwant, WholeVars.stored, hlen, wanted, ioBufSize] at hrequest
      by_contra hlong
      -- bytes are asked for and left, so this call is not the last
      obtain ⟨m, hm, -, -, hzero⟩ := returned_moved 0
        (min ioBufSize (limit.toInt.toNat - n)) (content.drop n).length
      have hret : readReturned (allMoved j) (min ioBufSize (limit.toInt.toNat - n))
          (content.drop n).length = .bytes m :=
        (readReturned_of_lt (by rw [ioBufSize]; omega)).trans hm
      rw [List.length_drop, ioBufSize] at hzero
      simp only [tfReadfileTurn, hwant, hret] at hturn hlast
      cases m with
      | zero =>
          have := hzero rfl
          omega
      | succ m =>
          cases hcat : xstr.tfStrcat (((content.drop n).take (m + 1)).map some)
              (.ofNat (m + 1)) with
          | none =>
              simp only [hcat] at hturn
              exact hturn
          | some x =>
              simp only [hcat] at hlast
              cases hlast

theorem sizeKept_of_readsLimited (hlimit : 0 < limit)
    (h : ReadsLimited fd content limit allMoved) : SizeKept fd content.length limit := by
  unfold SizeKept
  by_cases hfd : fd = 0
  · subst hfd
    exact long_of_readsLimited hlimit h
  · have hnonneg := nonneg_of_readsLimited hfd h
    obtain ⟨k, w, hk, hsp, -⟩ := h.whole fun _ => trivial
    obtain ⟨w', hw, hsp', -⟩ := @gives_bound _ _ _ allMoved hlimit (fun _ => hnonneg)
      (fun _ => trivial) _ _ hk
    cases hw
    rw [hsp', bound, if_neg hfd, Int.toNat_of_nonneg hnonneg] at hsp
    rw [if_neg hfd]
    exact (fileLimit_eq_wanted hlimit).mp hsp

end

/-- `tf_readfile` keeps to the wanted bytes and returns all of them, for every pattern of reads,
exactly when the size is kept. -/
theorem tfReadfile_limited_iff (fd : Nat) (content : Bytes) {limit : Int32} (hlimit : 0 < limit) :
    (∀ script, ReadsLimited fd content limit script) ↔ SizeKept fd content.length limit :=
  ⟨fun h => sizeKept_of_readsLimited hlimit (h allMoved), readsLimited_of_sizeKept hlimit⟩

/-- A short file. -/
theorem tfReadfile_limited_two : (0 : Int32) < 2 ∧
    ((∀ script, ReadsLimited 3 [65, 66, 67] 2 script) ↔ SizeKept 3 3 2) :=
  ⟨by decide, tfReadfile_limited_iff 3 [65, 66, 67] (by decide)⟩

/-- Of a file of 2^32 + 5 bytes no more than 5 are read. -/
theorem tfReadfile_large :
    ¬ ∀ script, ReadsLimited 3 (List.replicate (2 ^ 32 + 5) 65) 100 script := by
  intro h
  have hkept := sizeKept_of_readsLimited (by decide) (h allMoved)
  rw [List.length_replicate] at hkept
  exact absurd (hkept.resolve_left (by decide)) (by decide)

end Tflib.File
