import Tflib.Conf.Header

/-! # Pairs

The loop of `parse_line` over a key and a value finds the first run of separators
that has something behind it.
-/

namespace Tflib.Conf

open Tflib.Core Tflib.Util

/-! ## What a pair is -/

def isKeyByte (c : UInt8) : Bool := !isPairSep c

def keyPart (s : CString) : CString :=
  ⟨s.val.takeWhile isKeyByte, fun h => s.2 ((List.takeWhile_prefix isKeyByte).subset h)⟩

/-- What stands behind the separators that follow the key. -/
def valuePart (s : CString) : CString := skip isPairSep (skip isKeyByte s)

theorem valuePart_eq_nil_iff {s : CString} :
    (valuePart s).val = [] ↔ ∀ c ∈ s.val.dropWhile isKeyByte, isPairSep c = true :=
  List.dropWhile_eq_nil_iff

def splitPair (s : CString) : Option KeyVal :=
  if (valuePart s).val = [] then none else some ⟨keyPart s, some (valuePart s)⟩

/-! ## The loop -/

theorem scanPair_end {rest : Bytes} (h : ∀ c ∈ rest.head?, c = '#'.toUInt8) (ii : Nat) (s : PairScan) :
    scanPair rest ii s = (s, ii) := by
  cases rest with
  | nil => rfl
  | cons c rest => exact if_pos (h c rfl)

/-- In front of the first separator. -/
theorem scanPair_key {key : Bytes} (hplain : ∀ c ∈ key, isPairSep c = false ∧ c ≠ '#'.toUInt8)
    (rest : Bytes) (ii kk : Nat) :
    scanPair (key ++ rest) ii ⟨none, kk, none⟩ = scanPair rest (ii + key.length) ⟨none, kk, none⟩ := by
  induction key generalizing ii with
  | nil => rfl
  | cons c key ih =>
      obtain ⟨hsep, hnum⟩ := hplain c List.mem_cons_self
      have hstep : scanPair (c :: key ++ rest) ii ⟨none, kk, none⟩ =
          scanPair (key ++ rest) (ii + 1) ⟨none, kk, none⟩ := by
        rw [List.cons_append, scanPair, if_neg hnum, hsep]
        rfl
      rw [hstep, ih (fun d hd => hplain d (List.mem_cons_of_mem c hd)), List.length_cons,
        Nat.add_right_comm, Nat.add_assoc]

/-- Between the key and the value: `kk` keeps up with the index. -/
theorem scanPair_seps {seps : Bytes} (hseps : ∀ c ∈ seps, isPairSep c = true) (rest : Bytes)
    (ii keyEnd : Nat) :
    scanPair (seps ++ rest) ii ⟨some keyEnd, ii, none⟩ =
      scanPair rest (ii + seps.length) ⟨some keyEnd, ii + seps.length, none⟩ := by
  induction seps generalizing ii with
  | nil => rfl
  | cons c seps ih =>
      have hsep := hseps c List.mem_cons_self
      have hnum : c ≠ '#'.toUInt8 := by
        rintro rfl
        exact absurd hsep (by decide)
      have hstep : scanPair (c :: seps ++ rest) ii ⟨some keyEnd, ii, none⟩ =
          scanPair (seps ++ rest) (ii + 1) ⟨some keyEnd, ii + 1, none⟩ := by
        rw [List.cons_append, scanPair, if_neg hnum, if_pos hsep]
        rfl
      rw [hstep, ih (fun d hd => hseps d (List.mem_cons_of_mem c hd)), List.length_cons,
        Nat.add_assoc, Nat.add_comm 1]

/-- In the value nothing changes any more. -/
theorem scanPair_value {value : Bytes} (hnum : '#'.toUInt8 ∉ value) (rest : Bytes)
    (ii keyEnd kk start : Nat) :
    scanPair (value ++ rest) ii ⟨some keyEnd, kk, some start⟩ =
      scanPair rest (ii + value.length) ⟨some keyEnd, kk, some start⟩ := by
  induction value generalizing ii with
  | nil => rfl
  | cons c value ih =>
      have hc : c ≠ '#'.toUInt8 := (List.ne_of_not_mem_cons hnum).symm
      have hstep : scanPair (c :: value ++ rest) ii ⟨some keyEnd, kk, some start⟩ =
          scanPair (value ++ rest) (ii + 1) ⟨some keyEnd, kk, some start⟩ := by
        rw [List.cons_append, scanPair, if_neg hc]
        split <;> rfl
      rw [hstep, ih (List.not_mem_of_not_mem_cons hnum), List.length_cons,
        Nat.add_assoc, Nat.add_comm 1]

/-- The loop up to the end of the text or a `#`. -/
theorem scanPair_text {key seps value rest : Bytes}
    (hkey : ∀ c ∈ key, isPairSep c = false ∧ c ≠ '#'.toUInt8) (hseps : ∀ c ∈ seps, isPairSep c = true)
    (hhead : ∀ c ∈ value.head?, isPairSep c = false) (hnum : '#'.toUInt8 ∉ value)
    (hgap : seps = [] → value = []) (hend : ∀ c ∈ rest.head?, c = '#'.toUInt8) :
    scanPair (key ++ (seps ++ (value ++ rest))) 0 ⟨none, 0, none⟩ =
      (if seps = [] then ⟨none, 0, none⟩
        else ⟨some key.length, key.length + seps.length,
          if value = [] then none else some (key.length + seps.length)⟩,
        key.length + seps.length + value.length) := by
  rw [scanPair_key hkey, Nat.zero_add]
  cases seps with
  | nil =>
      rw [hgap rfl]
      exact scanPair_end hend _ _
  | cons c seps =>
      have hsep := hseps c List.mem_cons_self
      have hc : c ≠ '#'.toUInt8 := by
        rintro rfl
        exact absurd hsep (by decide)
      have hfirst : scanPair (c :: seps ++ (value ++ rest)) key.length ⟨none, 0, none⟩ =
          scanPair (seps ++ (value ++ rest)) (key.length + 1) ⟨some key.length, key.length + 1, none⟩ := by
        rw [List.cons_append, scanPair, if_neg hc, if_pos hsep]
        rfl
      have hlen : key.length + 1 + seps.length = key.length + (c :: seps).length := by
        rw [List.length_cons]
        omega
      rw [hfirst, scanPair_seps (fun d hd => hseps d (List.mem_cons_of_mem c hd)), hlen,
        if_neg (List.cons_ne_nil c seps)]
      cases value with
      | nil => exact scanPair_end hend _ _
      | cons d value =>
          have hd : d ≠ '#'.toUInt8 := (List.ne_of_not_mem_cons hnum).symm
          have hplain : isPairSep d = false := hhead d rfl
          have hstep : ∀ ii, scanPair (d :: value ++ rest) ii ⟨some key.length, ii, none⟩ =
              scanPair (value ++ rest) (ii + 1) ⟨some key.length, ii, some ii⟩ := by
            intro ii
            rw [List.cons_append, scanPair, if_neg hd, hplain]
            rfl
          rw [hstep, scanPair_value (List.not_mem_of_not_mem_cons hnum), scanPair_end hend,
            if_neg (List.cons_ne_nil d value)]
          congr 1
          simp only [List.length_cons]
          omega

/-- A text that ends or comes to a `#` is split at its first run of separators. -/
theorem pairLine_eq {ptr text : CString} {rest : Bytes} (hptr : ptr.val = text.val ++ rest)
    (hnum : '#'.toUInt8 ∉ text.val) (hend : ∀ c ∈ rest.head?, c = '#'.toUInt8) :
    pairLine ptr = splitPair text := by
  have hkeys : ∀ c, isKeyByte c = true ↔ isPairSep c = false := fun c => by
    rw [isKeyByte, Bool.not_eq_true']
  have hkeyText : text.val.takeWhile isKeyByte ++ text.val.dropWhile isKeyByte = text.val :=
    List.takeWhile_append_dropWhile
  have hrest : (text.val.dropWhile isKeyByte).takeWhile isPairSep ++ (valuePart text).val =
      text.val.dropWhile isKeyByte := List.takeWhile_append_dropWhile
  have hkey : ∀ c ∈ text.val.takeWhile isKeyByte, isPairSep c = false ∧ c ≠ '#'.toUInt8 := by
    intro c hc
    refine ⟨(hkeys c).mp (List.mem_takeWhile_imp hc), ?_⟩
    rintro rfl
    exact hnum ((List.takeWhile_prefix _).subset hc)
  have hseps : ∀ c ∈ (text.val.dropWhile isKeyByte).takeWhile isPairSep, isPairSep c = true :=
    fun c hc => List.mem_takeWhile_imp hc
  have hhead : ∀ c ∈ (valuePart text).val.head?, isPairSep c = false := head_dropWhile _
  have hvalue : '#'.toUInt8 ∉ (valuePart text).val := fun h =>
    hnum ((List.dropWhile_suffix _).subset ((List.dropWhile_suffix _).subset h))
  have hgap : (text.val.dropWhile isKeyByte).takeWhile isPairSep = [] → (valuePart text).val = [] := by
    intro hnil
    rw [hnil, List.nil_append] at hrest
    rw [← List.head?_eq_none_iff]
    by_contra hsome
    obtain ⟨c, hc⟩ := Option.ne_none_iff_exists'.mp hsome
    have hstop := head_dropWhile (p := isKeyByte) text.val c (by rw [← hrest]; exact hc)
    rw [isKeyByte, hhead c hc] at hstop
    cases hstop
  have hscan := scanPair_text hkey hseps hhead hvalue hgap hend
  have hkeyPart : (keyPart text).val = text.val.takeWhile isKeyByte := rfl
  rw [← hkeyText, ← hrest, ← hkeyPart, List.append_assoc, List.append_assoc] at hptr
  rw [← hkeyPart, ← hptr] at hscan
  rw [splitPair, pairLine, hscan]
  generalize (text.val.dropWhile isKeyByte).takeWhile isPairSep = seps at *
  by_cases hnone : (valuePart text).val = []
  · rw [if_pos hnone, if_pos hnone]
    by_cases hshort : seps = []
    · rw [if_pos hshort]
    · rw [if_neg hshort]
  · rw [if_neg hnone, if_neg hnone, if_neg fun hshort => hnone (hgap hshort)]
    have hfront : ptr.take (keyPart text).val.length = keyPart text := by
      apply Subtype.ext
      change ptr.val.take _ = _
      rw [hptr, List.take_left]
    have hbehind : (ptr.take ((keyPart text).val.length + seps.length + (valuePart text).val.length)).drop
        ((keyPart text).val.length + seps.length) = valuePart text := by
      apply Subtype.ext
      change (ptr.val.take _).drop _ = _
      rw [List.drop_take, Nat.add_sub_cancel_left, hptr, ← List.append_assoc, ← List.length_append,
        List.drop_left, List.take_left]
    exact congrArg some (congrArg₂ KeyVal.mk hfront (congrArg some hbehind))

/-! ## Lines with a pair -/

/-- A key that cannot be taken for anything else. -/
structure IsKey (key : Bytes) : Prop where
  ne : key ≠ []
  plain : ∀ c ∈ key, isPairSep c = false ∧ c ≠ '#'.toUInt8
  first : ∀ c ∈ key.head?, isBlank c = false ∧ c ≠ '['.toUInt8
  noGroup : ¬ groupWord <+: key

structure IsValue (value : Bytes) : Prop where
  ne : value ≠ []
  plain : '#'.toUInt8 ∉ value
  first : ∀ c ∈ value.head?, isPairSep c = false ∧ isBlank c = false
  last : ∀ c ∈ value.getLast?, isBlank c = false

theorem parseLine_text {line text : CString} {rest : Bytes}
    (htrim : (tfStrtrim line).val = text.val ++ rest) (hne : text.val ≠ [])
    (hnum : '#'.toUInt8 ∉ text.val) (hbracket : text.val.head? ≠ some '['.toUInt8)
    (hgroup : ¬ groupWord <+: (tfStrtrim line).val) (hend : ∀ c ∈ rest.head?, c = '#'.toUInt8) :
    parseLine line = splitPair text := by
  obtain ⟨c, text', htext⟩ := List.exists_cons_of_ne_nil hne
  have hhead : (tfStrtrim line).val.head? = some c := by
    rw [htrim, htext]
    rfl
  rw [htext] at hbracket
  rw [parseLine_ordinary, ordinaryLine, if_neg, pairLine_eq htrim hnum hend]
  · rintro (hsome | hnil)
    · rw [hhead] at hsome
      cases hsome
      exact hnum (htext ▸ List.mem_cons_self)
    · rw [hnil] at hhead
      cases hhead
  · rw [Bool.eq_false_iff]
    exact fun h => hgroup (List.isPrefixOf_iff_prefix.mp h)
  · rw [hhead]
    exact hbracket

/-- The separators have nothing behind them. -/
theorem splitPair_none {text : CString} {key seps : Bytes} (htext : text.val <+: key ++ seps)
    (hkey : ∀ c ∈ key, isPairSep c = false) (hseps : ∀ c ∈ seps, isPairSep c = true) :
    splitPair text = none := by
  have hkeys : ∀ c ∈ key, isKeyByte c = true := fun c hc => by rw [isKeyByte, hkey c hc]; rfl
  refine if_pos (valuePart_eq_nil_iff.mpr ?_)
  rcases List.prefix_or_prefix_of_prefix htext (List.prefix_append key seps) with hin | ⟨rest, hrest⟩
  · rw [List.dropWhile_eq_nil_iff.mpr fun c hc => hkeys c (hin.subset hc)]
    exact fun c hc => absurd hc List.not_mem_nil
  · rw [← hrest] at htext ⊢
    have hin : rest <+: seps := (List.prefix_append_right_inj key).mp htext
    rw [dropWhile_append_front hkeys]
    exact fun c hc => hseps c (hin.subset ((List.dropWhile_suffix _).subset hc))

theorem splitPair_some {text key value : CString} {seps : Bytes}
    (htext : text.val = key.val ++ (seps ++ value.val)) (hkey : ∀ c ∈ key.val, isPairSep c = false)
    (hne : seps ≠ []) (hseps : ∀ c ∈ seps, isPairSep c = true) (hvalue : value.val ≠ [])
    (hhead : ∀ c ∈ value.val.head?, isPairSep c = false) :
    splitPair text = some ⟨key, some value⟩ := by
  obtain ⟨c, seps', rfl⟩ := List.exists_cons_of_ne_nil hne
  have hkeys : ∀ d ∈ key.val, isKeyByte d = true := fun d hd => by rw [isKeyByte, hkey d hd]; rfl
  have hc : isKeyByte c = false := by rw [isKeyByte, hseps c List.mem_cons_self]; rfl
  have hfront : keyPart text = key := by
    apply Subtype.ext
    change text.val.takeWhile isKeyByte = key.val
    rw [htext, List.takeWhile_append_of_pos hkeys, List.cons_append,
      List.takeWhile_cons_of_neg (Bool.not_eq_true _ ▸ hc), List.append_nil]
  have hbehind : valuePart text = value := by
    apply Subtype.ext
    change (text.val.dropWhile isKeyByte).dropWhile isPairSep = value.val
    rw [htext, dropWhile_append_front hkeys, List.cons_append,
      List.dropWhile_cons_of_neg (Bool.not_eq_true _ ▸ hc), ← List.cons_append,
      dropWhile_append_front hseps, dropWhile_of_head hhead]
  rw [splitPair, hfront, hbehind, if_neg hvalue]

theorem not_mem_groupWord {c : UInt8} (h : isPairSep c = true) : c ∉ groupWord := by
  intro hmem
  have hletters : groupWord.all isKeyByte = true := by decide
  have hkey := List.all_eq_true.mp hletters c hmem
  rw [isKeyByte, h] at hkey
  cases hkey

theorem head_key {key front rest : Bytes} (hne : front ≠ []) (hfront : front <+: key ++ rest)
    (hkey : key ≠ []) : front.head? = key.head? := by
  obtain ⟨behind, hwhole⟩ := hfront
  obtain ⟨c, front', rfl⟩ := List.exists_cons_of_ne_nil hne
  obtain ⟨d, key', rfl⟩ := List.exists_cons_of_ne_nil hkey
  rw [List.cons_append, List.cons_append, List.cons.injEq] at hwhole
  rw [List.head?_cons, List.head?_cons, hwhole.1]

section Line

variable {key value line : CString} {lead seps trail : Bytes}

theorem IsKey.noHash (hkey : IsKey key.val) (hseps : ∀ c ∈ seps, isPairSep c = true) :
    '#'.toUInt8 ∉ key.val ++ seps := by
  rw [List.mem_append, not_or]
  exact ⟨fun h => (hkey.plain _ h).2 rfl, fun h => absurd (hseps _ h) (by decide)⟩

theorem IsKey.noGroup_append (hkey : IsKey key.val) {ys : Bytes}
    (hys : ∀ c ∈ ys.head?, isPairSep c = true) : ¬ groupWord <+: key.val ++ ys :=
  fun h => hkey.noGroup (prefix_of_append h fun c hc => not_mem_groupWord (hys c hc))

theorem parseLine_value (hkey : IsKey key.val) (hvalue : IsValue value.val)
    (hlead : ∀ c ∈ lead, isBlank c = true) (htrail : ∀ c ∈ trail, isBlank c = true)
    (hseps : ∀ c ∈ seps, isPairSep c = true) (hne : seps ≠ [])
    (hline : line.val = lead ++ (key.val ++ (seps ++ (value.val ++ trail)))) :
    parseLine line = some ⟨key, some value⟩ := by
  have htrim : (tfStrtrim line).val = key.val ++ (seps ++ value.val) := by
    change trim isBlank line.val = _
    rw [hline, ← List.append_assoc seps, ← List.append_assoc key.val]
    refine trim_append hlead htrail (fun c hc => ?_) fun c hc => ?_
    · rw [Option.mem_def, List.head?_append_of_ne_nil _ hkey.ne] at hc
      exact (hkey.first c hc).1
    · rw [← List.append_assoc, Option.mem_def, List.getLast?_append_of_ne_nil _ hvalue.ne] at hc
      exact hvalue.last c hc
  rw [@parseLine_text line (tfStrtrim line) [] (List.append_nil _).symm]
  · exact splitPair_some htrim (fun c hc => (hkey.plain c hc).1) hne hseps hvalue.ne
      fun c hc => (hvalue.first c hc).1
  · rw [htrim]
    exact List.append_ne_nil_of_left_ne_nil hkey.ne _
  · rw [htrim, ← List.append_assoc, List.mem_append, not_or]
    exact ⟨hkey.noHash hseps, hvalue.plain⟩
  · rw [htrim, List.head?_append_of_ne_nil _ hkey.ne]
    exact fun h => (hkey.first _ h).2 rfl
  · rw [htrim]
    refine hkey.noGroup_append fun c hc => ?_
    rw [Option.mem_def, List.head?_append_of_ne_nil _ hne] at hc
    exact hseps c (List.mem_of_head? hc)
  · exact fun c hc => nomatch hc

theorem parseLine_key (hkey : IsKey key.val) (hlead : ∀ c ∈ lead, isBlank c = true)
    (htrail : ∀ c ∈ trail, isBlank c = true) (hseps : ∀ c ∈ seps, isPairSep c = true)
    (hline : line.val = lead ++ (key.val ++ (seps ++ trail))) : parseLine line = none := by
  -- blanks among the separators are trimmed with those behind them
  have hsplit := List.rdropWhile_append_rtakeWhile (p := isBlank) (l := key.val ++ seps)
  have hback : ∀ c ∈ (key.val ++ seps).rtakeWhile isBlank ++ trail, isBlank c = true := by
    intro c hc
    rcases List.mem_append.mp hc with hc | hc
    · exact List.mem_rtakeWhile_imp hc
    · exact htrail c hc
  have hfront : (key.val ++ seps).rdropWhile isBlank <+: key.val ++ seps :=
    List.rdropWhile_prefix isBlank _
  have hne : (key.val ++ seps).rdropWhile isBlank ≠ [] := by
    intro hnil
    rw [List.rdropWhile_eq_nil_iff] at hnil
    obtain ⟨c, rest, hc⟩ := List.exists_cons_of_ne_nil hkey.ne
    have hblank := hnil c (List.mem_append_left seps (hc ▸ List.mem_cons_self))
    rw [(hkey.first c (by rw [hc]; rfl)).1] at hblank
    cases hblank
  have hhead := head_key hne hfront hkey.ne
  have htrim : (tfStrtrim line).val = (key.val ++ seps).rdropWhile isBlank := by
    change trim isBlank line.val = _
    rw [hline, ← List.append_assoc key.val, ← hsplit, List.append_assoc _ _ trail, hsplit]
    exact trim_append hlead hback (fun c hc => (hkey.first c (hhead ▸ hc)).1) (last_rdropWhile _)
  rw [@parseLine_text line (tfStrtrim line) [] (List.append_nil _).symm]
  · exact splitPair_none (htrim ▸ hfront) (fun c hc => (hkey.plain c hc).1) hseps
  · rwa [htrim]
  · rw [htrim]
    exact fun h => hkey.noHash hseps (hfront.subset h)
  · rw [htrim, hhead]
    exact fun h => (hkey.first _ h).2 rfl
  · rw [htrim]
    exact fun h => hkey.noGroup_append (fun c hc => hseps c (List.mem_of_head? hc)) (h.trans hfront)
  · exact fun c hc => nomatch hc

end Line

/-- A key and a value are read as they stand, and a key without a value is not read. -/
theorem parseLine_pair {key value line : CString} {lead seps trail : Bytes} (hkey : IsKey key.val)
    (hlead : ∀ c ∈ lead, isBlank c = true) (htrail : ∀ c ∈ trail, isBlank c = true)
    (hseps : ∀ c ∈ seps, isPairSep c = true) :
    (IsValue value.val → seps ≠ [] →
      line.val = lead ++ (key.val ++ (seps ++ (value.val ++ trail))) →
      parseLine line = some ⟨key, some value⟩) ∧
    (line.val = lead ++ (key.val ++ (seps ++ trail)) → parseLine line = none) :=
  ⟨fun hvalue hne hline => parseLine_value hkey hvalue hlead htrail hseps hne hline,
    fun hline => parseLine_key hkey hlead htrail hseps hline⟩

/-- `port = 80:81` with a blank in front and a carriage return behind, and its key alone. -/
theorem parseLine_pair_port :
    parseLine ⟨" port = 80:81\r".toList.map Char.toUInt8, by decide⟩ =
      some ⟨⟨"port".toList.map Char.toUInt8, by decide⟩,
        some ⟨"80:81".toList.map Char.toUInt8, by decide⟩⟩ ∧
    parseLine ⟨" port \r".toList.map Char.toUInt8, by decide⟩ = none := by
  have hkey : IsKey ("port".toList.map Char.toUInt8) := by
    refine ⟨by decide, forall_mem_of_all (by decide), ?_, by decide⟩
    intro c hc
    cases hc
    decide
  have hvalue : IsValue ("80:81".toList.map Char.toUInt8) := by
    refine ⟨by decide, by decide, ?_, ?_⟩
    · intro c hc
      cases hc
      decide
    · intro c hc
      cases hc
      decide
  have hspace : ∀ c ∈ [(32 : UInt8)], isBlank c = true := forall_mem_of_all (by decide)
  have hreturn : ∀ c ∈ [(13 : UInt8)], isBlank c = true := forall_mem_of_all (by decide)
  constructor
  · exact (@parseLine_pair ⟨"port".toList.map Char.toUInt8, by decide⟩
      ⟨"80:81".toList.map Char.toUInt8, by decide⟩ _ [32] [32, 61, 32] [13] hkey hspace hreturn
      (forall_mem_of_all (by decide))).1 hvalue (by decide) (by decide)
  · exact (@parseLine_pair ⟨"port".toList.map Char.toUInt8, by decide⟩ ⟨[], by decide⟩ _ [32] [32] [13]
      hkey hspace hreturn (forall_mem_of_all (by decide))).2 (by decide)

end Tflib.Conf
