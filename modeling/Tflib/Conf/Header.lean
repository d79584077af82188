import Tflib.Conf.ParseLine
import Tflib.Core.Trim

/-! # Section headers

`parse_line` takes a line for a header by its first bytes, and moves the name on
for every separator in it. That is compared with what a header is meant to be.
-/

namespace Tflib.Conf

open Tflib.Core Tflib.Util

/-! ## What a header is -/

/-- The text in front of the first `c`, or all of it. -/
def upTo (c : UInt8) (s : CString) : CString :=
  ⟨s.val.takeWhile (· ≠ c), fun h => s.2 ((List.takeWhile_prefix _).subset h)⟩

def skip (isSep : UInt8 → Bool) (s : CString) : CString :=
  ⟨s.val.dropWhile isSep, fun h => s.2 ((List.dropWhile_suffix isSep).subset h)⟩

def skipBack (isSep : UInt8 → Bool) (s : CString) : CString :=
  ⟨s.val.rdropWhile isSep, fun h => s.2 ((List.rdropWhile_prefix isSep _).subset h)⟩

/-- The word `group` with a separator behind it. -/
def isGroupHeader (ptr : CString) : Bool :=
  groupWord.isPrefixOf ptr.val && (ptr.drop 5).val.head?.any isGroupSep

/-- The name in a header, which may be empty; `none` is a line without a header. -/
def headerName (ptr : CString) : Option CString :=
  if ptr.val.head? = some '['.toUInt8 then
    some (skipBack isSpaceOrTab (skip isSpaceOrTab (upTo ']'.toUInt8 (ptr.drop 1))))
  else if isGroupHeader ptr then some (skipBack isSpaceOrTab (skip isGroupSep (ptr.drop 5)))
  else none

/-- A line without a header. -/
def ordinaryLine (ptr : CString) : Option KeyVal :=
  if ptr.val.head? = some '#'.toUInt8 ∨ ptr.val = [] then none else pairLine ptr

/-- A header is a section with its name, or nothing; another line is no section. -/
def ReadsHeader (line : CString) : Prop :=
  parseLine line = match headerName (tfStrtrim line) with
    | some name => sectionLine name
    | none => ordinaryLine (tfStrtrim line)

/-- A header that has its separators in front of the name. -/
def PlainHeader (ptr : CString) : Prop :=
  if ptr.val.head? = some '['.toUInt8 then
    ∀ c ∈ (upTo ']'.toUInt8 (ptr.drop 1)).val.dropWhile isSpaceOrTab, isSpaceOrTab c = false
  else if groupWord.isPrefixOf ptr.val then
    ptr.val = groupWord ∨
      (isGroupHeader ptr ∧ ∀ c ∈ (ptr.drop 5).val.dropWhile isGroupSep, isGroupSep c = false)
  else True

/-! ## Lines by their first bytes -/

theorem sectionLine_inj {s t : CString} : sectionLine s = sectionLine t ↔ s = t := by
  unfold sectionLine
  constructor
  · intro h
    split at h
    · split at h
      · rename_i hs ht
        exact Subtype.ext (hs.trans ht.symm)
      · cases h
    · split at h
      · cases h
      · cases h
        rfl
  · rintro rfl
    rfl

/-- A pair has a value. -/
theorem pairLine_ne_section (ptr name : CString) : pairLine ptr ≠ some ⟨name, none⟩ := by
  unfold pairLine
  split
  split
  · intro h
    cases h
  · intro h
    cases h

theorem groupWord_head {bs : Bytes} (h : groupWord.isPrefixOf bs = true) :
    bs.head? = some 'g'.toUInt8 := by
  obtain ⟨rest, rfl⟩ := List.isPrefixOf_iff_prefix.mp h
  rfl

theorem parseLine_group {line : CString} (h : groupWord.isPrefixOf (tfStrtrim line).val = true) :
    parseLine line = sectionLine (skipSeps ((tfStrtrim line).drop 5) isGroupSep) := by
  have hhead := groupWord_head h
  unfold parseLine
  simp only
  rw [if_neg, if_pos h]
  rintro (hnum | hnil)
  · rw [hhead] at hnum
    exact absurd hnum (by decide)
  · rw [hnil] at hhead
    cases hhead

theorem parseLine_bracket {line : CString} (h : (tfStrtrim line).val.head? = some '['.toUInt8) :
    parseLine line =
      sectionLine (skipSeps (upTo ']'.toUInt8 ((tfStrtrim line).drop 1)) isSpaceOrTab) := by
  have hgroup : ¬ groupWord.isPrefixOf (tfStrtrim line).val = true := by
    intro hgroup
    rw [groupWord_head hgroup] at h
    exact absurd h (by decide)
  have hplain : ¬ ((tfStrtrim line).val.head? = some '#'.toUInt8 ∨ (tfStrtrim line).val = []) := by
    rintro (hnum | hnil)
    · rw [h] at hnum
      exact absurd hnum (by decide)
    · rw [hnil] at h
      cases h
  have hinner : ∀ s : CString, s.take (s.val.findIdx (· = ']'.toUInt8)) = upTo ']'.toUInt8 s := by
    intro s
    apply Subtype.ext
    change s.val.take _ = s.val.takeWhile _
    rw [List.takeWhile_eq_take_findIdx_not]
    simp
  unfold parseLine
  simp only
  rw [if_neg hplain, if_neg hgroup, if_pos h, hinner]

theorem parseLine_ordinary {line : CString} (hgroup : groupWord.isPrefixOf (tfStrtrim line).val = false)
    (hbracket : (tfStrtrim line).val.head? ≠ some '['.toUInt8) :
    parseLine line = ordinaryLine (tfStrtrim line) := by
  unfold parseLine ordinaryLine
  simp only [hgroup, hbracket, if_false, Bool.false_eq_true]

/-! ## The difference -/

/-- Moving on by the number of separators finds the name where none stands behind the first ones. -/
theorem skipSeps_eq_iff (s : CString) (isSep : UInt8 → Bool) :
    skipSeps s isSep = skipBack isSep (skip isSep s) ↔
      ∀ c ∈ s.val.dropWhile isSep, isSep c = false := by
  rw [Subtype.ext_iff]
  exact drop_countP_eq_trim_iff isSep s.val

theorem isBlank_of_isSpaceOrTab {c : UInt8} (h : isSpaceOrTab c = true) : isBlank c = true := by
  rw [isSpaceOrTab, Bool.or_eq_true, decide_eq_true_iff, decide_eq_true_iff] at h
  rcases h with rfl | rfl <;> decide

/-- The end of a trimmed line has been cut already. -/
theorem skipBack_rest {line : CString} {front rest : Bytes} (h : (tfStrtrim line).val = front ++ rest) :
    rest.rdropWhile isSpaceOrTab = rest := by
  apply rdropWhile_of_last
  intro c hc
  have hlast : isBlank c = false := by
    refine trim_last (p := isBlank) line.val c ?_
    change (tfStrtrim line).val.getLast? = some c
    rw [h, List.getLast?_append, Option.mem_def.mp hc]
    rfl
  rw [← Bool.not_eq_true]
  intro hsep
  rw [isBlank_of_isSpaceOrTab hsep] at hlast
  cases hlast

theorem drop_groupWord {line : CString} (h : groupWord.isPrefixOf line.val = true) :
    groupWord ++ (line.drop 5).val = line.val := by
  obtain ⟨rest, hrest⟩ := List.isPrefixOf_iff_prefix.mp h
  change groupWord ++ line.val.drop 5 = _
  rw [← hrest]
  rfl

/-- Behind the word `group` the same holds of its separators. -/
theorem skipSeps_group_iff {line : CString} (h : groupWord.isPrefixOf (tfStrtrim line).val = true) :
    skipSeps ((tfStrtrim line).drop 5) isGroupSep =
        skipBack isSpaceOrTab (skip isGroupSep ((tfStrtrim line).drop 5)) ↔
      ∀ c ∈ ((tfStrtrim line).drop 5).val.dropWhile isGroupSep, isGroupSep c = false := by
  have hrest := drop_groupWord h
  rw [Subtype.ext_iff]
  change ((tfStrtrim line).drop 5).val.drop _ =
    (((tfStrtrim line).drop 5).val.dropWhile isGroupSep).rdropWhile isSpaceOrTab ↔ _
  generalize ((tfStrtrim line).drop 5).val = rest at hrest ⊢
  have hend : (rest.dropWhile isGroupSep).rdropWhile isSpaceOrTab = rest.dropWhile isGroupSep := by
    refine @skipBack_rest line (groupWord ++ rest.takeWhile isGroupSep) _ ?_
    rw [List.append_assoc, List.takeWhile_append_dropWhile, hrest]
  rw [hend]
  exact drop_countP_eq_dropWhile_iff isGroupSep rest

/-- Something is left of a text that begins with another byte than a separator. -/
theorem skipSeps_ne_nil {s : CString} {isSep : UInt8 → Bool} {c : UInt8}
    (hc : c ∈ s.val) (hplain : isSep c = false) : (skipSeps s isSep).val ≠ [] := by
  have hlen := length_drop_countP isSep s.val
  have hpos : 0 < s.val.countP fun x => !isSep x := List.countP_pos_iff.mpr ⟨c, hc, by rw [hplain]; rfl⟩
  intro hnil
  change s.val.drop _ = [] at hnil
  rw [hnil] at hlen
  exact absurd hlen (Nat.ne_of_lt hpos)

/-- Without a separator behind the word, the line is taken for a section and is none. -/
theorem readsHeader_of_key {line : CString} (h : groupWord.isPrefixOf (tfStrtrim line).val = true)
    (hkey : isGroupHeader (tfStrtrim line) = false)
    (hbracket : (tfStrtrim line).val.head? ≠ some '['.toUInt8) :
    ReadsHeader line ↔ (tfStrtrim line).val = groupWord := by
  have hread : ReadsHeader line ↔
      sectionLine (skipSeps ((tfStrtrim line).drop 5) isGroupSep) = ordinaryLine (tfStrtrim line) := by
    rw [ReadsHeader, parseLine_group h, headerName, if_neg hbracket, hkey]
    rfl
  rw [hread]
  constructor
  · intro hsame
    have hrest := drop_groupWord h
    cases hdrop : ((tfStrtrim line).drop 5).val with
    | nil => rw [← hrest, hdrop, List.append_nil]
    | cons c rest =>
        have hplain : isGroupSep c = false := by
          rw [isGroupHeader, h, hdrop] at hkey
          simpa using hkey
        have hleft : (skipSeps ((tfStrtrim line).drop 5) isGroupSep).val ≠ [] :=
          skipSeps_ne_nil (hdrop ▸ List.mem_cons_self) hplain
        rw [sectionLine, if_neg hleft, ordinaryLine] at hsame
        split at hsame
        · cases hsame
        · exact absurd hsame.symm (pairLine_ne_section _ _)
  · intro hword
    have hline : tfStrtrim line = ⟨groupWord, by decide⟩ := Subtype.ext hword
    rw [hline]
    decide

/-- A line is read as it is meant if the separators of its header stand in front of the name. -/
theorem readsHeader_iff (line : CString) : ReadsHeader line ↔ PlainHeader (tfStrtrim line) := by
  unfold PlainHeader
  by_cases hbracket : (tfStrtrim line).val.head? = some '['.toUInt8
  · rw [if_pos hbracket, ReadsHeader, parseLine_bracket hbracket, headerName, if_pos hbracket]
    exact sectionLine_inj.trans (skipSeps_eq_iff _ isSpaceOrTab)
  · rw [if_neg hbracket]
    by_cases hgroup : groupWord.isPrefixOf (tfStrtrim line).val = true
    · rw [if_pos hgroup]
      cases hheader : isGroupHeader (tfStrtrim line) with
      | true =>
          have hne : (tfStrtrim line).val ≠ groupWord := by
            intro hword
            have hline : tfStrtrim line = ⟨groupWord, by decide⟩ := Subtype.ext hword
            rw [hline] at hheader
            exact absurd hheader (by decide)
          have hread : ReadsHeader line ↔ sectionLine (skipSeps ((tfStrtrim line).drop 5) isGroupSep) =
              sectionLine (skipBack isSpaceOrTab (skip isGroupSep ((tfStrtrim line).drop 5))) := by
            rw [ReadsHeader, parseLine_group hgroup, headerName, if_neg hbracket, if_pos hheader]
          rw [hread, sectionLine_inj, skipSeps_group_iff hgroup]
          exact ⟨fun hplain => .inr ⟨rfl, hplain⟩, fun h => (h.resolve_left hne).2⟩
      | false =>
          rw [readsHeader_of_key hgroup hheader hbracket]
          exact ⟨.inl, fun h => h.resolve_right fun hboth => absurd hboth.1 Bool.false_ne_true⟩
    · have hplain : groupWord.isPrefixOf (tfStrtrim line).val = false := Bool.eq_false_iff.mpr hgroup
      rw [if_neg hgroup, ReadsHeader, parseLine_ordinary hplain hbracket, headerName, if_neg hbracket,
        isGroupHeader, hplain]
      exact ⟨fun _ => trivial, fun _ => rfl⟩

/-- `[main server]` -/
def spacedHeader : CString := ⟨"[main server]".toList.map Char.toUInt8, by decide⟩

/-- The blank inside the name costs its first letter. -/
theorem spacedHeader_misread : ¬ ReadsHeader spacedHeader := by
  unfold ReadsHeader
  decide

end Tflib.Conf
