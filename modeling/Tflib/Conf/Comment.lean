import Tflib.Conf.Pair

/-! # Comments behind a line

`parse_line` trims a line before it looks for a `#`, and looks for one only in a
pair. A comment changes what most lines mean.
-/

namespace Tflib.Conf

open Tflib.Core Tflib.Util

def withComment (line comment : CString) : CString :=
  ⟨line.val ++ '#'.toUInt8 :: comment.val, fun h => by
    rcases List.mem_append.mp h with hline | hcomment
    · exact line.2 hline
    · rcases List.mem_cons.mp hcomment with hnum | hcomment
      · exact absurd hnum (by decide)
      · exact comment.2 hcomment⟩

/-- The line without the blanks in front. -/
def lineBody (line : CString) : CString := skip isBlank line

/-- A comment does no harm to an empty line, to a section in closed brackets, and to a pair without
blanks at its end; nor to a line with nothing but separators from the first one on. -/
def Unharmed (line : CString) : Prop :=
  (tfStrtrim line).val = [] ∨
    (¬ groupWord <+: (tfStrtrim line).val ∧
      if (tfStrtrim line).val.head? = some '['.toUInt8 then ']'.toUInt8 ∈ (tfStrtrim line).val
      else tfStrtrim line = lineBody line ∨
        ∀ c ∈ (lineBody line).val.dropWhile isKeyByte, isPairSep c = true)

/-! ## The line with the comment -/

/-- The blanks in front of the comment are not cut. -/
theorem trim_withComment (line comment : CString) :
    (tfStrtrim (withComment line comment)).val =
      (lineBody line).val ++ '#'.toUInt8 :: comment.val.rdropWhile isBlank := by
  have hwhole : (withComment line comment).val = line.val.takeWhile isBlank ++
      (((lineBody line).val ++ '#'.toUInt8 :: comment.val.rdropWhile isBlank) ++
        comment.val.rtakeWhile isBlank) := by
    change line.val ++ '#'.toUInt8 :: comment.val = _
    rw [List.append_assoc, List.cons_append, List.rdropWhile_append_rtakeWhile, ← List.append_assoc]
    congr 1
    exact (List.takeWhile_append_dropWhile (p := isBlank)).symm
  change trim isBlank (withComment line comment).val = _
  rw [hwhole]
  refine trim_append (fun c hc => List.mem_takeWhile_imp hc) (fun c hc => List.mem_rtakeWhile_imp hc) ?_ ?_
  · intro c hc
    cases hbody : (lineBody line).val with
    | nil =>
        rw [hbody] at hc
        cases hc
        decide
    | cons d body =>
        rw [hbody] at hc
        refine head_dropWhile (p := isBlank) line.val c ?_
        change (lineBody line).val.head? = some c
        rw [hbody]
        exact hc
  · intro c hc
    rw [Option.mem_def, List.getLast?_append_of_ne_nil _ (List.cons_ne_nil _ _), List.getLast?_cons] at hc
    cases hlast : (comment.val.rdropWhile isBlank).getLast? with
    | none =>
        rw [hlast] at hc
        cases hc
        decide
    | some d =>
        rw [hlast] at hc
        cases hc
        exact last_rdropWhile comment.val d hlast

/-- What is cut at the end are blanks. -/
theorem lineBody_eq (line : CString) :
    ∃ trail, (lineBody line).val = (tfStrtrim line).val ++ trail ∧ ∀ c ∈ trail, isBlank c = true :=
  ⟨(lineBody line).val.rtakeWhile isBlank, (List.rdropWhile_append_rtakeWhile).symm,
    fun _ hc => List.mem_rtakeWhile_imp hc⟩

theorem num_mem {trail comment : Bytes} : '#'.toUInt8 ∈ trail ++ '#'.toUInt8 :: comment :=
  List.mem_append_right trail List.mem_cons_self

/-! ## Sections -/

/-- A name with a comment is longer. -/
theorem sectionLine_ne {s t : CString} {isSep : UInt8 → Bool} {extra : Bytes} (h : t.val = s.val ++ extra)
    (hmem : '#'.toUInt8 ∈ extra) (hplain : isSep '#'.toUInt8 = false) :
    sectionLine (skipSeps t isSep) ≠ sectionLine (skipSeps s isSep) := by
  intro hsame
  have hval : t.val.drop (t.val.countP isSep) = s.val.drop (s.val.countP isSep) :=
    congrArg Subtype.val (sectionLine_inj.mp hsame)
  have hlen := congrArg List.length hval
  rw [length_drop_countP, length_drop_countP, h, List.countP_append] at hlen
  have hpos : 0 < extra.countP fun c => !isSep c :=
    List.countP_pos_iff.mpr ⟨'#'.toUInt8, hmem, by rw [hplain]; rfl⟩
  omega

theorem comment_group {line : CString} (comment : CString) (h : groupWord <+: (tfStrtrim line).val) :
    parseLine (withComment line comment) ≠ parseLine line := by
  obtain ⟨trail, hbody, -⟩ := lineBody_eq line
  have htrim := trim_withComment line comment
  rw [hbody, List.append_assoc] at htrim
  have hword : groupWord <+: (tfStrtrim (withComment line comment)).val :=
    htrim ▸ h.trans (List.prefix_append _ _)
  rw [parseLine_group (List.isPrefixOf_iff_prefix.mpr h),
    parseLine_group (List.isPrefixOf_iff_prefix.mpr hword)]
  refine @sectionLine_ne _ _ _ (trail ++ '#'.toUInt8 :: comment.val.rdropWhile isBlank) ?_ num_mem
    (by decide)
  change (tfStrtrim (withComment line comment)).val.drop 5 = (tfStrtrim line).val.drop 5 ++ _
  rw [htrim, List.drop_append_of_le_length (show 5 ≤ (tfStrtrim line).val.length from h.length_le)]

/-- The text in front of the first `c`. -/
theorem takeWhile_stop {c : UInt8} {front : Bytes} (h : c ∉ front) (behind : Bytes) :
    (front ++ c :: behind).takeWhile (· ≠ c) = front := by
  have hfront : ∀ d ∈ front, decide (d ≠ c) = true := fun d hd =>
    decide_eq_true fun hsame => h (hsame ▸ hd)
  rw [List.takeWhile_append_of_pos hfront, List.takeWhile_cons_of_neg (by simp), List.append_nil]

/-- A text without `c` in front of others. -/
theorem takeWhile_go {c : UInt8} {front : Bytes} (h : c ∉ front) (behind : Bytes) :
    (front ++ behind).takeWhile (· ≠ c) = front ++ behind.takeWhile (· ≠ c) :=
  List.takeWhile_append_of_pos fun _ hd => decide_eq_true fun hsame => h (hsame ▸ hd)

theorem comment_bracket {line : CString} (comment : CString)
    (h : (tfStrtrim line).val.head? = some '['.toUInt8) :
    parseLine (withComment line comment) = parseLine line ↔ ']'.toUInt8 ∈ (tfStrtrim line).val := by
  obtain ⟨trail, hbody, htrail⟩ := lineBody_eq line
  have htrim := trim_withComment line comment
  rw [hbody, List.append_assoc] at htrim
  have hhead : (tfStrtrim (withComment line comment)).val.head? = some '['.toUInt8 := by
    rw [htrim, List.head?_append, h]
    rfl
  rw [parseLine_bracket h, parseLine_bracket hhead]
  obtain ⟨text, htext⟩ : ∃ text, (tfStrtrim line).val = '['.toUInt8 :: text := by
    cases ht : (tfStrtrim line).val with
    | nil =>
        rw [ht] at h
        cases h
    | cons c text =>
        rw [ht] at h
        cases h
        exact ⟨text, rfl⟩
  have hinner : (upTo ']'.toUInt8 ((tfStrtrim line).drop 1)).val = text.takeWhile (· ≠ ']'.toUInt8) := by
    change ((tfStrtrim line).val.drop 1).takeWhile _ = _
    rw [htext]
    rfl
  have houter : (upTo ']'.toUInt8 ((tfStrtrim (withComment line comment)).drop 1)).val =
      (text ++ (trail ++ '#'.toUInt8 :: comment.val.rdropWhile isBlank)).takeWhile (· ≠ ']'.toUInt8) := by
    change ((tfStrtrim (withComment line comment)).val.drop 1).takeWhile _ = _
    rw [htrim, htext]
    rfl
  by_cases hclosed : ']'.toUInt8 ∈ text
  · have hsame : upTo ']'.toUInt8 ((tfStrtrim (withComment line comment)).drop 1) =
        upTo ']'.toUInt8 ((tfStrtrim line).drop 1) := by
      obtain ⟨front, behind, rfl, hfront⟩ := List.eq_append_cons_of_mem hclosed
      apply Subtype.ext
      rw [hinner, houter, List.append_assoc, List.cons_append, takeWhile_stop hfront,
        takeWhile_stop hfront]
    rw [hsame]
    exact ⟨fun _ => htext ▸ List.mem_cons_of_mem _ hclosed, fun _ => rfl⟩
  · have hopen : ']'.toUInt8 ∉ (tfStrtrim line).val := by
      rw [htext, List.mem_cons, not_or]
      exact ⟨by decide, hclosed⟩
    refine iff_of_false (@sectionLine_ne _ _ _ (trail ++ '#'.toUInt8 ::
      (comment.val.rdropWhile isBlank).takeWhile (· ≠ ']'.toUInt8)) ?_ num_mem (by decide)) hopen
    have htrailOpen : ']'.toUInt8 ∉ trail := fun h => absurd (htrail _ h) (by decide)
    have hall := takeWhile_go hclosed []
    rw [List.append_nil, List.takeWhile_nil, List.append_nil] at hall
    rw [hinner, houter, takeWhile_go hclosed, takeWhile_go htrailOpen, hall,
      List.takeWhile_cons_of_pos (by decide)]

/-! ## Pairs -/

/-- A value goes on to the end. -/
theorem splitPair_append {text body : CString} {trail : Bytes} (h : body.val = text.val ++ trail) :
    splitPair body = splitPair text ↔ text = body ∨ (valuePart body).val = [] := by
  constructor
  · intro hsame
    by_cases hnone : (valuePart body).val = []
    · exact .inr hnone
    · left
      rw [splitPair, if_neg hnone] at hsame
      unfold splitPair at hsame
      split at hsame
      · cases hsame
      · rename_i hsome
        have hvalue : valuePart body = valuePart text :=
          Option.some.inj (KeyVal.mk.inj (Option.some.inj hsame)).2
        have hlonger : (valuePart body).val = (valuePart text).val ++ trail := by
          change (body.val.dropWhile isKeyByte).dropWhile isPairSep =
            (text.val.dropWhile isKeyByte).dropWhile isPairSep ++ trail
          have hrest : (text.val.dropWhile isKeyByte).isEmpty = false := by
            rw [List.isEmpty_eq_false_iff]
            intro hnil
            refine hsome ?_
            change (text.val.dropWhile isKeyByte).dropWhile isPairSep = []
            rw [hnil]
            rfl
          have hleft : ((text.val.dropWhile isKeyByte).dropWhile isPairSep).isEmpty = false :=
            List.isEmpty_eq_false_iff.mpr hsome
          rw [h, List.dropWhile_append, hrest, if_neg Bool.false_ne_true, List.dropWhile_append, hleft,
            if_neg Bool.false_ne_true]
        rw [hvalue, List.self_eq_append_right] at hlonger
        apply Subtype.ext
        rw [h, hlonger, List.append_nil]
  · rintro (rfl | hnone)
    · rfl
    · have hsplit : body.val.takeWhile isKeyByte ++ body.val.dropWhile isKeyByte = body.val :=
        List.takeWhile_append_dropWhile
      have hkeys : ∀ c ∈ body.val.takeWhile isKeyByte, isPairSep c = false := fun c hc => by
        have hkey := List.mem_takeWhile_imp hc
        rwa [isKeyByte, Bool.not_eq_true'] at hkey
      have hseps := valuePart_eq_nil_iff.mp hnone
      have htext : text.val <+: body.val.takeWhile isKeyByte ++ body.val.dropWhile isKeyByte := by
        rw [hsplit, h]
        exact List.prefix_append _ _
      rw [splitPair_none htext hkeys hseps]
      exact if_pos hnone

theorem comment_pair {line : CString} (comment : CString) (hnum : '#'.toUInt8 ∉ line.val)
    (hne : (tfStrtrim line).val ≠ []) (hgroup : ¬ groupWord <+: (tfStrtrim line).val)
    (hbracket : (tfStrtrim line).val.head? ≠ some '['.toUInt8) :
    parseLine (withComment line comment) = parseLine line ↔
      tfStrtrim line = lineBody line ∨ (valuePart (lineBody line)).val = [] := by
  obtain ⟨trail, hbody, htrail⟩ := lineBody_eq line
  have htrim := trim_withComment line comment
  have hbodyNum : '#'.toUInt8 ∉ (lineBody line).val := fun h => hnum ((List.dropWhile_suffix _).subset h)
  have htextNum : '#'.toUInt8 ∉ (tfStrtrim line).val := fun h =>
    hbodyNum (hbody ▸ List.mem_append_left trail h)
  have hhead : (lineBody line).val.head? = (tfStrtrim line).val.head? := by
    rw [hbody, List.head?_append_of_ne_nil _ hne]
  have hword : ¬ groupWord <+: (tfStrtrim (withComment line comment)).val := by
    rw [htrim, hbody, List.append_assoc]
    refine fun h => hgroup (prefix_of_append h fun c hc hmem => ?_)
    have hletters : ∀ d ∈ groupWord, isBlank d = false ∧ d ≠ '#'.toUInt8 :=
      forall_mem_of_all (by decide)
    cases trail with
    | nil =>
        cases hc
        exact (hletters _ hmem).2 rfl
    | cons d trail =>
        obtain rfl : d = c := Option.some.inj hc
        have hblank := htrail d List.mem_cons_self
        rw [(hletters d hmem).1] at hblank
        cases hblank
  have hwith : parseLine (withComment line comment) = splitPair (lineBody line) := by
    refine parseLine_text htrim ?_ hbodyNum (hhead ▸ hbracket) hword fun c hc => ?_
    · rw [hbody]
      exact List.append_ne_nil_of_left_ne_nil hne trail
    · cases hc
      rfl
  have hwithout : parseLine line = splitPair (tfStrtrim line) :=
    parseLine_text (List.append_nil _).symm hne htextNum hbracket hgroup fun c hc => nomatch hc
  rw [hwith, hwithout]
  exact splitPair_append hbody

/-- A comment changes what a line means unless the line is one of those above. -/
theorem comment_iff (line comment : CString) (hnum : '#'.toUInt8 ∉ line.val) :
    parseLine (withComment line comment) = parseLine line ↔ Unharmed line := by
  by_cases hnil : (tfStrtrim line).val = []
  · have hempty : (lineBody line).val = [] := by
      have hblank : ∀ c ∈ (lineBody line).val, isBlank c = true := List.rdropWhile_eq_nil_iff.mp hnil
      have hhead := head_dropWhile (p := isBlank) line.val
      change ∀ c ∈ (lineBody line).val.head?, isBlank c = false at hhead
      cases hbody : (lineBody line).val with
      | nil => rfl
      | cons c body =>
          rw [hbody] at hblank hhead
          have hfirst := hblank c List.mem_cons_self
          rw [hhead c rfl] at hfirst
          cases hfirst
    have htrim := trim_withComment line comment
    rw [hempty, List.nil_append] at htrim
    have hwith : parseLine (withComment line comment) = none :=
      if_pos (.inl (by rw [htrim]; rfl))
    have hwithout : parseLine line = none := if_pos (.inr hnil)
    rw [hwith, hwithout]
    exact ⟨fun _ => .inl hnil, fun _ => rfl⟩
  · unfold Unharmed
    by_cases hgroup : groupWord <+: (tfStrtrim line).val
    · exact iff_of_false (comment_group comment hgroup) fun h => (h.resolve_left hnil).1 hgroup
    · by_cases hbracket : (tfStrtrim line).val.head? = some '['.toUInt8
      · rw [comment_bracket comment hbracket, if_pos hbracket]
        exact ⟨fun h => .inr ⟨hgroup, h⟩, fun h => (h.resolve_left hnil).2⟩
      · rw [comment_pair comment hnum hnil hgroup hbracket, if_neg hbracket, valuePart_eq_nil_iff]
        exact ⟨fun h => .inr ⟨hgroup, h⟩, fun h => (h.resolve_left hnil).2⟩

/-- `[main]`, a blank and the comment `!`. -/
theorem comment_iff_main :
    parseLine (withComment ⟨"[main] ".toList.map Char.toUInt8, by decide⟩ ⟨[33], by decide⟩) =
      parseLine ⟨"[main] ".toList.map Char.toUInt8, by decide⟩ :=
  (comment_iff _ _ (by decide)).mpr (.inr ⟨by decide, by decide⟩)

/-- `port = 80 `: with a comment, the blank belongs to the value. -/
def spacedPair : CString := ⟨"port = 80 ".toList.map Char.toUInt8, by decide⟩

theorem comment_spacedPair : '#'.toUInt8 ∉ spacedPair.val ∧
    parseLine (withComment spacedPair ⟨[33], by decide⟩) ≠ parseLine spacedPair := by
  refine ⟨by decide, ?_⟩
  decide

end Tflib.Conf
