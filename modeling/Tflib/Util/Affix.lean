import Tflib.Util.Compare

/-! # The beginnings and the ends of strings

The four matchers of `tf_util.c` are two loops, each with two ways to look at a
byte. The memory of a string ends with its terminator, so a read outside of it
is `none`, as is an index that leaves `int`.
-/

namespace Tflib.Util

open Tflib.Core

/-- A `char` with `A`..`Z` mapped to `a`..`z`, as an `int`. -/
def lowerChar (signed : Bool) (c : UInt8) : Int :=
  if 'A'.toNat ≤ charValue signed c ∧ charValue signed c ≤ 'Z'.toNat then
    charValue signed c + ('a'.toNat - 'A'.toNat)
  else charValue signed c

/-- The loop of the forward matchers, from `str` and `key` on. -/
def forwardMatch (value : UInt8 → Int) : Bytes → Bytes → Option Bool
  | _, [] => none
  | [], k :: _ => if k = 0 then some true else none
  | s :: str, k :: key =>
      if k = 0 then some true
      else if s = 0 ∨ value s ≠ value k then some false
      else forwardMatch value str key

/-- The loop of the backward matchers, from `i` on. -/
def backwardMatch (value : UInt8 → Int) (str key : Bytes) (slen klen : Int) (i : Nat) : Option Bool :=
  if i ≤ klen then
    if slen < i then some false
    else do
      let s ← str[(slen - i).toNat]?
      let k ← key[(klen - i).toNat]?
      if value s ≠ value k then some false
      else if i + 1 < 2 ^ 31 then backwardMatch value str key slen klen (i + 1)
      else none
  else some true
termination_by (klen + 1 - i).toNat

def tfStrfwm (signed : Bool) (str key : CString) : Option Bool :=
  forwardMatch (charValue signed) str.bytes key.bytes

def tfStrifwm (signed : Bool) (str key : CString) : Option Bool :=
  forwardMatch (lowerChar signed) str.bytes key.bytes

def tfStrbwm (signed : Bool) (str key : CString) : Option Bool :=
  backwardMatch (charValue signed) str.bytes key.bytes str.strlen.toInt key.strlen.toInt 1

def tfStribwm (signed : Bool) (str key : CString) : Option Bool :=
  backwardMatch (lowerChar signed) str.bytes key.bytes str.strlen.toInt key.strlen.toInt 1

/-! ## Bytes -/

theorem lower_eq_zero {c : UInt8} : lower c = 0 ↔ c = 0 := by
  by_cases hupper : 'A'.toUInt8 ≤ c ∧ c ≤ 'Z'.toUInt8
  · obtain ⟨hlower, hlo, -⟩ := lower_toNat hupper
    rw [← UInt8.toNat_inj, ← UInt8.toNat_inj, hlower]
    change c.toNat + 32 = 0 ↔ c.toNat = 0
    omega
  · rw [lower, if_neg hupper]

theorem lowerChar_eq (signed : Bool) (c : UInt8) : lowerChar signed c = charValue signed (lower c) := by
  unfold lowerChar
  by_cases hupper : 'A'.toUInt8 ≤ c ∧ c ≤ 'Z'.toUInt8
  · have hcases := charValue_cases signed c
    have hlowered := charValue_cases signed (lower c)
    obtain ⟨hlower, hlo, hhi⟩ := lower_toNat hupper
    rw [if_pos ((upper_iff signed c).mpr hupper)]
    change charValue signed c + ((97 : Int) - 65) = _
    omega
  · rw [if_neg (mt (upper_iff signed c).mp hupper), lower, if_neg hupper]

/-! ## Forwards -/

/-- The loop tells whether the key is a prefix, when both are seen through `f`. -/
theorem forwardMatch_eq {value : UInt8 → Int} {f : UInt8 → UInt8}
    (hvalue : ∀ c d, value c = value d ↔ f c = f d) {s k : Bytes} (hs : 0 ∉ s) (hk : 0 ∉ k) :
    forwardMatch value (s ++ [0]) (k ++ [0]) = some (decide (k.map f <+: s.map f)) := by
  induction k generalizing s with
  | nil =>
      cases s with
      | nil => simp [forwardMatch]
      | cons c s => simp [forwardMatch]
  | cons d k ih =>
      have hd : d ≠ 0 := (List.ne_of_not_mem_cons hk).symm
      have hk' : 0 ∉ k := List.not_mem_of_not_mem_cons hk
      cases s with
      | nil => simp [forwardMatch, hd]
      | cons c s =>
          have hc : c ≠ 0 := (List.ne_of_not_mem_cons hs).symm
          have hs' : 0 ∉ s := List.not_mem_of_not_mem_cons hs
          rw [List.cons_append, List.cons_append, forwardMatch, if_neg hd, List.map_cons, List.map_cons]
          by_cases hsame : f c = f d
          · have hpass : ¬ (c = 0 ∨ value c ≠ value d) :=
              not_or.mpr ⟨hc, not_not.mpr ((hvalue c d).mpr hsame)⟩
            rw [if_neg hpass, ih hs' hk', hsame]
            simp only [List.cons_prefix_cons, true_and]
          · have hstop : c = 0 ∨ value c ≠ value d := .inr (mt (hvalue c d).mp hsame)
            rw [if_pos hstop]
            simp [List.cons_prefix_cons, Ne.symm hsame]

/-! ## Backwards -/

/-- What the `int` length of a string covers. -/
def intPart (s : CString) : Bytes := s.val.take s.strlen.toInt.toNat

theorem strlen_toNat_le (s : CString) : s.strlen.toInt.toNat ≤ s.val.length := by
  have hint : s.strlen.toInt = Int.bmod s.val.length (2 ^ 32) := by
    change (BitVec.ofNat 32 s.val.length).toInt = _
    rw [BitVec.toInt_ofNat']
  rw [hint, Int.bmod]
  omega

theorem intPart_length (s : CString) : (intPart s).length = s.strlen.toInt.toNat := by
  rw [intPart, List.length_take]
  exact Nat.min_eq_left (strlen_toNat_le s)

theorem intPart_of_lt {s : CString} (h : s.val.length < 2 ^ 31) : intPart s = s.val := by
  rw [intPart, CString.strlen, toInt_ofNat h, Int.toNat_natCast, List.take_length]

/-- The byte that the loop reads for `i = j + 1`. -/
theorem bytes_back (s : CString) {j : Nat} (hj : j < (intPart s).length) :
    s.bytes[(s.strlen.toInt - (j + 1 : Nat)).toNat]? = (intPart s).reverse[j]? := by
  have hlength := intPart_length s
  have hle := strlen_toNat_le s
  have hin : j < s.strlen.toInt.toNat := hlength ▸ hj
  have hplace : (s.strlen.toInt - (j + 1 : Nat)).toNat = s.strlen.toInt.toNat - 1 - j := by omega
  rw [List.getElem?_reverse hj, hlength, hplace, intPart, List.getElem?_take_of_lt (by omega),
    CString.bytes, List.getElem?_append_left (by omega)]

theorem drop_reverse_nil (bs : Bytes) (j : Nat) (h : bs.length ≤ j) : bs.reverse.drop j = [] :=
  List.drop_eq_nil_of_le (by rwa [List.length_reverse])

/-- The loop compares the parts from their ends on; the answer is lost where the key takes all of `int`. -/
theorem backwardMatch_from {value : UInt8 → Int} {f : UInt8 → UInt8}
    (hvalue : ∀ c d, value c = value d ↔ f c = f d) (s k : CString) {j : Nat}
    (hj : j ≤ (intPart k).length) (hint : j + 1 < 2 ^ 31) :
    backwardMatch value s.bytes k.bytes s.strlen.toInt k.strlen.toInt (j + 1) =
      if ((intPart k).reverse.drop j).map f <+: ((intPart s).reverse.drop j).map f then
        if (intPart k).length + 1 < 2 ^ 31 then some true else none
      else some false := by
  have hk := intPart_length k
  have hs := intPart_length s
  have hmax := k.strlen.toInt_lt
  obtain ⟨m, hm⟩ := Nat.exists_eq_add_of_le hj
  induction m generalizing j with
  | zero =>
      have hdone : ¬ ((j + 1 : Nat) : Int) ≤ k.strlen.toInt := by omega
      have hnil := drop_reverse_nil (intPart k) j (by omega)
      rw [backwardMatch, if_neg hdone, hnil, if_pos (by simp), if_pos (by omega)]
  | succ m ih =>
      have hmore : ((j + 1 : Nat) : Int) ≤ k.strlen.toInt := by omega
      have hjk : j < (intPart k).reverse.length := by
        rw [List.length_reverse]
        omega
      rw [backwardMatch, if_pos hmore, List.drop_eq_getElem_cons hjk]
      by_cases hshort : s.strlen.toInt < (j + 1 : Nat)
      · have hnil := drop_reverse_nil (intPart s) j (by omega)
        rw [if_pos hshort, hnil, if_neg (by simp)]
      · have hjs : j < (intPart s).reverse.length := by
          rw [List.length_reverse]
          omega
        rw [if_neg hshort, bytes_back s (by omega), bytes_back k (by omega),
          List.getElem?_eq_getElem hjs, List.getElem?_eq_getElem hjk, List.drop_eq_getElem_cons hjs,
          List.map_cons, List.map_cons, Option.bind_eq_bind, Option.bind_some, Option.bind_some]
        generalize (intPart s).reverse[j] = c
        generalize (intPart k).reverse[j] = d
        by_cases hsame : f c = f d
        · rw [if_neg (not_not.mpr ((hvalue c d).mpr hsame)), hsame]
          simp only [List.cons_prefix_cons, true_and]
          by_cases hnext : j + 1 + 1 < 2 ^ 31
          · rw [if_pos hnext, ih (by omega) hnext (by omega)]
          · -- the key has as many bytes as `int` can count, and all of them are the same
            have hnil := drop_reverse_nil (intPart k) (j + 1) (by omega)
            rw [if_neg hnext, hnil, if_pos (by simp), if_neg (by omega)]
        · rw [if_pos (mt (hvalue c d).mp hsame), if_neg]
          simp [List.cons_prefix_cons, Ne.symm hsame]

theorem backwardMatch_eq {value : UInt8 → Int} {f : UInt8 → UInt8}
    (hvalue : ∀ c d, value c = value d ↔ f c = f d) (s k : CString) :
    backwardMatch value s.bytes k.bytes s.strlen.toInt k.strlen.toInt 1 =
      if (intPart k).map f <:+ (intPart s).map f then
        if (intPart k).length + 1 < 2 ^ 31 then some true else none
      else some false := by
  have h := backwardMatch_from hvalue s k (Nat.zero_le _) (by decide)
  simpa only [List.drop_zero, List.map_reverse, List.reverse_prefix] using h

/-! ## Agreement -/

def reversed (s : CString) : CString := ⟨s.val.reverse, fun h => s.2 (List.mem_reverse.mp h)⟩

/-- The string with `A`..`Z` mapped to `a`..`z`. -/
def lowered (s : CString) : CString :=
  ⟨s.val.map lower, fun h => by
    obtain ⟨c, hc, hzero⟩ := List.mem_map.mp h
    exact s.2 (lower_eq_zero.mp hzero ▸ hc)⟩

/-- What the four matchers are to have in common on a string and a key; none of them reads outside of the
two. -/
structure Agree (signed : Bool) (s k : CString) : Prop where
  prefixes : tfStrfwm signed s k = some true ↔ ∃ rest, s.val = k.val ++ rest
  suffixes : tfStrbwm signed s k = tfStrfwm signed (reversed s) (reversed k)
  foldedPrefixes : tfStrifwm signed s k = tfStrfwm signed (lowered s) (lowered k)
  foldedSuffixes : tfStribwm signed s k = tfStrbwm signed (lowered s) (lowered k)
  inside : none ∉ [tfStrfwm signed s k, tfStrifwm signed s k, tfStrbwm signed s k, tfStribwm signed s k]

theorem tfStrfwm_eq (signed : Bool) (s k : CString) :
    tfStrfwm signed s k = some (decide (k.val <+: s.val)) := by
  have h := @forwardMatch_eq _ id (fun c d => charValue_inj signed) _ _ s.2 k.2
  rwa [List.map_id, List.map_id] at h

theorem tfStrbwm_eq (signed : Bool) (s k : CString) :
    tfStrbwm signed s k =
      if intPart k <:+ intPart s then if (intPart k).length + 1 < 2 ^ 31 then some true else none
      else some false := by
  have h := @backwardMatch_eq _ id (fun c d => charValue_inj signed) s k
  rwa [List.map_id, List.map_id] at h

theorem lowerChar_inj (signed : Bool) (c d : UInt8) :
    lowerChar signed c = lowerChar signed d ↔ lower c = lower d := by
  rw [lowerChar_eq, lowerChar_eq, charValue_inj]

/-- The matchers without the difference of cases are the others on folded strings. -/
theorem tfStrifwm_eq (signed : Bool) (s k : CString) :
    tfStrifwm signed s k = tfStrfwm signed (lowered s) (lowered k) := by
  rw [tfStrfwm_eq, tfStrifwm, CString.bytes, CString.bytes,
    forwardMatch_eq (lowerChar_inj signed) s.2 k.2]
  rfl

theorem intPart_lowered (s : CString) : intPart (lowered s) = (intPart s).map lower := by
  simp only [intPart, lowered, CString.strlen, List.length_map, List.map_take]

theorem tfStribwm_eq (signed : Bool) (s k : CString) :
    tfStribwm signed s k = tfStrbwm signed (lowered s) (lowered k) := by
  rw [tfStrbwm_eq, intPart_lowered, intPart_lowered, List.length_map]
  exact backwardMatch_eq (lowerChar_inj signed) s k

/-- The loop stays within `int`, unless the parts are the same up to the cases and the key takes all of `int`. -/
theorem tfStribwm_inside (signed : Bool) (s k : CString) : tfStribwm signed s k ≠ none ↔
    ((intPart k).map lower <:+ (intPart s).map lower → (intPart k).length + 1 < 2 ^ 31) := by
  rw [tfStribwm, backwardMatch_eq (lowerChar_inj signed)]
  by_cases hparts : (intPart k).map lower <:+ (intPart s).map lower
  · rw [if_pos hparts, forall_prop_of_true hparts]
    split
    · rename_i hlength
      exact iff_of_true (Option.some_ne_none _) hlength
    · rename_i hlength
      exact iff_of_false (fun h => h rfl) hlength
  · rw [if_neg hparts]
    exact iff_of_true (Option.some_ne_none _) fun h => absurd h hparts

/-- The matchers see the `int` parts, and they agree where these end alike as the strings do. -/
theorem agree_iff_parts (signed : Bool) (s k : CString) :
    Agree signed s k ↔ (intPart k <:+ intPart s ↔ k.val <:+ s.val) ∧
      ((intPart k).map lower <:+ (intPart s).map lower → (intPart k).length + 1 < 2 ^ 31) := by
  have hforward : tfStrfwm signed (reversed s) (reversed k) = some (decide (k.val <:+ s.val)) := by
    rw [tfStrfwm_eq]
    exact congrArg some (decide_eq_decide.mpr List.reverse_prefix)
  constructor
  · intro h
    have hinside : tfStribwm signed s k ≠ none := fun hnone => h.inside (by simp [hnone])
    refine ⟨?_, (tfStribwm_inside signed s k).mp hinside⟩
    have hsuffixes := h.suffixes
    rw [hforward, tfStrbwm_eq] at hsuffixes
    split at hsuffixes
    · rename_i hparts
      split at hsuffixes
      · exact iff_of_true hparts (of_decide_eq_true (Option.some.inj hsuffixes).symm)
      · cases hsuffixes
    · rename_i hparts
      exact iff_of_false hparts (of_decide_eq_false (Option.some.inj hsuffixes).symm)
  · rintro ⟨hiff, hlength⟩
    have hsuffixes : tfStrbwm signed s k = some (decide (k.val <:+ s.val)) := by
      rw [tfStrbwm_eq]
      by_cases hparts : intPart k <:+ intPart s
      · rw [if_pos hparts, if_pos (hlength (hparts.map lower)), decide_eq_true (hiff.mp hparts)]
      · rw [if_neg hparts, decide_eq_false (mt hiff.mpr hparts)]
    have hinside := (tfStribwm_inside signed s k).mpr hlength
    refine ⟨?_, hsuffixes.trans hforward.symm, tfStrifwm_eq signed s k, tfStribwm_eq signed s k, ?_⟩
    · rw [tfStrfwm_eq, Option.some_inj, decide_eq_true_iff]
      exact ⟨fun ⟨rest, hrest⟩ => ⟨rest, hrest.symm⟩, fun ⟨rest, hrest⟩ => ⟨rest, hrest.symm⟩⟩
    · rw [tfStrifwm_eq, tfStrfwm_eq, tfStrfwm_eq, hsuffixes]
      simpa using hinside.symm

/-- The lengths are those of an `int`, and the loop over the key can end; or what an `int` covers of longer
strings happens to end alike as the strings do. -/
def AffixFits (s k : CString) : Prop :=
  (s.val.length < 2 ^ 31 ∧ k.val.length + 1 < 2 ^ 31) ∨
    ((intPart k <:+ intPart s ↔ k.val <:+ s.val) ∧
      ((intPart k).map lower <:+ (intPart s).map lower → (intPart k).length + 1 < 2 ^ 31))

theorem agree_iff (signed : Bool) (s k : CString) : Agree signed s k ↔ AffixFits s k := by
  rw [agree_iff_parts]
  refine ⟨.inr, fun h => ?_⟩
  rcases h with ⟨hs, hk⟩ | hparts
  · rw [intPart_of_lt hs, intPart_of_lt (Nat.lt_of_succ_lt hk)]
    exact ⟨Iff.rfl, fun _ => hk⟩
  · exact hparts

theorem intPart_of_ge {s : CString} (hlo : 2 ^ 31 ≤ s.val.length) (hhi : s.val.length < 2 ^ 32) :
    intPart s = [] := by
  have hneg := neg_ofNat hlo hhi
  rw [Int32.le_iff_toInt_le, Int32.toInt_zero] at hneg
  have hzero : s.strlen.toInt.toNat = 0 := Int.toNat_of_nonpos (by rw [CString.strlen]; omega)
  rw [intPart, hzero, List.take_zero]

/-- A key of `2 ^ 31` letters ends the empty string, for its length is negative as an `int`. -/
theorem agree_fails_long : ¬ ∀ (signed : Bool) (s k : CString), Agree signed s k := by
  intro h
  have hletters : 0 ∉ List.replicate (2 ^ 31) 'a'.toUInt8 := fun h0 =>
    absurd (List.eq_of_mem_replicate h0) (by decide)
  have hlength : (List.replicate (2 ^ 31) 'a'.toUInt8).length = 2 ^ 31 := List.length_replicate
  generalize List.replicate (2 ^ 31) 'a'.toUInt8 = key at hletters hlength
  have hpart : intPart ⟨key, hletters⟩ = [] :=
    intPart_of_ge (Nat.le_of_eq hlength.symm) (by rw [hlength]; decide)
  obtain ⟨hiff, -⟩ := (agree_iff_parts false ⟨[], List.not_mem_nil⟩ ⟨key, hletters⟩).mp (h _ _ _)
  rw [hpart] at hiff
  have hnil : key = [] := List.suffix_nil.mp (hiff.mp List.nil_suffix)
  rw [hnil] at hlength
  exact absurd hlength (by decide)

end Tflib.Util
